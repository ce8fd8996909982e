import Incron.Instance.Lock

/-! Lock files that outlive their processes (appinst.cpp): the next process that runs `Lock` removes
the file of a dead one, and nobody ever removes an empty one. -/
namespace Incron.AppInstance

/-- The file at the lock path holds the pid of the process. -/
def Names (s : LockState) (p : Pid) : Prop := ∃ ino, s.path = some ino ∧ s.content ino = some p

section
variable {s s' : LockState} {p q : Pid} {ino : ℕ} {a : Action}

/-! ## The system calls of `Lock` -/

theorem syscall_create {i : ℕ} (hpc : s.pc p = .create i) (hpath : s.path = none) :
    s.syscall p = some { s.goto p (.write s.next) with
      path := some s.next
      content := Function.update s.content s.next none
      next := s.next + 1 } := by
  simp only [LockState.syscall, hpc, hpath]

theorem syscall_exists {i : ℕ} (hpc : s.pc p = .create i) (hpath : s.path = some ino) :
    s.syscall p = some (s.goto p (.fopen i)) := by
  simp only [LockState.syscall, hpc, hpath]

theorem syscall_write (hpc : s.pc p = .write ino) :
    s.syscall p = some { s.goto p (.close ino) with
      content := Function.update s.content ino (some p) } := by
  simp only [LockState.syscall, hpc]

theorem syscall_close (hpc : s.pc p = .close ino) :
    s.syscall p = some (s.goto p (.locked ino)) := by
  simp only [LockState.syscall, hpc]

theorem syscall_fopen {i : ℕ} (hpc : s.pc p = .fopen i) (hpath : s.path = some ino) :
    s.syscall p = some (s.goto p (.fscanf ino i)) := by
  simp only [LockState.syscall, hpc, hpath]

theorem syscall_fscanf {i : ℕ} {d : Pid} (hpc : s.pc p = .fscanf ino i)
    (hcontent : s.content ino = some d) : s.syscall p = some (s.goto p (.kill d ino i)) := by
  simp only [LockState.syscall, hpc, hcontent]

theorem syscall_fscanf_empty {i : ℕ} (hpc : s.pc p = .fscanf ino i)
    (hcontent : s.content ino = none) : s.syscall p = some (s.goto p .idle) := by
  simp only [LockState.syscall, hpc, hcontent]

theorem syscall_kill {i : ℕ} {d : Pid} (hpc : s.pc p = .kill d ino i) (hdead : s.alive d = false) :
    s.syscall p = some (s.goto p (.unlink ino i)) := by
  simp [LockState.syscall, hpc, hdead]

theorem syscall_kill_living {i : ℕ} {d : Pid} (hpc : s.pc p = .kill d ino i)
    (halive : s.alive d = true) : s.syscall p = some (s.goto p .idle) := by
  simp [LockState.syscall, hpc, halive]

theorem syscall_unlink {i : ℕ} (hpc : s.pc p = .unlink ino i) :
    s.syscall p = some { s.retry p i with path := none } := by
  simp only [LockState.syscall, hpc]

/-! ## What a step leaves alone -/

theorem pc_goto (pc : PC) : (s.goto p pc).pc p = pc := Function.update_self ..

theorem pc_goto_of_ne (hq : q ≠ p) (pc : PC) : (s.goto p pc).pc q = s.pc q := by
  simp [LockState.goto, hq]

theorem pc_retry_of_ne (hq : q ≠ p) (i : ℕ) : (s.retry p i).pc q = s.pc q := by
  cases i <;> exact pc_goto_of_ne hq _

theorem alive_retry (i : ℕ) : (s.retry p i).alive = s.alive := by cases i <;> rfl

theorem step_other (hstep : step s a = some s') (hq : q ≠ a.pid) :
    s'.pc q = s.pc q ∧ s'.alive q = s.alive q := by
  cases (step_effect hstep).2 with
  | move pc _ _ => exact ⟨pc_goto_of_ne hq pc, rfl⟩
  | create _ => exact ⟨pc_goto_of_ne hq _, rfl⟩
  | write n _ => exact ⟨pc_goto_of_ne hq _, rfl⟩
  | unlink p n i ha _ =>
    subst ha
    exact ⟨pc_retry_of_ne hq i, by rw [alive_retry]⟩
  | unlock n _ => exact ⟨pc_goto_of_ne hq _, rfl⟩
  | crash => exact ⟨rfl, Function.update_of_ne hq _ _⟩

/-- Only the process itself writes its pid. -/
theorem Names.of_step (h : Names s' q) (hstep : step s a = some s') :
    Names s q ∨ a.pid = q ∧ ∃ ino, s.pc q = .write ino := by
  obtain ⟨n, hpath, hcontent⟩ := h
  cases (step_effect hstep).2 with
  | move pc _ _ => exact .inl ⟨n, hpath, hcontent⟩
  | create _ =>
    obtain rfl := Option.some.inj hpath
    simp only [Function.update_self] at hcontent
    exact absurd hcontent (by simp)
  | write m hpc =>
    by_cases hn : n = m
    · subst hn
      simp only [Function.update_self, Option.some.injEq] at hcontent
      exact .inr ⟨hcontent, n, by rw [← hcontent, hpc]⟩
    · simp only [Function.update_of_ne hn] at hcontent
      exact .inl ⟨n, hpath, hcontent⟩
  | unlink p m i _ _ => exact absurd hpath (by simp)
  | unlock m _ => exact absurd hpath (by simp)
  | crash => exact .inl ⟨n, hpath, hcontent⟩

theorem run_other {as : List Action} (hpids : ∀ b ∈ as, b.pid = p)
    (hrun : Transition.run step s as = some s') (hq : q ≠ p) :
    s'.pc q = s.pc q ∧ s'.alive q = s.alive q ∧ (Names s' q → Names s q) := by
  induction as generalizing s with
  | nil =>
    obtain rfl := Option.some.inj hrun
    exact ⟨rfl, rfl, id⟩
  | cons b as ih =>
    obtain ⟨s₁, hs₁, hrest⟩ := Transition.run_cons_eq_some.mp hrun
    have hb : b.pid = p := hpids b (by simp)
    obtain ⟨hpc, halive⟩ := step_other hs₁ (by rw [hb]; exact hq)
    obtain ⟨hpc', halive', hnames⟩ := ih (fun c hc => hpids c (by simp [hc])) hrest
    refine ⟨hpc'.trans hpc, halive'.trans halive, fun hname => ?_⟩
    refine ((hnames hname).of_step hs₁).resolve_right fun hwrites => ?_
    exact hq (by rw [← hwrites.1, hb])

theorem step_crash (hstep : step s (.crash p) = some s') :
    s'.alive p = false ∧ (Names s' q → Names s q) := by
  unfold step at hstep
  rw [Option.ite_none_right_eq_some] at hstep
  obtain ⟨-, hstep⟩ := hstep
  obtain rfl := Option.some.inj hstep
  exact ⟨Function.update_self .., id⟩

theorem alive_syscall (hstep : s.syscall p = some s') : s'.alive = s.alive := by
  unfold LockState.syscall at hstep
  repeat' split at hstep
  all_goals first
    | cases hstep; rfl
    | cases hstep; exact alive_retry _
    | cases hstep

/-- `Lock` kills nobody. -/
theorem alive_of_step (hstep : step s a = some s') (ha : a ≠ .crash a.pid) :
    s'.alive = s.alive := by
  unfold step at hstep
  rw [Option.ite_none_right_eq_some] at hstep
  obtain ⟨-, hstep⟩ := hstep
  cases a with
  | lock p =>
    simp only [Option.ite_none_right_eq_some, Option.some.injEq] at hstep
    obtain ⟨-, rfl⟩ := hstep
    rfl
  | syscall p => exact alive_syscall hstep
  | error p =>
    simp only at hstep
    split at hstep
    · exact absurd hstep (by simp)
    · exact absurd hstep (by simp)
    · obtain rfl := Option.some.inj hstep
      rfl
  | unlock p =>
    simp only at hstep
    split at hstep
    · obtain rfl := Option.some.inj hstep
      rfl
    · exact absurd hstep (by simp)
  | crash p => exact absurd rfl ha

theorem path_unlock (hstep : step s (.unlock p) = some s') : s'.path = none := by
  unfold step at hstep
  rw [Option.ite_none_right_eq_some] at hstep
  obtain ⟨-, hstep⟩ := hstep
  simp only at hstep
  split at hstep
  · obtain rfl := Option.some.inj hstep
    rfl
  · exact absurd hstep (by simp)

/-! ## An empty file -/

/-- A process in `Lock` that knows of no other file than this one, and has not read it. -/
def PC.Knows (ino : ℕ) : PC → Prop
  | .idle | .create _ | .fopen _ => True
  | .fscanf n _ => n = ino
  | _ => False

/-- The process that has created the lock file is gone before its pid was in the file, and no
other process holds the lock or is about to remove a file. -/
structure Deserted (s : LockState) (ino : ℕ) : Prop where
  path : s.path = some ino
  content : s.content ino = none
  knows : ∀ p, s.alive p = true → (s.pc p).Knows ino

theorem Deserted.goto (h : Deserted s ino) {pc : PC} (hpc : pc.Knows ino) :
    Deserted (s.goto p pc) ino := by
  refine ⟨h.path, h.content, fun q hq => ?_⟩
  by_cases hqp : q = p
  · subst hqp
    simpa [LockState.goto] using hpc
  · rw [pc_goto_of_ne hqp]
    exact h.knows q hq

theorem Deserted.syscall (h : Deserted s ino) (hp : s.alive p = true)
    (hstep : s.syscall p = some s') : Deserted s' ino := by
  have hknows := h.knows p hp
  cases hpc : s.pc p with
  | idle => simp [LockState.syscall, hpc] at hstep
  | create i =>
    rw [syscall_exists hpc h.path] at hstep
    obtain rfl := Option.some.inj hstep
    exact h.goto trivial
  | fopen i =>
    rw [syscall_fopen hpc h.path] at hstep
    obtain rfl := Option.some.inj hstep
    exact h.goto rfl
  | fscanf n i =>
    -- the file is empty, so that `Lock` throws
    rw [hpc] at hknows
    obtain rfl : n = ino := hknows
    rw [syscall_fscanf_empty hpc h.content] at hstep
    obtain rfl := Option.some.inj hstep
    exact h.goto trivial
  | _ =>
    rw [hpc] at hknows
    exact absurd hknows id

theorem Deserted.step (h : Deserted s ino) (hstep : step s a = some s') : Deserted s' ino := by
  have hp := (step_effect hstep).1
  have hknows := h.knows a.pid hp
  unfold AppInstance.step at hstep
  rw [if_pos hp] at hstep
  cases a with
  | lock p =>
    simp only [Option.ite_none_right_eq_some, Option.some.injEq] at hstep
    obtain ⟨-, rfl⟩ := hstep
    exact h.goto trivial
  | syscall p => exact h.syscall hp hstep
  | error p =>
    simp only at hstep
    split at hstep
    · exact absurd hstep (by simp)
    · exact absurd hstep (by simp)
    · obtain rfl := Option.some.inj hstep
      exact h.goto trivial
  | unlock p =>
    simp only at hstep
    split at hstep
    · next n hpc =>
      rw [Action.pid, hpc] at hknows
      exact absurd hknows id
    · exact absurd hstep (by simp)
  | crash p =>
    obtain rfl := Option.some.inj hstep
    refine ⟨h.path, h.content, fun q hq => h.knows q ?_⟩
    by_cases hqp : q = p
    · subst hqp
      simp at hq
    · simpa [hqp] using hq

theorem Deserted.not_locked (h : Deserted s ino) (hp : s.alive p = true) :
    (s.pc p).isLocked = false := by
  have hknows := h.knows p hp
  cases hpc : s.pc p with
  | locked n =>
    rw [hpc] at hknows
    exact absurd hknows id
  | _ => rfl

/-- The creator dies, or its attempt to write fails, before its pid is in the file. -/
theorem FilesInvariant.deserted (h : FilesInvariant s) (hpc : s.pc p = .write ino)
    (hother : ∀ q, q ≠ p → s.alive q = true → (s.pc q).Knows ino)
    (ha : a = .crash p ∨ a = .error p) (hstep : AppInstance.step s a = some s') :
    Deserted s' ino := by
  have hpid : a.pid = p := by rcases ha with rfl | rfl <;> rfl
  have hp : s.alive p = true := by
    rw [← hpid]
    exact (step_effect hstep).1
  have hpath : s.path = some ino := h.at_path p ino ⟨hp, by rw [hpc]; exact (rfl : ino = ino)⟩
  have hempty : s.content ino = none := by
    have hconsistent := h.consistent p hp
    rw [hpc] at hconsistent
    exact hconsistent
  have hsame : s'.path = s.path ∧ s'.content = s.content ∧
      (s'.alive p = true → s'.pc p = .idle) := by
    unfold AppInstance.step at hstep
    rw [hpid, if_pos hp] at hstep
    rcases ha with rfl | rfl
    · obtain rfl := Option.some.inj hstep
      exact ⟨rfl, rfl, fun hdead => absurd hdead (by simp)⟩
    · simp only [hpc] at hstep
      obtain rfl := Option.some.inj hstep
      exact ⟨rfl, rfl, fun _ => Function.update_self ..⟩
  refine ⟨hsame.1.trans hpath, ?_, fun q hq => ?_⟩
  · rw [hsame.2.1]
    exact hempty
  · by_cases hqp : q = p
    · subst hqp
      rw [hsame.2.2 hq]
      trivial
    · obtain ⟨hpc', halive'⟩ := step_other hstep (by rw [hpid]; exact hqp)
      rw [hpc']
      exact hother q hqp (halive' ▸ hq)

/-- When a process dies or fails between the creation of the lock file and the writing of its pid,
in a run in which no lock file has been replaced before its removal, and no other process knows of
another lock file, then no process ever gets the lock again, whatever they do, and the empty file
stays. -/
theorem failed_write_locks_out {s₀ s₁ s₂ : LockState} {as bs : List Action} (hs₀ : Initial s₀)
    (hrun : Transition.run AppInstance.step s₀ as = some s)
    (hnot : Transition.Meets AppInstance.step NotReplaced s₀ as) (hpc : s.pc p = .write ino)
    (hother : ∀ q, q ≠ p → s.alive q = true → (s.pc q).Knows ino)
    (ha : a = .crash p ∨ a = .error p) (hstep : AppInstance.step s a = some s₁)
    (hrun₂ : Transition.run AppInstance.step s₁ bs = some s₂) :
    s₂.path = some ino ∧ s₂.content ino = none ∧
      ∀ q, s₂.alive q = true → (s₂.pc q).isLocked = false := by
  have hfiles : FilesInvariant s := Transition.run_invariant_of_meets
    (fun _ _ _ h hP hs => h.step hP hs) hs₀.filesInvariant hnot hrun
  have h₂ : Deserted s₂ ino := Transition.run_invariant (I := fun s => Deserted s ino)
    (fun _ _ _ h hs => h.step hs) (hfiles.deserted hpc hother ha hstep) hrun₂
  exact ⟨h₂.path, h₂.content, fun q hq => h₂.not_locked hq⟩

def retrying : List Action := [.lock 2, .syscall 2, .syscall 2, .syscall 2]

/-- Process 1 dies before it has written its pid. -/
theorem failed_write_locks_out_crash : ∃ s s₁ s₂,
    Transition.run step unlocked [.lock 1, .syscall 1] = some s ∧
    AppInstance.step s (.crash 1) = some s₁ ∧ Transition.run step s₁ retrying = some s₂ ∧
    s₂.path = some 0 ∧ s₂.content 0 = none ∧
      ∀ q, s₂.alive q = true → (s₂.pc q).isLocked = false := by
  have hnot : Transition.Meets step NotReplaced unlocked [.lock 1, .syscall 1] := by decide
  refine ⟨_, _, _, rfl, rfl, rfl, failed_write_locks_out (p := 1) (a := .crash 1) initial_unlocked
    rfl hnot rfl (fun q hq _ => ?_) (.inl rfl) rfl
    (show Transition.run step _ retrying = _ from rfl)⟩
  simp [LockState.goto, unlocked, Function.update_of_ne hq, PC.Knows]

/-! ## A process that is left alone -/

/-- The process makes some calls of `Lock`, and nobody else does anything. -/
def Alone (p : Pid) (s s' : LockState) : Prop :=
  ∃ n, Transition.run step s (List.replicate n (.syscall p)) = some s'

def Locks (p : Pid) (s : LockState) : Prop := ∃ s', Alone p s s' ∧ (s'.pc p).isLocked = true

theorem Locks.head {s₁ : LockState} (hp : s.alive p = true) (hstep : s.syscall p = some s₁)
    (h : Locks p s₁) : Locks p s := by
  obtain ⟨s', ⟨n, hn⟩, hlocked⟩ := h
  have hfirst : step s (.syscall p) = some s₁ := by
    unfold step
    rw [show (Action.syscall p).pid = p from rfl, if_pos hp]
    exact hstep
  exact ⟨s', ⟨n + 1, Transition.run_cons_eq_some.mpr ⟨s₁, hfirst, hn⟩⟩, hlocked⟩

theorem locks_of_absent {i : ℕ} (hp : s.alive p = true) (hpc : s.pc p = .create i)
    (hpath : s.path = none) : Locks p s := by
  refine .head hp (syscall_create hpc hpath) (.head hp (syscall_write (pc_goto _))
    (.head hp (syscall_close (pc_goto _)) ⟨_, ⟨0, rfl⟩, ?_⟩))
  rw [pc_goto]
  rfl

theorem locks_of_unlink {i : ℕ} (hp : s.alive p = true) (hpc : s.pc p = .unlink ino (i + 1)) :
    Locks p s :=
  .head hp (syscall_unlink hpc)
    (locks_of_absent (s := { s.retry p (i + 1) with path := none }) hp (pc_goto _) rfl)

theorem locks_of_stale {i : ℕ} {d : Pid} (hp : s.alive p = true)
    (hpc : s.pc p = .create (i + 1)) (hpath : s.path = some ino) (hcontent : s.content ino = some d)
    (hdead : s.alive d = false) : Locks p s :=
  .head hp (syscall_exists hpc hpath) (.head hp (syscall_fopen (pc_goto _) hpath)
    (.head hp (syscall_fscanf (pc_goto _) hcontent)
      (.head hp (syscall_kill (pc_goto _) hdead) (locks_of_unlink hp (pc_goto _)))))

/-- What a process in `Lock` has found out about the file at the lock path. -/
def PC.Reads (content : Option Pid) (ino : ℕ) : PC → Prop
  | .idle | .create _ | .fopen _ => True
  | .fscanf n _ => n = ino
  | .kill d n _ => n = ino ∧ content = some d
  | _ => False

/-- The lock file is neither absent nor that of a dead process, and the process knows of no other
one. -/
structure Refused (p : Pid) (ino : ℕ) (s : LockState) : Prop where
  path : s.path = some ino
  living : ∀ d, s.content ino = some d → s.alive d = true
  reads : (s.pc p).Reads (s.content ino) ino

theorem Refused.goto (h : Refused p ino s) {pc : PC} (hpc : pc.Reads (s.content ino) ino) :
    Refused p ino (s.goto p pc) := by
  refine ⟨h.path, h.living, ?_⟩
  rw [pc_goto]
  exact hpc

theorem Refused.syscall (h : Refused p ino s) (hstep : s.syscall p = some s') :
    Refused p ino s' := by
  have hreads := h.reads
  cases hpc : s.pc p with
  | idle => simp [LockState.syscall, hpc] at hstep
  | create i =>
    rw [syscall_exists hpc h.path] at hstep
    obtain rfl := Option.some.inj hstep
    exact h.goto trivial
  | fopen i =>
    rw [syscall_fopen hpc h.path] at hstep
    obtain rfl := Option.some.inj hstep
    exact h.goto rfl
  | fscanf n i =>
    rw [hpc] at hreads
    obtain rfl : n = ino := hreads
    cases hcontent : s.content n with
    | none =>
      rw [syscall_fscanf_empty hpc hcontent] at hstep
      obtain rfl := Option.some.inj hstep
      exact h.goto trivial
    | some d =>
      rw [syscall_fscanf hpc hcontent] at hstep
      obtain rfl := Option.some.inj hstep
      exact h.goto ⟨rfl, hcontent⟩
  | kill d n i =>
    rw [hpc] at hreads
    rw [syscall_kill_living hpc (h.living d hreads.2)] at hstep
    obtain rfl := Option.some.inj hstep
    exact h.goto trivial
  | _ =>
    rw [hpc] at hreads
    exact absurd hreads id

/-- The file that the process has created is at the lock path, and holds its pid once that has been
written. -/
def Installed (p : Pid) (s : LockState) : Prop :=
  ∀ n, (s.pc p).owns n → s.path = some n ∧ (s.pc p = .write n ∨ s.content n = some p)

theorem installed_of_not_owns (h : ∀ n, ¬ (s.pc p).owns n) : Installed p s := fun n ho =>
  absurd ho (h n)

theorem Installed.syscall (h : Installed p s) (hstep : s.syscall p = some s') :
    Installed p s' := by
  have hretry : ∀ i n, ¬ ((s.retry p i).pc p).owns n := by
    intro i n ho
    cases i <;> simp [LockState.retry, LockState.goto, PC.owns] at ho
  cases hpc : s.pc p with
  | idle | locked n => simp [LockState.syscall, hpc] at hstep
  | create i =>
    cases hpath : s.path with
    | none =>
      rw [syscall_create hpc hpath] at hstep
      obtain rfl := Option.some.inj hstep
      intro n ho
      simp only [pc_goto] at ho ⊢
      obtain rfl : s.next = n := ho
      exact ⟨rfl, .inl rfl⟩
    | some ino =>
      rw [syscall_exists hpc hpath] at hstep
      obtain rfl := Option.some.inj hstep
      exact installed_of_not_owns fun n ho => by rwa [pc_goto] at ho
  | write n =>
    have hpath := (h n (by rw [hpc]; exact (rfl : n = n))).1
    rw [syscall_write hpc] at hstep
    obtain rfl := Option.some.inj hstep
    intro m ho
    simp only [pc_goto] at ho
    obtain rfl : n = m := ho
    exact ⟨hpath, .inr (Function.update_self ..)⟩
  | close n =>
    have hwritten := h n (by rw [hpc]; exact (rfl : n = n))
    rw [syscall_close hpc] at hstep
    obtain rfl := Option.some.inj hstep
    intro m ho
    rw [pc_goto] at ho
    obtain rfl : n = m := ho
    exact ⟨hwritten.1, .inr (hwritten.2.resolve_left (by simp [hpc]))⟩
  | fopen i =>
    cases hpath : s.path with
    | none =>
      simp only [LockState.syscall, hpc, hpath, Option.some.injEq] at hstep
      obtain rfl := hstep
      exact installed_of_not_owns (hretry i)
    | some ino =>
      rw [syscall_fopen hpc hpath] at hstep
      obtain rfl := Option.some.inj hstep
      exact installed_of_not_owns fun n ho => by rwa [pc_goto] at ho
  | fscanf n i =>
    simp only [LockState.syscall, hpc] at hstep
    split at hstep <;> obtain rfl := Option.some.inj hstep <;>
      exact installed_of_not_owns fun n ho => by rwa [pc_goto] at ho
  | kill d n i =>
    simp only [LockState.syscall, hpc] at hstep
    split at hstep <;> obtain rfl := Option.some.inj hstep <;>
      exact installed_of_not_owns fun n ho => by rwa [pc_goto] at ho
  | unlink n i =>
    rw [syscall_unlink hpc] at hstep
    obtain rfl := Option.some.inj hstep
    exact installed_of_not_owns (hretry i)

/-- What the system calls of the process preserve it has when it is left alone. -/
theorem Alone.invariant {I : LockState → Prop}
    (hcall : ∀ {s s'}, I s → s.syscall p = some s' → I s') (halone : Alone p s s') (hs : I s) :
    I s' := by
  obtain ⟨n, hn⟩ := halone
  induction n generalizing s with
  | zero =>
    obtain rfl := Option.some.inj hn
    exact hs
  | succ n ih =>
    obtain ⟨s₁, hs₁, hrest⟩ := Transition.run_cons_eq_some.mp hn
    unfold step at hs₁
    rw [Option.ite_none_right_eq_some] at hs₁
    exact ih (hcall hs hs₁.2) hrest

/-- A process that runs `Lock` and is left alone gets the lock exactly if there is no lock file or
it holds the pid of a dead process, and then the lock file holds its own pid. -/
theorem locks_iff {i : ℕ} (hp : s.alive p = true) (hpc : s.pc p = .create (i + 1)) :
    (Locks p s ↔ ∀ ino, s.path = some ino → ∃ d, s.content ino = some d ∧ s.alive d = false) ∧
      ∀ s', Alone p s s' → (s'.pc p).isLocked = true → Names s' p := by
  refine ⟨⟨?_, ?_⟩, ?_⟩
  · rintro ⟨s', halone, hlocked⟩ ino hpath
    by_contra hliving
    have hrefused : Refused p ino s := by
      refine ⟨hpath, fun d hd => ?_, by rw [hpc]; trivial⟩
      by_contra hdead
      exact hliving ⟨d, hd, by simpa using hdead⟩
    have hreads := (halone.invariant Refused.syscall hrefused).reads
    cases hpc' : s'.pc p with
    | locked n =>
      rw [hpc'] at hreads
      exact hreads
    | _ =>
      rw [hpc'] at hlocked
      exact absurd hlocked (by simp [PC.isLocked])
  · intro hstale
    cases hpath : s.path with
    | none => exact locks_of_absent hp hpc hpath
    | some ino =>
      obtain ⟨d, hcontent, hdead⟩ := hstale ino hpath
      exact locks_of_stale hp hpc hpath hcontent hdead
  · intro s' halone hlocked
    have hstart : Installed p s := installed_of_not_owns fun n ho => by rwa [hpc] at ho
    have hinstalled := halone.invariant Installed.syscall hstart
    cases hpc' : s'.pc p with
    | locked n =>
      obtain ⟨hpath, hwritten⟩ := hinstalled n (by rw [hpc']; exact (rfl : n = n))
      exact ⟨n, hpath, hwritten.resolve_left (by simp [hpc'])⟩
    | _ =>
      rw [hpc'] at hlocked
      exact absurd hlocked (by simp [PC.isLocked])

end

/-- Process 1 removes the lock file of the dead process 7 and creates its own. -/
theorem locks_stale : Locks 1 (stale.goto 1 (.create 99)) ∧
    ∃ s', Alone 1 (stale.goto 1 (.create 99)) s' ∧ s'.pc 1 = .locked 1 ∧ s'.path = some 1 ∧
      Names s' 1 := by
  obtain ⟨hiff, hnames⟩ := locks_iff (s := stale.goto 1 (.create 99)) (p := 1) (i := 98) rfl rfl
  have hdead : ∀ ino, (stale.goto 1 (.create 99)).path = some ino →
      ∃ d, (stale.goto 1 (.create 99)).content ino = some d ∧
        (stale.goto 1 (.create 99)).alive d = false := fun _ _ => ⟨7, rfl, rfl⟩
  have halone : Alone 1 (stale.goto 1 (.create 99)) _ := ⟨8, rfl⟩
  exact ⟨hiff.mpr hdead, _, halone, rfl, rfl, hnames _ halone rfl⟩

end Incron.AppInstance
