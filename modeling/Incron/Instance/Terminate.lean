import Incron.Instance.Lock

/-! `SendSignal` (appinst.cpp), with which `incrond --kill` ends the running instance: its calls
come between those of the processes that lock and unlock. -/
namespace Incron.AppInstance

/-- The next system call of `SendSignal`, or its result. -/
inductive Send where
  | fopen
  /-- `fscanf` of the file that has been opened. -/
  | fscanf (ino : ℕ)
  | kill (pid : Pid)
  | done (ok : Bool)
  /-- An exception has been thrown. -/
  | threw
  deriving DecidableEq, Repr

structure SendState where
  lock : LockState
  send : Send
  /-- The processes that the signal has been sent to. -/
  signalled : List Pid := []

/-- The next system call of `SendSignal` in the process `me`; nobody is sent a signal who does not
exist. -/
def sendSignal (me : Pid) (s : SendState) : Option SendState :=
  match s.send with
  | .fopen =>
    match s.lock.path with
    | none => some { s with send := .done false }
    | some ino => some { s with send := .fscanf ino }
  | .fscanf ino =>
    match s.lock.content ino with
    | none => some { s with send := .done false }
    | some pid => some { s with send := if pid ≠ me then .kill pid else .done false }
  | .kill pid =>
    if s.lock.alive pid then some { s with send := .done true, signalled := s.signalled ++ [pid] }
    else some { s with send := .done false }
  | .done _ | .threw => none

inductive SendAction where
  /-- A step of the processes that lock. -/
  | lock (a : Action)
  | sendSignal
  /-- A call of `SendSignal` fails with another error than ENOENT or ESRCH. -/
  | error

def sendStep (me : Pid) (s : SendState) : SendAction → Option SendState
  | .lock a => (step s.lock a).map fun lock => { s with lock := lock }
  | .sendSignal => sendSignal me s
  | .error =>
    match s.send with
    | .done _ | .threw => none
    | _ => some { s with send := .threw }

/-- The file that is removed is the one that has been read. -/
def SendNotReplaced (s : SendState) : SendAction → Prop
  | .lock a => NotReplaced s.lock a
  | _ => True

instance (s : SendState) : ∀ a, Decidable (SendNotReplaced s a)
  | .lock a => inferInstanceAs (Decidable (NotReplaced s.lock a))
  | .sendSignal | .error => inferInstanceAs (Decidable True)

def Holds (s : LockState) (q : Pid) (ino : ℕ) : Prop := s.alive q = true ∧ s.pc q = .locked ino

section
variable {s s' : LockState} {q : Pid} {ino ino' : ℕ}

theorem Holds.owner (h : Holds s q ino) : Owner s q ino := ⟨h.1, by rw [h.2]; rfl⟩

theorem Holds.same_file {a : Action} (h : Holds s q ino) (h' : Holds s' q ino')
    (hstep : step s a = some s') : ino' = ino := by
  have hfile : ∀ {n}, (s.pc q).owns n → n = ino := by
    intro n ho
    rw [h.2] at ho
    exact (ho : ino = n).symm
  have hgoto : ∀ p pc, (s.goto p pc).pc q = .locked ino' →
      (pc = .locked ino' → (s.pc p).owns ino') → ino' = ino := by
    intro p pc hpc howns
    by_cases hq : q = p
    · subst hq
      exact hfile (howns (by simpa [LockState.goto] using hpc))
    · have hpc : s.pc q = .locked ino' := by simpa [LockState.goto, hq] using hpc
      exact hfile (by rw [hpc]; rfl)
  have hpc' : s'.pc q = .locked ino' := h'.2
  cases (step_effect hstep).2 with
  | move pc howns _ => exact hgoto a.pid pc hpc' fun hpc => howns ino' (by rw [hpc]; rfl)
  | create hpath => exact hgoto a.pid _ hpc' (by simp)
  | write n hwrite => exact hgoto a.pid _ hpc' (by simp)
  | unlink p n i _ hunlink =>
    cases i with
    | zero => exact hgoto p _ hpc' (by simp)
    | succ i => exact hgoto p _ hpc' (by simp)
  | unlock n hunlock => exact hgoto a.pid _ hpc' (by simp)
  | crash => exact hfile (by rw [show s.pc q = .locked ino' from hpc']; rfl)

/-! ## The holder is reached -/

/-- What `SendSignal` has found while `q` holds the lock with the file. -/
def Send.Finds (q : Pid) (ino : ℕ) (signalled : List Pid) : Send → Prop
  | .fopen => signalled = []
  | .fscanf n => n = ino ∧ signalled = []
  | .kill pid => pid = q ∧ signalled = []
  | .done ok => ok = true ∧ signalled = [q]
  | .threw => True

structure Finding (q : Pid) (s : SendState) : Prop where
  files : FilesInvariant s.lock
  finds : ∀ ino, Holds s.lock q ino → s.send.Finds q ino s.signalled

theorem Finding.step {me : Pid} {s s' : SendState} {a : SendAction} (hme : q ≠ me)
    (h : Finding q s) (hnot : SendNotReplaced s a) (hold : ∃ ino, Holds s.lock q ino)
    (hstep : sendStep me s a = some s') : Finding q s' := by
  obtain ⟨ino, hold⟩ := hold
  have hpath : s.lock.path = some ino := h.files.at_path q ino hold.owner
  have hcontent : s.lock.content ino = some q := by
    have hknows := h.files.consistent q hold.1
    rw [hold.2] at hknows
    exact hknows
  have hsame : ∀ n, Holds s.lock q n → n = ino := fun n hn =>
    (PC.locked.inj (hold.2.symm.trans hn.2)).symm
  have hfinds := h.finds ino hold
  cases a with
  | lock a =>
    obtain ⟨lock, hlock, rfl⟩ := Option.map_eq_some_iff.mp hstep
    refine ⟨h.files.step hnot hlock, fun n hn => ?_⟩
    obtain rfl := hold.same_file hn hlock
    exact hfinds
  | sendSignal =>
    simp only [sendStep, sendSignal] at hstep
    cases hsend : s.send with
    | fopen =>
      rw [hsend] at hstep hfinds
      simp only [hpath] at hstep
      obtain rfl := Option.some.inj hstep
      exact ⟨h.files, fun n hn => ⟨(hsame n hn).symm, hfinds⟩⟩
    | fscanf n =>
      rw [hsend] at hstep hfinds
      obtain ⟨rfl, hfinds⟩ := hfinds
      simp only [hcontent, if_pos hme] at hstep
      obtain rfl := Option.some.inj hstep
      exact ⟨h.files, fun _ _ => ⟨rfl, hfinds⟩⟩
    | kill pid =>
      rw [hsend] at hstep hfinds
      obtain ⟨rfl, hfinds⟩ := hfinds
      simp only [hold.1, if_true] at hstep
      obtain rfl := Option.some.inj hstep
      exact ⟨h.files, fun _ _ => ⟨rfl, by rw [hfinds]; rfl⟩⟩
    | done ok =>
      rw [hsend] at hstep
      exact absurd hstep (by simp)
    | threw =>
      rw [hsend] at hstep
      exact absurd hstep (by simp)
  | error =>
    simp only [sendStep] at hstep
    split at hstep
    · exact absurd hstep (by simp)
    · exact absurd hstep (by simp)
    · obtain rfl := Option.some.inj hstep
      exact ⟨h.files, fun _ _ => trivial⟩

/-- A call of `SendSignal` that returns has sent its signal to the process that holds the lock
during the whole call, and to nobody else, whatever other processes try in the meantime. -/
theorem sendSignal_reaches_holder {me q : Pid} (hme : q ≠ me) {s₀ s₁ : LockState} {s : SendState}
    {as : List Action} {bs : List SendAction} {ok : Bool} (hs₀ : Initial s₀)
    (hrun : Transition.run AppInstance.step s₀ as = some s₁)
    (hnot : Transition.Meets AppInstance.step NotReplaced s₀ as)
    (hsend : Transition.run (sendStep me) { lock := s₁, send := .fopen } bs = some s)
    (hnot' : Transition.Meets (sendStep me) SendNotReplaced { lock := s₁, send := .fopen } bs)
    (holds : Transition.Always (sendStep me) (fun s => ∃ ino, Holds s.lock q ino)
      { lock := s₁, send := .fopen } bs)
    (hdone : s.send = .done ok) : ok = true ∧ s.signalled = [q] := by
  have hfiles : FilesInvariant s₁ := Transition.run_invariant_of_meets
    (fun _ _ _ h hP hs => h.step hP hs) hs₀.filesInvariant hnot hrun
  have hstart : Finding q { lock := s₁, send := .fopen } := ⟨hfiles, fun _ _ => rfl⟩
  have hfinding : Finding q s := Transition.run_invariant_of_always
    (fun _ _ _ h hold hP hs => h.step hme hP hold hs) hstart holds hnot' hsend
  obtain ⟨ino, hold⟩ := holds.run hsend
  have hfinds := hfinding.finds ino hold
  rw [hdone] at hfinds
  exact hfinds

end

def take : List Action := [.lock 1, .syscall 1, .syscall 1, .syscall 1]

def taken : LockState := ((Transition.run step unlocked take).getD unlocked)

/-- Process 2 ends process 1, while process 3 finds the lock taken. -/
def killing : List SendAction :=
  [.sendSignal, .lock (.lock 3), .sendSignal, .lock (.syscall 3), .sendSignal]

theorem sendSignal_reaches_holder_killing : ∃ s,
    Transition.run (sendStep 2) { lock := taken, send := .fopen } killing = some s ∧
    s.send = .done true ∧ s.signalled = [1] := by
  have hnot : Transition.Meets step NotReplaced unlocked take := by decide
  have hnot' : Transition.Meets (sendStep 2) SendNotReplaced
      { lock := taken, send := .fopen } killing := by decide
  have holds : Transition.Always (sendStep 2) (fun s => ∃ ino, Holds s.lock 1 ino)
      { lock := taken, send := .fopen } killing := by
    refine ⟨⟨0, rfl, rfl⟩, fun s₁ h₁ => ?_⟩
    obtain rfl := Option.some.inj h₁
    refine ⟨⟨0, rfl, rfl⟩, fun s₂ h₂ => ?_⟩
    obtain rfl := Option.some.inj h₂
    refine ⟨⟨0, rfl, rfl⟩, fun s₃ h₃ => ?_⟩
    obtain rfl := Option.some.inj h₃
    refine ⟨⟨0, rfl, rfl⟩, fun s₄ h₄ => ?_⟩
    obtain rfl := Option.some.inj h₄
    refine ⟨⟨0, rfl, rfl⟩, fun s₅ h₅ => ?_⟩
    obtain rfl := Option.some.inj h₅
    exact ⟨0, rfl, rfl⟩
  exact ⟨_, rfl, rfl,
    (sendSignal_reaches_holder (by decide) initial_unlocked rfl hnot rfl hnot' holds rfl).2⟩

end Incron.AppInstance
