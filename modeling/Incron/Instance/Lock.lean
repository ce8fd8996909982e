import Incron.Lib.Transition
import Mathlib.Logic.Function.Basic

/-! The lock file of `AppInstance` (appinst.cpp): processes that run `Lock` and `Unlock` on one
path, one system call at a time, with crashes in between. -/
namespace Incron.AppInstance

abbrev Pid := ℕ

/-- Where a process stands: the next system call and the local variables it needs. `i` is the
number of attempts that are left, `ino` the file the process has opened. -/
inductive PC where
  /-- Neither locking nor locked. -/
  | idle
  /-- `open` with `O_CREAT | O_EXCL`. -/
  | create (i : ℕ)
  /-- The pid goes into the new file. -/
  | write (ino : ℕ)
  /-- `fclose` of the new file, after which `m_fLocked` is set. -/
  | close (ino : ℕ)
  /-- `fopen` of the existing file. -/
  | fopen (i : ℕ)
  | fscanf (ino i : ℕ)
  | kill (pid : Pid) (ino i : ℕ)
  | unlink (ino i : ℕ)
  /-- `m_fLocked` is set; `ino` is the file that the process has created. -/
  | locked (ino : ℕ)
  deriving DecidableEq, Repr

structure LockState where
  /-- The file at the lock path. -/
  path : Option ℕ
  /-- The pid that a file holds, `none` for an empty file. -/
  content : ℕ → Option Pid
  /-- Files from here on do not exist yet. -/
  next : ℕ
  alive : Pid → Bool
  pc : Pid → PC

namespace LockState

def goto (s : LockState) (p : Pid) (pc : PC) : LockState :=
  { s with pc := Function.update s.pc p pc }

/-- The end of a round of the loop in `Lock`. -/
def retry (s : LockState) (p : Pid) : ℕ → LockState
  | 0 => s.goto p .idle
  | i + 1 => s.goto p (.create i)

/-- The next system call of a process in `Lock`, with the code up to the one after it. -/
def syscall (s : LockState) (p : Pid) : Option LockState :=
  match s.pc p with
  | .idle | .locked _ => none
  | .create i =>
    match s.path with
    | none => some
        { s.goto p (.write s.next) with
          path := some s.next
          content := Function.update s.content s.next none
          next := s.next + 1 }
    | some _ => some (s.goto p (.fopen i))
  | .write ino =>
    some { s.goto p (.close ino) with content := Function.update s.content ino (some p) }
  | .close ino => some (s.goto p (.locked ino))
  | .fopen i =>
    match s.path with
    | none => some (s.retry p i)
    | some ino => some (s.goto p (.fscanf ino i))
  | .fscanf ino i =>
    match s.content ino with
    | none => some (s.goto p .idle)
    | some pid => some (s.goto p (.kill pid ino i))
  | .kill pid ino i =>
    if s.alive pid then some (s.goto p .idle) else some (s.goto p (.unlink ino i))
  | .unlink _ i => some { s.retry p i with path := none }

end LockState

/-- `lock` is the call of `Lock`, `error` an exception thrown within it. -/
inductive Action where
  | lock (p : Pid)
  | syscall (p : Pid)
  | error (p : Pid)
  | unlock (p : Pid)
  | crash (p : Pid)

def Action.pid : Action → Pid
  | lock p | syscall p | error p | unlock p | crash p => p

def step (s : LockState) (a : Action) : Option LockState :=
  if s.alive a.pid then
    match a with
    | .lock p => if s.pc p = .idle then some (s.goto p (.create 99)) else none
    | .syscall p => s.syscall p
    | .error p =>
      match s.pc p with
      | .idle | .locked _ => none
      | _ => some (s.goto p .idle)
    | .unlock p =>
      match s.pc p with
      | .locked _ => some { s.goto p .idle with path := none }
      | _ => none
    | .crash p => some { s with alive := Function.update s.alive p false }
  else none

/-- No process is in `Lock` yet, and the lock file is absent or holds the pid of a dead
process. -/
structure Initial (s : LockState) : Prop where
  idle : ∀ p, s.pc p = .idle
  path : ∀ ino, s.path = some ino → ino < s.next ∧ ∃ d, s.content ino = some d ∧
    s.alive d = false

/-- `m_fLocked`. -/
def PC.isLocked : PC → Bool
  | locked _ => true
  | _ => false

def MutualExclusion (s : LockState) : Prop :=
  ∀ p q, s.alive p = true → s.alive q = true → (s.pc p).isLocked = true →
    (s.pc q).isLocked = true → p = q

/-! ## Owners -/

/-- The process has created the file, and holds the lock or is about to. -/
def PC.owns : PC → ℕ → Prop
  | write ino, n | close ino, n | locked ino, n => ino = n
  | _, _ => False

def Owner (s : LockState) (p : Pid) (ino : ℕ) : Prop := s.alive p = true ∧ (s.pc p).owns ino

/-- A process in `Lock` is not about to remove the file of a living owner. -/
def UnlinksStale (s : LockState) : Action → Prop
  | .syscall p => ∀ ino i, s.pc p = .unlink ino i → ∀ n, s.path = some n → ∀ q, ¬ Owner s q n
  | _ => True

/-- The file of a living owner stays at the lock path. -/
structure Invariant (s : LockState) : Prop where
  at_path : ∀ p ino, Owner s p ino → s.path = some ino
  unique : ∀ p q ino, Owner s p ino → Owner s q ino → p = q

theorem Invariant.owners_eq {s : LockState} (h : Invariant s) {p q : Pid} {m n : ℕ}
    (hp : Owner s p m) (hq : Owner s q n) : p = q := by
  have hm := h.at_path p m hp
  rw [h.at_path q n hq] at hm
  obtain rfl := Option.some.inj hm
  exact h.unique p q n hp hq

theorem Invariant.mutualExclusion {s : LockState} (h : Invariant s) : MutualExclusion s := by
  have howner : ∀ p, s.alive p = true → (s.pc p).isLocked = true → ∃ ino, Owner s p ino := by
    intro p hp hl
    cases hpc : s.pc p with
    | locked ino => exact ⟨ino, hp, by simp [hpc, PC.owns]⟩
    | _ => simp [hpc, PC.isLocked] at hl
  intro p q hp hq hlp hlq
  obtain ⟨m, hm⟩ := howner p hp hlp
  obtain ⟨n, hn⟩ := howner q hq hlq
  exact h.owners_eq hm hn

/-! ## What a step can do -/

/-- What a process relies on about the files it knows. -/
def Consistent (s : LockState) (p : Pid) : PC → Prop
  | .write ino => s.content ino = none
  | .close ino | .locked ino => s.content ino = some p
  | .fscanf ino _ => ino < s.next
  | .kill pid ino _ => ino < s.next ∧ s.content ino = some pid
  | .unlink ino _ => ino < s.next ∧ ∃ d, s.content ino = some d ∧ s.alive d = false
  | .idle | .create _ | .fopen _ => True

inductive Effect (s : LockState) (a : Action) : LockState → Prop
  | move (pc : PC) (howns : ∀ ino, pc.owns ino → (s.pc a.pid).owns ino)
      (hknows : (∀ ino, s.path = some ino → ino < s.next) →
        Consistent s a.pid (s.pc a.pid) → Consistent s a.pid pc) : Effect s a (s.goto a.pid pc)
  | create (hpath : s.path = none) :
      Effect s a { s.goto a.pid (.write s.next) with
        path := some s.next
        content := Function.update s.content s.next none
        next := s.next + 1 }
  | write (ino : ℕ) (hpc : s.pc a.pid = .write ino) :
      Effect s a { s.goto a.pid (.close ino) with
        content := Function.update s.content ino (some a.pid) }
  | unlink (p : Pid) (ino i : ℕ) (ha : a = .syscall p) (hpc : s.pc p = .unlink ino i) :
      Effect s a { s.retry p i with path := none }
  | unlock (ino : ℕ) (hpc : s.pc a.pid = .locked ino) :
      Effect s a { s.goto a.pid .idle with path := none }
  | crash : Effect s a { s with alive := Function.update s.alive a.pid false }

section
variable {s s' : LockState} {p : Pid} {a : Action}

/-- A process that gives up owns nothing and relies on nothing. -/
private theorem effect_idle : Effect s a (s.goto a.pid .idle) :=
  .move .idle (fun _ ho => ho.elim) fun _ _ => trivial

private theorem effect_retry (i : ℕ) : Effect s a (s.retry a.pid i) := by
  cases i with
  | zero => exact effect_idle
  | succ i => exact .move (.create i) (fun _ ho => ho.elim) fun _ _ => trivial

private theorem syscall_effect (hs : s.syscall p = some s') : Effect s (.syscall p) s' := by
  unfold LockState.syscall at hs
  cases hpc : s.pc p with
  | idle | locked ino => simp [hpc] at hs
  | create i =>
    simp only [hpc] at hs
    cases hpath : s.path with
    | none =>
      rw [hpath] at hs
      obtain rfl := Option.some.inj hs
      exact .create hpath
    | some n =>
      rw [hpath] at hs
      obtain rfl := Option.some.inj hs
      exact .move (.fopen i) (fun _ ho => ho.elim) fun _ _ => trivial
  | write ino =>
    simp only [hpc] at hs
    obtain rfl := Option.some.inj hs
    exact .write ino hpc
  | close ino =>
    simp only [hpc] at hs
    obtain rfl := Option.some.inj hs
    refine .move (.locked ino) (fun n ho => ?_) fun _ hknows => ?_
    · rw [Action.pid, hpc]
      exact ho
    · rwa [Action.pid, hpc] at hknows
  | fopen i =>
    simp only [hpc] at hs
    cases hpath : s.path with
    | none =>
      rw [hpath] at hs
      obtain rfl := Option.some.inj hs
      exact effect_retry i
    | some n =>
      rw [hpath] at hs
      obtain rfl := Option.some.inj hs
      exact .move (.fscanf n i) (fun _ ho => ho.elim) fun hlt _ => hlt n hpath
  | fscanf ino i =>
    simp only [hpc] at hs
    cases hread : s.content ino with
    | none =>
      rw [hread] at hs
      obtain rfl := Option.some.inj hs
      exact effect_idle
    | some pid =>
      rw [hread] at hs
      obtain rfl := Option.some.inj hs
      refine .move (.kill pid ino i) (fun _ ho => ho.elim) fun _ hknows => ?_
      rw [Action.pid, hpc] at hknows
      exact ⟨hknows, hread⟩
  | kill pid ino i =>
    simp only [hpc] at hs
    split at hs
    · obtain rfl := Option.some.inj hs
      exact effect_idle
    · next hdead =>
      obtain rfl := Option.some.inj hs
      refine .move (.unlink ino i) (fun _ ho => ho.elim) fun _ hknows => ?_
      rw [Action.pid, hpc] at hknows
      exact ⟨hknows.1, pid, hknows.2, by simpa using hdead⟩
  | unlink ino i =>
    simp only [hpc] at hs
    obtain rfl := Option.some.inj hs
    exact .unlink p ino i rfl hpc

theorem step_effect (hs : step s a = some s') : s.alive a.pid = true ∧ Effect s a s' := by
  unfold step at hs
  split at hs
  · next hp =>
    refine ⟨hp, ?_⟩
    cases a with
    | lock p =>
      simp only at hs
      split at hs
      · obtain rfl := Option.some.inj hs
        exact .move (.create 99) (fun _ ho => ho.elim) fun _ _ => trivial
      · exact absurd hs (by simp)
    | syscall p => exact syscall_effect hs
    | error p =>
      simp only at hs
      split at hs
      · exact absurd hs (by simp)
      · exact absurd hs (by simp)
      · obtain rfl := Option.some.inj hs
        exact effect_idle
    | unlock p =>
      simp only at hs
      split at hs
      · next ino hpc =>
        obtain rfl := Option.some.inj hs
        exact .unlock ino hpc
      · exact absurd hs (by simp)
    | crash p =>
      obtain rfl := Option.some.inj hs
      exact .crash
  · exact absurd hs (by simp)

end

/-! ## Steps -/

section
variable {s : LockState} {p : Pid}

theorem owner_goto {pc : PC} {q : Pid} {ino : ℕ} (h : Owner (s.goto p pc) q ino) :
    (q = p ∧ pc.owns ino) ∨ (q ≠ p ∧ Owner s q ino) := by
  obtain ⟨ha, ho⟩ := h
  by_cases hq : q = p
  · subst hq
    exact Or.inl ⟨rfl, by simpa [LockState.goto] using ho⟩
  · exact Or.inr ⟨hq, ha, by simpa [LockState.goto, hq] using ho⟩

theorem Invariant.goto (h : Invariant s) {pc : PC} (hp : s.alive p = true)
    (hpc : ∀ ino, pc.owns ino → (s.pc p).owns ino) : Invariant (s.goto p pc) := by
  have hold : ∀ q ino, Owner (s.goto p pc) q ino → Owner s q ino := by
    intro q ino hq
    rcases owner_goto hq with ⟨rfl, ho⟩ | ⟨-, ho⟩
    · exact ⟨hp, hpc ino ho⟩
    · exact ho
  exact ⟨fun q ino hq => h.at_path q ino (hold q ino hq),
    fun q r ino hq hr => h.unique q r ino (hold q ino hq) (hold r ino hr)⟩

theorem Invariant.setContent (h : Invariant s) (c : ℕ → Option Pid) :
    Invariant { s with content := c } := ⟨h.at_path, h.unique⟩

theorem invariant_of_no_owner (hno : ∀ q ino, ¬ Owner s q ino) :
    Invariant { s with path := none } :=
  ⟨fun q ino hq => absurd hq (hno q ino), fun q _ ino hq => absurd hq (hno q ino)⟩

theorem Invariant.create (h : Invariant s) (hpath : s.path = none) :
    Invariant
      { s.goto p (.write s.next) with
        path := some s.next
        content := Function.update s.content s.next none
        next := s.next + 1 } := by
  have hno : ∀ q ino, ¬ Owner s q ino := by
    intro q ino hq
    rw [h.at_path q ino hq] at hpath
    exact absurd hpath (by simp)
  have hnew : ∀ q ino, Owner (s.goto p (.write s.next)) q ino → q = p ∧ s.next = ino := by
    intro q ino hq
    rcases owner_goto hq with ⟨rfl, ho⟩ | ⟨-, ho⟩
    · exact ⟨rfl, ho⟩
    · exact absurd ho (hno q ino)
  refine ⟨fun q ino hq => ?_, fun q r ino hq hr => ?_⟩
  · exact congrArg some (hnew q ino hq).2
  · exact (hnew q ino hq).1.trans (hnew r ino hr).1.symm

theorem not_owner_retry {i : ℕ} {n : ℕ} : ¬ Owner (s.retry p i) p n := by
  rintro ⟨-, ho⟩
  cases i <;> simp [LockState.retry, LockState.goto, PC.owns] at ho

theorem owner_retry {i : ℕ} {q : Pid} {n : ℕ} (h : Owner (s.retry p i) q n) : Owner s q n := by
  by_cases hq : q = p
  · subst hq
    exact absurd h not_owner_retry
  · cases i <;> exact ((owner_goto h).resolve_left fun hl => hq hl.1).2

theorem Invariant.crash (h : Invariant s) :
    Invariant { s with alive := Function.update s.alive p false } := by
  have hold : ∀ q ino, Owner { s with alive := Function.update s.alive p false } q ino →
      Owner s q ino := by
    rintro q ino ⟨ha, ho⟩
    by_cases hq : q = p
    · subst hq
      simp at ha
    · exact ⟨by simpa [hq] using ha, ho⟩
  exact ⟨fun q ino hq => h.at_path q ino (hold q ino hq),
    fun q r ino hq hr => h.unique q r ino (hold q ino hq) (hold r ino hr)⟩

theorem Invariant.unlock (h : Invariant s) {ino : ℕ} (hp : s.alive p = true)
    (hpc : s.pc p = .locked ino) : Invariant { s.goto p .idle with path := none } := by
  apply invariant_of_no_owner
  intro q n hq
  rcases owner_goto hq with ⟨-, ho⟩ | ⟨hne, ho⟩
  · exact ho.elim
  · exact hne (h.owners_eq ho ⟨hp, by rw [hpc]; exact (rfl : ino = ino)⟩)

theorem Invariant.step {a : Action} (h : Invariant s) (hstale : UnlinksStale s a)
    {s' : LockState} (hs : step s a = some s') : Invariant s' := by
  obtain ⟨hp, heffect⟩ := step_effect hs
  cases heffect with
  | move pc howns _ => exact h.goto hp howns
  | create hpath => exact h.create hpath
  | write ino hpc =>
    have hgoto : Invariant (s.goto a.pid (.close ino)) :=
      h.goto hp fun n ho => by rw [hpc]; exact ho
    exact hgoto.setContent _
  | unlink p ino i ha hpc =>
    subst ha
    apply invariant_of_no_owner
    intro q n hq
    have ho := owner_retry hq
    exact hstale ino i hpc n (h.at_path q n ho) q ho
  | unlock ino hpc => exact h.unlock hp hpc
  | crash => exact h.crash

theorem Initial.invariant (h : Initial s) : Invariant s := by
  have hno : ∀ q ino, ¬ Owner s q ino := by
    rintro q ino ⟨-, ho⟩
    rw [h.idle q] at ho
    exact ho
  exact ⟨fun q ino hq => absurd hq (hno q ino), fun q _ ino hq => absurd hq (hno q ino)⟩

end

/-- Two living processes never both hold the lock, as long as `Lock` removes no file that a
living process has created for itself. -/
theorem mutualExclusion_of_unlinksStale (s₀ : LockState) (hs₀ : Initial s₀) (as : List Action)
    (s : LockState) (hrun : Transition.run step s₀ as = some s)
    (hstale : Transition.Meets step UnlinksStale s₀ as) : MutualExclusion s :=
  (Transition.run_invariant_of_meets (fun _ _ _ h hP hs => h.step hP hs) hs₀.invariant hstale
    hrun).mutualExclusion

/-! ## Files that are not replaced

A file is written once, by its creator. So a process that removes the file whose pid it has
read removes no file of a living owner. -/

/-- The file that a process in `Lock` removes is the one that it has read. -/
def NotReplaced (s : LockState) : Action → Prop
  | .syscall p => ∀ ino i, s.pc p = .unlink ino i → ∀ n, s.path = some n → n = ino
  | _ => True

/-- The file whose pid a process has read when it is about to remove the lock file. -/
def PC.unlinks : PC → Option ℕ
  | unlink ino _ => some ino
  | _ => none

theorem notReplaced_syscall {s : LockState} {p : Pid} :
    NotReplaced s (.syscall p) ↔ ∀ ino ∈ (s.pc p).unlinks, ∀ n ∈ s.path, n = ino := by
  unfold NotReplaced
  cases h : s.pc p <;> simp [PC.unlinks, h]

instance (s : LockState) : ∀ a, Decidable (NotReplaced s a)
  | .syscall _ => decidable_of_iff _ notReplaced_syscall.symm
  | .lock _ | .error _ | .unlock _ | .crash _ => inferInstanceAs (Decidable True)

structure FilesInvariant (s : LockState) : Prop extends Invariant s where
  path_lt : ∀ ino, s.path = some ino → ino < s.next
  consistent : ∀ p, s.alive p = true → Consistent s p (s.pc p)

section
variable {s : LockState} {p : Pid}

theorem FilesInvariant.unlinksStale (h : FilesInvariant s) {a : Action}
    (ha : s.alive a.pid = true) (hnot : NotReplaced s a) : UnlinksStale s a := by
  cases a with
  | syscall p =>
    intro ino i hpc n hn q hq
    obtain rfl := hnot ino i hpc n hn
    have hread := h.consistent p ha
    rw [hpc] at hread
    obtain ⟨-, d, hd, hdead⟩ := hread
    obtain ⟨hqa, hqo⟩ := hq
    have hown := h.consistent q hqa
    -- an owner has not written the file yet, or has written its own pid
    cases hq : s.pc q with
    | write m =>
      rw [hq] at hqo hown
      obtain rfl : m = n := hqo
      rw [Consistent, hd] at hown
      exact absurd hown (by simp)
    | close m | locked m =>
      rw [hq] at hqo hown
      obtain rfl : m = n := hqo
      rw [Consistent, hd] at hown
      rw [Option.some.inj hown, hqa] at hdead
      exact absurd hdead (by simp)
    | _ =>
      rw [hq] at hqo
      exact hqo
  | _ => trivial

theorem FilesInvariant.move (h : FilesInvariant s) {pc : PC} {path : Option ℕ}
    (hinv : Invariant { s.goto p pc with path := path }) (hpath : path = none ∨ path = s.path)
    (hcons : Consistent s p pc) : FilesInvariant { s.goto p pc with path := path } := by
  have hsame : ∀ q c, Consistent { s.goto p pc with path := path } q c ↔ Consistent s q c := by
    intro q c
    cases c <;> rfl
  refine ⟨hinv, fun ino hino => ?_, fun q hq => (hsame q _).mpr ?_⟩
  · rcases hpath with rfl | rfl
    · exact absurd hino (by simp)
    · exact h.path_lt ino hino
  · by_cases hqp : q = p
    · subst hqp
      simpa [LockState.goto] using hcons
    · have := h.consistent q hq
      rwa [← show (s.goto p pc).pc q = s.pc q by simp [LockState.goto, hqp]] at this

theorem FilesInvariant.retry (h : FilesInvariant s) {i : ℕ} {path : Option ℕ}
    (hinv : Invariant { s.retry p i with path := path }) (hpath : path = none ∨ path = s.path) :
    FilesInvariant { s.retry p i with path := path } := by
  cases i <;> exact h.move hinv hpath trivial

/-- The new file is unknown to everybody else. -/
theorem FilesInvariant.create (h : FilesInvariant s) (hpath : s.path = none) :
    FilesInvariant
      { s.goto p (.write s.next) with
        path := some s.next
        content := Function.update s.content s.next none
        next := s.next + 1 } := by
  refine ⟨h.toInvariant.create hpath, ?_, fun q hq => ?_⟩
  · intro ino hino
    obtain rfl := Option.some.inj hino
    exact Nat.lt_succ_self _
  · by_cases hqp : q = p
    · subst hqp
      simp [LockState.goto, Consistent]
    · have hpc : (s.goto p (.write s.next)).pc q = s.pc q := by simp [LockState.goto, hqp]
      have hno : ∀ ino, ¬ (s.pc q).owns ino := by
        intro ino ho
        have := h.at_path q ino ⟨hq, ho⟩
        rw [hpath] at this
        exact absurd this (by simp)
      have hold : ∀ ino < s.next, Function.update s.content s.next none ino = s.content ino := by
        intro ino hlt
        rw [Function.update_of_ne (by omega)]
      have hcons := h.consistent q hq
      simp only [hpc]
      cases hc : s.pc q with
      | idle | create | fopen => trivial
      | write ino | close ino | locked ino => exact absurd (hc ▸ rfl) (hno ino)
      | fscanf ino i =>
        rw [hc] at hcons
        exact Nat.lt_succ_of_lt hcons
      | kill pid ino i =>
        rw [hc] at hcons
        exact ⟨Nat.lt_succ_of_lt hcons.1, (hold ino hcons.1).trans hcons.2⟩
      | unlink ino i =>
        rw [hc] at hcons
        obtain ⟨hlt, d, hd, hdead⟩ := hcons
        exact ⟨Nat.lt_succ_of_lt hlt, d, (hold ino hlt).trans hd, hdead⟩

/-- A file that somebody has read is not empty any more. -/
theorem FilesInvariant.write (h : FilesInvariant s) {ino : ℕ} (hp : s.alive p = true)
    (hpc : s.pc p = .write ino)
    (hinv : Invariant
      { s.goto p (.close ino) with content := Function.update s.content ino (some p) }) :
    FilesInvariant
      { s.goto p (.close ino) with content := Function.update s.content ino (some p) } := by
  have hnew := h.consistent p hp
  rw [hpc] at hnew
  refine ⟨hinv, h.path_lt, fun q hq => ?_⟩
  by_cases hqp : q = p
  · subst hqp
    simp [LockState.goto, Consistent]
  · have hpcq : (s.goto p (.close ino)).pc q = s.pc q := by simp [LockState.goto, hqp]
    have hno : ¬ (s.pc q).owns ino := fun ho =>
      hqp (h.unique q p ino ⟨hq, ho⟩ ⟨hp, by rw [hpc]; exact (rfl : ino = ino)⟩)
    have hold : ∀ m d, s.content m = some d →
        Function.update s.content ino (some p) m = some d := by
      intro m d hd
      have hm : m ≠ ino := by
        rintro rfl
        rw [Consistent, hd] at hnew
        exact absurd hnew (by simp)
      rw [Function.update_of_ne hm, hd]
    have hcons := h.consistent q hq
    simp only [hpcq]
    cases hc : s.pc q with
    | idle | create | fopen => trivial
    | write m =>
      rw [hc] at hcons hno
      have hm : m ≠ ino := hno
      exact (Function.update_of_ne hm _ _).trans hcons
    | close m | locked m =>
      rw [hc] at hcons
      exact hold m q hcons
    | fscanf m i =>
      rw [hc] at hcons
      exact hcons
    | kill pid m i =>
      rw [hc] at hcons
      exact ⟨hcons.1, hold m pid hcons.2⟩
    | unlink m i =>
      rw [hc] at hcons
      obtain ⟨hlt, d, hd, hdead⟩ := hcons
      exact ⟨hlt, d, hold m d hd, hdead⟩

theorem FilesInvariant.crash (h : FilesInvariant s) :
    FilesInvariant { s with alive := Function.update s.alive p false } := by
  refine ⟨h.toInvariant.crash, h.path_lt, fun q hq => ?_⟩
  have hqp : q ≠ p := by
    rintro rfl
    simp at hq
  have hcons := h.consistent q (by simpa [hqp] using hq)
  cases hc : s.pc q with
  | unlink ino i =>
    rw [hc] at hcons
    obtain ⟨hlt, d, hd, hdead⟩ := hcons
    refine ⟨hlt, d, hd, ?_⟩
    by_cases hdp : d = p <;> simp [hdp, hdead]
  | _ =>
    rw [hc] at hcons
    exact hcons

theorem FilesInvariant.step {a : Action} (h : FilesInvariant s) (hnot : NotReplaced s a)
    {s' : LockState} (hs : step s a = some s') : FilesInvariant s' := by
  obtain ⟨hp, heffect⟩ := step_effect hs
  have hinv : Invariant s' := h.toInvariant.step (h.unlinksStale hp hnot) hs
  cases heffect with
  | move pc _ hknows => exact h.move hinv (Or.inr rfl) (hknows h.path_lt (h.consistent _ hp))
  | create hpath => exact h.create hpath
  | write ino hpc => exact h.write hp hpc hinv
  | unlink p ino i _ _ => exact h.retry hinv (Or.inl rfl)
  | unlock ino _ => exact h.move hinv (Or.inl rfl) trivial
  | crash => exact h.crash

theorem Initial.filesInvariant (h : Initial s) : FilesInvariant s :=
  ⟨h.invariant, fun ino hino => (h.path ino hino).1, fun p _ => by rw [h.idle p]; trivial⟩

end

/-- As long as no lock file is replaced, no file of a living owner is removed. -/
theorem unlinksStale_of_notReplaced {s₀ s : LockState} (hs₀ : Initial s₀) {as : List Action}
    (hrun : Transition.run AppInstance.step s₀ as = some s)
    (hnot : Transition.Meets AppInstance.step NotReplaced s₀ as) :
    Transition.Meets AppInstance.step UnlinksStale s₀ as :=
  hnot.imp (fun _ _ _ h hP hs => ⟨h.unlinksStale (step_effect hs).1 hP, h.step hP hs⟩)
    hs₀.filesInvariant hrun

/-- Two living processes never both hold the lock, as long as no lock file is replaced
between the reading of its pid and its removal. -/
theorem mutualExclusion_of_notReplaced (s₀ : LockState) (hs₀ : Initial s₀) (as : List Action)
    (s : LockState) (hrun : Transition.run AppInstance.step s₀ as = some s)
    (hnot : Transition.Meets AppInstance.step NotReplaced s₀ as) : MutualExclusion s :=
  (Transition.run_invariant_of_meets (fun _ _ _ h hP hs => h.step hP hs) hs₀.filesInvariant hnot
    hrun).mutualExclusion

def unlocked : LockState :=
  { path := none, content := fun _ => none, next := 0, alive := fun _ => true,
    pc := fun _ => .idle }

theorem initial_unlocked : Initial unlocked :=
  ⟨fun _ => rfl, fun ino h => absurd h (by simp [unlocked])⟩

/-! ## A race for a stale file -/

/-- The lock file of a process that has died; process 7 is dead. -/
def stale : LockState :=
  { path := some 0, content := fun _ => some 7, next := 1, alive := fun p => p ≠ 7,
    pc := fun _ => .idle }

theorem initial_stale : Initial stale := by
  refine ⟨fun _ => rfl, fun ino h => ?_⟩
  obtain rfl := Option.some.inj h
  exact ⟨by decide, 7, rfl, by decide⟩

/-- Both processes find the stale file, and remove it before one of them creates the new one. -/
def fairRace : List Action :=
  [.lock 1, .syscall 1, .syscall 1, .syscall 1, .syscall 1,
   .lock 2, .syscall 2, .syscall 2, .syscall 2, .syscall 2,
   .syscall 1, .syscall 2,
   .syscall 1, .syscall 1, .syscall 1,
   .syscall 2, .syscall 2, .syscall 2, .syscall 2]

/-- The second process reads the new file and gives up. -/
theorem mutualExclusion_fairRace : ∃ s, Transition.run step stale fairRace = some s ∧
    s.pc 1 = .locked 1 ∧ s.pc 2 = .idle ∧ MutualExclusion s := by
  have hnot : Transition.Meets step NotReplaced stale fairRace := by decide
  exact ⟨_, rfl, by decide, by decide, mutualExclusion_of_unlinksStale stale initial_stale
    fairRace _ rfl (unlinksStale_of_notReplaced initial_stale rfl hnot)⟩

/-- Both processes find the stale file; the second one removes the new file of the first. -/
def race : List Action :=
  [.lock 1, .syscall 1, .syscall 1, .syscall 1, .syscall 1,
   .lock 2, .syscall 2, .syscall 2, .syscall 2, .syscall 2,
   .syscall 1, .syscall 1, .syscall 1, .syscall 1,
   .syscall 2, .syscall 2, .syscall 2, .syscall 2]

theorem not_mutualExclusion_race : Initial stale ∧
    ∃ s, Transition.run step stale race = some s ∧ ¬ MutualExclusion s := by
  refine ⟨initial_stale, _, rfl, fun h => ?_⟩
  exact absurd (h 1 2 (by decide) (by decide) (by decide) (by decide)) (by decide)

end Incron.AppInstance
