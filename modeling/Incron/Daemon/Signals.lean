import Incron.Lib.Transition
import Mathlib.Algebra.Order.BigOperators.Group.Finset
import Mathlib.Logic.Function.Basic

/-! The signal handler of the daemon (icd-main.cpp) and its main loop, with the processes that come
from the daemon: system calls, signals and the ends of processes in any order. -/
namespace Incron.Signals

abbrev Pid := ℕ

/-- The next system call of `on_signal` for SIGCHLD. -/
inductive Handler where
  | waitpid
  | read
  | write
  deriving DecidableEq, Repr

inductive Place where
  /-- `while (!g_fFinish)`. -/
  | test
  | poll
  /-- `ProcessEvents`, in the loop that reads the pipe. -/
  | emptying
  /-- `ProcessEvents`, behind that loop. -/
  | events
  /-- Behind the fork in `OnEvent`, in the child. -/
  | child
  /-- Behind the main loop: `free_tables`, and the ends of the pipe are closed. -/
  | stopping
  /-- Behind the `try`, or on the way to `_exit`. -/
  | left
  deriving DecidableEq, Repr

structure Proc where
  place : Place
  handler : Option Handler := none
  /-- SIGCHLD has been sent and not been delivered. -/
  pending : Bool := false
  /-- `g_fFinish`. -/
  finish : Bool := false
  /-- `g_cldPipe[0]` and `g_cldPipe[1]` are open. -/
  readEnd : Bool := true
  writeEnd : Bool := true
  deriving DecidableEq, Repr

/-- The processes that come from the daemon, and `g_cldPipe`, which they share. -/
structure State where
  proc : Pid → Proc
  /-- The processes that run the daemon's program. -/
  daemons : Finset Pid
  /-- Their children that run another program. -/
  others : Finset Pid
  /-- The children that have ended and not been waited for. -/
  dead : Finset Pid
  parent : Pid → Option Pid
  /-- Processes from here on do not exist yet. -/
  next : Pid
  /-- The number of bytes in the pipe. -/
  pipe : ℕ
  /-- How often a token could not be sent. -/
  warnings : ℕ := 0

/-- How many processes there can be, and how many bytes in the pipe. -/
structure Limits where
  procs : ℕ
  pipe : ℕ

namespace State

def set (s : State) (p : Pid) (x : Proc) : State :=
  { s with proc := Function.update s.proc p x }

def goto (s : State) (p : Pid) (place : Place) : State := s.set p { s.proc p with place := place }

def Handles (s : State) (p : Pid) (h : Handler) : Prop :=
  p ∈ s.daemons ∧ (s.proc p).handler = some h

/-- The process stands at this place, and no handler has interrupted it. -/
def Runs (s : State) (p : Pid) (place : Place) : Prop :=
  p ∈ s.daemons ∧ (s.proc p).handler = none ∧ (s.proc p).place = place

instance (s : State) (p : Pid) (h : Handler) : Decidable (s.Handles p h) :=
  inferInstanceAs (Decidable (_ ∧ _))

instance (s : State) (p : Pid) (place : Place) : Decidable (s.Runs p place) :=
  inferInstanceAs (Decidable (_ ∧ _))

def HasRoom (s : State) (L : Limits) : Prop := s.daemons.card + s.others.card < L.procs

instance (s : State) (L : Limits) : Decidable (s.HasRoom L) :=
  inferInstanceAs (Decidable (_ < _))

/-- A process ends. Its parent gets SIGCHLD if it is one of the daemons, and its own children are
nobody's any more. -/
def ended (s : State) (p : Pid) : State :=
  let s' := { s with
    daemons := s.daemons.erase p
    others := s.others.erase p
    dead := s.dead.filter fun c => s.parent c ≠ some p
    parent := fun c => if s.parent c = some p then none else s.parent c }
  match s.parent p with
  | none => s'
  | some q =>
    if q ∈ s.daemons ∧ q ≠ p then
      { s'.set q { s.proc q with pending := true } with dead := insert p s'.dead }
    else s'

end State

inductive Action where
  /-- A signal is delivered; that of SIGTERM stands for SIGINT, too. -/
  | sigchld (p : Pid)
  | sigterm (p : Pid)
  /-- The calls of the handler; `waitpid` tells which child has been found. -/
  | waitpid (p : Pid) (c : Option Pid)
  | readAll (p : Pid)
  | write (p : Pid)
  /-- The main loop; `pipe` tells whether the pipe is reported. -/
  | test (p : Pid)
  | poll (p : Pid) (pipe : Bool)
  | pollFailed (p : Pid)
  | read (p : Pid)
  /-- What `ProcessEvents` can do behind the pipe. -/
  | fork (p : Pid)
  | popen (p : Pid)
  | pclose (p c : Pid)
  | baseDeleted (p : Pid)
  | passed (p : Pid)
  | thrown (p : Pid)
  | closeRead (p : Pid)
  | closeWrite (p : Pid)
  /-- The child in `OnEvent`: its command replaces it, or has been run by `system`. -/
  | exec (p : Pid)
  | system (p : Pid) (succeeds : Bool)
  /-- A process ends or is killed. -/
  | exit (p : Pid)
  deriving DecidableEq

/-- One step. A handler is not interrupted by the signal that it handles, and the program does not
go on before its handler returns. -/
def step (L : Limits) (s : State) : Action → Option State
  | .sigchld p =>
    if p ∈ s.daemons ∧ (s.proc p).pending = true ∧ (s.proc p).handler = none then
      some (s.set p { s.proc p with pending := false, handler := some .waitpid })
    else none
  | .sigterm p =>
    if p ∈ s.daemons then some (s.set p { s.proc p with finish := true }) else none
  | .waitpid p (some c) =>
    if s.Handles p .waitpid ∧ c ∈ s.dead ∧ s.parent c = some p then
      some { s with dead := s.dead.erase c }
    else none
  | .waitpid p none =>
    if s.Handles p .waitpid ∧ ∀ c ∈ s.dead, s.parent c ≠ some p then
      some (s.set p { s.proc p with handler := some .read })
    else none
  | .readAll p =>
    if s.Handles p .read then
      -- the end may be closed, and the handler goes on
      if s.pipe = 0 ∨ (s.proc p).readEnd = false then
        some (s.set p { s.proc p with handler := some .write })
      else some { s with pipe := s.pipe - 32 }
    else none
  | .write p =>
    if s.Handles p .write then
      let s' := s.set p { s.proc p with handler := none }
      if (s.proc p).writeEnd = false then some { s' with warnings := s.warnings + 1 }
      -- SIGPIPE
      else if ∀ q ∈ s.daemons, (s.proc q).readEnd = false then some (s.ended p)
      else if s.pipe < L.pipe then some { s' with pipe := s.pipe + 1 }
      else some { s' with warnings := s.warnings + 1 }
    else none
  | .test p =>
    if s.Runs p .test then some (s.goto p (if (s.proc p).finish then .stopping else .poll))
    else none
  | .poll p pipe =>
    if s.Runs p .poll ∧ (pipe = true → 0 < s.pipe) then
      some (s.goto p (if pipe then .emptying else .events))
    else none
  | .pollFailed p => if s.Runs p .poll then some (s.goto p .test) else none
  | .read p =>
    if s.Runs p .emptying then
      if s.pipe = 0 then some (s.goto p .events) else some { s with pipe := s.pipe - 1 }
    else none
  | .fork p =>
    if s.Runs p .events ∧ s.HasRoom L then
      some { s with
        proc := Function.update s.proc s.next
          { s.proc p with place := .child, handler := none, pending := false }
        daemons := insert s.next s.daemons
        parent := Function.update s.parent s.next (some p)
        next := s.next + 1 }
    else none
  | .popen p =>
    if s.Runs p .events ∧ s.HasRoom L then
      some { s with
        others := insert s.next s.others
        parent := Function.update s.parent s.next (some p)
        next := s.next + 1 }
    else none
  | .pclose p c =>
    if s.Runs p .events ∧ s.parent c = some p ∧ c ∉ s.daemons ∧ c ∉ s.others then
      some { s with dead := s.dead.erase c }
    else none
  | .baseDeleted p =>
    if s.Runs p .events then some (s.set p { s.proc p with finish := true }) else none
  | .passed p => if s.Runs p .events then some (s.goto p .test) else none
  | .thrown p =>
    if s.Runs p .events ∨ s.Runs p .poll ∨ s.Runs p .stopping then some (s.goto p .left) else none
  | .closeRead p =>
    if s.Runs p .stopping ∧ (s.proc p).readEnd = true then
      some (s.set p { s.proc p with readEnd := false })
    else none
  | .closeWrite p =>
    if s.Runs p .stopping ∧ (s.proc p).readEnd = false then
      some (s.set p { s.proc p with writeEnd := false, place := .left })
    else none
  | .exec p =>
    if s.Runs p .child then
      some { s with daemons := s.daemons.erase p, others := insert p s.others }
    else none
  | .system p succeeds =>
    if s.Runs p .child then
      some (s.set p { s.proc p with
        pending := true, place := if succeeds then .events else .left })
    else none
  | .exit p => if p ∈ s.daemons ∨ p ∈ s.others then some (s.ended p) else none

def start : State where
  proc _ := { place := .test }
  daemons := {0}
  others := ∅
  dead := ∅
  parent _ := none
  next := 1
  pipe := 0

/-! ## What a step can do -/

/-- The process has been told about its dead children, or is collecting them. -/
def Proc.Collects (x : Proc) : Prop := x.pending = true ∨ x.handler = some .waitpid

def Proc.writes (x : Proc) : ℕ := if x.handler = some .write then 1 else 0

def Proc.Opened (x : Proc) : Prop := x.readEnd = true ∧ x.writeEnd = true

def Action.closes : Action → Bool
  | .closeRead _ | .closeWrite _ => true
  | _ => false

/-- The passes of `ProcessEvents` that the process can begin when `g_fFinish` is set: the one behind
a `poll` that it has already come to. -/
def Proc.passes (x : Proc) : ℕ := if x.place = .poll then 1 else 0

def Action.begins (p : Pid) : Action → ℕ
  | .poll q _ => if q = p then 1 else 0
  | _ => 0

/-- The effects of the actions, as far as the children, the pipe and the passes are concerned. -/
inductive Effect (L : Limits) (s : State) (a : Action) : State → Prop
  | move (p : Pid) (x : Proc) (pipe warnings : ℕ) (hp : p ∈ s.daemons)
      (hcollects : (s.proc p).Collects → x.Collects ∨ ∀ c ∈ s.dead, s.parent c ≠ some p)
      (hpipe : (s.proc p).Opened → pipe + x.writes ≤ s.pipe + (s.proc p).writes ∨ pipe = 0)
      (hwarnings : (s.proc p).Opened →
        warnings = s.warnings ∨ L.pipe ≤ s.pipe ∧ (s.proc p).writes = 1)
      (hopened : a.closes = false → (s.proc p).Opened → x.Opened)
      (hfinish : (s.proc p).finish = true → x.finish = true ∧
        a.begins p + x.passes ≤ (s.proc p).passes)
      (hother : ∀ q, q ≠ p → a.begins q = 0) :
      Effect L s a { s.set p x with pipe := pipe, warnings := warnings }
  | read (n : ℕ) (hnone : ∀ q, a.begins q = 0) : Effect L s a { s with pipe := s.pipe - n }
  | collected (c : Pid) (hnone : ∀ q, a.begins q = 0) :
      Effect L s a { s with dead := s.dead.erase c }
  | forked (p : Pid) (x : Proc) (hp : p ∈ s.daemons) (hroom : s.HasRoom L)
      (hx : x.handler = none) (hopened : (s.proc p).Opened → x.Opened)
      (hnone : ∀ q, a.begins q = 0) :
      Effect L s a { s with
        proc := Function.update s.proc s.next x
        daemons := insert s.next s.daemons
        parent := Function.update s.parent s.next (some p)
        next := s.next + 1 }
  | opened (p : Pid) (hp : p ∈ s.daemons) (hroom : s.HasRoom L) (hnone : ∀ q, a.begins q = 0) :
      Effect L s a { s with
        others := insert s.next s.others
        parent := Function.update s.parent s.next (some p)
        next := s.next + 1 }
  | replaced (p : Pid) (hp : p ∈ s.daemons) (hnone : ∀ q, a.begins q = 0) :
      Effect L s a { s with daemons := s.daemons.erase p, others := insert p s.others }
  | ended (p : Pid) (hp : p ∈ s.daemons ∨ p ∈ s.others) (hnone : ∀ q, a.begins q = 0) :
      Effect L s a (s.ended p)

section
variable {L : Limits} {s s' : State} {a : Action} {p : Pid}

theorem effect_program {x : Proc} (hp : p ∈ s.daemons)
    (hhandler : x.handler = (s.proc p).handler)
    (hpending : (s.proc p).pending = true → x.pending = true)
    (hopened : a.closes = false → (s.proc p).Opened → x.Opened)
    (hfinish : (s.proc p).finish = true → x.finish = true ∧
      a.begins p + x.passes ≤ (s.proc p).passes)
    (hother : ∀ q, q ≠ p → a.begins q = 0) : Effect L s a (s.set p x) := by
  refine .move p x s.pipe s.warnings hp (fun hold => .inl ?_) (fun _ => .inl ?_) (fun _ => .inl rfl)
    hopened hfinish hother
  · exact hold.imp hpending fun h => hhandler.trans h
  · rw [Proc.writes, Proc.writes, hhandler]

/-- It comes to `poll` only without `g_fFinish`. -/
theorem effect_goto {place : Place} (hp : p ∈ s.daemons)
    (hplace : (s.proc p).finish = true → place ≠ .poll) (hnone : ∀ q, a.begins q = 0) :
    Effect L s a (s.goto p place) := by
  refine effect_program hp rfl id (fun _ h => h) (fun hfinish => ⟨hfinish, ?_⟩) fun q _ => hnone q
  have hpasses : Proc.passes { s.proc p with place := place } = 0 := if_neg (hplace hfinish)
  rw [hnone, hpasses]
  exact Nat.zero_le _

theorem effect_handler {handler : Option Handler} {pending : Bool} {pipe warnings : ℕ}
    (hp : p ∈ s.daemons) (hnone : ∀ q, a.begins q = 0)
    (hcollects : (s.proc p).Collects →
      Proc.Collects { s.proc p with handler := handler, pending := pending } ∨
        ∀ c ∈ s.dead, s.parent c ≠ some p)
    (hpipe : (s.proc p).Opened →
      pipe + Proc.writes { s.proc p with handler := handler, pending := pending } ≤
        s.pipe + (s.proc p).writes ∨ pipe = 0)
    (hwarnings : (s.proc p).Opened →
      warnings = s.warnings ∨ L.pipe ≤ s.pipe ∧ (s.proc p).writes = 1) :
    Effect L s a { s.set p { s.proc p with handler := handler, pending := pending } with
      pipe := pipe, warnings := warnings } := by
  refine .move p _ pipe warnings hp hcollects hpipe hwarnings (fun _ h => h)
    (fun hfinish => ⟨hfinish, ?_⟩) fun q _ => hnone q
  rw [hnone, Nat.zero_add]
  exact Nat.le_refl _

theorem step_effect (h : step L s a = some s') : Effect L s a s' := by
  cases a with
  | sigchld p =>
    simp only [step, Option.ite_none_right_eq_some, Option.some.injEq] at h
    obtain ⟨⟨hp, -, hhandler⟩, rfl⟩ := h
    refine effect_handler hp (fun _ => rfl) (fun _ => .inl (.inr rfl)) (fun _ => .inl ?_)
      fun _ => .inl rfl
    simp [Proc.writes]
  | sigterm p =>
    simp only [step, Option.ite_none_right_eq_some, Option.some.injEq] at h
    obtain ⟨hp, rfl⟩ := h
    refine effect_program hp rfl id (fun _ h => h) (fun _ => ⟨rfl, ?_⟩) fun _ _ => rfl
    simp [Action.begins, Proc.passes]
  | waitpid p c =>
    cases c with
    | none =>
      simp only [step, Option.ite_none_right_eq_some, Option.some.injEq] at h
      obtain ⟨⟨hp, hnone⟩, rfl⟩ := h
      refine effect_handler hp.1 (fun _ => rfl) (fun _ => .inr hnone) (fun _ => .inl ?_)
        fun _ => .inl rfl
      simp [Proc.writes]
    | some c =>
      simp only [step, Option.ite_none_right_eq_some, Option.some.injEq] at h
      obtain ⟨-, rfl⟩ := h
      exact .collected c fun _ => rfl
  | readAll p =>
    simp only [step, Option.ite_none_right_eq_some] at h
    obtain ⟨⟨hp, hhandler⟩, h⟩ := h
    split at h
    · next hempty =>
      obtain rfl := Option.some.inj h
      refine effect_handler hp (fun _ => rfl) (fun hold => .inl (.inl ?_))
        (fun hopened => .inr (hempty.resolve_right (by simp [hopened.1]))) fun _ => .inl rfl
      exact hold.resolve_right (by simp [hhandler])
    · obtain rfl := Option.some.inj h
      exact .read 32 fun _ => rfl
  | write p =>
    simp only [step, Option.ite_none_right_eq_some] at h
    obtain ⟨⟨hp, hhandler⟩, h⟩ := h
    have hcollects : (s.proc p).Collects → Proc.Collects { s.proc p with handler := none } :=
      fun hold => .inl (hold.resolve_right (by simp [hhandler]))
    have hwrites : (s.proc p).writes = 1 := by simp [Proc.writes, hhandler]
    have hwarns : ((s.proc p).Opened → L.pipe ≤ s.pipe) →
        Effect L s (.write p) { s.set p { s.proc p with handler := none } with
          warnings := s.warnings + 1 } := by
      intro hfull
      refine effect_handler hp (fun _ => rfl) (fun hold => .inl (hcollects hold))
        (fun _ => .inl ?_) fun hopened => .inr ⟨hfull hopened, hwrites⟩
      simp [Proc.writes, State.set]
    split at h
    · next hclosed =>
      obtain rfl := Option.some.inj h
      exact hwarns fun hopened => absurd (hclosed.symm.trans hopened.2) (by simp)
    · split at h
      · obtain rfl := Option.some.inj h
        exact .ended p (.inl hp) fun _ => rfl
      · split at h
        · obtain rfl := Option.some.inj h
          refine effect_handler hp (fun _ => rfl) (fun hold => .inl (hcollects hold))
            (fun _ => .inl ?_) fun _ => .inl rfl
          rw [hwrites]
          simp [Proc.writes]
        · next hfull =>
          obtain rfl := Option.some.inj h
          exact hwarns fun _ => Nat.le_of_not_lt hfull
  | test p =>
    simp only [step, Option.ite_none_right_eq_some, Option.some.injEq] at h
    obtain ⟨hp, rfl⟩ := h
    refine effect_goto hp.1 (fun hfinish => ?_) fun _ => rfl
    simp [hfinish]
  | poll p pipe =>
    simp only [step, Option.ite_none_right_eq_some, Option.some.injEq] at h
    obtain ⟨⟨⟨hp, -, hplace⟩, -⟩, rfl⟩ := h
    refine effect_program hp rfl id (fun _ h => h) (fun hfinish => ⟨hfinish, ?_⟩)
      fun q hq => if_neg (Ne.symm hq)
    cases pipe <;> simp [Action.begins, Proc.passes, hplace]
  | pollFailed p =>
    simp only [step, Option.ite_none_right_eq_some, Option.some.injEq] at h
    obtain ⟨hp, rfl⟩ := h
    exact effect_goto hp.1 (fun _ => by simp) fun _ => rfl
  | read p =>
    simp only [step, Option.ite_none_right_eq_some] at h
    obtain ⟨hp, h⟩ := h
    split at h
    · obtain rfl := Option.some.inj h
      exact effect_goto hp.1 (fun _ => by simp) fun _ => rfl
    · obtain rfl := Option.some.inj h
      exact .read 1 fun _ => rfl
  | fork p =>
    simp only [step, Option.ite_none_right_eq_some, Option.some.injEq] at h
    obtain ⟨⟨hp, hroom⟩, rfl⟩ := h
    exact .forked p _ hp.1 hroom rfl id fun _ => rfl
  | popen p =>
    simp only [step, Option.ite_none_right_eq_some, Option.some.injEq] at h
    obtain ⟨⟨hp, hroom⟩, rfl⟩ := h
    exact .opened p hp.1 hroom fun _ => rfl
  | pclose p c =>
    simp only [step, Option.ite_none_right_eq_some, Option.some.injEq] at h
    obtain ⟨-, rfl⟩ := h
    exact .collected c fun _ => rfl
  | baseDeleted p =>
    simp only [step, Option.ite_none_right_eq_some, Option.some.injEq] at h
    obtain ⟨hp, rfl⟩ := h
    refine effect_program hp.1 rfl id (fun _ h => h) (fun _ => ⟨rfl, ?_⟩) fun _ _ => rfl
    simp [Action.begins, Proc.passes]
  | passed p =>
    simp only [step, Option.ite_none_right_eq_some, Option.some.injEq] at h
    obtain ⟨hp, rfl⟩ := h
    exact effect_goto hp.1 (fun _ => by simp) fun _ => rfl
  | thrown p =>
    simp only [step, Option.ite_none_right_eq_some, Option.some.injEq] at h
    obtain ⟨hp, rfl⟩ := h
    have hmem : p ∈ s.daemons := by
      rcases hp with hp | hp | hp <;> exact hp.1
    exact effect_goto hmem (fun _ => by simp) fun _ => rfl
  | closeRead p =>
    simp only [step, Option.ite_none_right_eq_some, Option.some.injEq] at h
    obtain ⟨⟨hp, -⟩, rfl⟩ := h
    refine effect_program hp.1 rfl id (fun hcloses => absurd hcloses (by simp [Action.closes]))
      (fun hfinish => ⟨hfinish, ?_⟩) fun _ _ => rfl
    simp [Action.begins, Proc.passes]
  | closeWrite p =>
    simp only [step, Option.ite_none_right_eq_some, Option.some.injEq] at h
    obtain ⟨⟨hp, -⟩, rfl⟩ := h
    refine effect_program hp.1 rfl id (fun hcloses => absurd hcloses (by simp [Action.closes]))
      (fun hfinish => ⟨hfinish, ?_⟩) fun _ _ => rfl
    simp [Action.begins, Proc.passes]
  | exec p =>
    simp only [step, Option.ite_none_right_eq_some, Option.some.injEq] at h
    obtain ⟨hp, rfl⟩ := h
    exact .replaced p hp.1 fun _ => rfl
  | system p succeeds =>
    simp only [step, Option.ite_none_right_eq_some, Option.some.injEq] at h
    obtain ⟨hp, rfl⟩ := h
    refine effect_program hp.1 rfl (fun _ => rfl) (fun _ h => h) (fun hfinish => ⟨hfinish, ?_⟩)
      fun _ _ => rfl
    cases succeeds <;> simp [Action.begins, Proc.passes]
  | exit p =>
    simp only [step, Option.ite_none_right_eq_some, Option.some.injEq] at h
    obtain ⟨hp, rfl⟩ := h
    exact .ended p hp fun _ => rfl

/-! ## Dead children -/

/-- The processes have numbers below `next`, and every process with a dead child has been told
about it or is collecting. -/
structure Covered (s : State) : Prop where
  dead : ∀ c, c ∈ s.daemons ∨ c ∈ s.others ∨ c ∈ s.dead → c < s.next
  parents : ∀ c q, s.parent c = some q → q < s.next
  collects : ∀ q ∈ s.daemons, ∀ c ∈ s.dead, s.parent c = some q → (s.proc q).Collects

theorem Covered.created (h : Covered s) (hp : p ∈ s.daemons) {proc : Pid → Proc}
    (hproc : ∀ q < s.next, proc q = s.proc q) {daemons others : Finset Pid}
    (hdaemons : daemons ⊆ insert s.next s.daemons) (hothers : others ⊆ insert s.next s.others) :
    Covered { s with
      proc := proc
      daemons := daemons
      others := others
      parent := Function.update s.parent s.next (some p)
      next := s.next + 1 } := by
  have hp := h.dead p (.inl hp)
  refine ⟨fun c hc => ?_, fun c q hq => ?_, fun q hq c hc hparent => ?_⟩
  · change c < s.next + 1
    rcases hc with hc | hc | hc
    · rcases Finset.mem_insert.mp (hdaemons hc) with rfl | hc
      · exact Nat.lt_succ_self _
      · exact Nat.lt_succ_of_lt (h.dead c (.inl hc))
    · rcases Finset.mem_insert.mp (hothers hc) with rfl | hc
      · exact Nat.lt_succ_self _
      · exact Nat.lt_succ_of_lt (h.dead c (.inr (.inl hc)))
    · exact Nat.lt_succ_of_lt (h.dead c (.inr (.inr hc)))
  · change q < s.next + 1
    by_cases hc : c = s.next
    · simp only [hc, Function.update_self, Option.some.injEq] at hq
      exact hq ▸ Nat.lt_succ_of_lt hp
    · simp only [Function.update_of_ne hc] at hq
      exact Nat.lt_succ_of_lt (h.parents c q hq)
  · have hlt : c < s.next := h.dead c (.inr (.inr hc))
    simp only [Function.update_of_ne (Nat.ne_of_lt hlt)] at hparent
    have hq' := h.parents c q hparent
    have hmem := (Finset.mem_insert.mp (hdaemons hq)).resolve_left (Nat.ne_of_lt hq')
    simp only [hproc q hq']
    exact h.collects q hmem c hc hparent

theorem Covered.ended (h : Covered s) (hp : p ∈ s.daemons ∨ p ∈ s.others) :
    Covered (s.ended p) := by
  have hgone : Covered { s with
      daemons := s.daemons.erase p
      others := s.others.erase p
      dead := s.dead.filter fun c => s.parent c ≠ some p
      parent := fun c => if s.parent c = some p then none else s.parent c } := by
    refine ⟨fun c hc => h.dead c ?_, fun c q hq => ?_, fun q hq c hc hparent => ?_⟩
    · refine hc.imp Finset.mem_of_mem_erase (Or.imp Finset.mem_of_mem_erase fun hc => ?_)
      exact (Finset.mem_filter.mp hc).1
    · simp only at hq
      split_ifs at hq
      exact h.parents c q hq
    · obtain ⟨hc, hne⟩ := Finset.mem_filter.mp hc
      simp only [if_neg hne] at hparent
      exact h.collects q (Finset.mem_of_mem_erase hq) c hc hparent
  unfold State.ended
  split
  · exact hgone
  · next q hq =>
    split_ifs with htold
    · refine ⟨fun c hc => ?_, hgone.parents, fun r hr c hc hparent => ?_⟩
      · simp only [State.set, Finset.mem_insert] at hc
        rcases hc with hc | hc | rfl | hc
        · exact hgone.dead c (.inl hc)
        · exact hgone.dead c (.inr (.inl hc))
        · exact h.dead c (hp.imp_right .inl)
        · exact hgone.dead c (.inr (.inr hc))
      · by_cases hrq : r = q
        · subst hrq
          exact .inl (by simp [State.set])
        · have hcp : c ≠ p := by
            rintro rfl
            have hparent : (if s.parent c = some c then none else s.parent c) = some r := hparent
            rw [hq] at hparent
            split_ifs at hparent
            exact hrq (Option.some.inj hparent).symm
          have hc := (Finset.mem_insert.mp hc).resolve_left hcp
          simpa [State.set, Function.update_of_ne hrq] using hgone.collects r hr c hc hparent
    · exact hgone

theorem Covered.step (s : State) (a : Action) (s' : State) (h : Covered s)
    (hstep : Signals.step L s a = some s') : Covered s' := by
  cases step_effect hstep with
  | move p x pipe warnings hp hcollects _ _ _ _ _ =>
    refine ⟨h.dead, h.parents, fun q hq c hc hparent => ?_⟩
    have hold := h.collects q hq c hc hparent
    by_cases hqp : q = p
    · subst hqp
      rcases hcollects hold with hx | hnone
      · simpa [State.set] using hx
      · exact absurd hparent (hnone c hc)
    · simpa [State.set, Function.update_of_ne hqp] using hold
  | read n _ => exact ⟨h.dead, h.parents, h.collects⟩
  | collected c _ =>
    exact ⟨fun q hq => h.dead q (hq.imp_right (Or.imp_right Finset.mem_of_mem_erase)), h.parents,
      fun q hq c hc => h.collects q hq c (Finset.mem_of_mem_erase hc)⟩
  | forked p x hp _ _ _ _ =>
    exact h.created hp (fun q hq => Function.update_of_ne (Nat.ne_of_lt hq) _ _)
      (Finset.Subset.refl _) (Finset.subset_insert _ _)
  | opened p hp _ _ =>
    exact h.created hp (fun _ _ => rfl) (Finset.subset_insert _ _) (Finset.Subset.refl _)
  | replaced p hp _ =>
    refine ⟨fun c hc => h.dead c ?_, h.parents,
      fun q hq => h.collects q (Finset.mem_of_mem_erase hq)⟩
    rcases hc with hc | hc | hc
    · exact .inl (Finset.mem_of_mem_erase hc)
    · rcases Finset.mem_insert.mp hc with rfl | hc
      · exact .inl hp
      · exact .inr (.inl hc)
    · exact .inr (.inr hc)
  | ended p hp _ => exact h.ended hp

theorem covered_start : Covered start := by
  refine ⟨fun c hc => ?_, fun c q hq => absurd hq (by simp [start]), fun q _ c hc => ?_⟩
  · simp only [start, Finset.mem_singleton, Finset.notMem_empty, or_false] at hc
    subst hc
    exact Nat.zero_lt_one
  · exact absurd hc (by simp [start])

/-- However signals, calls and ends of children come together: a process of the daemon that has no
SIGCHLD pending and is not in the loop of `waitpid` has no dead child. -/
theorem no_zombie_left {as : List Action} (hrun : Transition.run (Signals.step L) start as = some s)
    (hp : p ∈ s.daemons) (hpending : (s.proc p).pending = false)
    (hhandler : (s.proc p).handler ≠ some .waitpid) : ∀ c ∈ s.dead, s.parent c ≠ some p := by
  intro c hc hparent
  have h : Covered s := Transition.run_invariant Covered.step covered_start hrun
  rcases h.collects p hp c hc hparent with hcollects | hcollects
  · exact absurd (hpending.symm.trans hcollects) (by simp)
  · exact hhandler hcollects

/-! ## The pipe -/

def State.writes (s : State) : ℕ := ∑ p ∈ s.daemons, (s.proc p).writes

theorem Proc.writes_le (x : Proc) : x.writes ≤ 1 := by
  unfold Proc.writes
  split_ifs <;> simp

theorem State.writes_le (s : State) : s.writes ≤ s.daemons.card := by
  refine (Finset.sum_le_card_nsmul s.daemons _ 1 fun p _ => (s.proc p).writes_le).trans ?_
  simp

theorem writes_set (hp : p ∈ s.daemons) (x : Proc) :
    (s.set p x).writes + (s.proc p).writes = s.writes + x.writes := by
  have hold := Finset.add_sum_erase s.daemons (fun q => (s.proc q).writes) hp
  have hnew := Finset.add_sum_erase s.daemons (fun q => ((s.set p x).proc q).writes) hp
  have hrest : ∑ q ∈ s.daemons.erase p, ((s.set p x).proc q).writes =
      ∑ q ∈ s.daemons.erase p, (s.proc q).writes := by
    refine Finset.sum_congr rfl fun q hq => ?_
    simp only [State.set, Function.update_of_ne (Finset.ne_of_mem_erase hq)]
  have hself : ((s.set p x).proc p).writes = x.writes := by simp [State.set]
  unfold State.writes
  change ∑ q ∈ s.daemons, ((s.set p x).proc q).writes + _ = _
  omega

/-- A process that writes has seen the pipe empty, and only those that wrote together with it can
have filled it since. Nobody has closed the pipe. -/
structure Bounded (L : Limits) (s : State) : Prop extends Covered s where
  room : s.daemons.card + s.others.card ≤ L.procs
  bytes : s.pipe + s.writes ≤ L.procs
  warnings : s.warnings = 0
  opened : ∀ q ∈ s.daemons, (s.proc q).Opened

theorem Bounded.ended (h : Bounded L s) (hp : p ∈ s.daemons ∨ p ∈ s.others) :
    Bounded L (s.ended p) := by
  have hdaemons : (s.ended p).daemons = s.daemons.erase p := by
    unfold State.ended
    split
    · rfl
    · split_ifs <;> rfl
  have hothers : (s.ended p).others = s.others.erase p := by
    unfold State.ended
    split
    · rfl
    · split_ifs <;> rfl
  have hproc : ∀ q, ∃ pending, (s.ended p).proc q = { s.proc q with pending := pending } := by
    intro q
    unfold State.ended
    split
    · exact ⟨_, rfl⟩
    · next r _ =>
      split_ifs
      · by_cases hqr : q = r
        · subst hqr
          exact ⟨true, by simp [State.set]⟩
        · exact ⟨(s.proc q).pending, by simp [State.set, Function.update_of_ne hqr]⟩
      · exact ⟨_, rfl⟩
  have hwrites : ∀ q, ((s.ended p).proc q).writes = (s.proc q).writes := by
    intro q
    obtain ⟨pending, hq⟩ := hproc q
    rw [hq]
    rfl
  have hpipe : (s.ended p).pipe = s.pipe ∧ (s.ended p).warnings = s.warnings := by
    unfold State.ended
    split
    · exact ⟨rfl, rfl⟩
    · split_ifs <;> exact ⟨rfl, rfl⟩
  refine ⟨h.toCovered.ended hp, ?_, ?_, hpipe.2.trans h.warnings, fun q hq => ?_⟩
  · rw [hdaemons, hothers]
    have hd := Finset.card_erase_le (s := s.daemons) (a := p)
    have ho := Finset.card_erase_le (s := s.others) (a := p)
    have hroom := h.room
    omega
  · have hle : (s.ended p).writes ≤ s.writes := by
      unfold State.writes
      rw [hdaemons]
      simp only [hwrites]
      exact Finset.sum_le_sum_of_subset (Finset.erase_subset _ _)
    rw [hpipe.1]
    exact Nat.le_trans (Nat.add_le_add_left hle _) h.bytes
  · obtain ⟨pending, hproc⟩ := hproc q
    rw [hdaemons] at hq
    rw [hproc]
    exact h.opened q (Finset.mem_of_mem_erase hq)

theorem Bounded.step (hL : L.procs ≤ L.pipe) (s : State) (a : Action) (s' : State)
    (h : Bounded L s) (hopen : a.closes = false) (hstep : Signals.step L s a = some s') :
    Bounded L s' := by
  have hcovered : Covered s' := h.toCovered.step s a s' hstep
  have hroom := h.room
  have hbytes := h.bytes
  cases step_effect hstep with
  | move p x pipe warnings hp _ hpipe hwarnings hopened _ _ =>
    have hwrites := writes_set hp x
    have hp' := h.opened p hp
    refine ⟨hcovered, h.room, ?_, ?_, fun q hq => ?_⟩
    · change pipe + (s.set p x).writes ≤ L.procs
      rcases hpipe hp' with hpipe | rfl
      · omega
      · have hle : (s.set p x).writes ≤ s.daemons.card := (s.set p x).writes_le
        omega
    · rcases hwarnings hp' with hsame | ⟨hfull, hwrites₁⟩
      · exact hsame.trans h.warnings
      · have hle : (s.proc p).writes ≤ s.writes :=
          Finset.single_le_sum (f := fun q => (s.proc q).writes) (fun _ _ => Nat.zero_le _) hp
        omega
    · by_cases hqp : q = p
      · subst hqp
        simpa [State.set] using hopened hopen hp'
      · simpa [State.set, Function.update_of_ne hqp] using h.opened q hq
  | read n _ =>
    refine ⟨hcovered, h.room, ?_, h.warnings, h.opened⟩
    change s.pipe - n + s.writes ≤ L.procs
    omega
  | collected c _ => exact ⟨hcovered, h.room, h.bytes, h.warnings, h.opened⟩
  | forked p x hp hroom' hx hopened _ =>
    have hnot : s.next ∉ s.daemons := fun hmem => Nat.lt_irrefl _ (h.dead _ (.inl hmem))
    have hne : ∀ q ∈ s.daemons, q ≠ s.next := by
      rintro q hq rfl
      exact hnot hq
    refine ⟨hcovered, ?_, ?_, h.warnings, fun q hq => ?_⟩
    · change (insert s.next s.daemons).card + s.others.card ≤ L.procs
      rw [Finset.card_insert_of_notMem hnot]
      unfold State.HasRoom at hroom'
      omega
    · have hsame : ∑ q ∈ insert s.next s.daemons,
          (Function.update s.proc s.next x q).writes = s.writes := by
        rw [Finset.sum_insert hnot, Function.update_self, Proc.writes, hx, if_neg (by simp),
          Nat.zero_add]
        exact Finset.sum_congr rfl fun q hq => by rw [Function.update_of_ne (hne q hq)]
      change s.pipe + ∑ q ∈ insert s.next s.daemons, (Function.update s.proc s.next x q).writes ≤ _
      rw [hsame]
      exact h.bytes
    · rcases Finset.mem_insert.mp hq with rfl | hq
      · simpa using hopened (h.opened p hp)
      · simpa [Function.update_of_ne (hne q hq)] using h.opened q hq
  | opened p hp hroom' _ =>
    refine ⟨hcovered, ?_, h.bytes, h.warnings, h.opened⟩
    have hcard := Finset.card_insert_le s.next s.others
    unfold State.HasRoom at hroom'
    change s.daemons.card + (insert s.next s.others).card ≤ L.procs
    omega
  | replaced p hp _ =>
    refine ⟨hcovered, ?_, ?_, h.warnings, fun q hq => h.opened q (Finset.mem_of_mem_erase hq)⟩
    · have hcard := Finset.card_insert_le p s.others
      have herase := Finset.card_erase_add_one hp
      change (s.daemons.erase p).card + (insert p s.others).card ≤ L.procs
      omega
    · have hle : ∑ q ∈ s.daemons.erase p, (s.proc q).writes ≤ s.writes :=
        Finset.sum_le_sum_of_subset (Finset.erase_subset _ _)
      change s.pipe + ∑ q ∈ s.daemons.erase p, (s.proc q).writes ≤ L.procs
      omega
  | ended p hp _ => exact h.ended hp

/-- With no more processes than the pipe takes bytes every token is sent, as long as no process
closes the pipe. -/
theorem tokens_sent (hprocs : 0 < L.procs) (hpipe : L.procs ≤ L.pipe) {as : List Action}
    (hrun : Transition.run (Signals.step L) start as = some s)
    (hopen : ∀ a ∈ as, a.closes = false) : s.warnings = 0 ∧ s.pipe ≤ L.procs := by
  have hstart : Bounded L start := by
    refine ⟨covered_start, ?_, ?_, rfl, fun _ _ => ⟨rfl, rfl⟩⟩
    · simp only [start, Finset.card_singleton, Finset.card_empty]
      omega
    · simp [start, State.writes, Proc.writes]
  have h := Transition.run_invariant_of_meets (P := fun _ a => a.closes = false)
    (Bounded.step hpipe) hstart (Transition.meets_of_forall fun a ha _ => hopen a ha) hrun
  have hbytes := h.bytes
  exact ⟨h.warnings, by omega⟩

/-! ## The end of the main loop -/

def begun (p : Pid) (as : List Action) : ℕ := as.foldr (fun a n => a.begins p + n) 0

theorem finish_step (hp : p < s.next) (hfinish : (s.proc p).finish = true)
    (h : step L s a = some s') :
    p < s'.next ∧ (s'.proc p).finish = true ∧
      a.begins p + (s'.proc p).passes ≤ (s.proc p).passes := by
  have hsame : ∀ q, a.begins q = 0 → a.begins q + (s.proc p).passes ≤ (s.proc p).passes :=
    fun q hq => by rw [hq, Nat.zero_add]
  cases step_effect h with
  | move q x pipe warnings _ _ _ _ _ hself hother =>
    by_cases hq : p = q
    · subst hq
      refine ⟨hp, ?_, ?_⟩ <;> simp only [State.set, Function.update_self]
      · exact (hself hfinish).1
      · exact (hself hfinish).2
    · refine ⟨hp, ?_, ?_⟩ <;> simp only [State.set, Function.update_of_ne hq]
      · exact hfinish
      · exact hsame p (hother p hq)
  | read n hnone => exact ⟨hp, hfinish, hsame p (hnone p)⟩
  | collected c hnone => exact ⟨hp, hfinish, hsame p (hnone p)⟩
  | forked q x _ _ _ _ hnone =>
    refine ⟨Nat.lt_succ_of_lt hp, ?_, ?_⟩ <;> simp only [Function.update_of_ne (Nat.ne_of_lt hp)]
    · exact hfinish
    · exact hsame p (hnone p)
  | opened q _ _ hnone => exact ⟨Nat.lt_succ_of_lt hp, hfinish, hsame p (hnone p)⟩
  | replaced q _ hnone => exact ⟨hp, hfinish, hsame p (hnone p)⟩
  | ended q _ hnone =>
    unfold State.ended
    split
    · exact ⟨hp, hfinish, hsame p (hnone p)⟩
    · next r _ =>
      split_ifs
      · by_cases hr : p = r
        · subst hr
          refine ⟨hp, ?_, ?_⟩ <;> simp only [State.set, Function.update_self]
          · exact hfinish
          · exact hsame p (hnone p)
        · refine ⟨hp, ?_, ?_⟩ <;> simp only [State.set, Function.update_of_ne hr]
          · exact hfinish
          · exact hsame p (hnone p)
      · exact ⟨hp, hfinish, hsame p (hnone p)⟩

theorem begun_of_finish {as : List Action} (hp : p < s.next) (hfinish : (s.proc p).finish = true)
    (hrun : Transition.run (Signals.step L) s as = some s') :
    begun p as ≤ (s.proc p).passes := by
  induction as generalizing s with
  | nil => exact Nat.zero_le _
  | cons a as ih =>
    obtain ⟨s₁, hstep, hrest⟩ := Transition.run_cons_eq_some.mp hrun
    obtain ⟨hp₁, hfinish₁, hpasses⟩ := finish_step hp hfinish hstep
    have hlater := ih hp₁ hfinish₁ hrest
    rw [begun, List.foldr_cons]
    unfold begun at hlater
    omega

/-- After SIGTERM a process begins at most one more pass, and only if it has already come to
`poll`. -/
theorem passes_after_sigterm {as as' : List Action}
    (hrun : Transition.run (Signals.step L) start as = some s)
    (hrun' : Transition.run (Signals.step L) s (.sigterm p :: as') = some s') :
    begun p as' ≤ 1 ∧ ((s.proc p).place ≠ .poll → begun p as' = 0) := by
  have hcovered : Covered s := Transition.run_invariant Covered.step covered_start hrun
  obtain ⟨s₁, hstep, hrest⟩ := Transition.run_cons_eq_some.mp hrun'
  simp only [step, Option.ite_none_right_eq_some, Option.some.injEq] at hstep
  obtain ⟨hp, rfl⟩ := hstep
  have hself : ∀ x, (s.set p x).proc p = x := fun x => by simp [State.set]
  have hfinish : ((s.set p { s.proc p with finish := true }).proc p).finish = true := by
    rw [hself]
  have hlt : p < (s.set p { s.proc p with finish := true }).next := hcovered.dead p (.inl hp)
  have hbegun := begun_of_finish hlt hfinish hrest
  rw [hself] at hbegun
  unfold Proc.passes at hbegun
  constructor
  · refine hbegun.trans ?_
    split_ifs <;> simp
  · intro hplace
    rw [if_neg hplace] at hbegun
    exact Nat.le_zero.mp hbegun

end

/-! ## A run -/

/-- Two children end before SIGCHLD is delivered, once for both, and the main loop is ended behind
its `poll`. -/
def twoChildren : List Action :=
  [.test 0, .poll 0 false, .fork 0, .fork 0, .exec 1, .exec 2, .exit 1, .exit 2, .sigchld 0,
    .waitpid 0 (some 2), .waitpid 0 (some 1), .waitpid 0 none]

theorem no_zombie_left_twoChildren : ∃ s,
    Transition.run (step ⟨3, 3⟩) start twoChildren = some s ∧
    ∀ c ∈ s.dead, s.parent c ≠ some 0 := by
  have hrun : Transition.run (step ⟨3, 3⟩) start twoChildren = some _ := rfl
  exact ⟨_, hrun, no_zombie_left hrun (by decide) rfl (by decide)⟩

theorem tokens_sent_twoChildren : ∃ s,
    Transition.run (step ⟨3, 3⟩) start (twoChildren ++ [.readAll 0, .write 0]) = some s ∧
    s.pipe = 1 ∧ s.warnings = 0 ∧ s.pipe ≤ 3 := by
  have hrun : Transition.run (step ⟨3, 3⟩) start (twoChildren ++ [.readAll 0, .write 0]) =
    some _ := rfl
  exact ⟨_, hrun, rfl, tokens_sent (by decide) (by decide) hrun (by decide)⟩

theorem passes_after_sigterm_poll : ∃ s s',
    Transition.run (step ⟨3, 3⟩) start [.test 0] = some s ∧
    Transition.run (step ⟨3, 3⟩) s [.sigterm 0, .poll 0 false, .passed 0, .test 0] = some s' ∧
    (begun 0 [.poll 0 false, .passed 0, .test 0] ≤ 1 ∧
      ((s.proc 0).place ≠ .poll → begun 0 [.poll 0 false, .passed 0, .test 0] = 0)) := by
  have hrun : Transition.run (step ⟨3, 3⟩) start [.test 0] = some _ := rfl
  exact ⟨_, _, hrun, rfl, passes_after_sigterm hrun rfl⟩

end Incron.Signals
