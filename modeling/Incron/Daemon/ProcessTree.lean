import Incron.Daemon.Runs
import Incron.Lib.Pool

/-! The daemon and the processes that `OnEvent` forks: a child ends or returns into the draining
loop with its copy of the queue. -/
namespace Incron.Daemon
open Hoare Pool

/-! ## The child -/

structure Passwd where
  name : Str
  uid : ℕ
  gid : ℕ
  dir : Str
  shell : Str

structure ChildCalls where
  /-- The status of the command, -1 when no shell could be started. -/
  system : Str → ℤ
  getpwnam : Str → Option Passwd
  setgid : ℕ → ℤ
  initgroups : Str → ℕ → ℤ
  setuid : ℕ → ℤ
  clearenv : ℤ
  setenv : Str → Str → ℤ
  /-- Whether `execlp` replaces the program; it returns otherwise. -/
  execlp : Str → List Str → Bool

inductive Ended where
  | exec (path : Str) (argv : List Str)
  | exit (status : ℤ)
  deriving DecidableEq

def defaultPath : Str := "/usr/local/bin:/usr/bin:/bin:/usr/X11R6/bin".toList

def bash : Str := "/bin/bash".toList

def environment (pwd : Passwd) : List (Str × Str) :=
  [("LOGNAME".toList, pwd.name), ("USER".toList, pwd.name), ("USERNAME".toList, pwd.name),
    ("HOME".toList, pwd.dir), ("SHELL".toList, pwd.shell), ("PATH".toList, defaultPath)]

/-- The label `failed`. -/
def failed : Except Ended Unit := .error (.exit 1)

/-- `UserTable::RunAsUser`; it has returned when the result is `ok`. -/
def runAsUser (t : UserTable) (c : ChildCalls) (cmd : Str) : Except Ended Unit :=
  match c.getpwnam t.user with
  | none => failed
  | some pwd =>
    if c.setgid pwd.gid ≠ 0 ∨ c.initgroups t.user pwd.gid ≠ 0 ∨ c.setuid pwd.uid ≠ 0 then failed
    else if pwd.uid ≠ 0 ∧
        (c.clearenv ≠ 0 ∨ ∃ v ∈ environment pwd, c.setenv v.1 v.2 ≠ 0) then failed
    else if c.execlp bash [bash, "-c".toList, cmd] then
      .error (.exec bash [bash, "-c".toList, cmd])
    else failed

/-- `OnEvent` after the fork in the child; it has returned when the result is `ok`. -/
def onEventChild (t : UserTable) (c : ChildCalls) (cmd : Str) : Except Ended Unit :=
  if t.fSysTable then
    if c.system cmd ≠ 0 then .error (.exit 1) else .ok ()
  else runAsUser t c cmd

def runsCommand (t : UserTable) (c : ChildCalls) (cmd : Str) : Bool :=
  if t.fSysTable then c.system cmd ≠ -1
  else runAsUser t c cmd = .error (.exec bash [bash, "-c".toList, cmd])

theorem runAsUser_ne_ok (t : UserTable) (c : ChildCalls) (cmd : Str) :
    runAsUser t c cmd ≠ .ok () := by
  unfold runAsUser failed
  split
  · simp
  · split_ifs <;> simp

/-- A child returns from `OnEvent` exactly when the command of a system table succeeds. -/
theorem onEventChild_eq_ok {t : UserTable} {c : ChildCalls} {cmd : Str} :
    onEventChild t c cmd = .ok () ↔ t.fSysTable = true ∧ c.system cmd = 0 := by
  unfold onEventChild
  split_ifs with hsys hstatus
  · simp [hstatus]
  · simp [hsys, not_not.mp hstatus]
  · simp [hsys, runAsUser_ne_ok]

/-! ## Processes -/

inductive Place where
  /-- In the main loop. -/
  | polling
  /-- In the draining loop of the node. -/
  | draining (it : ℕ)
  /-- Behind the fork, with the command for an event, inside the draining loop. -/
  | child (it : ℕ) (cmd : Str) (serial : ℕ)
  /-- It has ended, or another program has replaced the daemon's. -/
  | ended
  deriving DecidableEq

def Place.dispatching : Place → Bool
  | .polling | .draining _ => true
  | _ => false

/-- The memory of a process and the numbers of the events in its queue; the events are numbered
in the order in which the processes read them. -/
structure Proc (κ : Type) where
  memory : DaemonState κ
  serials : List ℕ
  place : Place

inductive ProcAction where
  | startEvents
  | round
  | reload
  | finish
  | child (c : ChildCalls)

variable {κ : Type}

def Proc.ended (x : Proc κ) : Proc κ := { x with place := .ended }

/-- The place behind `startEvents`. -/
def placeOf : Option ℕ → Place
  | none => .polling
  | some it => .draining it

/-- The child has come back from `system` or `RunAsUser`, or has ended in one of them. -/
def Proc.afterChild (t : UserTable) (k : κ) (x : Proc κ) (c : ChildCalls) (it : ℕ) (cmd : Str)
    (serial : ℕ) : Outcome κ (Proc κ) where
  shared := k
  proc := { x with
    place := match onEventChild t c cmd with
      | .ok () => .draining it
      | .error _ => .ended }
  spent := if runsCommand t c cmd then [serial] else []

/-- A step of one process with the state of the system and the next event number. An exception
ends the process. -/
def procStep [System κ] (t : UserTable) (fd : ℕ) (k : κ) (next : ℕ) (x : Proc κ)
    (a : ProcAction) : Option (Outcome κ (Proc κ)) :=
  match a, x.place with
  | .startEvents, .polling =>
    match startEvents fd { x.memory with kernel := k } with
    | .ok it s =>
      let read := s.inotify.events.length - x.memory.inotify.events.length
      some {
        shared := s.kernel
        proc := ⟨s, x.serials ++ List.range' next read, placeOf it⟩
        issued := read }
    | .error _ s => some { shared := s.kernel, proc := x.ended }
  | .round, .draining it =>
    match round it { x.memory with kernel := k } with
    | .ok none s => some { shared := s.kernel, proc := ⟨s, x.serials, .polling⟩ }
    | .ok (some (_, cmd)) s =>
      some {
        shared := s.kernel
        proc := ⟨s, x.serials.tail, .draining it⟩
        forked := cmd.toList.map fun cmd =>
          ⟨s, x.serials.tail, .child it cmd (x.serials.headD 0)⟩ }
    | .error _ s => some { shared := s.kernel, proc := x.ended }
  | .reload, .polling =>
    match reload t { x.memory with kernel := k } with
    | .ok () s => some { shared := s.kernel, proc := { x with memory := s } }
    | .error _ s => some { shared := s.kernel, proc := x.ended }
  | .finish, .polling => some { shared := k, proc := x.ended }
  | .child c, .child it cmd serial => some (x.afterChild t k c it cmd serial)
  | _, _ => none

/-- The processes that come from the daemon. -/
abbrev Tree (κ : Type) := Pool.State κ (Proc κ)

def treeStep [System κ] (t : UserTable) (fd : ℕ) :
    Tree κ → Pool.Action κ ProcAction → Option (Tree κ) :=
  Pool.step (procStep t fd)

/-- The daemon alone, with its first table loaded. -/
def tree (s : DaemonState κ) : Tree κ :=
  { shared := s.kernel, procs := [⟨s, [], .polling⟩], next := 0, spent := [] }

/-- Only the daemon runs the dispatch loop, and no event has caused two runs of its command. -/
def Contained (τ : Tree κ) : Prop :=
  (∀ p x, τ.procs[p]? = some x → x.place.dispatching = true → p = 0) ∧ τ.spent.Nodup

/-- The command of a child succeeds that `system` runs for a system table. -/
def SystemSucceeds (t : UserTable) (τ : Tree κ) : Pool.Action κ ProcAction → Prop
  | .proc p (.child c) => t.fSysTable = true ∧ ∃ x it cmd serial, τ.procs[p]? = some x ∧
      x.place = .child it cmd serial ∧ c.system cmd = 0
  | _ => False

/-! ## What a step keeps -/

/-- The events whose command the process can still run, when a child does not return. -/
def Proc.owned (x : Proc κ) : List ℕ :=
  match x.place with
  | .polling | .draining _ => x.serials
  | .child _ _ serial => [serial]
  | .ended => []

/-- The daemon itself: its queue is numbered. -/
def IsDaemon (t : UserTable) (fd : ℕ) (x : Proc κ) : Prop :=
  match x.place with
  | .polling => Running t fd (x.memory, none) ∧ x.serials = []
  | .draining it => Running t fd (x.memory, some it) ∧
      x.serials.length = x.memory.inotify.events.length
  | .child .. => False
  | .ended => True

/-- A child that has not returned. -/
def IsChild (x : Proc κ) : Prop :=
  x.place.dispatching = false

/-- The daemon is the first process, and all others are children that do not return. -/
def Role (t : UserTable) (fd : ℕ) (p : ℕ) (x : Proc κ) : Prop :=
  if p = 0 then IsDaemon t fd x else IsChild x

structure Controlled (t : UserTable) (fd : ℕ) (τ : Tree κ) : Prop where
  each : Each (Role t fd) τ
  ledger : Ledger Proc.owned τ

theorem Controlled.contained {t : UserTable} {fd : ℕ} {τ : Tree κ} (h : Controlled t fd τ) :
    Contained τ := by
  refine ⟨fun p x hx hdispatching => ?_, h.ledger.spent_nodup⟩
  by_contra hp
  have hchild := h.each p x hx
  rw [Role, if_neg hp, IsChild, hdispatching] at hchild
  exact absurd hchild (by simp)

variable [System κ] {t : UserTable} {fd : ℕ} {k : κ} {next : ℕ} {x : Proc κ}
  {o : Outcome κ (Proc κ)}

/-- A process with its children that keeps the roles and copies no event. -/
structure Kept (t : UserTable) (fd p next : ℕ) (x : Proc κ) (o : Outcome κ (Proc κ)) : Prop where
  proc : Role t fd p o.proc
  forked : ∀ y ∈ o.forked, IsChild y
  balanced : Balanced Proc.owned next x o

omit [System κ] in
private theorem kept_ended (p : ℕ) : Kept t fd p next x { shared := k, proc := x.ended } := by
  refine ⟨?_, by simp, fun n => ?_⟩
  · unfold Role
    split_ifs
    · exact trivial
    · rfl
  · simp [Proc.owned, Proc.ended]

theorem kept_startEvents (h : IsDaemon t fd x) (hplace : x.place = .polling)
    (hstep : procStep t fd k next x .startEvents = some o) : Kept t fd 0 next x o := by
  unfold IsDaemon at h
  rw [hplace] at h
  obtain ⟨hrunning, hserials⟩ := h
  have hidle : x.memory.inotify.events = [] := hrunning.idle rfl
  unfold procStep at hstep
  rw [hplace] at hstep
  simp only at hstep
  split at hstep
  · next it s hx =>
    obtain ⟨hrunning', n, rfl, -, -⟩ := (post_startEvents (hrunning.kernel k).loaded).ok hx
    obtain rfl := Option.some.inj hstep
    refine ⟨⟨hrunning', ?_⟩, by simp, fun m => ?_⟩
    · simp [hserials, hidle]
    · simp [Proc.owned, placeOf, hplace]
  · obtain rfl := Option.some.inj hstep
    exact kept_ended 0

theorem kept_round {it : ℕ} (h : IsDaemon t fd x) (hplace : x.place = .draining it)
    (hstep : procStep t fd k next x .round = some o) : Kept t fd 0 next x o := by
  unfold IsDaemon at h
  rw [hplace] at h
  obtain ⟨hrunning, hserials⟩ := h
  have hround := (hrunning.kernel k).post_round
  unfold procStep at hstep
  rw [hplace] at hstep
  simp only at hstep
  split at hstep
  · next s hx =>
    obtain ⟨hrunning', hevents⟩ := hround.ok hx
    obtain rfl := Option.some.inj hstep
    have hidle : s.inotify.events = [] := hrunning'.idle rfl
    have hnil : x.serials = [] := by
      rw [← List.length_eq_zero_iff, hserials]
      simpa [hidle] using hevents
    refine ⟨⟨hrunning', hnil⟩, by simp, fun m => ?_⟩
    simp [Proc.owned, hplace]
  · next e cmd s hx =>
    obtain ⟨hrunning', hevents⟩ := hround.ok hx
    obtain rfl := Option.some.inj hstep
    have hevents : x.memory.inotify.events = e :: s.inotify.events := hevents
    rw [hevents, List.length_cons] at hserials
    obtain ⟨serial, rest, hcons⟩ := List.exists_cons_of_length_eq_add_one hserials
    rw [hcons, List.length_cons, Nat.add_right_cancel_iff] at hserials
    refine ⟨⟨hrunning', ?_⟩, ?_, fun m => ?_⟩
    · rw [hcons]
      exact hserials
    · simp [IsChild, Place.dispatching]
    · -- the number of the event goes to the child, if there is one
      cases cmd <;> simp [Proc.owned, hplace, hcons, List.count_cons]
  · obtain rfl := Option.some.inj hstep
    exact kept_ended 0

theorem kept_reload (h : IsDaemon t fd x) (hplace : x.place = .polling)
    (hstep : procStep t fd k next x .reload = some o) : Kept t fd 0 next x o := by
  unfold IsDaemon at h
  rw [hplace] at h
  obtain ⟨hrunning, hserials⟩ := h
  unfold procStep at hstep
  rw [hplace] at hstep
  simp only at hstep
  split at hstep
  · next s hx =>
    have hrunning' := (hrunning.kernel k).post_reload.ok hx
    obtain rfl := Option.some.inj hstep
    refine ⟨⟨hrunning', hserials⟩, by simp, fun m => ?_⟩
    simp [Proc.owned, hplace]
  · obtain rfl := Option.some.inj hstep
    exact kept_ended 0

theorem procStep_cases {a : ProcAction} (hstep : procStep t fd k next x a = some o) :
    (a = .startEvents ∧ x.place = .polling) ∨
    (a = .round ∧ ∃ it, x.place = .draining it) ∨
    (a = .reload ∧ x.place = .polling) ∨
    (a = .finish ∧ x.place = .polling ∧ o = { shared := k, proc := x.ended }) ∨
    ∃ c it cmd serial, a = .child c ∧ x.place = .child it cmd serial ∧
      o = x.afterChild t k c it cmd serial := by
  unfold procStep at hstep
  split at hstep
  · next hplace => exact Or.inl ⟨rfl, hplace⟩
  · next it hplace => exact Or.inr (Or.inl ⟨rfl, it, hplace⟩)
  · next hplace => exact Or.inr (Or.inr (Or.inl ⟨rfl, hplace⟩))
  · next hplace =>
    exact Or.inr (Or.inr (Or.inr (Or.inl ⟨rfl, hplace, (Option.some.inj hstep).symm⟩)))
  · next c it cmd serial hplace =>
    exact Or.inr (Or.inr (Or.inr (Or.inr
      ⟨c, it, cmd, serial, rfl, hplace, (Option.some.inj hstep).symm⟩)))
  · exact absurd hstep (by simp)

theorem IsDaemon.kept (h : IsDaemon t fd x) {a : ProcAction}
    (hstep : procStep t fd k next x a = some o) : Kept t fd 0 next x o := by
  rcases procStep_cases hstep with ⟨rfl, hplace⟩ | ⟨rfl, it, hplace⟩ | ⟨rfl, hplace⟩ |
    ⟨rfl, hplace, rfl⟩ | ⟨c, it, cmd, serial, rfl, hplace, rfl⟩
  · exact kept_startEvents h hplace hstep
  · exact kept_round h hplace hstep
  · exact kept_reload h hplace hstep
  · exact kept_ended 0
  · rw [IsDaemon, hplace] at h
    exact h.elim

/-- A child ends, unless it has run the command of a system table with success. -/
theorem IsChild.kept (h : IsChild x) {p : ℕ} (hp : p ≠ 0) {a : ProcAction}
    (hstep : procStep t fd k next x a = some o)
    (hfails : ∀ c it cmd serial, a = .child c → x.place = .child it cmd serial →
      onEventChild t c cmd ≠ .ok ()) : Kept t fd p next x o := by
  rcases procStep_cases hstep with ⟨rfl, hplace⟩ | ⟨rfl, it, hplace⟩ | ⟨rfl, hplace⟩ |
    ⟨rfl, hplace, rfl⟩ | ⟨c, it, cmd, serial, rfl, hplace, rfl⟩
  · rw [IsChild, hplace] at h
    exact absurd h (by simp [Place.dispatching])
  · rw [IsChild, hplace] at h
    exact absurd h (by simp [Place.dispatching])
  · rw [IsChild, hplace] at h
    exact absurd h (by simp [Place.dispatching])
  · exact kept_ended p
  · cases hends : onEventChild t c cmd with
    | ok u => exact absurd hends (hfails c it cmd serial rfl hplace)
    | error e =>
      refine ⟨?_, by simp [Proc.afterChild], fun m => ?_⟩
      · rw [Role, if_neg hp, IsChild, Proc.afterChild, hends]
        rfl
      · cases hruns : runsCommand t c cmd <;>
          simp [Proc.owned, Proc.afterChild, hends, hruns, hplace]

/-! ## Runs -/

theorem Controlled.step {τ τ' : Tree κ} (h : Controlled t fd τ) {a : Pool.Action κ ProcAction}
    (hfails : ¬ SystemSucceeds t τ a) (hstep : treeStep t fd τ a = some τ') :
    Controlled t fd τ' := by
  cases a with
  | world k =>
    obtain rfl := Option.some.inj hstep
    exact ⟨h.each, ⟨h.ledger.nodup, h.ledger.issued⟩⟩
  | proc p a =>
    obtain ⟨x, o, hx, ho, rfl⟩ := step_proc_eq_some.mp hstep
    have hrole := h.each p x hx
    have hkept : Kept t fd p τ.next x o := by
      unfold Role at hrole
      split_ifs at hrole with hp
      · subst hp
        exact hrole.kept ho
      · refine hrole.kept hp ho fun c it cmd serial ha hplace hok => hfails ?_
        subst ha
        obtain ⟨hsys, hzero⟩ := onEventChild_eq_ok.mp hok
        exact ⟨hsys, x, it, cmd, serial, hx, hplace, hzero⟩
    refine ⟨h.each.after hx hkept.proc fun q hq y hy => ?_, h.ledger.after hx hkept.balanced⟩
    rw [Role, if_neg hq]
    exact hkept.forked y hy

omit [System κ] in
theorem Running.controlled {s : DaemonState κ} (h : Running t fd (s, none)) :
    Controlled t fd (tree s) := by
  constructor
  · intro p x hx
    cases p with
    | zero =>
      obtain rfl := Option.some.inj hx
      exact ⟨h, rfl⟩
    | succ p => exact absurd hx (by simp [tree])
  · exact ⟨List.nodup_nil, fun n hn => absurd hn (by simp [State.tickets, tree, Proc.owned])⟩

/-- A child that returns from `OnEvent` runs the dispatch loop. -/
theorem Controlled.not_contained {τ : Tree κ} (h : Controlled t fd τ)
    {a : Pool.Action κ ProcAction} (hsucceeds : SystemSucceeds t τ a) :
    ∃ τ', treeStep t fd τ a = some τ' ∧ ¬ Contained τ' := by
  cases a with
  | world k => exact hsucceeds.elim
  | proc p a =>
    cases a with
    | startEvents | round | reload | finish => exact hsucceeds.elim
    | child c =>
      obtain ⟨hsys, x, it, cmd, serial, hx, hplace, hzero⟩ := hsucceeds
      have hok := onEventChild_eq_ok.mpr ⟨hsys, hzero⟩
      have hp : p ≠ 0 := by
        rintro rfl
        have hdaemon : IsDaemon t fd x := h.each 0 x hx
        rwa [IsDaemon, hplace] at hdaemon
      have hstep : procStep t fd τ.shared τ.next x (.child c) =
          some (x.afterChild t τ.shared c it cmd serial) := by
        unfold procStep
        rw [hplace]
      have hlt : p < τ.procs.length := (List.getElem?_eq_some_iff.mp hx).1
      refine ⟨_, step_proc_eq_some.mpr ⟨x, _, hx, hstep, rfl⟩, fun hcon => hp ?_⟩
      refine hcon.1 p (x.afterChild t τ.shared c it cmd serial).proc ?_ ?_
      · rw [State.after, List.getElem?_append_left (by rwa [List.length_set]),
          List.getElem?_set_self hlt]
      · rw [Proc.afterChild, hok]
        rfl

/-- In a run the daemon stays the only process in the dispatch loop, and every event causes at
most one run of its command, exactly as long as no command that `system` runs for a system table
succeeds. -/
theorem contained_iff {s₀ : DaemonState κ} (hs₀ : Started t fd s₀)
    (as : List (Pool.Action κ ProcAction)) :
    Transition.Always (treeStep t fd) Contained (tree s₀) as ↔
      Transition.Meets (treeStep t fd) (fun τ a => ¬ SystemSucceeds t τ a) (tree s₀) as := by
  have hinit : Controlled t fd (tree s₀) := hs₀.running.controlled
  rw [Transition.always_iff_meets, Transition.meets_congr (I := Controlled t fd)
    (fun τ a h => ?_) (fun τ a τ' h hfails hstep => h.step hfails hstep) hinit]
  · exact and_iff_right hinit.contained
  · constructor
    · intro hall hsucceeds
      obtain ⟨τ', hτ', hnot⟩ := h.not_contained hsucceeds
      exact hnot (hall τ' hτ')
    · intro hfails τ' hstep
      exact (h.step hfails hstep).contained

/-! ## Two files -/

def succeeding : ChildCalls where
  system _ := 0
  getpwnam _ := none
  setgid _ := 0
  initgroups _ _ := 0
  setuid _ := 0
  clearenv := 0
  setenv _ _ := 0
  execlp _ _ := true

/-- Two files are created. The child for the first one handles the second one as well. -/
def twoFiles (k : SmallSystem) : List (Pool.Action SmallSystem ProcAction) :=
  [.world { k with pending := ["f", "g"].map fun name =>
      { wd := some 0, mask := inCreate, name := name.toList } },
    .proc 0 .startEvents, .proc 0 .round, .proc 1 (.child succeeding), .proc 1 .round,
    .proc 0 .round, .proc 2 (.child succeeding), .proc 3 (.child succeeding)]

theorem contained_twoFiles : ∃ s₀, start systemTable oneEntry = some s₀ ∧
    (Transition.Always (treeStep systemTable 3) Contained (tree s₀) (twoFiles s₀.kernel) ↔
      Transition.Meets (treeStep systemTable 3) (fun τ a => ¬ SystemSucceeds systemTable τ a)
        (tree s₀) (twoFiles s₀.kernel)) := by
  obtain ⟨s₀, hs₀⟩ : ∃ s₀, start systemTable oneEntry = some s₀ :=
    Option.isSome_iff_exists.mp (by decide +kernel)
  exact ⟨s₀, hs₀, contained_iff (started_of_start hs₀) _⟩

/-- The command for the second file runs twice. -/
theorem not_contained_twoFiles : ∃ s₀, start systemTable oneEntry = some s₀ ∧
    ¬ Transition.Always (treeStep systemTable 3) Contained (tree s₀) (twoFiles s₀.kernel) := by
  obtain ⟨s₀, hs₀⟩ : ∃ s₀, start systemTable oneEntry = some s₀ :=
    Option.isSome_iff_exists.mp (by decide +kernel)
  have hspent : ((start systemTable oneEntry).bind fun s₀ =>
      (Transition.run (treeStep systemTable 3) (tree s₀) (twoFiles s₀.kernel)).map
        State.spent) = some [0, 1, 1] := by
    decide +kernel
  rw [hs₀, Option.bind_some] at hspent
  obtain ⟨τ, hrun, hτ⟩ := Option.map_eq_some_iff.mp hspent
  refine ⟨s₀, hs₀, fun h => ?_⟩
  have hnodup := (h.run hrun).2
  rw [hτ] at hnodup
  exact absurd hnodup (by decide)

end Incron.Daemon
