import Incron.Daemon.Endings
import Incron.Daemon.ProcessTree
import Incron.Incrontab.Main
import Incron.Instance.Recovery

/-! The program incrond (`main` in icd-main.cpp): the command line, the lock, the dispatcher with
its loop, and the end. Any number of processes run it on one lock file. -/
namespace Incron

namespace AppArgs

def incrondOptions : List Declaration :=
  [⟨"about".toList, '?', .noValue⟩, ⟨"help".toList, 'h', .noValue⟩,
    ⟨"foreground".toList, 'n', .noValue⟩, ⟨"kill".toList, 'k', .noValue⟩,
    ⟨"config".toList, 'f', .mandatoryValue⟩, ⟨"version".toList, 'V', .noValue⟩]

end AppArgs

namespace AppInstance

/-- The path that the constructor makes of a name and a directory. -/
def lockPath (rName rBase : Str) : Str :=
  let base := if rBase = [] then "/var/run".toList else rBase
  if base.getLast? = some '/' then base ++ rName ++ ".pid".toList
  else base ++ "/".toList ++ rName ++ ".pid".toList

end AppInstance

namespace Incrond
open AppInstance Daemon Dispatch Management

/-! ## Before the lock -/

/-- The readable files, `access` with `R_OK` for a directory, whether `daemon` succeeds, and the
result of `Terminate` for a lock file. -/
structure MainCalls where
  files : Str → Option Str
  access : Str → Bool
  daemon : Bool
  terminate : Str → Except ℕ Bool

/-- How `main` comes to an end before `Lock`, or the call of `Lock`. -/
inductive Opening where
  | exit (status : ℕ)
  /-- An exception that nobody catches. -/
  | terminate
  | lock (path sysBase userBase : Str)
  deriving DecidableEq, Repr

/-- `main` up to `Lock`. After `daemon` this is the process that goes on. -/
def opening (sys : MainCalls) (argv : List Str) : Opening :=
  match ({} : AppArgs).addOptions AppArgs.incrondOptions with
  | none => .exit 1
  | some A₀ =>
    let A := A₀.parse argv
    if A.existsOption "help".toList || A.existsOption "about".toList ||
        A.existsOption "version".toList then .exit 0
    else
      let cfg := (A.getOption "config".toList).getD IncronCfg.cfgDefault
      let C := (IncronCfg.init {}).load sys.files cfg
      let lckdir := (C.getValue "lockfile_dir".toList).getD []
      let lckfile := (C.getValue "lockfile_name".toList).getD []
      if A.existsOption "kill".toList then
        match sys.terminate (lockPath lckfile lckdir) with
        | .error _ => .terminate
        | .ok ok => .exit (if ok then 0 else 1)
      else
        match C.getValue "system_table_dir".toList with
        | none => .terminate
        | some sysBase =>
          if !sys.access sysBase then .exit 1
          else
            match C.getValue "user_table_dir".toList with
            | none => .terminate
            | some userBase =>
              if !sys.access userBase then .exit 1
              else if !A.existsOption "foreground".toList && !sys.daemon then .exit 1
              else .lock (lockPath lckfile lckdir) sysBase userBase

/-- Only `Terminate` throws: the configuration has both table directories, whatever the file. -/
theorem terminate_of_opening {sys : MainCalls} {argv : List Str}
    (h : opening sys argv = .terminate) : ∃ path errno, sys.terminate path = .error errno := by
  have hoptions : ({} : AppArgs).addOptions AppArgs.incrondOptions =
      some (AppArgs.registered AppArgs.incrondOptions) := by rfl
  have hvalue : ∀ path, ∀ kv ∈ IncronCfg.builtin,
      ((IncronCfg.init {}).load sys.files path).getValue kv.1 ≠ none := fun path kv hkv =>
    Option.isSome_iff_ne_none.mp ((Incrontab.Configured.load sys.files path).builtin kv hkv)
  have hsys := fun path => hvalue path ("system_table_dir".toList, "/etc/incron.d".toList)
    (by decide)
  have huser := fun path => hvalue path ("user_table_dir".toList, "/var/spool/incron".toList)
    (by decide)
  unfold opening at h
  simp only [hoptions] at h
  split at h
  · exact absurd h (by simp)
  · split at h
    · split at h
      · next errno hthrows => exact ⟨_, errno, hthrows⟩
      · exact absurd h (by simp)
    · split at h
      · next hnone => exact absurd hnone (hsys _)
      · split at h
        · exact absurd h (by simp)
        · split at h
          · next hnone => exact absurd hnone (huser _)
          · split at h
            · exact absurd h (by simp)
            · split at h
              · exact absurd h (by simp)
              · exact absurd h (by simp)

/-! ## From the lock to the loop -/

/-- The calls that set up the pipe and the `Inotify` object of the table directories, in their
order, each with the message of its exception. -/
def setUpCalls : List String :=
  ["cannot create notification pipe",
    "cannot get pipe flags", "cannot set pipe flags", "cannot get pipe flags",
    "cannot set pipe flags", "cannot get pipe flags", "cannot set pipe flags",
    "cannot get pipe flags", "cannot set pipe flags", "inotify init failed",
    "cannot get inotify flags", "cannot set inotify flags", "cannot get inotify flags",
    "cannot set inotify flags"]

/-- What the system answers between the lock and the loop. -/
structure SetUp (κ : Type) where
  /-- The error number of a call, by its place in the list. -/
  fails : ℕ → Option ℕ
  /-- `inotify_add_watch` for a directory. -/
  watch : Str → Except ℕ ℕ
  /-- With and without a slash at the end a path leads to the same directory. -/
  watch_same : ∀ {p q wd wd'}, buildPath p [] = buildPath q [] → watch p = .ok wd →
    watch q = .ok wd' → wd = wd'
  /-- The second `inotify_add_watch` for the first directory. -/
  recover : Except ℕ Unit
  kernel : κ
  pipeFd : ℕ
  mgmtFd : ℕ
  fds : List ℕ
  fds_nodup : fds.Nodup

namespace SetUp
variable {κ : Type} (r : SetUp κ)

def watchDirs (sysBase userBase : Str) : Except DaemonException TableDirs :=
  match hsys : r.watch sysBase with
  | .error errno => .error (.inotify "adding watch failed" errno)
  | .ok wd =>
    if sysBase = userBase then .error (.inotify "path already watched" ebusy)
    else
      match huser : r.watch userBase with
      | .error errno => .error (.inotify "adding watch failed" errno)
      | .ok wd' =>
        if hwd : wd = wd' then
          match r.recover with
          | .error errno =>
            .error (.inotify "watch collision detected and recovery failed" errno)
          | .ok () => .error (.inotify "path already watched (but defined another way)" ebusy)
        else
          .ok { sysBase := sysBase, userBase := userBase,
                distinct := fun heq => hwd (r.watch_same heq hsys huser) }

/-- `prepare_pipe`, the `Inotify` object and its watches. -/
def prepare (sysBase userBase : Str) : Except DaemonException TableDirs :=
  match setUpCalls.zipIdx.findSome? fun c => (r.fails c.2).map (DaemonException.inotify c.1) with
  | some e => .error e
  | none => r.watchDirs sysBase userBase

/-- The dispatcher that `load_tables` is called with. -/
def dispatcher : DispatcherState κ where
  kernel := r.kernel
  nodeHeap := default
  maps := ∅
  poll := { pipeFd := r.pipeFd, mgmtFd := r.mgmtFd }
  tables := default
  ut := ∅
  fds := r.fds
  faults := []

theorem initial_dispatcher : Initial r.pipeFd r.mgmtFd r.dispatcher := ⟨rfl, rfl, rfl, rfl, rfl⟩

end SetUp

/-! ## The processes -/

inductive Ended (κ : Type) where
  /-- Before `Lock`, with a status or by an exception that nobody catches. -/
  | early (status : Option ℕ)
  /-- With status 1, since `Lock` has failed. -/
  | refused
  /-- By the return from `main`; the lock file has been removed. -/
  | returned (status : ℕ)
  /-- By the return from `main`, but the lock file could not be removed. -/
  | unremoved (status : ℕ)
  /-- By `std::terminate`; this is the system after the last call. -/
  | aborted (k : κ)
  /-- In `OnEvent` as a child. -/
  | child (e : Daemon.Ended)
  /-- By a signal. -/
  | killed

inductive Phase (κ : Type) where
  | outside
  | locking (sysBase userBase : Str)
  | refused
  | setUp (sysBase userBase : Str)
  | loop (D : TableDirs) (d : DispatcherState κ)
  | returning (ret : ℕ)
  | ended (e : Ended κ)

/-- The process has got the lock and is not at its end. -/
def Phase.Serves {κ : Type} : Phase κ → Prop
  | .setUp _ _ | .loop _ _ | .returning _ => True
  | _ => False

structure Host (κ : Type) where
  lock : LockState
  phase : Pid → Phase κ

inductive Action (κ : Type) where
  | launch (p : Pid) (sys : MainCalls) (argv : List Str)
  /-- A system call of `Lock`. -/
  | syscall (p : Pid)
  /-- An exception in `Lock`. -/
  | error (p : Pid)
  | setUp (p : Pid) (r : SetUp κ)
  | poll (p : Pid) (r : PollResult κ)
  /-- What becomes of a child that has been forked for a command of a table. -/
  | child (p c : Pid) (t : Incron.UserTable) (calls : ChildCalls) (cmd : Str)
      (d : DispatcherState κ)
  /-- The loop ends, and `free_tables` is called. -/
  | finish (p : Pid) (k : κ)
  /-- The handler of SIGTERM and SIGINT. -/
  | sigterm (p : Pid)
  /-- The return from `main`, with the success of `unlink`. -/
  | leave (p : Pid) (removed : Bool)
  /-- A signal without a handler. -/
  | kill (p : Pid)

namespace Host
variable {κ : Type} (h : Host κ) (p : Pid)

/-- The process makes some steps on the lock file and comes to a phase. -/
def move (as : List AppInstance.Action) (phase : PC → Phase κ) : Option (Host κ) :=
  (Transition.run AppInstance.step h.lock as).map fun lock =>
    { lock := lock, phase := Function.update h.phase p (phase (lock.pc p)) }

/-- An exception in the outer `try`, or `std::terminate`. -/
def throws (k : κ) : DaemonException → Option (Host κ)
  | .inotify _ _ => h.move p [] fun _ => .returning 1
  | .outOfRange | .terminate => h.move p [.crash p] fun _ => .ended (.aborted k)

/-- `Lock` goes on, or has returned. -/
def inLock (sysBase userBase : Str) : PC → Phase κ
  | .idle => .refused
  | .locked _ => .setUp sysBase userBase
  | _ => .locking sysBase userBase

def launch (lockfile : Str) (sys : MainCalls) (argv : List Str) : Option (Host κ) :=
  match h.phase p with
  | .outside =>
    match opening sys argv with
    | .exit status => h.move p [.crash p] fun _ => .ended (.early (some status))
    | .terminate => h.move p [.crash p] fun _ => .ended (.early none)
    | .lock path sysBase userBase =>
      if path = lockfile then h.move p [.lock p] fun _ => .locking sysBase userBase else none
  | _ => none

section
variable [DispatcherSystem κ]

/-- The rest of `main` before its loop. -/
def setUp (r : SetUp κ) : Option (Host κ) :=
  match h.phase p with
  | .setUp sysBase userBase =>
    match r.prepare sysBase userBase with
    | .error e => h.throws p r.kernel e
    | .ok D =>
      match startUp D r.dispatcher with
      | .ok _ d => h.move p [] fun _ => .loop D d
      | .error e d => h.throws p d.kernel e
  | _ => none

def poll (r : PollResult κ) : Option (Host κ) :=
  match h.phase p with
  | .loop D d =>
    if d.finish then none
    else
      match loopBody D r d with
      | .ok _ d' => h.move p [] fun _ => .loop D d'
      | .error e d' => h.throws p d'.kernel e
  | _ => none

def finish (k : κ) : Option (Host κ) :=
  match h.phase p with
  | .loop _ d =>
    if d.finish then
      match freeTables { d with kernel := k } with
      | .ok _ _ => h.move p [] fun _ => .returning 0
      | .error e d' => h.throws p d'.kernel e
    else none
  | _ => none

end

/-- A child ends in `OnEvent`, or it comes back into the loop with its copy of `m_fLocked`; the
dispatcher is then what the rest of its pass has made of its copy. -/
def child (c : Pid) (t : Incron.UserTable) (calls : ChildCalls) (cmd : Str)
    (d : DispatcherState κ) : Option (Host κ) :=
  match h.phase p, h.phase c with
  | .loop D _, .outside =>
    match onEventChild t calls cmd with
    | .error e => h.move c [.crash c] fun _ => .ended (.child e)
    | .ok () =>
      if h.lock.alive c then
        some {
          lock := { h.lock with pc := Function.update h.lock.pc c (h.lock.pc p) }
          phase := Function.update h.phase c (.loop D d) }
      else none
  | _, _ => none

def sigterm : Option (Host κ) :=
  match h.phase p with
  | .loop D d => h.move p [] fun _ => .loop D { d with finish := true }
  | _ => none

/-- The destructor of the `AppInstance` object and the end of the process. -/
def leave (removed : Bool) : Option (Host κ) :=
  match h.phase p with
  | .refused => h.move p [.crash p] fun _ => .ended .refused
  | .returning ret =>
    if removed then h.move p [.unlock p, .crash p] fun _ => .ended (.returned ret)
    else h.move p [.crash p] fun _ => .ended (.unremoved ret)
  | _ => none

def kill : Option (Host κ) :=
  match h.phase p with
  | .ended _ => none
  | _ => h.move p [.crash p] fun _ => .ended .killed

end Host

/-- A step of one of the processes that use the lock file. -/
def step {κ : Type} [DispatcherSystem κ] (lockfile : Str) (h : Host κ) :
    Action κ → Option (Host κ)
  | .launch p sys argv => h.launch p lockfile sys argv
  | .syscall p =>
    match h.phase p with
    | .locking sysBase userBase => h.move p [.syscall p] (Host.inLock sysBase userBase)
    | _ => none
  | .error p =>
    match h.phase p with
    | .locking _ _ => h.move p [.error p] fun _ => .refused
    | _ => none
  | .setUp p r => h.setUp p r
  | .poll p r => h.poll p r
  | .child p c t calls cmd d => h.child p c t calls cmd d
  | .finish p k => h.finish p k
  | .sigterm p => h.sigterm p
  | .leave p removed => h.leave p removed
  | .kill p => h.kill p

/-! ## What a process leaves behind -/

section
variable {κ : Type} [DispatcherSystem κ]

/-- The ends with which a process may leave a lock file with its pid: `Lock` has failed, the file
could not be removed, a signal has come, or the last call has read a table file with a NUL byte at
the start of a line or has removed a watch that was gone. -/
def Ended.MayLeave : Ended κ → Prop
  | .early _ | .returned _ | .child _ => False
  | .refused | .unremoved _ | .killed => True
  | .aborted k => (∃ (t : Incron.UserTable) (k₀ : κ), ¬ FileLoads t k₀ ∧
      k = (System.readFile k₀ t.path).1) ∨ Gone k

def Working (d : DispatcherState κ) : Prop :=
  ∃ pipeFd mgmtFd fds₀, Steady pipeFd mgmtFd d ∧ Held fds₀ d

def HasLock (s : LockState) (p : Pid) : Prop := s.alive p = true ∧ (s.pc p).isLocked = true

/-- What the lock is to a process, by its place in `main`. The file does not have the pid of a child
that has come back. -/
def Fits (s : LockState) (p : Pid) : Phase κ → Prop
  | .outside => s.alive p = true → ¬ Names s p
  | .locking _ _ | .refused => s.alive p = true
  | .setUp _ _ | .returning _ => HasLock s p
  | .loop _ d => HasLock s p ∧ (Names s p → Working d)
  | .ended e => s.alive p = false ∧ (Names s p → e.MayLeave)

def Invariant (h : Host κ) : Prop := ∀ p, Fits h.lock p (h.phase p)

theorem Fits.of_same {s s' : LockState} {q : Pid} {ph : Phase κ} (h : Fits s q ph)
    (hpc : s'.pc q = s.pc q) (halive : s'.alive q = s.alive q)
    (hnames : Names s' q → Names s q) : Fits s' q ph := by
  have hlock : HasLock s q → HasLock s' q := fun hq => ⟨halive.trans hq.1, by rw [hpc]; exact hq.2⟩
  cases ph with
  | outside => exact fun ha hname => h (halive ▸ ha) (hnames hname)
  | locking _ _ | refused => exact halive.trans h
  | setUp _ _ | returning _ => exact hlock h
  | loop D d => exact ⟨hlock h.1, fun hname => h.2 (hnames hname)⟩
  | ended e => exact ⟨halive.trans h.1, fun hname => h.2 (hnames hname)⟩

variable {h h' : Host κ} {p : Pid}

/-- Only the process that moves needs to be looked at. -/
theorem Invariant.move (hI : Invariant h) {as : List AppInstance.Action} {phase : PC → Phase κ}
    (hpids : ∀ b ∈ as, b.pid = p)
    (hfits : ∀ s', Transition.run AppInstance.step h.lock as = some s' →
      Fits s' p (phase (s'.pc p)))
    (hmove : h.move p as phase = some h') : Invariant h' := by
  obtain ⟨s', hs', rfl⟩ := Option.map_eq_some_iff.mp hmove
  intro q
  by_cases hq : q = p
  · subst hq
    simpa using hfits s' hs'
  · obtain ⟨hpc, halive, hnames⟩ := run_other hpids hs' hq
    simp only [Function.update_of_ne hq]
    exact (hI q).of_same hpc halive hnames

theorem Invariant.stay (hI : Invariant h) (ph : Phase κ) (hfits : Fits h.lock p ph)
    (hmove : h.move p [] (fun _ => ph) = some h') : Invariant h' := by
  refine hI.move (by simp) (fun s' hs' => ?_) hmove
  obtain rfl := Option.some.inj hs'
  exact hfits

theorem Invariant.call (hI : Invariant h) (b : AppInstance.Action) {phase : PC → Phase κ}
    (hb : b.pid = p)
    (hfits : ∀ s', AppInstance.step h.lock b = some s' → Fits s' p (phase (s'.pc p)))
    (hmove : h.move p [b] phase = some h') : Invariant h' := by
  refine hI.move (fun c hc => ?_) (fun s' hs' => ?_) hmove
  · rw [List.mem_singleton.mp hc]
    exact hb
  · obtain ⟨s₁, hs₁, hrest⟩ := Transition.run_cons_eq_some.mp hs'
    obtain rfl := Option.some.inj hrest
    exact hfits s₁ hs₁

theorem Invariant.crash (hI : Invariant h) {e : Ended κ}
    (hleave : h.lock.alive p = true → Names h.lock p → e.MayLeave)
    (hmove : h.move p [.crash p] (fun _ => .ended e) = some h') : Invariant h' := by
  refine hI.call (.crash p) rfl (fun s' hs' => ?_) hmove
  obtain ⟨hdead, hnames⟩ := step_crash (q := p) hs'
  exact ⟨hdead, fun hname => hleave (step_effect hs').1 (hnames hname)⟩

/-- What leaves the loop is an exception that `main` catches, or the process may leave a file. -/
def Caught (k : κ) (e : DaemonException) : Prop :=
  (∃ message errno, e = .inotify message errno) ∨ (Ended.aborted k).MayLeave

theorem caught_of_ending {e : DaemonException} {k : κ} (h : Ending e k) : Caught k e := by
  cases h with
  | table hfatal =>
    cases hfatal with
    | unreadable _ _ => exact .inl ⟨_, _, rfl⟩
    | gone _ => exact .inl ⟨_, _, rfl⟩
    | unparsed hfile => exact .inr (.inl ⟨_, _, hfile, rfl⟩)
  | destructor hgone => exact .inr (.inr hgone)
  | refused _ => exact .inl ⟨_, _, rfl⟩
  | unreadable _ => exact .inl ⟨_, _, rfl⟩

theorem Invariant.throws (hI : Invariant h) {e : DaemonException} {k : κ}
    (hlock : HasLock h.lock p) (hcause : Names h.lock p → Caught k e)
    (hstep : h.throws p k e = some h') : Invariant h' := by
  have hleave : (∀ message errno, e ≠ .inotify message errno) → Names h.lock p →
      (Ended.aborted k).MayLeave := by
    intro hne hname
    refine (hcause hname).resolve_left ?_
    rintro ⟨message, errno, he⟩
    exact hne message errno he
  cases e with
  | inotify message errno => exact hI.stay (.returning 1) hlock hstep
  | outOfRange => exact hI.crash (fun _ => hleave (by simp)) hstep
  | terminate => exact hI.crash (fun _ => hleave (by simp)) hstep

/-! ## Steps -/

theorem Invariant.launch (hI : Invariant h) {lockfile : Str} {sys : MainCalls} {argv : List Str}
    (hstep : h.launch p lockfile sys argv = some h') : Invariant h' := by
  have hfits := hI p
  unfold Host.launch at hstep
  split at hstep
  · next hphase =>
    rw [hphase] at hfits
    have hnone : h.lock.alive p = true → Names h.lock p → False := hfits
    split at hstep
    · exact hI.crash (fun ha hname => (hnone ha hname).elim) hstep
    · exact hI.crash (fun ha hname => (hnone ha hname).elim) hstep
    · split at hstep
      · refine hI.call (.lock p) rfl (fun s' hs' => ?_) hstep
        have halive := alive_of_step hs' (by simp)
        exact (congrFun halive p).trans (step_effect hs').1
      · exact absurd hstep (by simp)
  · exact absurd hstep (by simp)

theorem fits_inLock {s : LockState} {sysBase userBase : Str} (hp : s.alive p = true) :
    Fits (κ := κ) s p (Host.inLock sysBase userBase (s.pc p)) := by
  cases hpc : s.pc p with
  | locked ino => exact ⟨hp, by rw [hpc]; rfl⟩
  | _ => exact hp

theorem Invariant.syscall (hI : Invariant h) {sysBase userBase : Str}
    (hstep : h.move p [.syscall p] (Host.inLock sysBase userBase) = some h') : Invariant h' := by
  refine hI.call (.syscall p) rfl (fun s' hs' => fits_inLock ?_) hstep
  exact (congrFun (alive_of_step hs' (by simp)) p).trans (step_effect hs').1

theorem Invariant.error (hI : Invariant h)
    (hstep : h.move p [.error p] (fun _ => .refused) = some h') : Invariant h' := by
  refine hI.call (.error p) rfl (fun s' hs' => ?_) hstep
  exact (congrFun (alive_of_step hs' (by simp)) p).trans (step_effect hs').1

omit [DispatcherSystem κ] in
/-- The calls before `load_tables` throw only `InotifyException`. -/
theorem prepare_eq_error {r : SetUp κ} {sysBase userBase : Str} {e : DaemonException}
    (h : r.prepare sysBase userBase = .error e) : ∃ message errno, e = .inotify message errno := by
  unfold SetUp.prepare at h
  split at h
  · next e' he =>
    obtain ⟨c, -, hc⟩ := List.exists_of_findSome?_eq_some he
    obtain ⟨errno, -, rfl⟩ := Option.map_eq_some_iff.mp hc
    exact ⟨_, _, (Except.error.inj h).symm⟩
  · unfold SetUp.watchDirs at h
    split at h
    · exact ⟨_, _, (Except.error.inj h).symm⟩
    · split at h
      · exact ⟨_, _, (Except.error.inj h).symm⟩
      · split at h
        · exact ⟨_, _, (Except.error.inj h).symm⟩
        · split at h
          · split at h
            · exact ⟨_, _, (Except.error.inj h).symm⟩
            · exact ⟨_, _, (Except.error.inj h).symm⟩
          · exact absurd h (by simp)

theorem Invariant.setUp (hI : Invariant h) {r : SetUp κ} (hstep : h.setUp p r = some h') :
    Invariant h' := by
  have hfits := hI p
  unfold Host.setUp at hstep
  split at hstep
  · next sysBase userBase hphase =>
    rw [hphase] at hfits
    have hlock : HasLock h.lock p := hfits
    split at hstep
    · next e hprepare => exact hI.throws hlock (fun _ => .inl (prepare_eq_error hprepare)) hstep
    · next D _ =>
      have h₀ := r.initial_dispatcher
      have hheld := h₀.held r.fds_nodup
      split at hstep
      · next d hstart =>
        have hsteady := (post_startUp h₀.scanning h₀.ut).ok hstart
        have hheld' := (keeps_held.post_startUp h₀.scanning hheld h₀.ut).ok hstart
        have hworking : Working d := ⟨_, _, _, ⟨hsteady.1, hsteady.2⟩, hheld'⟩
        exact hI.stay (.loop D d) ⟨hlock, fun _ => hworking⟩ hstep
      · next e _ hstart =>
        refine hI.throws hlock (fun _ => ?_) hstep
        rcases (keeps_ending.post_startUp h₀.scanning trivial h₀.ut).error hstart with h₁ | h₁
        · exact caught_of_ending h₁
        · obtain ⟨k, errno, -, h₁, -⟩ := h₁
          exact .inl ⟨_, _, h₁⟩
  · exact absurd hstep (by simp)

theorem Invariant.poll (hI : Invariant h) {r : PollResult κ} (hstep : h.poll p r = some h') :
    Invariant h' := by
  have hfits := hI p
  unfold Host.poll at hstep
  split at hstep
  · next D d hphase =>
    rw [hphase] at hfits
    obtain ⟨hlock, hworking⟩ := hfits
    split at hstep
    · exact absurd hstep (by simp)
    · split at hstep
      · next d' hpass =>
        refine hI.stay (.loop D d') ⟨hlock, fun hname => ?_⟩ hstep
        obtain ⟨pipeFd, mgmtFd, fds₀, hsteady, hheld⟩ := hworking hname
        exact ⟨pipeFd, mgmtFd, fds₀, (keeps_held.post_loopBody hsteady hheld r).ok hpass⟩
      · next e d' hpass =>
        refine hI.throws hlock (fun hname => ?_) hstep
        obtain ⟨pipeFd, mgmtFd, fds₀, hsteady, -⟩ := hworking hname
        rcases (keeps_ending.post_loopBody hsteady trivial r).error hpass with h₁ | h₁
        · exact caught_of_ending h₁
        · obtain ⟨errno, -, h₁, -⟩ := h₁
          exact .inl ⟨_, _, h₁⟩
  · exact absurd hstep (by simp)

theorem Invariant.finish (hI : Invariant h) {k : κ} (hstep : h.finish p k = some h') :
    Invariant h' := by
  have hfits := hI p
  unfold Host.finish at hstep
  split at hstep
  · next D d hphase =>
    rw [hphase] at hfits
    obtain ⟨hlock, hworking⟩ := hfits
    split at hstep
    · split at hstep
      · exact hI.stay (.returning 0) hlock hstep
      · next e _ hfree =>
        refine hI.throws hlock (fun hname => ?_) hstep
        obtain ⟨pipeFd, mgmtFd, fds₀, hsteady, hheld⟩ := hworking hname
        have hpost := post_freeTables (d := { d with kernel := k })
          (hsteady.consistent.of_frame rfl) (hheld.of_same rfl rfl rfl)
        exact .inr (.inr (hpost.error hfree).2.2)
    · exact absurd hstep (by simp)
  · exact absurd hstep (by simp)

/-- A child that has come back has the lock, but not its pid in the file. -/
theorem Invariant.child (hI : Invariant h) {c : Pid} {t : Incron.UserTable} {calls : ChildCalls}
    {cmd : Str} {d : DispatcherState κ} (hstep : h.child p c t calls cmd d = some h') :
    Invariant h' := by
  have hfits := hI p
  have hfits' := hI c
  unfold Host.child at hstep
  split at hstep
  · next D d₀ hphase houtside =>
    rw [hphase] at hfits
    rw [houtside] at hfits'
    have hnone : h.lock.alive c = true → ¬ Names h.lock c := hfits'
    split at hstep
    · exact hI.crash (fun ha hname => (hnone ha hname).elim) hstep
    · split at hstep
      · next halive =>
        obtain rfl := Option.some.inj hstep
        intro q
        by_cases hq : q = c
        · subst hq
          have hlocked : (h.lock.pc p).isLocked = true := hfits.1.2
          have hlock : HasLock { h.lock with
              pc := Function.update h.lock.pc q (h.lock.pc p) } q :=
            ⟨halive, by simp [hlocked]⟩
          simp only [Function.update_self]
          exact ⟨hlock, fun hname => absurd hname (hnone halive)⟩
        · simp only [Function.update_of_ne hq]
          exact (hI q).of_same (Function.update_of_ne hq _ _) rfl id
      · exact absurd hstep (by simp)
  · exact absurd hstep (by simp)

theorem Invariant.sigterm (hI : Invariant h) (hstep : h.sigterm p = some h') : Invariant h' := by
  have hfits := hI p
  unfold Host.sigterm at hstep
  split at hstep
  · next D d hphase =>
    rw [hphase] at hfits
    obtain ⟨hlock, hworking⟩ := hfits
    refine hI.stay (.loop D { d with finish := true }) ⟨hlock, fun hname => ?_⟩ hstep
    obtain ⟨pipeFd, mgmtFd, fds₀, hsteady, hheld⟩ := hworking hname
    exact ⟨pipeFd, mgmtFd, fds₀, hsteady.of_frame rfl rfl rfl, hheld.of_same rfl rfl rfl⟩
  · exact absurd hstep (by simp)

theorem Invariant.leave (hI : Invariant h) {removed : Bool} (hstep : h.leave p removed = some h') :
    Invariant h' := by
  unfold Host.leave at hstep
  split at hstep
  · exact hI.crash (e := .refused) (fun _ _ => trivial) hstep
  · next ret _ =>
    split at hstep
    · refine hI.move (by simp [AppInstance.Action.pid]) (fun s' hs' => ?_) hstep
      obtain ⟨s₁, hs₁, hrest⟩ := Transition.run_cons_eq_some.mp hs'
      obtain ⟨s₂, hs₂, hrest⟩ := Transition.run_cons_eq_some.mp hrest
      obtain rfl := Option.some.inj hrest
      obtain ⟨hdead, hnames⟩ := step_crash (q := p) hs₂
      refine ⟨hdead, fun hname => ?_⟩
      obtain ⟨ino, hino, -⟩ := hnames hname
      rw [path_unlock hs₁] at hino
      exact absurd hino (by simp)
    · exact hI.crash (e := .unremoved ret) (fun _ _ => trivial) hstep
  · exact absurd hstep (by simp)

theorem Invariant.kill (hI : Invariant h) (hstep : h.kill p = some h') : Invariant h' := by
  unfold Host.kill at hstep
  split at hstep
  · exact absurd hstep (by simp)
  · exact hI.crash (e := .killed) (fun _ _ => trivial) hstep

theorem Invariant.step (hI : Invariant h) {lockfile : Str} {a : Action κ}
    (hstep : Incrond.step lockfile h a = some h') : Invariant h' := by
  cases a with
  | launch p sys argv => exact hI.launch hstep
  | syscall p =>
    simp only [Incrond.step] at hstep
    split at hstep
    · exact hI.syscall hstep
    · exact absurd hstep (by simp)
  | error p =>
    simp only [Incrond.step] at hstep
    split at hstep
    · exact hI.error hstep
    · exact absurd hstep (by simp)
  | setUp p r => exact hI.setUp hstep
  | poll p r => exact hI.poll hstep
  | child p c t calls cmd d => exact hI.child hstep
  | finish p k => exact hI.finish hstep
  | sigterm p => exact hI.sigterm hstep
  | leave p removed => exact hI.leave hstep
  | kill p => exact hI.kill hstep

/-! ## One daemon -/

/-- The file that a process in `Lock` removes is the one that it has read. -/
def RemovesRead (h : Host κ) : Action κ → Prop
  | .syscall p => NotReplaced h.lock (.syscall p)
  | _ => True

/-- No child comes back: the command is not one that succeeds for a system table. -/
def ChildEnds : Action κ → Prop
  | .child _ _ t calls cmd _ => ¬ (t.fSysTable = true ∧ calls.system cmd = 0)
  | _ => True

/-- The steps on the lock file, none of which is a call in `Lock`. -/
def Moves (h h' : Host κ) : Prop :=
  ∃ p as phase, (∀ b ∈ as, ∀ q, b ≠ AppInstance.Action.syscall q) ∧ h.move p as phase = some h'

omit [DispatcherSystem κ] in
theorem moves_throws {e : DaemonException} {k : κ} (hstep : h.throws p k e = some h') :
    Moves h h' := by
  cases e with
  | inotify message errno => exact ⟨p, [], fun _ => .returning 1, by simp, hstep⟩
  | outOfRange | terminate =>
    exact ⟨p, [.crash p], fun _ => .ended (.aborted k), by simp, hstep⟩

theorem step_moves {lockfile : Str} {a : Action κ} (hend : ChildEnds a)
    (hstep : Incrond.step lockfile h a = some h') :
    (∃ p phase, a = .syscall p ∧ h.move p [.syscall p] phase = some h') ∨ Moves h h' := by
  cases a with
  | launch p sys argv =>
    right
    simp only [Incrond.step, Host.launch] at hstep
    split at hstep
    · split at hstep
      · exact ⟨_, _, _, by simp, hstep⟩
      · exact ⟨_, _, _, by simp, hstep⟩
      · split at hstep
        · exact ⟨_, _, _, by simp, hstep⟩
        · exact absurd hstep (by simp)
    · exact absurd hstep (by simp)
  | syscall p =>
    simp only [Incrond.step] at hstep
    split at hstep
    · exact .inl ⟨p, _, rfl, hstep⟩
    · exact absurd hstep (by simp)
  | error p =>
    right
    simp only [Incrond.step] at hstep
    split at hstep
    · exact ⟨_, _, _, by simp, hstep⟩
    · exact absurd hstep (by simp)
  | setUp p r =>
    right
    simp only [Incrond.step, Host.setUp] at hstep
    split at hstep
    · split at hstep
      · exact moves_throws hstep
      · split at hstep
        · exact ⟨_, _, _, by simp, hstep⟩
        · exact moves_throws hstep
    · exact absurd hstep (by simp)
  | poll p r =>
    right
    simp only [Incrond.step, Host.poll] at hstep
    split at hstep
    · split at hstep
      · exact absurd hstep (by simp)
      · split at hstep
        · exact ⟨_, _, _, by simp, hstep⟩
        · exact moves_throws hstep
    · exact absurd hstep (by simp)
  | child p c t calls cmd d =>
    right
    simp only [Incrond.step, Host.child] at hstep
    split at hstep
    · split at hstep
      · exact ⟨_, _, _, by simp, hstep⟩
      · next hok => exact absurd (onEventChild_eq_ok.mp hok) hend
    · exact absurd hstep (by simp)
  | finish p k =>
    right
    simp only [Incrond.step, Host.finish] at hstep
    split at hstep
    · split at hstep
      · split at hstep
        · exact ⟨_, _, _, by simp, hstep⟩
        · exact moves_throws hstep
      · exact absurd hstep (by simp)
    · exact absurd hstep (by simp)
  | sigterm p =>
    right
    simp only [Incrond.step, Host.sigterm] at hstep
    split at hstep
    · exact ⟨_, _, _, by simp, hstep⟩
    · exact absurd hstep (by simp)
  | leave p removed =>
    right
    simp only [Incrond.step, Host.leave] at hstep
    split at hstep
    · exact ⟨_, _, _, by simp, hstep⟩
    · split at hstep
      · exact ⟨_, _, _, by simp, hstep⟩
      · exact ⟨_, _, _, by simp, hstep⟩
    · exact absurd hstep (by simp)
  | kill p =>
    right
    simp only [Incrond.step, Host.kill] at hstep
    split at hstep
    · exact absurd hstep (by simp)
    · exact ⟨_, _, _, by simp, hstep⟩

/-- Without children that come back, nothing happens to the lock file that `Lock` and `Unlock` do
not do. -/
theorem filesInvariant_step {lockfile : Str} {a : Action κ} (hI : FilesInvariant h.lock)
    (hnot : RemovesRead h a) (hend : ChildEnds a)
    (hstep : Incrond.step lockfile h a = some h') : FilesInvariant h'.lock := by
  have hkeeps : ∀ {p as phase}, Transition.Meets AppInstance.step NotReplaced h.lock as →
      h.move p as phase = some h' → FilesInvariant h'.lock := by
    intro p as phase hmeets hmove
    obtain ⟨s', hs', rfl⟩ := Option.map_eq_some_iff.mp hmove
    exact Transition.run_invariant_of_meets (fun _ _ _ h hP hs => h.step hP hs) hI hmeets hs'
  rcases step_moves hend hstep with ⟨p, phase, rfl, hmove⟩ | ⟨p, as, phase, has, hmove⟩
  · have hmeets : Transition.Meets AppInstance.step NotReplaced h.lock [.syscall p] :=
      ⟨hnot, fun _ _ => trivial⟩
    exact hkeeps hmeets hmove
  · refine hkeeps (Transition.meets_of_forall fun b hb s => ?_) hmove
    cases b with
    | syscall q => exact absurd rfl (has _ hb q)
    | _ => trivial

/-! ## Runs -/

/-- No process is in `main` yet, and the lock file is absent or holds the pid of a dead process. -/
structure Starts (h : Host κ) : Prop where
  lock : Initial h.lock
  outside : ∀ p, h.phase p = .outside

theorem Starts.invariant (hs : Starts h) : Invariant h := by
  intro p
  rw [hs.outside p]
  intro hp hname
  obtain ⟨ino, hino, hcontent⟩ := hname
  obtain ⟨-, d, hd, hdead⟩ := hs.lock.path ino hino
  obtain rfl : p = d := Option.some.inj (hcontent.symm.trans hd)
  rw [hp] at hdead
  exact absurd hdead (by simp)

section
variable {lockfile : Str} {h₀ : Host κ} {as : List (Action κ)}

theorem Starts.run (hs : Starts h₀)
    (hrun : Transition.run (Incrond.step lockfile) h₀ as = some h) : Invariant h :=
  Transition.run_invariant (fun _ _ _ hI hs => hI.step hs) hs.invariant hrun

theorem Invariant.hasLock (hI : Invariant h) (hp : (h.phase p).Serves) : HasLock h.lock p := by
  have hfits := hI p
  cases hphase : h.phase p with
  | setUp _ _ | returning _ =>
    rw [hphase] at hfits
    exact hfits
  | loop D d =>
    rw [hphase] at hfits
    exact hfits.1
  | _ =>
    rw [hphase] at hp
    exact absurd hp id

/-- However many processes are started, and whatever signals, exceptions and errors end them, at
most one is between `Lock` and the return from `main`, as long as no lock file is replaced between
the reading of its pid and its removal and no child comes back from its command. So no event of a
watched file is handled by two. -/
theorem one_daemon_serves {q : Pid} (hs : Starts h₀)
    (hrun : Transition.run (Incrond.step lockfile) h₀ as = some h)
    (hmeets : Transition.Meets (Incrond.step lockfile) (fun h a => RemovesRead h a ∧ ChildEnds a)
      h₀ as)
    (hp : (h.phase p).Serves) (hq : (h.phase q).Serves) : p = q := by
  have hfiles : FilesInvariant h.lock := Transition.run_invariant_of_meets
    (I := fun h : Host κ => FilesInvariant h.lock)
    (fun _ _ _ hI hP hstep => filesInvariant_step hI hP.1 hP.2 hstep) hs.lock.filesInvariant hmeets
    hrun
  have hI := hs.run hrun
  obtain ⟨hpalive, hplocked⟩ := hI.hasLock hp
  obtain ⟨hqalive, hqlocked⟩ := hI.hasLock hq
  exact hfiles.mutualExclusion p q hpalive hqalive hplocked hqlocked

/-- A child that comes back serves beside its parent. -/
theorem child_serves {c : Pid} {t : Incron.UserTable} {calls : ChildCalls} {cmd : Str}
    {d : DispatcherState κ} (hback : ¬ ChildEnds (.child p c t calls cmd d))
    (hstep : Incrond.step lockfile h (.child p c t calls cmd d) = some h') :
    p ≠ c ∧ (h'.phase p).Serves ∧ (h'.phase c).Serves := by
  simp only [Incrond.step, Host.child] at hstep
  split at hstep
  · next D d₀ hphase houtside =>
    rw [onEventChild_eq_ok.mpr (not_not.mp hback)] at hstep
    simp only [Option.ite_none_right_eq_some, Option.some.injEq] at hstep
    obtain ⟨-, rfl⟩ := hstep
    have hne : p ≠ c := by
      rintro rfl
      rw [hphase] at houtside
      exact absurd houtside (by simp)
    refine ⟨hne, ?_, ?_⟩
    · simp only [Function.update_of_ne hne, hphase]
      trivial
    · simp only [Function.update_self]
      trivial
  · exact absurd hstep (by simp)

/-- A lock file with the pid of a dead process was there before, or was left by one of the causes
that `MayLeave` lists. -/
theorem stale_lock_file_from (hs : Starts h₀)
    (hrun : Transition.run (Incrond.step lockfile) h₀ as = some h)
    (hname : Names h.lock p) (hdead : h.lock.alive p = false) :
    h.phase p = .outside ∨ ∃ e, h.phase p = .ended e ∧ e.MayLeave := by
  have hfits := hs.run hrun p
  cases hphase : h.phase p with
  | outside => exact .inl rfl
  | ended e =>
    rw [hphase] at hfits
    exact .inr ⟨e, rfl, hfits.2 hname⟩
  | locking _ _ | refused =>
    rw [hphase] at hfits
    exact absurd (hfits.symm.trans hdead) (by simp)
  | setUp _ _ | returning _ =>
    rw [hphase] at hfits
    exact absurd (hfits.1.symm.trans hdead) (by simp)
  | loop D d =>
    rw [hphase] at hfits
    exact absurd (hfits.1.1.symm.trans hdead) (by simp)

end
end

/-! ## A small host -/

def smallCalls : MainCalls where
  files _ := none
  access _ := true
  daemon := true
  terminate _ := .ok false

def smallLock : Str := "/var/run/incrond.pid".toList

def defaultDirs : TableDirs where
  sysBase := "/etc/incron.d".toList
  userBase := "/var/spool/incron".toList
  distinct h := absurd (congrArg List.length h) (by decide)

theorem opening_small : opening smallCalls ["incrond".toList] =
    .lock smallLock defaultDirs.sysBase defaultDirs.userBase := by
  decide +kernel

def smallStart : Host SmallHost := { lock := unlocked, phase := fun _ => .outside }

theorem starts_smallStart : Starts smallStart := ⟨initial_unlocked, fun _ => rfl⟩

def launched (h : Host SmallHost) (p : Pid) : Host SmallHost where
  lock := h.lock.goto p (.create 99)
  phase := Function.update h.phase p (.locking defaultDirs.sysBase defaultDirs.userBase)

theorem step_launch {h : Host SmallHost} {p : Pid} (hphase : h.phase p = .outside)
    (halive : h.lock.alive p = true) (hpc : h.lock.pc p = .idle) :
    step smallLock h (.launch p smallCalls ["incrond".toList]) = some (launched h p) := by
  change h.launch p smallLock smallCalls ["incrond".toList] = some (launched h p)
  unfold Host.launch Host.move
  simp only [hphase, opening_small, if_true, Transition.run_cons, Transition.run_nil,
    AppInstance.step, AppInstance.Action.pid, halive, hpc, Option.bind_some, Option.map_some]
  rfl

def called (h : Host SmallHost) (p : Pid) (n : ℕ) : Host SmallHost :=
  (Transition.run (step smallLock) h (List.replicate n (.syscall p))).getD h

def holding : Host SmallHost := called (launched smallStart 1) 1 3

def starting (r : SetUp SmallHost) : List (Action SmallHost) :=
  [.launch 1 smallCalls ["incrond".toList], .syscall 1, .syscall 1, .syscall 1, .setUp 1 r]

theorem run_starting (r : SetUp SmallHost) :
    Transition.run (step smallLock) smallStart (starting r) = holding.setUp 1 r := by
  unfold starting
  rw [Transition.run_cons, step_launch rfl rfl rfl]
  change (holding.setUp 1 r).bind some = holding.setUp 1 r
  exact Option.bind_fun_some _

/-- Answers with which the dispatcher is set up, for a system table with this content. -/
def answers (content : Str) : SetUp SmallHost where
  fails _ := none
  watch path := .ok (if buildPath path [] = buildPath defaultDirs.sysBase [] then 1 else 2)
  watch_same heq hp hq := by
    rw [heq] at hp
    exact Except.ok.inj (hp.symm.trans hq)
  recover := .ok ()
  kernel := { system := { file := content } }
  pipeFd := 3
  mgmtFd := 4
  fds := [0, 1, 2, 3, 4]
  fds_nodup := by decide

theorem prepare_answers (content : Str) :
    (answers content).prepare defaultDirs.sysBase defaultDirs.userBase = .ok defaultDirs := by
  rfl

def oneLine : SetUp SmallHost := answers "/d 256 ls\n".toList

def serving (d : DispatcherState SmallHost) : Host SmallHost where
  lock := holding.lock
  phase := Function.update holding.phase 1 (.loop defaultDirs d)

theorem setUp_oneLine : ∃ d, holding.setUp 1 oneLine = some (serving d) := by
  have hstarts : (match startUp defaultDirs oneLine.dispatcher with
      | .ok _ _ => true
      | .error _ _ => false) = true := by decide +kernel
  unfold Host.setUp
  simp only [show holding.phase 1 = .setUp defaultDirs.sysBase defaultDirs.userBase from rfl,
    oneLine, prepare_answers]
  split at hstarts
  · next d hstart =>
    rw [oneLine] at hstart
    rw [hstart]
    exact ⟨d, rfl⟩
  · exact absurd hstarts (by simp)

def secondProcess : List (Action SmallHost) :=
  [.launch 2 smallCalls ["incrond".toList], .syscall 2, .syscall 2, .syscall 2, .syscall 2]

def beside (d : DispatcherState SmallHost) : Host SmallHost := called (launched (serving d) 2) 2 4

theorem run_secondProcess (d : DispatcherState SmallHost) :
    Transition.run (step smallLock) (serving d) secondProcess = some (beside d) := by
  unfold secondProcess
  rw [Transition.run_cons, step_launch rfl rfl rfl]
  rfl

abbrev Orderly : Host SmallHost → List (Action SmallHost) → Prop :=
  Transition.Meets (step smallLock) fun h a => RemovesRead h a ∧ ChildEnds a

theorem orderly_syscall {h : Host SmallHost} {p : Pid} {as : List (Action SmallHost)}
    (h' : Host SmallHost) (pc : PC) (hpc : h.lock.pc p = pc) (hne : ∀ ino i, pc ≠ .unlink ino i)
    (hstep : step smallLock h (.syscall p) = some h') (hrest : Orderly h' as) :
    Orderly h (.syscall p :: as) := by
  refine Transition.meets_cons ⟨fun ino i hunlink => ?_, trivial⟩ hstep hrest
  exact absurd (hpc.symm.trans hunlink) (hne ino i)

theorem orderly_oneLine {d : DispatcherState SmallHost}
    (hsetUp : holding.setUp 1 oneLine = some (serving d)) :
    Orderly smallStart (starting oneLine ++ secondProcess) := by
  let h := launched smallStart 1
  refine Transition.meets_cons ⟨trivial, trivial⟩ (step_launch rfl rfl rfl) ?_
  refine orderly_syscall (called h 1 1) (.create 99) rfl (by simp) rfl ?_
  refine orderly_syscall (called h 1 2) (.write 0) rfl (by simp) rfl ?_
  refine orderly_syscall holding (.close 0) rfl (by simp) rfl ?_
  refine Transition.meets_cons ⟨trivial, trivial⟩ hsetUp ?_
  let h' := launched (serving d) 2
  refine Transition.meets_cons ⟨trivial, trivial⟩ (step_launch rfl rfl rfl) ?_
  refine orderly_syscall (called h' 2 1) (.create 99) rfl (by simp) rfl ?_
  refine orderly_syscall (called h' 2 2) (.fopen 99) rfl (by simp) rfl ?_
  refine orderly_syscall (called h' 2 3) (.fscanf 0 99) rfl (by simp) rfl ?_
  exact orderly_syscall (beside d) (.kill 1 0 99) rfl (by simp) rfl trivial

/-- Process 1 serves, and process 2 is refused. -/
theorem one_daemon_serves_oneLine : ∃ h,
    Transition.run (step smallLock) smallStart (starting oneLine ++ secondProcess) = some h ∧
    (∃ d, h.phase 1 = .loop defaultDirs d) ∧ h.phase 2 = .refused ∧
    ∀ q, (h.phase q).Serves → 1 = q := by
  obtain ⟨d, hsetUp⟩ := setUp_oneLine
  have hrun : Transition.run (step smallLock) smallStart (starting oneLine ++ secondProcess) =
      some (beside d) := by
    rw [Transition.run_append, run_starting, hsetUp, Option.bind_some]
    exact run_secondProcess d
  have hserves : ((beside d).phase 1).Serves := trivial
  exact ⟨beside d, hrun, ⟨d, rfl⟩, rfl, fun q hq =>
    one_daemon_serves starts_smallStart hrun (orderly_oneLine hsetUp) hserves hq⟩

def nulLine : SetUp SmallHost := answers ['\x00']

theorem setUp_nulLine : ∃ k, holding.setUp 1 nulLine =
    holding.move 1 [.crash 1] fun _ => .ended (.aborted k) := by
  have hthrows : (match startUp defaultDirs nulLine.dispatcher with
      | .ok _ _ => none
      | .error e _ => some e) = some .outOfRange := by decide +kernel
  unfold Host.setUp
  simp only [show holding.phase 1 = .setUp defaultDirs.sysBase defaultDirs.userBase from rfl,
    nulLine, prepare_answers]
  split at hthrows
  · exact absurd hthrows (by simp)
  · next e d' hstart =>
    obtain rfl := Option.some.inj hthrows
    rw [nulLine] at hstart
    rw [hstart]
    exact ⟨_, rfl⟩

theorem stale_lock_file_from_nulLine : ∃ h,
    Transition.run (step smallLock) smallStart (starting nulLine) = some h ∧
    ∃ k : SmallHost, h.phase 1 = .ended (.aborted k) ∧ (Ended.aborted k).MayLeave := by
  obtain ⟨k, hsetUp⟩ := setUp_nulLine
  have hrun := (run_starting nulLine).trans hsetUp
  refine ⟨_, hrun, k, rfl, ?_⟩
  rcases stale_lock_file_from (p := 1) starts_smallStart hrun ⟨0, rfl, rfl⟩ rfl with h | h
  · exact absurd h (by simp)
  · obtain ⟨e, he, hleave⟩ := h
    obtain rfl := Phase.ended.inj he
    exact hleave

end Incrond
end Incron
