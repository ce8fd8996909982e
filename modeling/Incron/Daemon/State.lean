import Incron.Daemon.Executor
import Incron.Daemon.Management
import Incron.Lib.FinMap
import Incron.Lib.Heap
import Incron.Lib.Hoare
import Incron.Table.Entry
import Mathlib.Data.List.Sort

/-! The state of the daemon around one table: the `InotifyWatch` objects, the table entries
and the dispatcher's map nodes as handles into heaps, the `Inotify` object of the table, and
the system calls. -/
namespace Incron

/-- `struct inotify_event`; the descriptor is `none` for -1. -/
structure RawEvent where
  wd : Option ℕ
  mask : Mask
  cookie : BitVec 32 := 0
  name : Str
  deriving DecidableEq, Repr

/-- The system below the daemon. Its state changes with every call, also by what other
processes do in the meantime. -/
class System (κ : Type) where
  /-- `inotify_add_watch`: a watch descriptor or an error number. -/
  addWatch : κ → ℕ → Str → Mask → κ × Except ℕ ℕ
  /-- The kernel has a watch with this descriptor. -/
  hasWatch : κ → ℕ → ℕ → Bool
  /-- What `inotify_rm_watch` makes of the state. -/
  rmWatch : κ → ℕ → ℕ → κ
  /-- `read` from an inotify descriptor, repeated after `EINTR`. -/
  readEvents : κ → ℕ → κ × Except ℕ (List RawEvent)
  /-- The answer of `MayAccess` for a user and a path, with or without `lstat`. -/
  mayAccess : κ → Str → Str → Bool → κ × Bool
  /-- The content of a file, `none` when `fopen` fails. -/
  readFile : κ → Str → κ × Option Str
  /-- The output of a command, `none` when `popen` fails. -/
  popen : κ → Str → κ × Option Str
  /-- `fork` succeeds. -/
  fork : κ → κ × Bool
  /-- The order of the pointers, in which `std::map` goes through its keys. -/
  order : List ℕ → List ℕ
  order_perm : ∀ l, (order l).Perm l

def einval : ℕ := 22
def ebusy : ℕ := 16
def ebadf : ℕ := 9
def ewouldblock : ℕ := 11

/-- `inotify_rm_watch`: it fails for a watch that the kernel does not have. -/
def inotifyRmWatch {κ : Type} [System κ] (k : κ) (fd wd : ℕ) : κ × Except ℕ Unit :=
  (System.rmWatch k fd wd, if System.hasWatch k fd wd then .ok () else .error einval)

/-- The exceptions, and `std::terminate`, which a destructor calls that throws. -/
inductive DaemonException where
  /-- `InotifyException` with its message and error number. -/
  | inotify (message : String) (errno : ℕ)
  /-- `std::out_of_range`. -/
  | outOfRange
  | terminate
  deriving DecidableEq, Repr

/-- `m_wd` is `none` for -1, `m_pInotify` is the address of the `Inotify` object. -/
structure InotifyWatch where
  path : Str
  mask : Mask
  wd : Option ℕ := none
  enabled : Bool := true
  pInotify : Option ℕ := none
  deriving DecidableEq, Repr, Inhabited

/-- An event with the pointer to its watch. -/
structure InotifyEvent where
  mask : Mask
  cookie : BitVec 32 := 0
  name : Str
  watch : ℕ
  deriving DecidableEq, Repr

/-- The fields of an `Inotify` object and its address. -/
structure Inotify where
  this : ℕ
  fd : Option ℕ
  watches : FinMap ℕ ℕ
  paths : FinMap Str ℕ
  events : List InotifyEvent

/-- What is constant about a table: `m_user`, `m_fSysTable`, the configured directories and the
address of the object. -/
structure UserTable where
  user : Str
  fSysTable : Bool
  sysBase : Str
  userBase : Str
  this : ℕ := 0
  deriving DecidableEq, Repr, Inhabited

def UserTable.path (t : UserTable) : Str :=
  buildPath (if t.fSysTable then t.sysBase else t.userBase) t.user

instance : Inhabited IncronTabEntry := ⟨{}⟩

structure PollFd where
  fd : ℕ
  events : BitVec 16
  revents : BitVec 16
  deriving DecidableEq, Repr

def pollin : BitVec 16 := 1

/-- `m_iPipeFd`, `m_iMgmtFd`, `m_size` and `m_pPoll` of the dispatcher. -/
structure Poll where
  pipeFd : ℕ := 0
  mgmtFd : ℕ := 0
  size : ℕ := 0
  data : List PollFd := []
  deriving DecidableEq, Repr

/-- `EventDispatcher::Rebuild` for the keys of `m_maps`, which are visited in order. -/
def Poll.rebuild (P : Poll) (keys : List ℕ) : Poll :=
  { P with
    size := keys.length + 2
    data := { fd := P.pipeFd, events := pollin, revents := 0 } ::
      { fd := P.mgmtFd, events := pollin, revents := 0 } ::
      (keys.insertionSort (· ≤ ·)).map fun fd =>
        { fd := fd, events := pollin, revents := 0 } }

/-- A handle that has been used. -/
inductive Handle where
  | watch (p : ℕ)
  | entry (p : ℕ)
  | node (p : ℕ)
  deriving DecidableEq, Repr

/-- `m_tab`, `m_map` and `m_in` of the table, `m_maps` and the poll array of the dispatcher. -/
structure DaemonState (κ : Type) where
  kernel : κ
  watchHeap : Heap InotifyWatch
  entryHeap : Heap IncronTabEntry
  /-- The nodes of `m_maps`. -/
  nodeHeap : Heap UserTable
  inotify : Inotify
  tab : List ℕ
  map : FinMap ℕ ℕ
  maps : FinMap ℕ ℕ
  poll : Poll := {}
  /-- The handles that were not live when they were read. What such a read gives is undefined, and
  the value that is read here stands for no behaviour of the program. -/
  faults : List Handle

abbrev Daemon (κ : Type) := EStateM DaemonException (DaemonState κ)

namespace Daemon
variable {κ : Type}

def call {α : Type} (f : κ → κ × α) : Daemon κ α :=
  fun s => .ok (f s.kernel).2 { s with kernel := (f s.kernel).1 }

/-- The state after a handle has been read. -/
def touch (s : DaemonState κ) (live : Bool) (h : Handle) : DaemonState κ :=
  { s with faults := if live then s.faults else s.faults ++ [h] }

def watchAt (p : ℕ) : Daemon κ InotifyWatch :=
  fun s => .ok (s.watchHeap.cell p) (touch s (s.watchHeap.live p) (.watch p))

def entryAt (p : ℕ) : Daemon κ IncronTabEntry :=
  fun s => .ok (s.entryHeap.cell p) (touch s (s.entryHeap.live p) (.entry p))

def nodeAt (p : ℕ) : Daemon κ UserTable :=
  fun s => .ok (s.nodeHeap.cell p) (touch s (s.nodeHeap.live p) (.node p))

def modifyInotify (f : Inotify → Inotify) : Daemon κ Unit :=
  modify fun s => { s with inotify := f s.inotify }

def modifyWatch (p : ℕ) (f : InotifyWatch → InotifyWatch) : Daemon κ Unit :=
  modify fun s => { s with watchHeap := s.watchHeap.set p (f (s.watchHeap.cell p)) }

/-! ## The rules -/

section
open Hoare

@[simp] theorem touch_live (s : DaemonState κ) (h : Handle) : touch s true h = s := rfl

variable {s : DaemonState κ} {E : DaemonException → DaemonState κ → Prop}

@[simp] theorem post_call {α : Type} (f : κ → κ × α) (Q : α → DaemonState κ → Prop) :
    Post (call f) s Q E ↔ Q (f s.kernel).2 { s with kernel := (f s.kernel).1 } := Iff.rfl

@[simp] theorem post_watchAt (p : ℕ) (Q : InotifyWatch → DaemonState κ → Prop) :
    Post (watchAt p) s Q E ↔
      Q (s.watchHeap.cell p) (touch s (s.watchHeap.live p) (.watch p)) := Iff.rfl

@[simp] theorem post_entryAt (p : ℕ) (Q : IncronTabEntry → DaemonState κ → Prop) :
    Post (entryAt p) s Q E ↔
      Q (s.entryHeap.cell p) (touch s (s.entryHeap.live p) (.entry p)) := Iff.rfl

@[simp] theorem post_nodeAt (p : ℕ) (Q : UserTable → DaemonState κ → Prop) :
    Post (nodeAt p) s Q E ↔
      Q (s.nodeHeap.cell p) (touch s (s.nodeHeap.live p) (.node p)) := Iff.rfl

@[simp] theorem post_modifyInotify (f : Inotify → Inotify)
    (Q : Unit → DaemonState κ → Prop) :
    Post (modifyInotify f) s Q E ↔ Q () { s with inotify := f s.inotify } := Iff.rfl

@[simp] theorem post_modifyWatch (p : ℕ) (f : InotifyWatch → InotifyWatch)
    (Q : Unit → DaemonState κ → Prop) :
    Post (modifyWatch p f) s Q E ↔
      Q () { s with watchHeap := s.watchHeap.set p (f (s.watchHeap.cell p)) } := Iff.rfl

end

end Daemon
end Incron
