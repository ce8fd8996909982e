import Incron.Daemon.Registry

/-! The dispatcher with all tables (icd-main.cpp, usertable.cpp): the start-up scan, the
management events, and one pass of `ProcessEvents` between two polls. -/
namespace Incron
open Management

/-- What the dispatcher needs of the system besides the calls of the tables. -/
class DispatcherSystem (κ : Type) extends System κ where
  /-- `inotify_init` in a process with these open descriptors. -/
  inotifyInit : κ → List ℕ → κ × Except ℕ ℕ
  init_closed : ∀ k fds fd, (inotifyInit k fds).2 = .ok fd → fd ∉ fds
  /-- The names of the regular files of a table directory, or the error of `opendir`. -/
  readDir : κ → TableDir → κ × Except ℕ (List FileName)
  readDir_nodup : ∀ k dir names, (readDir k dir).2 = .ok names → names.Nodup
  /-- `UserTable::CheckUser`. -/
  checkUser : κ → FileName → κ × Bool
  /-- The events that `WaitForEvents` and `GetEvent` of the management object give. -/
  readMgmt : κ → κ × Except ℕ (List MgmtEvent)

instance : Inhabited Inotify :=
  ⟨{ this := 0, fd := none, watches := ∅, paths := ∅, events := [] }⟩

/-- A `UserTable` object with the objects that it owns. -/
structure TableObject where
  table : UserTable
  watchHeap : Heap InotifyWatch := default
  entryHeap : Heap IncronTabEntry := default
  inotify : Inotify
  tab : List ℕ := []
  map : FinMap ℕ ℕ := ∅
  deriving Inhabited

/-- `g_ut` and `g_fFinish`, the dispatcher, the tables and the open descriptors of the
process. -/
structure DispatcherState (κ : Type) where
  kernel : κ
  /-- The nodes of `m_maps`. -/
  nodeHeap : Heap UserTable
  maps : FinMap ℕ ℕ
  poll : Poll
  tables : Heap TableObject
  ut : FinMap Str ℕ
  fds : List ℕ
  finish : Bool := false
  faults : List Handle

/-- A part of the daemon that may use all tables. -/
abbrev Dispatch (κ : Type) := EStateM DaemonException (DispatcherState κ)

namespace DispatcherState
variable {κ : Type} (d : DispatcherState κ) (p : ℕ)

/-- What the code of the table at `p` works on. -/
def view : DaemonState κ :=
  let o := d.tables.cell p
  { kernel := d.kernel, watchHeap := o.watchHeap, entryHeap := o.entryHeap,
    nodeHeap := d.nodeHeap, inotify := o.inotify, tab := o.tab, map := o.map, maps := d.maps,
    poll := d.poll, faults := d.faults }

/-- What it leaves behind. -/
def put (s : DaemonState κ) : DispatcherState κ :=
  { d with
    kernel := s.kernel
    nodeHeap := s.nodeHeap
    maps := s.maps
    poll := s.poll
    faults := s.faults
    tables := d.tables.set p { d.tables.cell p with
      watchHeap := s.watchHeap, entryHeap := s.entryHeap, inotify := s.inotify, tab := s.tab,
      map := s.map } }

end DispatcherState

namespace Dispatch
open Hoare Daemon

variable {κ : Type}

def onTable {α : Type} (p : ℕ) (f : UserTable → Daemon κ α) : Dispatch κ α := fun d =>
  match f (d.tables.cell p).table (d.view p) with
  | .ok a s => .ok a (d.put p s)
  | .error e s => .error e (d.put p s)

def call {α : Type} (f : κ → κ × α) : Dispatch κ α :=
  fun d => .ok (f d.kernel).2 { d with kernel := (f d.kernel).1 }

def rebuild : Dispatch κ Unit :=
  modify fun d => { d with poll := d.poll.rebuild d.maps.keys }

section
variable [DispatcherSystem κ] (D : TableDirs)

/-! ## Tables -/

/-- `new UserTable(pEd, rUser, fSysTable)`. -/
def newTable (dir : TableDir) (rUser : FileName) : Dispatch κ ℕ := do
  let fds := (← get).fds
  match ← call (DispatcherSystem.inotifyInit · fds) with
  | .error errno => throw (.inotify "inotify init failed" errno)
  | .ok fd =>
    modifyGet fun d =>
      let p := d.tables.next
      (p, { d with
        fds := fd :: d.fds
        tables := d.tables.alloc
          { table :=
              { user := rUser, fSysTable := dir = .sys, sysBase := D.sysBase,
                userBase := D.userBase, this := p }
            inotify := { this := p, fd := some fd, watches := ∅, paths := ∅, events := [] } } })

/-- `delete pUt`; the descriptor of its `Inotify` object is closed. An exception does not leave
`~UserTable`, which is a destructor of C++11. -/
def deleteTable (pUt : ℕ) : Dispatch κ Unit := do
  let fd := ((← get).tables.cell pUt).inotify.fd
  tryCatch (onTable pUt fun _ => destroy) fun _ => throw .terminate
  modify fun d => { d with
    fds := match fd with
      | none => d.fds
      | some fd => d.fds.erase fd
    tables := d.tables.free pUt }

/-- A table is created for a file, inserted into `g_ut` and loaded. -/
def loadTable (dir : TableDir) (n : FileName) : Dispatch κ Unit := do
  let pUt ← newTable D dir n
  modify fun d => { d with ut := d.ut.insertNew (buildPath (D.base dir) n) pUt }
  onTable pUt load

/-! ## The start -/

/-- The body of the first loop of `load_tables`. -/
def loadSystemTable (n : FileName) : Dispatch κ Unit := do
  if isHidden n || isBackup n then return
  loadTable D .sys n

/-- The body of the second loop of `load_tables`. -/
def loadUserTable (n : FileName) : Dispatch κ Unit := do
  if ← call (DispatcherSystem.checkUser · n) then loadTable D .user n

def loadTables : Dispatch κ Unit := do
  match ← call (DispatcherSystem.readDir · .sys) with
  | .error _ => pure ()
  | .ok names => names.forM (loadSystemTable D)
  match ← call (DispatcherSystem.readDir · .user) with
  | .error errno => throw (.inotify "cannot open user table directory" errno)
  | .ok names => names.forM (loadUserTable D)

/-- `load_tables` in its two halves. -/
def scanSystemTables : Dispatch κ Unit := do
  match ← call (DispatcherSystem.readDir · .sys) with
  | .error _ => pure ()
  | .ok names => names.forM (loadSystemTable D)

def scanUserTables : Dispatch κ Unit := do
  match ← call (DispatcherSystem.readDir · .user) with
  | .error errno => throw (.inotify "cannot open user table directory" errno)
  | .ok names => names.forM (loadUserTable D)

theorem loadTables_eq (d : DispatcherState κ) :
    loadTables D d = (do scanSystemTables D; scanUserTables D : Dispatch κ Unit) d := by
  unfold loadTables scanSystemTables
  simp only [Bind.bind, EStateM.bind, call]
  cases (DispatcherSystem.readDir d.kernel .sys).2 <;> rfl

/-- What `main` does with the dispatcher before its loop. -/
def startUp : Dispatch κ Unit := do
  loadTables D
  rebuild

/-! ## Management events -/

/-- The body of the loop of `ProcessMgmtEvents`, for both directories: hidden files are skipped
in the first one, new tables are checked in the second one. -/
def processMgmtEvent (e : MgmtEvent) : Dispatch κ Unit := do
  if InotifyEvent.isType e.mask inDeleteSelf || InotifyEvent.isType e.mask inUnmount then
    modify fun d => { d with finish := true }
  else
    match e.name with
    | none => pure ()
    | some n =>
      if e.watch = .sys ∧ isHidden n then return
      match (← get).ut.lookup (buildPath (D.base e.watch) n) with
      | some pUt =>
        if isArrival e then
          onTable pUt reload
        else if isDeparture e then
          deleteTable pUt
          modify fun d => { d with ut := d.ut.erase (buildPath (D.base e.watch) n) }
      | none =>
        if isArrival e then
          match e.watch with
          | .sys => loadTable D .sys n
          | .user => if ← call (DispatcherSystem.checkUser · n) then loadTable D .user n

def processMgmtEvents : Dispatch κ Unit := do
  match ← call DispatcherSystem.readMgmt with
  | .error errno => throw (.inotify "reading events failed" errno)
  | .ok evts => evts.forM (processMgmtEvent D)

/-! ## Polls -/

/-- `m_pPoll[i].revents & POLLIN`. -/
def readable (P : Poll) (i : ℕ) : Bool :=
  match P.data[i]? with
  | none => false
  | some pfd => pfd.revents &&& pollin != 0

/-- `m_pPoll[i].revents = 0`. -/
def clearEvents (i : ℕ) : Dispatch κ Unit :=
  modify fun d => { d with poll := { d.poll with
    data := d.poll.data.modify i fun pfd => { pfd with revents := 0 } } }

/-- The events of the table that is registered for a descriptor; the draining loop ends when
the queue is empty. -/
def processTable (fd : ℕ) : Dispatch κ Unit := do
  match (← get).maps.lookup fd with
  | none => pure ()
  | some it =>
    onTable ((← get).nodeHeap.cell it).this fun _ => do
      match ← startEvents fd with
      | none => pure ()
      | some it =>
        let _ ← drain it ((← get).inotify.events.length + 1)

/-- The body of the loop of `ProcessEvents`. -/
def processEntry (i : ℕ) : Dispatch κ Unit := do
  if readable (← get).poll i then
    match (← get).poll.data[i]? with
    | none => pure ()
    | some pfd => processTable pfd.fd
    clearEvents i

/-- `for (; i < m_size; i++)`; `m_size` is read again each time. -/
def processEntries : ℕ → ℕ → Dispatch κ Unit
  | 0, _ => return
  | fuel + 1, i => do
    if i < (← get).poll.size then
      processEntry i
      processEntries fuel (i + 1)

def processEvents : Dispatch κ Bool := do
  let pipe := readable (← get).poll 0
  if pipe then clearEvents 0
  if readable (← get).poll 1 then
    processMgmtEvents D
    clearEvents 1
  processEntries (← get).poll.size 2
  return pipe

/-- What `poll` reports, and the system at that time. -/
structure Report (κ : Type) where
  kernel : κ
  revents : ℕ → BitVec 16

def polled (d : DispatcherState κ) (r : Report κ) : DispatcherState κ :=
  { d with
    kernel := r.kernel
    poll := { d.poll with
      data := d.poll.data.mapIdx fun i pfd => { pfd with revents := r.revents i } } }

inductive PollResult (κ : Type) where
  | ready (r : Report κ)
  /-- `EINTR`. -/
  | interrupted
  /-- `EAGAIN`. -/
  | short
  | failed (errno : ℕ)

/-- The body of the loop of `main`. -/
def loopBody : PollResult κ → Dispatch κ Unit
  | .ready r => do
    modify (polled · r)
    let _ ← processEvents D
  | .interrupted | .short => pure ()
  | .failed errno => throw (.inotify "polling failed" errno)

/-- A pass of the loop for which `poll` reports events; an exception ends the daemon. -/
def step (d : DispatcherState κ) (r : Report κ) : Option (DispatcherState κ) :=
  if d.finish then none
  else
    match processEvents D (polled d r) with
    | .ok _ d' => some d'
    | .error _ _ => none

end

/-! ## The rules -/

section
variable {d : DispatcherState κ} {p : ℕ} {E : DaemonException → DispatcherState κ → Prop}

@[simp] theorem view_put (s : DaemonState κ) : (d.put p s).view p = s := by
  simp [DispatcherState.view, DispatcherState.put]

@[simp] theorem table_put (q : ℕ) (s : DaemonState κ) :
    ((d.put p s).tables.cell q).table = (d.tables.cell q).table := by
  by_cases hq : q = p <;> simp [DispatcherState.put, Heap.set_cell, hq]

theorem view_put_of_ne {q : ℕ} (hq : q ≠ p) (s : DaemonState κ) : (d.put p s).view q =
    { d.view q with
      kernel := s.kernel, nodeHeap := s.nodeHeap, maps := s.maps, poll := s.poll,
      faults := s.faults } := by
  simp [DispatcherState.view, DispatcherState.put, Heap.set_cell_of_ne _ hq]

@[simp] theorem post_onTable {α : Type} (f : UserTable → Daemon κ α)
    (Q : α → DispatcherState κ → Prop) :
    Post (onTable p f) d Q E ↔ Post (f (d.tables.cell p).table) (d.view p)
      (fun a s => Q a (d.put p s)) fun e s => E e (d.put p s) := by
  unfold Post onTable
  cases f (d.tables.cell p).table (d.view p) <;> rfl

@[simp] theorem post_call {α : Type} (f : κ → κ × α) (Q : α → DispatcherState κ → Prop) :
    Post (call f) d Q E ↔ Q (f d.kernel).2 { d with kernel := (f d.kernel).1 } := Iff.rfl

end

end Dispatch
end Incron
