import Incron.Daemon.Expand
import Incron.Daemon.Watches

/-! A table in the daemon (usertable.cpp): `Load`, `Dispose`, `OnEvent`, and the dispatcher's
`Register`, `Unregister` and draining loop. `LOOPER` is not defined, so `s_procMap` stays
empty. -/
namespace Incron.Daemon
open Hoare

variable {κ : Type} [System κ] (t : UserTable)

/-! ## The dispatcher's map -/

def rebuild : Daemon κ Unit :=
  modify fun s => { s with poll := s.poll.rebuild s.maps.keys }

def register : Daemon κ Unit := do
  match (← get).inotify.fd with
  | none => pure ()
  | some fd =>
    match (← get).maps.lookup fd with
    | some _ => pure ()
    | none =>
      modify fun s => { s with
        nodeHeap := s.nodeHeap.alloc t
        maps := s.maps.insertNew fd s.nodeHeap.next }
    rebuild

def unregister : Daemon κ Unit := do
  match (← get).inotify.fd with
  | none => pure ()
  | some fd =>
    match (← get).maps.lookup fd with
    | none => pure ()
    | some node =>
      modify fun s => { s with nodeHeap := s.nodeHeap.free node, maps := s.maps.erase fd }
      rebuild

/-! ## The table entries -/

/-- `m_tab.clear()`. -/
def clearTab : Daemon κ Unit :=
  modify fun s => { s with entryHeap := s.entryHeap.freeAll s.tab, tab := [] }

/-- `m_tab.push_back(e)`. -/
def pushEntry (e : IncronTabEntry) : Daemon κ Unit :=
  modify fun s => { s with
    entryHeap := s.entryHeap.alloc e
    tab := s.tab ++ [s.entryHeap.next] }

/-- `IncronTab::Load`. -/
def loadTab (rPath : Str) : Daemon κ Unit := do
  clearTab
  match IncronTab.load (← call (System.readFile · rPath)) with
  | .error _ => throw .outOfRange
  | .ok (_, entries) => entries.forM pushEntry

/-- The paths that `Load` adds for an entry. -/
def subDirVec (rE : IncronTabEntry) : Daemon κ (List Str) := do
  let ssvec := Executor.execBashVec
    (← call (System.popen · (Executor.getSubDirCmd rE.path rE.dotDirs)))
  if '*' ∈ rE.path then
    let allfilesvec := Executor.execBashVec
      (← call (System.popen · (Executor.getAllFilesCmd rE.path rE.dotDirs)))
    return allfilesvec.foldl (fun v f => if f ∈ v then v else v ++ [f]) ssvec
  else return ssvec

/-- The body of the first loop of `Load`. The constructor with three arguments leaves the
flags of the new entries open; they are not read again. -/
def addSubDirs (p : ℕ) : Daemon κ Unit := do
  let rE ← entryAt p
  if rE.noRecursion then return
  let ssvec ← subDirVec rE
  (ssvec.filter (· ≠ rE.path)).forM fun subDir =>
    pushEntry { path := subDir, mask := rE.mask, cmd := rE.cmd }

/-! ## Watches -/

/-- `new InotifyWatch(path, mask)`. -/
def newWatch (path : Str) (mask : Mask) : Daemon κ ℕ :=
  modifyGet fun s =>
    (s.watchHeap.next, { s with watchHeap := s.watchHeap.alloc { path := path, mask := mask } })

def deleteWatch (p : ℕ) : Daemon κ Unit :=
  modify fun s => { s with watchHeap := s.watchHeap.free p }

/-- `m_fSysTable || MayAccess(path, DONT_FOLLOW(mask))`. -/
def mayAccess (path : Str) (mask : Mask) (k : κ) : κ × Bool :=
  if t.fSysTable then (k, true)
  else System.mayAccess k t.user path (InotifyEvent.isType mask inDontFollow)

/-- `AddTabEntry`; a refused access is only logged. -/
def addTabEntry (p : ℕ) : Daemon κ Unit := do
  let rE ← entryAt p
  let pW ← newWatch rE.path rE.mask
  let _ ← call (mayAccess t rE.path rE.mask)
  tryCatch
    (do
      add pW
      modify fun s => { s with map := s.map.insertNew pW p })
    fun
      | .inotify _ _ => deleteWatch pW
      | e => throw e

/-- The body of the second loop of `Load`: the wildcard paths are skipped. -/
def addPlainEntry (p : ℕ) : Daemon κ Unit := do
  let rE ← entryAt p
  if '*' ∈ rE.path then return
  addTabEntry t p

def load : Daemon κ Unit := do
  loadTab t.path
  (← get).tab.forM addSubDirs
  (← get).tab.forM (addPlainEntry t)
  register t

/-- The body of the loop of `Dispose`. -/
def disposeWatch (pW : ℕ) : Daemon κ Unit := do
  remove pW
  deleteWatch pW

def dispose : Daemon κ Unit := do
  unregister
  (System.order κ (← get).map.keys).forM disposeWatch
  modify fun s => { s with map := ∅ }

/-- `~UserTable` and the destructor of its `Inotify` object. -/
def destroy : Daemon κ Unit := do
  dispose
  close

def reload : Daemon κ Unit := do
  dispose
  load t

/-! ## Events -/

/-- A directory has been created or moved in. -/
def isNewDir (mask : Mask) : Bool :=
  InotifyEvent.isType mask inIsdir &&
    (InotifyEvent.isType mask inCreate || InotifyEvent.isType mask inMovedTo)

def watchPath (pW : ℕ) : Daemon κ Str := do
  return (← watchAt pW).path

/-- The expansion of the command of an entry; the watch is read for `$@` only. -/
def expandEntry (pE : ℕ) (rEvt : InotifyEvent) : Daemon κ Str := do
  let cs := (← entryAt pE).cmd
  let path ←
    if .path ∈ UserTable.template rEvt.mask cs then watchPath rEvt.watch else pure []
  match UserTable.expandCmd cs path rEvt.name rEvt.mask with
  | .error _ => throw .outOfRange
  | .ok cmd => return cmd

/-- `UserTable::OnEvent` in the process that has called it: the command that has been handed
to a child. -/
def onEvent (rEvt : InotifyEvent) : Daemon κ (Option Str) := do
  let pW := rEvt.watch
  match (← get).map.lookup pW with
  | none => return none
  | some pE =>
    if !(← call (mayAccess t (← watchPath pW) rEvt.mask)) then return none
    -- the log line
    let _ ← watchPath pW
    if isNewDir rEvt.mask then
      reload t
    let cmd ← expandEntry pE rEvt
    return if ← call System.fork then some cmd else none

/-- `ProcessEvents` up to the draining loop: the node of the descriptor, if it is found. -/
def startEvents (fd : ℕ) : Daemon κ (Option ℕ) := do
  match (← get).maps.lookup fd with
  | none => return none
  | some it =>
    let _ ← nodeAt it
    waitForEvents
    return some it

/-- One test of the draining loop with the node `it`, and the round behind it: the event with
the command that it has caused. -/
def round (it : ℕ) : Daemon κ (Option (InotifyEvent × Option Str)) := do
  match ← getEvent with
  | none => return none
  | some evt => return some (evt, ← onEvent (← nodeAt it) evt)

/-- The draining loop of `ProcessEvents`. -/
def drain (it : ℕ) : ℕ → Daemon κ (List (InotifyEvent × Option Str))
  | 0 => return []
  | fuel + 1 => do
    match ← round it with
    | none => return []
    | some r => return r :: (← drain it fuel)

end Incron.Daemon
