import Incron.Inotify.EventMask
import Incron.Lib.FinMap
import Incron.Lib.Transition

/-! The management of the table directories: the start-up scan `load_tables`, the event
handler `EventDispatcher::ProcessMgmtEvents`, and the changes of the directories that the
kernel reports. -/
namespace Incron

/-- `IncronCfg::BuildPath`. For the empty path `rfind` gives `npos`, which is `length() - 1`. -/
def buildPath (rPath rName : Str) : Str :=
  if rPath = [] ∨ rPath.getLast? = some '/' then rPath ++ rName else rPath ++ '/' :: rName

namespace Management

abbrev FileName := { s : Str // s ≠ [] ∧ '/' ∉ s }

inductive TableDir where
  | sys
  | user
  deriving DecidableEq, Repr

/-- The two configured directories; they are not the same one. -/
structure TableDirs where
  sysBase : Str
  userBase : Str
  distinct : buildPath sysBase [] ≠ buildPath userBase []

def TableDirs.base (D : TableDirs) : TableDir → Str
  | .sys => D.sysBase
  | .user => D.userBase

/-- The regular files of a directory with their contents. -/
abbrev Dir := FinMap FileName Str

abbrev Files := TableDir → Dir

/-- A `UserTable` with the content that its last `Load` has read, `none` for a file that could
not be opened. -/
structure UserTable where
  user : FileName
  fSysTable : Bool
  loaded : Option Str := none
  deriving DecidableEq

namespace UserTable

def dir (t : UserTable) : TableDir := if t.fSysTable then .sys else .user

/-- `GetSystemTablePath(m_user)` or `GetUserTablePath(m_user)`. -/
def path (D : TableDirs) (t : UserTable) : Str := buildPath (D.base t.dir) t.user

/-- `Load`, as far as the table file is concerned. -/
def load (fs : Files) (t : UserTable) : UserTable :=
  { t with loaded := (fs t.dir).lookup t.user }

end UserTable

/-- `SUT_MAP`. -/
abbrev TableMap := FinMap Str UserTable

def isHidden (n : FileName) : Bool := n.1.head? = some '.'

def isBackup (n : FileName) : Bool := n.1.getLast? = some '~'

section
variable (D : TableDirs) (checkUser : FileName → Bool) (fs : Files)

/-- One of the two scans of `load_tables`: the files that pass the test are loaded. -/
def scan (d : TableDir) (ok : FileName → Bool) (ut : TableMap) : TableMap :=
  (fs d).entries.foldl (fun ut f =>
    if ok f.1 then
      ut.insertNew (buildPath (D.base d) f.1)
        (UserTable.load fs { user := f.1, fSysTable := d = .sys })
    else ut) ut

/-- `load_tables`: hidden files and backups are no system tables, user tables belong to users
that pass `CheckUser`. -/
def loadTables : TableMap :=
  scan D fs .user checkUser (scan D fs .sys (fun n => !isHidden n && !isBackup n) ∅)

/-! ## Events -/

/-- An event of one of the two watches; `none` is the empty name of an event about the
directory itself. -/
structure MgmtEvent where
  watch : TableDir
  mask : Mask
  name : Option FileName
  deriving DecidableEq

def isArrival (e : MgmtEvent) : Bool :=
  InotifyEvent.isType e.mask inCloseWrite || InotifyEvent.isType e.mask inMovedTo

def isDeparture (e : MgmtEvent) : Bool :=
  InotifyEvent.isType e.mask inMovedFrom || InotifyEvent.isType e.mask inDelete

/-- The part of `ProcessMgmtEvents` that is common to both directories; `accept` is asked
for new tables only. -/
def tableEvent (e : MgmtEvent) (n : FileName) (accept : Bool) (ut : TableMap) : TableMap :=
  match ut.lookup (buildPath (D.base e.watch) n) with
  | some t =>
    if isArrival e then ut.insert (buildPath (D.base e.watch) n) (t.load fs)
    else if isDeparture e then ut.erase (buildPath (D.base e.watch) n)
    else ut
  | none =>
    if isArrival e && accept then
      ut.insertNew (buildPath (D.base e.watch) n)
        (UserTable.load fs { user := n, fSysTable := e.watch = .sys })
    else ut

/-- The body of the loop of `ProcessMgmtEvents`: the tables and `g_fFinish`. -/
def processMgmtEvent (e : MgmtEvent) (ut : TableMap) (finish : Bool) : TableMap × Bool :=
  if InotifyEvent.isType e.mask inDeleteSelf || InotifyEvent.isType e.mask inUnmount then
    (ut, true)
  else
    match e.watch, e.name with
    | _, none => (ut, finish)
    | .sys, some n => (if isHidden n then ut else tableEvent D fs e n true ut, finish)
    | .user, some n => (tableEvent D fs e n (checkUser n) ut, finish)

end

/-! ## Changes of the directories -/

inductive Change where
  | write (d : TableDir) (n : FileName) (content : Str)
  | moveIn (d : TableDir) (n : FileName) (content : Str)
  | moveOut (d : TableDir) (n : FileName)
  | rename (d : TableDir) (n n' : FileName)
  | delete (d : TableDir) (n : FileName)

/-- What a change makes of the files, and what the kernel reports. -/
def Change.apply (c : Change) (fs : Files) : Files × List MgmtEvent :=
  match c with
  | .write d n content =>
    (Function.update fs d ((fs d).insert n content), [⟨d, inCloseWrite, some n⟩])
  | .moveIn d n content =>
    (Function.update fs d ((fs d).insert n content), [⟨d, inMovedTo, some n⟩])
  | .moveOut d n =>
    if n ∈ fs d then (Function.update fs d ((fs d).erase n), [⟨d, inMovedFrom, some n⟩])
    else (fs, [])
  | .rename d n n' =>
    match (fs d).lookup n with
    | some content =>
      if n = n' then (fs, [])
      else (Function.update fs d (((fs d).erase n).insert n' content),
        [⟨d, inMovedFrom, some n⟩, ⟨d, inMovedTo, some n'⟩])
    | none => (fs, [])
  | .delete d n =>
    if n ∈ fs d then (Function.update fs d ((fs d).erase n), [⟨d, inDelete, some n⟩])
    else (fs, [])

/-! ## The system -/

/-- The directories, the events that are not processed yet, all events so far, and the state
of the daemon. -/
structure System where
  files : Files
  queue : List MgmtEvent := []
  reported : List MgmtEvent := []
  ut : TableMap
  finish : Bool := false

/-- Changes and the processing of single events come in any order. -/
inductive Action where
  | change (c : Change)
  | process

section
variable (D : TableDirs) (checkUser : FileName → Bool)

def System.start (fs : Files) : System := { files := fs, ut := loadTables D checkUser fs }

def step (s : System) : Action → Option System
  | .change c =>
    let (fs, es) := c.apply s.files
    some { s with files := fs, queue := s.queue ++ es, reported := s.reported ++ es }
  | .process =>
    match s.queue with
    | [] => none
    | e :: q =>
      let (ut, finish) := processMgmtEvent D checkUser s.files e s.ut s.finish
      some { s with queue := q, ut := ut, finish := finish }

/-- The tables are those of a restart, and each has the current content of its file. -/
def AgreesWithRestart (s : System) : Prop :=
  (∀ k, k ∈ s.ut ↔ k ∈ loadTables D checkUser s.files) ∧
    ∀ k t, s.ut.lookup k = some t → k = t.path D ∧ t.loaded = (s.files t.dir).lookup t.user

end

/-! ## Paths -/

theorem buildPath_eq (p n : Str) : buildPath p n = buildPath p [] ++ n := by
  unfold buildPath
  split_ifs <;> simp

private theorem buildPath_nil_slash (p : Str) :
    buildPath p [] = [] ∨ (buildPath p []).getLast? = some '/' := by
  unfold buildPath
  split_ifs with h
  · simpa using h
  · exact Or.inr (by simp)

/-- The name of a file can be read off its path. -/
private theorem takeWhile_buildPath (p : Str) (n : FileName) :
    (buildPath p n).reverse.takeWhile (· ≠ '/') = n.1.reverse := by
  have hn : ∀ c ∈ n.1.reverse, decide (c ≠ '/') = true := by
    intro c hc
    have hne : c ≠ '/' := by
      rintro rfl
      exact n.2.2 (List.mem_reverse.mp hc)
    simpa using hne
  rw [buildPath_eq, List.reverse_append, List.takeWhile_append_of_pos hn]
  rcases buildPath_nil_slash p with h | h
  · simp [h]
  · rw [← List.head?_reverse] at h
    cases hr : (buildPath p []).reverse with
    | nil => simp
    | cons c q =>
      rw [hr] at h
      have hc : c = '/' := by simpa using h
      simp [hc]

theorem buildPath_injective (D : TableDirs) {d d' : TableDir} {n n' : FileName}
    (h : buildPath (D.base d) n = buildPath (D.base d') n') : d = d' ∧ n = n' := by
  have hname : n = n' := by
    have := congrArg (fun s : Str => s.reverse.takeWhile (· ≠ '/')) h
    simp only [takeWhile_buildPath, List.reverse_inj] at this
    exact Subtype.ext this
  subst hname
  refine ⟨?_, rfl⟩
  rw [buildPath_eq, buildPath_eq (D.base d')] at h
  have hbase := List.append_cancel_right h
  cases d <;> cases d'
  · rfl
  · exact absurd hbase D.distinct
  · exact absurd hbase.symm D.distinct
  · rfl

/-! ## What the scan finds -/

def fileTable (fs : Files) (d : TableDir) (n : FileName) : UserTable :=
  { user := n, fSysTable := d = .sys, loaded := (fs d).lookup n }

section
variable (D : TableDirs) (checkUser : FileName → Bool) (fs : Files)

theorem load_eq (d : TableDir) (n : FileName) (c : Option Str) :
    UserTable.load fs { user := n, fSysTable := d = .sys, loaded := c } = fileTable fs d n := by
  cases d <;> rfl

def scanned (d : TableDir) (n : FileName) : Bool :=
  match d with
  | .sys => !isHidden n && !isBackup n
  | .user => checkUser n

private theorem lookup_scan (d d' : TableDir) (n : FileName) (ok : FileName → Bool)
    (ut : TableMap) :
    (scan D fs d ok ut).lookup (buildPath (D.base d') n) =
      (ut.lookup (buildPath (D.base d') n)).or
        (if d = d' ∧ ok n then ((fs d).lookup n).map fun _ => fileTable fs d n else none) := by
  rw [scan, FinMap.lookup_foldl_insertNew (fs d).entries (fun f => ok f.1)
    (fun f => buildPath (D.base d) f.1)
    (fun f => UserTable.load fs { user := f.1, fSysTable := d = .sys })]
  congr 1
  by_cases hd : d = d'
  · subst hd
    have hkey : ∀ f : FileName, decide (buildPath (D.base d) f = buildPath (D.base d) n) =
        decide (f = n) := by
      intro f
      exact decide_eq_decide.mpr ⟨fun h => (buildPath_injective D h).2, fun h => by rw [h]⟩
    simp only [hkey, load_eq, true_and]
    exact FinMap.find?_entries (fs d) ok n fun f => fileTable fs d f
  · have hkey : ∀ f : FileName, decide (buildPath (D.base d) f = buildPath (D.base d') n) =
        false := by
      intro f
      simpa using fun h => hd (buildPath_injective D h).1
    simp [hkey, hd]

private theorem mem_scan {d : TableDir} {ok : FileName → Bool} {ut : TableMap} {k : Str}
    (h : k ∈ scan D fs d ok ut) : k ∈ ut ∨ ∃ n : FileName, k = buildPath (D.base d) n := by
  rw [← AList.lookup_isSome, scan, FinMap.lookup_foldl_insertNew (fs d).entries (fun f => ok f.1)
    (fun f => buildPath (D.base d) f.1)
    (fun f => UserTable.load fs { user := f.1, fSysTable := d = .sys })] at h
  cases hut : ut.lookup k with
  | some t => exact Or.inl (AList.lookup_isSome.mp (by simp [hut]))
  | none =>
    rw [hut, Option.none_or, Option.isSome_map, List.find?_isSome] at h
    obtain ⟨f, -, hf⟩ := h
    exact Or.inr ⟨f.1, by simp_all⟩

/-- Only paths of files in the two directories have tables. -/
theorem mem_loadTables {k : Str} (h : k ∈ loadTables D checkUser fs) :
    ∃ d, ∃ n : FileName, k = buildPath (D.base d) n := by
  rcases mem_scan D fs h with h | ⟨n, hn⟩
  · rcases mem_scan D fs h with h | ⟨n, hn⟩
    · exact absurd h (AList.notMem_empty k)
    · exact ⟨.sys, n, hn⟩
  · exact ⟨.user, n, hn⟩

theorem lookup_loadTables (d : TableDir) (n : FileName) :
    (loadTables D checkUser fs).lookup (buildPath (D.base d) n) =
      if scanned checkUser d n then ((fs d).lookup n).map fun _ => fileTable fs d n
      else none := by
  rw [loadTables, lookup_scan, lookup_scan, AList.lookup_empty]
  cases d with
  | sys => simp [scanned]
  | user => cases hu : checkUser n <;> simp [scanned, hu]

end

end Management
end Incron
