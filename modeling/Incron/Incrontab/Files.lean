import Incron.Config.IncronCfg
import Incron.Daemon.Management
import Incron.Lib.Hoare
import Incron.Lib.OStream
import Incron.Table.RoundTrip
import Mathlib.Logic.Function.Basic

/-! The files that incrontab works on (ict-main.cpp), and `IncronTab::Load` and `Save` with the
calls that open and write them. -/
namespace Incron.Incrontab
open IncronTab IncronTabEntry

def einval : ℕ := 22

inductive IncrontabException where
  /-- `InotifyException` with its message and error number. -/
  | inotify (message : String) (errno : ℕ)
  /-- `std::out_of_range`. -/
  | outOfRange
  deriving DecidableEq, Repr

/-- `mtime` is in seconds. -/
structure File where
  content : Str
  mtime : ℤ
  deriving DecidableEq, Repr

/-- The files by their paths, and the temporary file of `edit_table` under the name that
`mkstemp` makes up, which no other file has. -/
structure FileSystem where
  file : Str → Option File
  temp : Option File := none

namespace FileSystem

def content (fs : FileSystem) (path : Str) : Option Str := (fs.file path).map File.content

def put (fs : FileSystem) (path : Str) (f : File) : FileSystem :=
  { fs with file := Function.update fs.file path (some f) }

def withTemp (fs : FileSystem) (f : Option File) : FileSystem := { fs with temp := f }

@[simp] theorem temp_withTemp (fs : FileSystem) (f : Option File) :
    (fs.withTemp f).temp = f := rfl

@[simp] theorem withTemp_withTemp (fs : FileSystem) (f g : Option File) :
    (fs.withTemp f).withTemp g = fs.withTemp g := rfl

@[simp] theorem content_put (fs : FileSystem) (path : Str) (f : File) :
    (fs.put path f).content path = some f.content := by
  simp [content, put]

def OnlyChanges (fs : FileSystem) (path : Str) (fs' : FileSystem) : Prop :=
  ∀ p, p ≠ path → fs'.file p = fs.file p

theorem onlyChanges_of_eq {path : Str} {fs fs' : FileSystem} (h : fs'.file = fs.file) :
    fs.OnlyChanges path fs' := fun _ _ => by rw [h]

theorem onlyChanges_put (fs : FileSystem) (path : Str) (f : File) :
    fs.OnlyChanges path (fs.put path f) := fun _ h => Function.update_of_ne h ..

end FileSystem

abbrev Program := EStateM IncrontabException FileSystem

structure Passwd where
  uid : ℕ
  gid : ℕ
  deriving DecidableEq, Repr

/-- How the calls on table files end: whether `fopen` works in either mode, the outcomes of the
writes of `Save` and their time, `getpwnam` and `chown`. -/
structure Calls where
  mayRead : Str → Bool
  mayWrite : Str → Bool
  save : Stdio.Writes
  saveTime : ℤ
  getpwnam : Str → Option Passwd
  chown : Str → ℕ → Bool

/-- `errno` after a failed `fopen`. -/
inductive Errno where
  | enoent
  | other
  deriving DecidableEq, Repr

/-- `fopen(path, "r")`: the content that can be read. -/
def Calls.openRead (sys : Calls) (fs : FileSystem) (path : Str) : Except Errno Str :=
  if sys.mayRead path then
    match fs.content path with
    | some content => .ok content
    | none => .error .enoent
  else .error .other

/-! ## The path of a table -/

def getUserTablePath (C : IncronCfg) (rUser : Str) : Program Str :=
  match C.getValue "user_table_dir".toList with
  | none => throw (.inotify "configuration is corrupted" einval)
  | some s => pure (buildPath s rUser)

/-- A configuration after `Init`: the built-in keys have values. -/
structure Configured where
  cfg : IncronCfg
  builtin : ∀ kv ∈ IncronCfg.builtin, (cfg.getValue kv.1).isSome

namespace Configured

/-- What `main` does before anything else. -/
def load (files : Str → Option Str) (rPath : Str) : Configured where
  cfg := (IncronCfg.init {}).load files rPath
  builtin := by
    have hinit : ∀ kv ∈ IncronCfg.builtin,
        ((IncronCfg.init {}).defaults.lookup kv.1).isSome := by decide
    have hload : ((IncronCfg.init {}).load files rPath).defaults =
        (IncronCfg.init {}).defaults := by
      unfold IncronCfg.load
      repeat' split
      all_goals rfl
    intro kv hkv
    rw [IncronCfg.getValue, hload]
    split
    · rfl
    · exact hinit kv hkv

variable (C : Configured)

def userTableDir : Str :=
  (C.cfg.getValue "user_table_dir".toList).get
    (C.builtin ("user_table_dir".toList, "/var/spool/incron".toList) (by decide))

def editor : Str :=
  (C.cfg.getValue "editor".toList).get (C.builtin ("editor".toList, []) (by decide))

def tablePath (rUser : Str) : Str := buildPath C.userTableDir rUser

theorem getValue_editor : C.cfg.getValue "editor".toList = some C.editor :=
  (Option.some_get _).symm

theorem getUserTablePath_eq (rUser : Str) :
    getUserTablePath C.cfg rUser = pure (C.tablePath rUser) := by
  have hdir : C.cfg.getValue "user_table_dir".toList = some C.userTableDir :=
    (Option.some_get _).symm
  rw [getUserTablePath, hdir]
  rfl

end Configured

/-! ## `Load` and `Save` -/

/-- `Load` of an opened file, `none` for `NULL`. -/
def loadFrom (f : Option Str) : Program (Bool × List IncronTabEntry) :=
  match IncronTab.load f with
  | .ok r => pure r
  | .error .outOfRange => throw .outOfRange

def load (sys : Calls) (rPath : Str) : Program (Bool × List IncronTabEntry) := do
  let fs ← get
  loadFrom (sys.openRead fs rPath).toOption

/-- The strings that `Save` gives to `fputs`. -/
def saveStrings (tab : List IncronTabEntry) : List Str :=
  tab.flatMap fun e => [Stdio.cString e.toString, ['\n']]

/-- `Save`: the table file is empty once it is open, and the results of the writes and of
`fclose` are not looked at. -/
def save (sys : Calls) (tab : List IncronTabEntry) (rPath : Str) : Program Bool :=
  if sys.mayWrite rPath then do
    modify fun fs => fs.put rPath ⟨sys.save.written (saveStrings tab), sys.saveTime⟩
    pure true
  else pure false

section Runs
variable {sys : Calls} (fs : FileSystem)

theorem loadFrom_ok {f : Option Str} {r : Bool × List IncronTabEntry}
    (h : IncronTab.load f = .ok r) : loadFrom f fs = .ok r fs := by
  rw [loadFrom, h]
  rfl

theorem loadFrom_error {f : Option Str} {e : OutOfRange} (h : IncronTab.load f = .error e) :
    loadFrom f fs = .error .outOfRange fs := by
  rw [loadFrom, h]
  rfl

theorem load_eq_loadFrom (rPath : Str) :
    load sys rPath fs = loadFrom (sys.openRead fs rPath).toOption fs := rfl

theorem save_ok {rPath : Str} (h : sys.mayWrite rPath = true) (tab : List IncronTabEntry) :
    save sys tab rPath fs =
      .ok true (fs.put rPath ⟨sys.save.written (saveStrings tab), sys.saveTime⟩) := by
  rw [save, if_pos h]
  rfl

theorem save_refused {rPath : Str} (h : ¬ sys.mayWrite rPath = true)
    (tab : List IncronTabEntry) : save sys tab rPath fs = .ok false fs := by
  rw [save, if_neg h]
  rfl

theorem post_loadFrom (f : Option Str) :
    Hoare.Post (loadFrom f) fs (fun _ fs' => fs' = fs) fun _ fs' => fs' = fs := by
  cases h : IncronTab.load f with
  | ok r =>
    rw [Hoare.Post, loadFrom_ok fs h]
  | error e =>
    rw [Hoare.Post, loadFrom_error fs h]

theorem post_save (tab : List IncronTabEntry) (rPath : Str) :
    Hoare.Post (save sys tab rPath) fs (fun _ fs' => fs.OnlyChanges rPath fs')
      fun _ _ => False := by
  by_cases h : sys.mayWrite rPath = true
  · rw [Hoare.Post, save_ok fs h]
    exact fs.onlyChanges_put rPath _
  · rw [Hoare.Post, save_refused fs h]
    exact FileSystem.onlyChanges_of_eq rfl

end Runs

/-- An opened file is loaded, or `Parse` throws. -/
theorem load_opened {content : Str} {b : Bool} {tab : List IncronTabEntry}
    (h : IncronTab.load (some content) = .ok (b, tab)) : b = true := by
  rw [IncronTab.load] at h
  cases hloop : loadLoop (Stdio.readAll 1000 content) [] with
  | error e => simp [hloop, Except.map] at h
  | ok r =>
    rw [hloop] at h
    exact (Prod.mk.inj (Except.ok.inj h)).1.symm

/-! ## What is saved -/

private theorem mem_loadLoop {l : List Str} {tab r : List IncronTabEntry}
    (h : loadLoop l tab = .ok r) {e : IncronTabEntry} (he : e ∈ r) :
    e ∈ tab ∨ ∃ s, parse (Stdio.cString s) = .ok (some e) := by
  induction l generalizing tab with
  | nil =>
    obtain rfl := Except.ok.inj h
    exact .inl he
  | cons s l ih =>
    rw [loadLoop] at h
    cases hp : parse (Stdio.cString s) with
    | error err => simp [hp] at h
    | ok o =>
      rw [hp] at h
      cases o with
      | none => exact ih h
      | some e' =>
        rcases ih h with hmem | hparse
        · rcases List.mem_append.mp hmem with hmem | hmem
          · exact .inl hmem
          · obtain rfl := List.mem_singleton.mp hmem
            exact .inr ⟨s, hp⟩
        · exact .inr hparse

/-- A loaded table is saved with all of its text: it has no NUL byte. -/
theorem saveStrings_flatten {f : Option Str} {b : Bool} {tab : List IncronTabEntry}
    (h : IncronTab.load f = .ok (b, tab)) : (saveStrings tab).flatten = saveText tab := by
  have hnul : ∀ e ∈ tab, '\x00' ∉ e.toString := by
    intro e he
    cases f with
    | none =>
      obtain rfl := (Prod.mk.inj (Except.ok.inj h)).2
      exact absurd he (by simp)
    | some content =>
      rw [IncronTab.load] at h
      cases hloop : loadLoop (Stdio.readAll 1000 content) [] with
      | error err => simp [hloop, Except.map] at h
      | ok r =>
        rw [hloop] at h
        obtain rfl := (Prod.mk.inj (Except.ok.inj h)).2
        rcases mem_loadLoop hloop he with hmem | ⟨s, hs⟩
        · exact absurd hmem (by simp)
        · exact nul_not_mem_toString hs (Stdio.nul_not_mem_cString s)
  unfold saveStrings saveText
  clear h
  induction tab with
  | nil => rfl
  | cons e tab ih =>
    have hrest := ih fun e he => hnul e (by simp [he])
    rw [List.flatMap_cons, List.flatten_append, hrest, List.flatMap_cons,
      Stdio.cString_of_not_mem (hnul e (by simp))]
    simp

/-! ## A system without failures -/

def Calls.works : Calls where
  mayRead _ := true
  mayWrite _ := true
  save := ⟨fun _ => ⟨true, 0⟩, ⟨true, 0⟩⟩
  saveTime := 7
  getpwnam _ := some ⟨1000, 1000⟩
  chown _ _ := true

/-- A table for `bob`, who has another one. -/
def newText : Str := "/new IN_OPEN ls\n".toList

theorem load_newText : IncronTab.load (some newText) =
    .ok (true, [{ path := "/new".toList, mask := 32, cmd := "ls".toList }]) := by
  decide +kernel

def bobsFiles : FileSystem where
  file path :=
    if path = "/var/spool/incron/bob".toList then some ⟨"/old IN_OPEN ls\n".toList, 1⟩
    else if path = "/tmp/new".toList then some ⟨newText, 2⟩
    else none

def plainConfig : Configured := Configured.load (fun _ => none) IncronCfg.cfgDefault

end Incron.Incrontab
