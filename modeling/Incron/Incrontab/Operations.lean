import Incron.Incrontab.Edit

/-! The shorter operations of incrontab (ict-main.cpp): a table is removed, listed, or opened and
closed for a reload; the event types are listed. -/
namespace Incron.Incrontab
open IncronTab

/-- `tp` is unlinked, or opened with `O_WRONLY | O_APPEND`, unless the system refuses that. -/
structure TableCalls extends EditCalls where
  mayUnlink : Str → Bool
  mayAppend : Str → Bool

namespace FileSystem

def remove (fs : FileSystem) (path : Str) : FileSystem :=
  { fs with file := Function.update fs.file path none }

@[simp] theorem content_remove (fs : FileSystem) (path : Str) :
    (fs.remove path).content path = none := by
  simp [content, remove]

theorem onlyChanges_remove (fs : FileSystem) (path : Str) :
    fs.OnlyChanges path (fs.remove path) := fun _ h => Function.update_of_ne h ..

end FileSystem

/-- `unlink` of a table file: what it leaves. -/
def TableCalls.unlinkTable (sys : TableCalls) (fs : FileSystem) (path : Str) :
    Except Errno FileSystem :=
  if sys.mayUnlink path then
    match fs.content path with
    | some _ => .ok (fs.remove path)
    | none => .error .enoent
  else .error .other

/-- `open` of a table file for appending. -/
def TableCalls.openAppend (sys : TableCalls) (fs : FileSystem) (path : Str) : Except Errno Unit :=
  if sys.mayAppend path then
    match fs.content path with
    | some _ => .ok ()
    | none => .error .enoent
  else .error .other

/-- `remove_table`; it is no failure that there is no table. -/
def removeTable (sys : TableCalls) (C : IncronCfg) (rUser : Str) : Program Bool := do
  let tp ← getUserTablePath C rUser
  match sys.unlinkTable (← get) tp with
  | .ok fs => do
    set fs
    pure true
  | .error .enoent => pure true
  | .error .other => pure false

/-- `list_table`: the answer, and what is printed. -/
def listTable (sys : TableCalls) (C : IncronCfg) (rUser : Str) : Program (Bool × Str) := do
  let tp ← getUserTablePath C rUser
  match sys.openRead (← get) tp with
  | .ok content => pure (true, (copyStrings content).flatten)
  | .error .enoent => pure (true, [])
  | .error .other => pure (false, [])

/-- `reload_table`: the file is closed at once, which the daemon is told. -/
def reloadTable (sys : TableCalls) (C : IncronCfg) (rUser : Str) : Program Bool := do
  let tp ← getUserTablePath C rUser
  match sys.openAppend (← get) tp with
  | .ok () => pure true
  | .error .enoent => pure true
  | .error .other => pure false

def listTypes : Str :=
  ("IN_ACCESS,IN_MODIFY,IN_ATTRIB,IN_CLOSE_WRITE," ++
    "IN_CLOSE_NOWRITE,IN_OPEN,IN_MOVED_FROM,IN_MOVED_TO," ++
    "IN_CREATE,IN_DELETE,IN_DELETE_SELF,IN_CLOSE,IN_MOVE," ++
    "IN_ONESHOT,IN_ALL_EVENTS" ++ ",IN_DONT_FOLLOW" ++ ",IN_ONLYDIR" ++ ",IN_MOVE_SELF" ++
    "\n").toList

section Frames
variable {sys : TableCalls} {C : Configured} {fs : FileSystem} {rUser : Str}

/-- The answer `true` stands for a table that does not exist any more. -/
theorem post_removeTable : Hoare.Post (removeTable sys C.cfg rUser) fs
    (fun answer fs' => fs.OnlyChanges (C.tablePath rUser) fs' ∧
      (answer = true → fs'.content (C.tablePath rUser) = none) ∧
      (answer = false → fs' = fs)) fun _ _ => False := by
  unfold removeTable
  rw [C.getUserTablePath_eq, pure_bind, Hoare.post_bind, Hoare.post_get]
  unfold TableCalls.unlinkTable
  split_ifs with hmay
  · cases hcontent : fs.content (C.tablePath rUser) with
    | none => exact ⟨FileSystem.onlyChanges_of_eq rfl, fun _ => hcontent, fun h => by simp at h⟩
    | some content =>
      exact ⟨fs.onlyChanges_remove _, fun _ => fs.content_remove _, fun h => by simp at h⟩
  · exact ⟨FileSystem.onlyChanges_of_eq rfl, fun h => by simp at h, fun _ => rfl⟩

theorem post_listTable : Hoare.Post (listTable sys C.cfg rUser) fs (fun _ fs' => fs' = fs)
    fun _ _ => False := by
  unfold listTable
  rw [C.getUserTablePath_eq, pure_bind, Hoare.post_bind, Hoare.post_get]
  cases sys.openRead fs (C.tablePath rUser) with
  | ok content => exact rfl
  | error e => cases e <;> exact rfl

theorem post_reloadTable : Hoare.Post (reloadTable sys C.cfg rUser) fs (fun _ fs' => fs' = fs)
    fun _ _ => False := by
  unfold reloadTable
  rw [C.getUserTablePath_eq, pure_bind, Hoare.post_bind, Hoare.post_get]
  cases sys.openAppend fs (C.tablePath rUser) with
  | ok u => exact rfl
  | error e => cases e <;> exact rfl

end Frames

end Incron.Incrontab
