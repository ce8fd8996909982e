import Incron.Incrontab.Files

/-! Editing a table: `edit_table` (ict-main.cpp). The table is copied to a temporary file, and
stored again if the editor has changed the modification time of that file. -/
namespace Incron.Incrontab
open IncronTab

inductive WaitStatus where
  | exited (n : ℕ)
  | signaled (n : ℕ)
  deriving DecidableEq, Repr

/-- The run of an editor: how it ends, and what it leaves of the temporary file. -/
structure EditorRun where
  status : WaitStatus
  left : Option File

/-- How the calls of `edit_table` end. The effective user is changed and changed back, and the
temporary file is looked at before and after the editor runs; `copyTime` is the modification time
of the copy. `execlp` gives `none` when the program cannot be run. -/
structure EditCalls extends Calls where
  setegid : ℕ → Bool
  seteuid : ℕ → Bool
  mkstemp : Bool
  restoreIds : Bool
  fdopen : Bool
  copy : Stdio.Writes
  copyTime : ℤ
  statCopy : Bool
  getenv : Str → Option Str
  access : Str → Bool
  fork : Bool
  setgid : ℕ → Bool
  setuid : ℕ → Bool
  execlp : Str → Option EditorRun
  wait : Bool
  statEdited : Bool
  openTemp : Bool
  unlink : Bool

def altEditor : Str := "/etc/alternatives/editor".toList

def defaultEditor : Str := "vim".toList

def setTemp (f : Option File) : Program Unit := modify fun fs => fs.withTemp f

/-- `unlink(s)`; nobody looks at its result. -/
def unlinkTemp (sys : EditCalls) : Program Unit :=
  if sys.unlink then setTemp none else pure ()

/-- `fopen(tp, "r")`, or of `/dev/null` for a user without a table. -/
def openTable (sys : EditCalls) (fs : FileSystem) (tp : Str) : Option Str :=
  match sys.openRead fs tp with
  | .ok content => some content
  | .error .enoent => if sys.mayRead "/dev/null".toList then some [] else none
  | .error .other => none

/-- The strings that the copy loop gives to `fputs`. -/
def copyStrings (content : Str) : List Str := (Stdio.readAll 1024 content).map Stdio.cString

/-- From the return to the old ids to `fclose(out)`. -/
def copyTable (sys : EditCalls) (tp : Str) : Program Bool :=
  if sys.restoreIds && sys.fdopen then do
    match openTable sys (← get) tp with
    | none => pure false
    | some content => do
      setTemp (some ⟨sys.copy.written (copyStrings content), sys.copyTime⟩)
      pure true
  else pure false

/-- `stat(s, &st)` and `st.st_mtime`. -/
def statTemp (works : Bool) : Program (Option ℤ) := do
  let fs ← get
  pure (if works then fs.temp.map File.mtime else none)

def selectEditor (sys : EditCalls) (C : IncronCfg) : Program Str :=
  match sys.getenv "EDITOR".toList with
  | some e => pure e
  | none =>
    match sys.getenv "VISUAL".toList with
    | some e => pure e
    | none =>
      match C.getValue "editor".toList with
      | none => throw (.inotify "configuration is corrupted" einval)
      | some ed =>
        if ed ≠ [] then pure ed
        else if sys.access altEditor then pure altEditor
        else pure defaultEditor

/-- The child process. If it cannot become the user it goes to the end of `edit_table` as well,
and `main` returns 1 for the answer `false`. -/
def child (sys : EditCalls) (ppwd : Passwd) (e : Str) : Program WaitStatus :=
  if sys.setgid ppwd.gid && sys.setuid ppwd.uid then
    match sys.execlp e with
    | none => pure (.exited 1)
    | some run => do
      setTemp run.left
      pure run.status
  else do
    unlinkTemp sys
    pure (.exited 1)

/-- `fork`, and `wait` for the child. -/
def runEditor (sys : EditCalls) (ppwd : Passwd) (e : Str) : Program Bool :=
  if sys.fork then do
    let status ← child sys ppwd e
    pure (sys.wait && status = .exited 0)
  else pure false

/-- `ict.Load(s) && ict.Save(tp)`; a `chmod` that fails is only reported. -/
def storeTable (sys : EditCalls) (tp : Str) : Program Bool := do
  let fs ← get
  let (loaded, tab) ← loadFrom (if sys.openTemp then fs.temp.map File.content else none)
  if loaded then save sys.toCalls tab tp else pure false

/-- From `mkstemp` to the label `end`: the value of `ok`. -/
def editTemp (sys : EditCalls) (C : IncronCfg) (tp : Str) (ppwd : Passwd) : Program Bool := do
  if ← copyTable sys tp then
    match ← statTemp sys.statCopy with
    | none => pure false
    | some mt =>
      let e ← selectEditor sys C
      if ← runEditor sys ppwd e then
        match ← statTemp sys.statEdited with
        | none => pure false
        | some mt' => if mt' = mt then pure true else storeTable sys tp
      else pure false
  else pure false

def editTable (sys : EditCalls) (C : IncronCfg) (rUser : Str) : Program Bool := do
  let tp ← getUserTablePath C rUser
  match sys.getpwnam rUser with
  | none => pure false
  | some ppwd =>
    if sys.setegid ppwd.gid && sys.seteuid ppwd.uid && sys.mkstemp then
      setTemp (some ⟨[], sys.copyTime⟩)
      let ok ← editTemp sys C tp ppwd
      unlinkTemp sys
      pure ok
    else pure false

/-! ## The steps -/

/-- The editor that the environment, the configuration or the system asks for. -/
def EditCalls.editorOf (sys : EditCalls) (ed : Str) : Str :=
  ((sys.getenv "EDITOR".toList).or (sys.getenv "VISUAL".toList)).getD
    (if ed ≠ [] then ed else if sys.access altEditor then altEditor else defaultEditor)

/-- The exception of the selection is not thrown. -/
theorem selectEditor_eq (sys : EditCalls) (C : Configured) :
    selectEditor sys C.cfg = pure (sys.editorOf C.editor) := by
  unfold selectEditor EditCalls.editorOf
  rw [C.getValue_editor]
  cases sys.getenv "EDITOR".toList with
  | some e => rfl
  | none =>
    cases sys.getenv "VISUAL".toList with
    | some e => rfl
    | none =>
      simp only [Option.none_or, Option.getD_none]
      split_ifs <;> rfl

section Steps
variable {sys : EditCalls} {fs : FileSystem}

/-- Copying changes the temporary file only. -/
theorem post_copyTable (tp : Str) :
    Hoare.Post (copyTable sys tp) fs (fun _ fs' => fs'.file = fs.file) fun _ _ => False := by
  unfold copyTable
  split_ifs
  · rw [Hoare.post_bind, Hoare.post_get]
    cases openTable sys fs tp with
    | none => exact rfl
    | some content => exact rfl
  · exact rfl

theorem post_unlinkTemp :
    Hoare.Post (unlinkTemp sys) fs (fun _ fs' => fs'.file = fs.file) fun _ _ => False := by
  unfold unlinkTemp
  split_ifs <;> exact rfl

/-- The child has become the user and an editor that has exited with 0. -/
def EditCalls.EditorRan (sys : EditCalls) (ppwd : Passwd) (e : Str) : Prop :=
  sys.fork = true ∧ sys.setgid ppwd.gid = true ∧ sys.setuid ppwd.uid = true ∧
    ∃ run, sys.execlp e = some run ∧ run.status = .exited 0

theorem post_statTemp (works : Bool) :
    Hoare.Post (statTemp works) fs (fun _ fs' => fs' = fs) fun _ _ => False := rfl

/-- The child changes the temporary file only, and ends well only as an editor that does. -/
theorem post_child (hfork : sys.fork = true) (ppwd : Passwd) (e : Str) :
    Hoare.Post (child sys ppwd e) fs
      (fun status fs' => fs'.file = fs.file ∧ (status = .exited 0 → sys.EditorRan ppwd e))
      fun _ _ => False := by
  unfold child
  split_ifs with hids
  · rw [Bool.and_eq_true] at hids
    cases hrun : sys.execlp e with
    | none => exact ⟨rfl, fun h => by simp at h⟩
    | some run => exact ⟨rfl, fun h => ⟨hfork, hids.1, hids.2, run, hrun, h⟩⟩
  · rw [Hoare.post_bind]
    apply post_unlinkTemp.imp
    exact fun _ fs' h => ⟨h, fun h => by simp at h⟩

theorem post_runEditor (ppwd : Passwd) (e : Str) :
    Hoare.Post (runEditor sys ppwd e) fs
      (fun ok fs' => fs'.file = fs.file ∧ (ok = true → sys.EditorRan ppwd e))
      fun _ _ => False := by
  unfold runEditor
  split_ifs with hfork
  · rw [Hoare.post_bind]
    apply (post_child hfork ppwd e).imp
    rintro status fs' ⟨hfile, hstatus⟩
    refine ⟨hfile, fun h => hstatus ?_⟩
    rw [Bool.and_eq_true] at h
    exact of_decide_eq_true h.2
  · exact ⟨rfl, fun h => by simp at h⟩

theorem post_storeTable (tp : Str) :
    Hoare.Post (storeTable sys tp) fs (fun _ fs' => fs.OnlyChanges tp fs')
      fun _ fs' => fs'.file = fs.file := by
  unfold storeTable
  rw [Hoare.post_bind, Hoare.post_get, Hoare.post_bind]
  apply (post_loadFrom _ _).mono
  · rintro ⟨loaded, tab⟩ fs₁ rfl
    cases loaded with
    | false => exact FileSystem.onlyChanges_of_eq rfl
    | true => exact (post_save _ tab tp).imp_of_total fun _ _ h => h
  · rintro e fs₁ rfl
    rfl

end Steps

/-! ## All runs -/

/-- Only the table file is changed, and that or the answer `true` needs an editor that has run. -/
def Answers (sys : EditCalls) (tp : Str) (ppwd : Passwd) (e : Str) (fs : FileSystem) (ok : Bool)
    (fs' : FileSystem) : Prop :=
  fs.OnlyChanges tp fs' ∧ (ok = false ∧ fs'.file = fs.file ∨ sys.EditorRan ppwd e)

section All
variable {sys : EditCalls} {C : Configured} {fs : FileSystem}

theorem answers_false {tp : Str} {ppwd : Passwd} {e : Str} {fs' : FileSystem}
    (h : fs'.file = fs.file) : Answers sys tp ppwd e fs false fs' :=
  ⟨FileSystem.onlyChanges_of_eq h, .inl ⟨rfl, h⟩⟩

theorem post_editTemp (tp : Str) (ppwd : Passwd) :
    Hoare.Post (editTemp sys C.cfg tp ppwd) fs
      (Answers sys tp ppwd (sys.editorOf C.editor) fs)
      fun _ fs' => fs'.file = fs.file ∧ sys.EditorRan ppwd (sys.editorOf C.editor) := by
  unfold editTemp
  rw [Hoare.post_bind]
  apply (post_copyTable tp).imp_of_total
  intro copied fs₁ hfile₁
  cases copied with
  | false => exact answers_false hfile₁
  | true =>
    rw [if_pos rfl, Hoare.post_bind]
    apply (post_statTemp sys.statCopy).imp_of_total
    rintro mt fs₂ rfl
    cases mt with
    | none => exact answers_false hfile₁
    | some mt =>
      simp only [selectEditor_eq, pure_bind, Hoare.post_bind]
      apply (post_runEditor ppwd _).imp_of_total
      rintro ok fs₃ ⟨hfile₃, hran⟩
      have hfile := hfile₃.trans hfile₁
      cases ok with
      | false => exact answers_false hfile
      | true =>
        rw [if_pos rfl, Hoare.post_bind]
        apply (post_statTemp sys.statEdited).imp_of_total
        rintro mt' fs₄ rfl
        cases mt' with
        | none => exact answers_false hfile
        | some mt' =>
          simp only
          split_ifs
          · exact ⟨FileSystem.onlyChanges_of_eq hfile, .inr (hran rfl)⟩
          · apply (post_storeTable tp).mono
            · intro ok fs₅ hchanges
              refine ⟨fun p hp => ?_, .inr (hran rfl)⟩
              rw [hchanges p hp, hfile]
            · exact fun _ fs₅ h => ⟨h.trans hfile, hran rfl⟩

/-- The table file is changed, or an exception thrown, only behind an editor that has run, and no
other file is ever changed. -/
theorem post_editTable (rUser : Str) :
    Hoare.Post (editTable sys C.cfg rUser) fs
      (fun ok fs' => fs.OnlyChanges (C.tablePath rUser) fs' ∧ (ok = false ∧ fs'.file = fs.file ∨
        ∃ ppwd, sys.getpwnam rUser = some ppwd ∧ sys.EditorRan ppwd (sys.editorOf C.editor)))
      fun _ fs' => fs'.file = fs.file ∧
        ∃ ppwd, sys.getpwnam rUser = some ppwd ∧ sys.EditorRan ppwd (sys.editorOf C.editor) := by
  unfold editTable
  rw [C.getUserTablePath_eq, pure_bind]
  cases hppwd : sys.getpwnam rUser with
  | none => exact ⟨FileSystem.onlyChanges_of_eq rfl, .inl ⟨rfl, rfl⟩⟩
  | some ppwd =>
    simp only
    split_ifs
    · rw [Hoare.post_bind, setTemp, Hoare.post_modify, Hoare.post_bind]
      apply (post_editTemp (C.tablePath rUser) ppwd).mono
      · rintro ok fs₁ ⟨hchanges, hran⟩
        rw [Hoare.post_bind]
        apply post_unlinkTemp.imp_of_total
        intro _ fs₂ hfile₂
        constructor
        · intro p hp
          rw [hfile₂]
          exact hchanges p hp
        · exact hran.imp (fun h => ⟨h.1, hfile₂.trans h.2⟩) fun h => ⟨ppwd, rfl, h⟩
      · exact fun _ fs₁ h => ⟨h.1, ppwd, rfl, h.2⟩
    · exact ⟨FileSystem.onlyChanges_of_eq rfl, .inl ⟨rfl, rfl⟩⟩

/-- The editor cannot be run, or does not exit with 0. -/
def EditorFails (sys : EditCalls) (C : Configured) (rUser : Str) : Prop :=
  sys.fork = false ∨
    (∃ ppwd, sys.getpwnam rUser = some ppwd ∧
      (sys.setgid ppwd.gid = false ∨ sys.setuid ppwd.uid = false)) ∨
    ∀ run, sys.execlp (sys.editorOf C.editor) = some run → run.status ≠ .exited 0

theorem EditorFails.not_ran {rUser : Str} (h : EditorFails sys C rUser) {ppwd : Passwd}
    (hppwd : sys.getpwnam rUser = some ppwd) : ¬ sys.EditorRan ppwd (sys.editorOf C.editor) := by
  rintro ⟨hfork, hgid, huid, run, hrun, hstatus⟩
  rcases h with hno | ⟨ppwd', hppwd', hids⟩ | hbad
  · rw [hfork] at hno
    exact Bool.noConfusion hno
  · obtain rfl := Option.some.inj (hppwd.symm.trans hppwd')
    rw [hgid, huid] at hids
    simp at hids
  · exact hbad run hrun hstatus

theorem post_editTable_fails {rUser : Str} (hfails : EditorFails sys C rUser) :
    Hoare.Post (editTable sys C.cfg rUser) fs
      (fun ok fs' => ok = false ∧ fs'.file = fs.file) fun _ _ => False := by
  apply (post_editTable rUser).mono
  · rintro ok fs' ⟨-, hanswer | ⟨ppwd, hppwd, hran⟩⟩
    · exact hanswer
    · exact absurd hran (hfails.not_ran hppwd)
  · rintro _ fs' ⟨-, ppwd, hppwd, hran⟩
    exact absurd hran (hfails.not_ran hppwd)

end All

/-! ## Editors that succeed -/

def copiedText (fs : FileSystem) (tp : Str) : Str :=
  (copyStrings ((fs.content tp).getD [])).flatten

/-- All calls succeed, and the editor exits with 0 and leaves a temporary file. -/
structure Edits (sys : EditCalls) (C : Configured) (rUser : Str) (f : File) : Prop where
  ids : ∃ ppwd, sys.getpwnam rUser = some ppwd ∧ sys.setegid ppwd.gid = true ∧
    sys.seteuid ppwd.uid = true ∧ sys.setgid ppwd.gid = true ∧ sys.setuid ppwd.uid = true
  mkstemp : sys.mkstemp = true
  restoreIds : sys.restoreIds = true
  fdopen : sys.fdopen = true
  mayRead : sys.mayRead (C.tablePath rUser) = true
  mayReadNull : sys.mayRead "/dev/null".toList = true
  copy : sys.copy.Succeed
  statCopy : sys.statCopy = true
  fork : sys.fork = true
  execlp : sys.execlp (sys.editorOf C.editor) = some ⟨.exited 0, some f⟩
  wait : sys.wait = true
  statEdited : sys.statEdited = true
  openTemp : sys.openTemp = true
  mayWrite : sys.mayWrite (C.tablePath rUser) = true
  save : sys.save.Succeed
  unlink : sys.unlink = true

section Succeeds
variable {sys : EditCalls} {C : Configured} {rUser : Str} {f : File} (fs : FileSystem)

theorem copyTable_eq (h : Edits sys C rUser f) :
    copyTable sys (C.tablePath rUser) fs = .ok true
      (fs.withTemp (some ⟨copiedText fs (C.tablePath rUser), sys.copyTime⟩)) := by
  have hopen : openTable sys fs (C.tablePath rUser) =
      some ((fs.content (C.tablePath rUser)).getD []) := by
    rw [openTable, Calls.openRead, if_pos h.mayRead]
    cases fs.content (C.tablePath rUser) with
    | some content => rfl
    | none => exact if_pos h.mayReadNull
  rw [copyTable, h.restoreIds, h.fdopen, Bool.and_self, if_pos rfl, Hoare.get_bind, hopen]
  simp only [h.copy.written]
  rfl

theorem runEditor_eq (h : Edits sys C rUser f) {ppwd : Passwd}
    (hgid : sys.setgid ppwd.gid = true) (huid : sys.setuid ppwd.uid = true) :
    runEditor sys ppwd (sys.editorOf C.editor) fs = .ok true (fs.withTemp (some f)) := by
  rw [runEditor, if_pos h.fork, child, hgid, huid, Bool.and_self, if_pos rfl, h.execlp, h.wait]
  rfl

theorem statTemp_eq {works : Bool} (hworks : works = true) (f : File) :
    statTemp works (fs.withTemp (some f)) = .ok (some f.mtime) (fs.withTemp (some f)) := by
  subst hworks
  rfl

theorem setTemp_bind {α : Type} (f : Option File) (k : Unit → Program α) :
    (setTemp f >>= k) fs = k () (fs.withTemp f) := rfl

/-- Behind the editor only the time of the temporary file decides. -/
theorem editTable_eq (h : Edits sys C rUser f) :
    editTable sys C.cfg rUser fs =
      (do let ok ← if f.mtime = sys.copyTime then pure true else storeTable sys (C.tablePath rUser)
          unlinkTemp sys
          pure ok : Program Bool) (fs.withTemp (some f)) := by
  obtain ⟨ppwd, hppwd, hegid, heuid, hgid, huid⟩ := h.ids
  have hedit : editTemp sys C.cfg (C.tablePath rUser) ppwd
        (fs.withTemp (some ⟨[], sys.copyTime⟩)) =
      (if f.mtime = sys.copyTime then pure true else storeTable sys (C.tablePath rUser) :
        Program Bool) (fs.withTemp (some f)) := by
    have hcopy := copyTable_eq (fs.withTemp (some ⟨[], sys.copyTime⟩)) h
    have hstat := fun f => statTemp_eq fs h.statCopy f
    have hrun := fun fs => runEditor_eq fs h hgid huid
    have hstat' := fun f => statTemp_eq fs h.statEdited f
    simp only [editTemp, bind, EStateM.bind, hcopy, FileSystem.withTemp_withTemp, if_true, hstat,
      selectEditor_eq, pure, EStateM.pure, hrun, hstat']
  have hids : (sys.setegid ppwd.gid && sys.seteuid ppwd.uid && sys.mkstemp) = true := by
    rw [hegid, heuid, h.mkstemp]
    rfl
  rw [editTable, C.getUserTablePath_eq, pure_bind, hppwd]
  simp only [if_pos hids]
  rw [setTemp_bind]
  simp only [bind, EStateM.bind, hedit]
  split_ifs <;> rfl

/-- A file that is saved in the second of the copy is not stored. -/
theorem editTable_same_second (h : Edits sys C rUser f) (htime : f.mtime = sys.copyTime) :
    editTable sys C.cfg rUser fs = .ok true (fs.withTemp none) := by
  rw [editTable_eq fs h, if_pos htime, pure_bind, unlinkTemp, if_pos h.unlink]
  rfl

/-- A file that is saved in another second is loaded and stored. -/
theorem editTable_other_second (h : Edits sys C rUser f) (htime : f.mtime ≠ sys.copyTime)
    {b : Bool} {tab : List IncronTabEntry}
    (hload : IncronTab.load (some f.content) = .ok (b, tab)) :
    editTable sys C.cfg rUser fs = .ok true
      ((fs.withTemp none).put (C.tablePath rUser) ⟨saveText tab, sys.saveTime⟩) := by
  obtain rfl := load_opened hload
  have hstore : storeTable sys (C.tablePath rUser) (fs.withTemp (some f)) =
      .ok true ((fs.withTemp (some f)).put (C.tablePath rUser) ⟨saveText tab, sys.saveTime⟩) := by
    have hfrom := loadFrom_ok (fs.withTemp (some f)) hload
    have hsave := save_ok (fs.withTemp (some f)) h.mayWrite tab
    rw [h.save.written, saveStrings_flatten hload] at hsave
    rw [storeTable, Hoare.get_bind, h.openTemp]
    simp only [bind, EStateM.bind, if_true, FileSystem.temp_withTemp, Option.map_some, hfrom,
      hsave]
  rw [editTable_eq fs h, if_neg htime, unlinkTemp, if_pos h.unlink]
  simp only [bind, EStateM.bind, hstore]
  rfl

theorem editTable_throws (h : Edits sys C rUser f) (htime : f.mtime ≠ sys.copyTime)
    {e : OutOfRange} (hload : IncronTab.load (some f.content) = .error e) :
    editTable sys C.cfg rUser fs = .error .outOfRange (fs.withTemp (some f)) := by
  have hstore : storeTable sys (C.tablePath rUser) (fs.withTemp (some f)) =
      .error .outOfRange (fs.withTemp (some f)) := by
    have hfrom := loadFrom_error (fs.withTemp (some f)) hload
    rw [storeTable, Hoare.get_bind, h.openTemp]
    simp only [bind, EStateM.bind, if_true, FileSystem.temp_withTemp, Option.map_some, hfrom]
  rw [editTable_eq fs h, if_neg htime]
  simp only [bind, EStateM.bind, hstore]

end Succeeds

/-! ## No edit is lost -/

/-- The file at a path holds the table that is loaded from a text. -/
def HoldsTable (fs : FileSystem) (path text : Str) : Prop :=
  ∃ tab, IncronTab.load (some text) = .ok (true, tab) ∧ fs.content path = some (saveText tab)

/-- When everything works the answer is `true`, and a changed text is stored; when the editor
fails the answer is `false`, and the table file stays. -/
def NoEditLost (sys : EditCalls) (C : Configured) (rUser : Str) (fs : FileSystem) : Prop :=
  (∀ f, Edits sys C rUser f →
    Hoare.Post (editTable sys C.cfg rUser) fs
      (fun answer fs' => answer = true ∧ (f.content ≠ copiedText fs (C.tablePath rUser) →
        HoldsTable fs' (C.tablePath rUser) f.content))
      fun _ _ => False) ∧
  (EditorFails sys C rUser →
    Hoare.Post (editTable sys C.cfg rUser) fs
      (fun answer fs' => answer = false ∧
        fs'.file (C.tablePath rUser) = fs.file (C.tablePath rUser))
      fun _ _ => False)

/-- A change in the second of the copy is one that the table file has already, and a file of
another second has no line with a NUL byte at its start. -/
def TimeTellsChange (sys : EditCalls) (C : Configured) (rUser : Str) (fs : FileSystem) : Prop :=
  ∀ f, Edits sys C rUser f →
    (f.mtime = sys.copyTime → f.content ≠ copiedText fs (C.tablePath rUser) →
      HoldsTable fs (C.tablePath rUser) f.content) ∧
    (f.mtime ≠ sys.copyTime →
      ∀ s ∈ Stdio.readAll 1000 f.content, s.head? ≠ some '\x00')

private theorem post_editTable_edits {sys : EditCalls} {C : Configured} {rUser : Str} {f : File}
    {fs : FileSystem} (h : Edits sys C rUser f) (htime : f.mtime ≠ sys.copyTime)
    (hnul : ∀ s ∈ Stdio.readAll 1000 f.content, s.head? ≠ some '\x00') :
    Hoare.Post (editTable sys C.cfg rUser) fs
      (fun answer fs' => answer = true ∧ HoldsTable fs' (C.tablePath rUser) f.content)
      fun _ _ => False := by
  obtain ⟨⟨b, tab⟩, hload⟩ := (exists_load_iff (some f.content)).mpr fun content hcontent => by
    obtain rfl := Option.some.inj hcontent
    exact hnul
  have hrun := editTable_other_second fs h htime hload
  obtain rfl := load_opened hload
  rw [Hoare.Post, hrun]
  exact ⟨rfl, tab, hload, FileSystem.content_put ..⟩

/-- No edit is lost exactly if the time of the temporary file tells every change. -/
theorem editTable_noEditLost_iff (sys : EditCalls) (C : Configured) (rUser : Str)
    (fs : FileSystem) : NoEditLost sys C rUser fs ↔ TimeTellsChange sys C rUser fs := by
  constructor
  · rintro ⟨hedits, -⟩ f h
    constructor
    · intro htime hchanged
      have hpost := (hedits f h).ok (editTable_same_second fs h htime)
      exact hpost.2 hchanged
    · intro htime
      cases hload : IncronTab.load (some f.content) with
      | error e => exact ((hedits f h).error (editTable_throws fs h htime hload)).elim
      | ok r => exact (exists_load_iff (some f.content)).mp ⟨r, hload⟩ f.content rfl
  · intro htells
    constructor
    · intro f h
      obtain ⟨hsame, hother⟩ := htells f h
      by_cases htime : f.mtime = sys.copyTime
      · rw [Hoare.Post, editTable_same_second fs h htime]
        exact ⟨rfl, hsame htime⟩
      · apply (post_editTable_edits h htime (hother htime)).imp
        exact fun _ _ hpost => ⟨hpost.1, fun _ => hpost.2⟩
    · intro hfails
      apply (post_editTable_fails hfails).imp
      rintro answer fs' ⟨hanswer, hfile⟩
      exact ⟨hanswer, by rw [hfile]⟩

def EditCalls.works (copyTime : ℤ) (left : File) : EditCalls :=
  { Calls.works with
    setegid := fun _ => true
    seteuid := fun _ => true
    mkstemp := true
    restoreIds := true
    fdopen := true
    copy := ⟨fun _ => ⟨true, 0⟩, ⟨true, 0⟩⟩
    copyTime := copyTime
    statCopy := true
    getenv := fun _ => none
    access := fun _ => false
    fork := true
    setgid := fun _ => true
    setuid := fun _ => true
    execlp := fun _ => some ⟨.exited 0, some left⟩
    wait := true
    statEdited := true
    openTemp := true
    unlink := true }

theorem edits_works (copyTime : ℤ) (left : File) :
    Edits (EditCalls.works copyTime left) plainConfig "bob".toList left :=
  ⟨⟨⟨1000, 1000⟩, rfl, rfl, rfl, rfl, rfl⟩, rfl, rfl, rfl, rfl, rfl, ⟨fun _ => rfl, rfl⟩, rfl, rfl,
    rfl, rfl, rfl, rfl, rfl, ⟨fun _ => rfl, rfl⟩, rfl⟩

/-- An edit within the second of the copy is lost, with the answer `true`. -/
theorem not_noEditLost_bob :
    ¬ NoEditLost (EditCalls.works 5 ⟨newText, 5⟩) plainConfig "bob".toList bobsFiles := by
  rintro ⟨hedits, -⟩
  have hall := edits_works 5 ⟨newText, 5⟩
  have hpost := (hedits _ hall).ok (editTable_same_second _ hall rfl)
  obtain ⟨tab, hload, hcontent⟩ := hpost.2 (by decide +kernel)
  obtain rfl := (Prod.mk.inj (Except.ok.inj (load_newText.symm.trans hload))).2
  revert hcontent
  decide +kernel

end Incron.Incrontab
