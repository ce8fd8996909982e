import Incron.Incrontab.Edit
import Incron.Lib.Credentials

/-! The credentials in `edit_table` (ict-main.cpp): the user's for the temporary file, the own ones
again, and the user's for good in the process of the editor. -/
namespace Incron.Incrontab
open Credentials

/-- The credentials of `mkstemp`, of the process from there on and of the editor, as far as the
calls before have worked. -/
structure EditIds where
  mkstemp : Option Credentials := none
  parent : Option Credentials := none
  editor : Option Credentials := none
  deriving DecidableEq

/-- `setegid(gid) != 0 || seteuid(uid) != 0`. -/
def switchIds (ppwd : Passwd) : List Call := [.setegid ppwd.gid, .seteuid ppwd.uid]

/-- `setegid(ig) != 0 || seteuid(iu) != 0`. -/
def restoreIds (c : Credentials) : List Call := [.setegid c.gid.effective, .seteuid c.uid.effective]

/-- `setgid(gid) != 0 || setuid(uid) != 0` in the child. -/
def editorIds (ppwd : Passwd) : List Call := [.setgid ppwd.gid, .setuid ppwd.uid]

/-- The calls of `edit_table` that change ids. -/
def editIds (fails : List Call → Bool) (ppwd : Passwd) (c : Credentials) : EditIds :=
  match attempt fails [] (switchIds ppwd) c with
  | (false, _) => {}
  | (true, c₁) =>
    match attempt fails (switchIds ppwd) (restoreIds c) c₁ with
    | (false, _) => { mkstemp := c₁ }
    | (true, c₂) =>
      match attempt fails (switchIds ppwd ++ restoreIds c) (editorIds ppwd) c₂ with
      | (false, _) => { mkstemp := c₁, parent := c₂ }
      | (true, c₃) => ⟨c₁, c₂, c₃⟩

/-- The calls return what these credentials make of them. -/
structure EditCalls.ResultsOf (sys : EditCalls) (fails : List Call → Bool) (ppwd : Passwd)
    (c : Credentials) : Prop where
  switch : (sys.setegid ppwd.gid && sys.seteuid ppwd.uid) = (editIds fails ppwd c).mkstemp.isSome
  restore : sys.restoreIds = (editIds fails ppwd c).parent.isSome
  editor : (sys.setgid ppwd.gid && sys.setuid ppwd.uid) = (editIds fails ppwd c).editor.isSome

section Ids
variable {fails : List Call → Bool} {ppwd : Passwd} {c : Credentials}

private theorem attempt_switch {c₁ : Credentials}
    (h : attempt fails [] (switchIds ppwd) c = (true, c₁)) :
    c₁ = { c with
      uid := { c.uid with effective := ppwd.uid }
      gid := { c.gid with effective := ppwd.gid } } := by
  simp only [switchIds, attempt_cons_eq_true, attempt_nil_eq_true] at h
  exact h.2.2.2.2.symm

private theorem attempt_restore {done : List Call} {u g : ℕ} {c₂ : Credentials}
    (h : attempt fails done (restoreIds c) { c with
      uid := { c.uid with effective := u }
      gid := { c.gid with effective := g } } = (true, c₂)) : c₂ = c := by
  simp only [restoreIds, attempt_cons_eq_true, attempt_nil_eq_true] at h
  exact h.2.2.2.2.symm

private theorem attempt_editor {done : List Call} {c₃ : Credentials} (hpriv : c.Privileged)
    (h : attempt fails done (editorIds ppwd) c = (true, c₃)) :
    c₃ = ⟨.fixed ppwd.uid, .fixed ppwd.gid, c.groups⟩ := by
  simp only [editorIds, attempt_cons_eq_true, attempt_nil_eq_true] at h
  obtain ⟨-, -, -, -, rfl⟩ := h
  rw [apply_setgid hpriv]
  exact apply_setuid (c := { c with gid := .fixed ppwd.gid }) hpriv _

/-- The credentials on the way, wherever a call fails. -/
structure EditIds.Right (i : EditIds) (ppwd : Passwd) (c : Credentials) : Prop where
  mkstemp : ∀ c₁ ∈ i.mkstemp, c₁.uid.effective = ppwd.uid ∧ c₁.gid.effective = ppwd.gid
  parent : ∀ c₂ ∈ i.parent, c₂ = c
  /-- The groups are those of the process that runs `edit_table`. -/
  editor : c.Privileged → ∀ c₃ ∈ i.editor, c₃ = ⟨.fixed ppwd.uid, .fixed ppwd.gid, c.groups⟩
  order : i.editor.isSome = true → i.parent.isSome = true

theorem right_editIds (fails : List Call → Bool) (ppwd : Passwd) (c : Credentials) :
    (editIds fails ppwd c).Right ppwd c := by
  unfold editIds
  cases hswitch : attempt fails [] (switchIds ppwd) c with
  | mk ok₁ c₁ =>
    cases ok₁ with
    | false => exact ⟨by simp, by simp, by simp, by simp⟩
    | true =>
      obtain rfl := attempt_switch hswitch
      simp only
      cases hrestore : attempt fails (switchIds ppwd) (restoreIds c) _ with
      | mk ok₂ c₂ =>
        cases ok₂ with
        | false => exact ⟨by simp, by simp, by simp, by simp⟩
        | true =>
          obtain rfl := attempt_restore hrestore
          simp only
          cases heditor : attempt fails (switchIds ppwd ++ restoreIds c₂) (editorIds ppwd) c₂ with
          | mk ok₃ c₃ =>
            cases ok₃ with
            | false => exact ⟨by simp, by simp, by simp, by simp⟩
            | true =>
              exact ⟨by simp, by simp, fun hpriv => by simp [attempt_editor hpriv heditor],
                by simp⟩

/-- Nothing is in the way of a process with the superuser's rights that has not changed its ids
before. -/
theorem editIds_of_fresh (hfresh : c.Fresh) (hpriv : c.Privileged)
    (hfails : ∀ ks, fails ks = false) : (editIds fails ppwd c).editor.isSome = true := by
  have hswitch : attempt fails [] (switchIds ppwd) c = (true, { c with
      uid := { c.uid with effective := ppwd.uid }
      gid := { c.gid with effective := ppwd.gid } }) := by
    simp only [switchIds, attempt_cons_eq_true, attempt_nil_eq_true]
    exact ⟨.inl hpriv, hfails _, .inl hpriv, hfails _, rfl⟩
  have hrestore := hfresh.attempt_back ppwd.uid ppwd.gid (switchIds ppwd) hfails
  have heditor : attempt fails (switchIds ppwd ++ restoreIds c) (editorIds ppwd) c =
      (true, ⟨.fixed ppwd.uid, .fixed ppwd.gid, c.groups⟩) := by
    simp only [editorIds, attempt_cons_eq_true, attempt_nil_eq_true, apply_setgid hpriv]
    exact ⟨.inl hpriv, hfails _, .inl hpriv, hfails _,
      apply_setuid (c := { c with gid := .fixed ppwd.gid }) hpriv _⟩
  rw [editIds, hswitch]
  simp only [restoreIds] at hrestore heditor ⊢
  simp only [hrestore, heditor, Option.isSome_some]

end Ids

/-! ## Whose editor it is -/

/-- The editor runs in a process that can never get back the rights of incrontab, if the table is
that of a user other than root. -/
structure RunsAs (ppwd : Passwd) (c c₃ : Credentials) : Prop where
  cred : c₃ = ⟨.fixed ppwd.uid, .fixed ppwd.gid, c.groups⟩
  confined : ppwd.uid ≠ 0 → ∀ ks, c₃.after ks = c₃

/-- A table file is changed only after a child has run an editor that has exited with 0, with the
ids of the user for good, while incrontab itself has its own ids again. The editor keeps the
supplementary groups of whoever runs incrontab, which `RunAsUser` does not. -/
theorem editTable_runs_editor_as_user (sys : EditCalls) (C : Configured) (rUser : Str)
    (fs : FileSystem) (fails : List Call → Bool) (c : Credentials) (hpriv : c.Privileged)
    (hresults : ∀ ppwd, sys.getpwnam rUser = some ppwd → sys.ResultsOf fails ppwd c) :
    Hoare.Post (editTable sys C.cfg rUser) fs
      (fun _ fs' => fs'.file = fs.file ∨ ∃ ppwd c₃, sys.getpwnam rUser = some ppwd ∧
        sys.EditorRan ppwd (sys.editorOf C.editor) ∧
        (editIds fails ppwd c).parent = some c ∧ (editIds fails ppwd c).editor = some c₃ ∧
        RunsAs ppwd c c₃)
      fun _ fs' => fs'.file = fs.file := by
  apply (post_editTable rUser).mono
  · rintro ok fs' ⟨-, ⟨-, hsame⟩ | ⟨ppwd, hppwd, hran⟩⟩
    · exact .inl hsame
    · right
      have hres := hresults ppwd hppwd
      have hright := right_editIds fails ppwd c
      have heditor : (editIds fails ppwd c).editor.isSome = true := by
        rw [← hres.editor, hran.2.1, hran.2.2.1]
        rfl
      obtain ⟨c₃, hc₃⟩ := Option.isSome_iff_exists.mp heditor
      obtain ⟨c₂, hc₂⟩ := Option.isSome_iff_exists.mp (hright.order heditor)
      obtain rfl := hright.parent c₂ hc₂
      have hcred := hright.editor hpriv c₃ hc₃
      refine ⟨ppwd, c₃, hppwd, hran, hc₂, hc₃, hcred, fun huid => ?_⟩
      rw [hcred]
      exact Confined.after_eq ⟨huid, rfl, rfl⟩
  · exact fun _ _ h => h.1

/-- Started by the user 1000 from a file of root's with the set-user-ID bit. -/
def startedByBob : Credentials := ⟨⟨1000, 0, 0⟩, .fixed 1000, [1000, 27]⟩

def bobsEditor : EditCalls := EditCalls.works 7 ⟨newText, 8⟩

/-- The new table is stored, so the editor has run as the user. -/
theorem editTable_runs_editor_as_user_bob : ∃ fs',
    editTable bobsEditor plainConfig.cfg "bob".toList bobsFiles = .ok true fs' ∧
      fs'.file ≠ bobsFiles.file ∧ ∃ ppwd c₃, bobsEditor.getpwnam "bob".toList = some ppwd ∧
        bobsEditor.EditorRan ppwd (bobsEditor.editorOf plainConfig.editor) ∧
        (editIds (fun _ => false) ppwd startedByBob).parent = some startedByBob ∧
        (editIds (fun _ => false) ppwd startedByBob).editor = some c₃ ∧
        RunsAs ppwd startedByBob c₃ := by
  have hpost := editTable_runs_editor_as_user bobsEditor plainConfig "bob".toList bobsFiles
    (fun _ => false) startedByBob rfl (by
      rintro ppwd ⟨⟩
      exact ⟨by decide, by decide, by decide⟩)
  have hrun :=
    editTable_other_second bobsFiles (edits_works 7 ⟨newText, 8⟩) (by decide) load_newText
  have hnew : ((bobsFiles.withTemp none).put (plainConfig.tablePath "bob".toList)
      ⟨IncronTab.saveText [{ path := "/new".toList, mask := 32, cmd := "ls".toList }],
        bobsEditor.saveTime⟩).file ≠ bobsFiles.file := fun h =>
    absurd (congrFun h (plainConfig.tablePath "bob".toList)) (by decide +kernel)
  exact ⟨_, hrun, hnew, (hpost.ok hrun).resolve_left hnew⟩

end Incron.Incrontab
