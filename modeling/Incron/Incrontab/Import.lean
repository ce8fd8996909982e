import Incron.Incrontab.Files

/-! Importing a table: `copy_from_file` (ict-main.cpp). The table file is replaced before the
last calls that can fail, and nobody looks at the results of the writes. -/
namespace Incron.Incrontab
open IncronTab

/-- The file that `copy_from_file` loads; `-` is the standard input. -/
def sourcePath (rPath : Str) : Str := if rPath = "-".toList then "/dev/stdin".toList else rPath

def copyFromFile (sys : Calls) (C : IncronCfg) (rPath rUser : Str) : Program Bool := do
  let (loaded, tab) ← load sys (sourcePath rPath)
  if loaded then
    let out ← getUserTablePath C rUser
    if ← save sys tab out then
      match sys.getpwnam rUser with
      | none => pure false
      | some ppwd => pure (sys.chown out ppwd.uid)
    else pure false
  else pure false

/-! ## All or nothing -/

def source (sys : Calls) (fs : FileSystem) (rPath : Str) :
    Except OutOfRange (Bool × List IncronTabEntry) :=
  IncronTab.load (sys.openRead fs (sourcePath rPath)).toOption

/-- The user is found and becomes the owner of the table file. -/
def Calls.GivesTo (sys : Calls) (rUser path : Str) : Prop :=
  ∃ ppwd, sys.getpwnam rUser = some ppwd ∧ sys.chown path ppwd.uid = true

/-- The answer `false` leaves the table file as it was, and `true` stands for the complete text
of the table that was loaded. -/
def AllOrNothing (sys : Calls) (C : Configured) (rPath rUser : Str) (fs : FileSystem) : Prop :=
  Hoare.Post (copyFromFile sys C.cfg rPath rUser) fs
    (fun answer fs' =>
      (answer = false → fs'.content (C.tablePath rUser) = fs.content (C.tablePath rUser)) ∧
      (answer = true → ∃ tab, source sys fs rPath = .ok (true, tab) ∧
        fs'.content (C.tablePath rUser) = some (saveText tab)))
    fun _ _ => True

/-- If the table file comes to be opened, then either the user gets it and the writes lose
nothing, or the user does not get it and the file already had what the writes put there. -/
def ReplacesSafely (sys : Calls) (C : Configured) (rPath rUser : Str) (fs : FileSystem) : Prop :=
  ∀ tab, source sys fs rPath = .ok (true, tab) → sys.mayWrite (C.tablePath rUser) = true →
    (sys.GivesTo rUser (C.tablePath rUser) → sys.save.lost (saveStrings tab) = 0) ∧
    (¬ sys.GivesTo rUser (C.tablePath rUser) →
      fs.content (C.tablePath rUser) = some (sys.save.written (saveStrings tab)))

def saved (sys : Calls) (C : Configured) (rUser : Str) (tab : List IncronTabEntry)
    (fs : FileSystem) : FileSystem :=
  fs.put (C.tablePath rUser) ⟨sys.save.written (saveStrings tab), sys.saveTime⟩

section Cases
variable (sys : Calls) (C : Configured) (rPath rUser : Str) (fs : FileSystem)

theorem copyFromFile_cases :
    (∃ e, source sys fs rPath = .error e ∧
      copyFromFile sys C.cfg rPath rUser fs = .error .outOfRange fs) ∨
    (∃ tab, source sys fs rPath = .ok (false, tab) ∧
      copyFromFile sys C.cfg rPath rUser fs = .ok false fs) ∨
    ∃ tab, source sys fs rPath = .ok (true, tab) ∧
      (¬ sys.mayWrite (C.tablePath rUser) = true ∧
        copyFromFile sys C.cfg rPath rUser fs = .ok false fs ∨
      sys.mayWrite (C.tablePath rUser) = true ∧ ¬ sys.GivesTo rUser (C.tablePath rUser) ∧
        copyFromFile sys C.cfg rPath rUser fs = .ok false (saved sys C rUser tab fs) ∨
      sys.mayWrite (C.tablePath rUser) = true ∧ sys.GivesTo rUser (C.tablePath rUser) ∧
        copyFromFile sys C.cfg rPath rUser fs = .ok true (saved sys C rUser tab fs)) := by
  cases hsource : source sys fs rPath with
  | error e =>
    refine .inl ⟨e, rfl, ?_⟩
    have hload := loadFrom_error fs hsource
    rw [← load_eq_loadFrom] at hload
    simp only [copyFromFile, bind, EStateM.bind, hload]
  | ok r =>
    obtain ⟨loaded, tab⟩ := r
    have hload := loadFrom_ok fs hsource
    rw [← load_eq_loadFrom] at hload
    cases loaded with
    | false =>
      refine .inr (.inl ⟨tab, rfl, ?_⟩)
      simp only [copyFromFile, bind, EStateM.bind, hload]
      rfl
    | true =>
      refine .inr (.inr ⟨tab, rfl, ?_⟩)
      by_cases hwrite : sys.mayWrite (C.tablePath rUser) = true
      · have hsave := save_ok fs hwrite tab
        right
        by_cases howner : sys.GivesTo rUser (C.tablePath rUser)
        · obtain ⟨ppwd, hppwd, hchown⟩ := howner
          refine .inr ⟨hwrite, ⟨ppwd, hppwd, hchown⟩, ?_⟩
          simp only [copyFromFile, bind, EStateM.bind, hload, C.getUserTablePath_eq, if_true,
            pure, EStateM.pure, hsave, hppwd, hchown]
          rfl
        · refine .inl ⟨hwrite, howner, ?_⟩
          cases hppwd : sys.getpwnam rUser with
          | none =>
            simp only [copyFromFile, bind, EStateM.bind, hload, C.getUserTablePath_eq, if_true,
              pure, EStateM.pure, hsave, hppwd]
            rfl
          | some ppwd =>
            have hchown : sys.chown (C.tablePath rUser) ppwd.uid = false := by
              rw [← Bool.not_eq_true]
              exact fun h => howner ⟨ppwd, hppwd, h⟩
            simp only [copyFromFile, bind, EStateM.bind, hload, C.getUserTablePath_eq, if_true,
              pure, EStateM.pure, hsave, hppwd, hchown]
            rfl
      · refine .inl ⟨hwrite, ?_⟩
        simp only [copyFromFile, bind, EStateM.bind, hload, C.getUserTablePath_eq, if_true,
          pure, EStateM.pure, save_refused fs hwrite tab]
        rfl

theorem post_copyFromFile : Hoare.Post (copyFromFile sys C.cfg rPath rUser) fs
    (fun _ fs' => fs.OnlyChanges (C.tablePath rUser) fs') fun _ fs' => fs' = fs := by
  unfold Hoare.Post
  obtain ⟨e, -, hrun⟩ | ⟨tab, -, hrun⟩ | ⟨tab, -, ⟨-, hrun⟩ | ⟨-, -, hrun⟩ | ⟨-, -, hrun⟩⟩ :=
    copyFromFile_cases sys C rPath rUser fs
  · rw [hrun]
  · rw [hrun]
    exact FileSystem.onlyChanges_of_eq rfl
  · rw [hrun]
    exact FileSystem.onlyChanges_of_eq rfl
  · rw [hrun]
    exact fs.onlyChanges_put _ _
  · rw [hrun]
    exact fs.onlyChanges_put _ _

theorem content_saved (tab : List IncronTabEntry) :
    (saved sys C rUser tab fs).content (C.tablePath rUser) =
      some (sys.save.written (saveStrings tab)) := FileSystem.content_put ..

/-- The writes put the complete text into the file exactly if they lose nothing. -/
theorem written_saveStrings_iff {tab : List IncronTabEntry}
    (hsource : source sys fs rPath = .ok (true, tab)) :
    sys.save.written (saveStrings tab) = saveText tab ↔ sys.save.lost (saveStrings tab) = 0 := by
  rw [← saveStrings_flatten hsource]
  exact sys.save.written_eq_iff _

theorem replacesSafely_iff {tab : List IncronTabEntry}
    (hsource : source sys fs rPath = .ok (true, tab))
    (hwrite : sys.mayWrite (C.tablePath rUser) = true) :
    ReplacesSafely sys C rPath rUser fs ↔
      (sys.GivesTo rUser (C.tablePath rUser) → sys.save.lost (saveStrings tab) = 0) ∧
      (¬ sys.GivesTo rUser (C.tablePath rUser) →
        fs.content (C.tablePath rUser) = some (sys.save.written (saveStrings tab))) := by
  constructor
  · exact fun h => h tab hsource hwrite
  · intro h tab' hsource' _
    obtain rfl : tab = tab' := (Prod.mk.inj (Except.ok.inj (hsource.symm.trans hsource'))).2
    exact h

/-- An import is all or nothing exactly if it replaces the table file safely. -/
theorem copyFromFile_allOrNothing_iff :
    AllOrNothing sys C rPath rUser fs ↔ ReplacesSafely sys C rPath rUser fs := by
  obtain ⟨e, hsource, hrun⟩ | ⟨tab, hsource, hrun⟩ |
    ⟨tab, hsource, ⟨hwrite, hrun⟩ | ⟨hwrite, howner, hrun⟩ | ⟨hwrite, howner, hrun⟩⟩ :=
    copyFromFile_cases sys C rPath rUser fs
  · simp [AllOrNothing, ReplacesSafely, Hoare.Post, hrun, hsource]
  · simp [AllOrNothing, ReplacesSafely, Hoare.Post, hrun, hsource]
  · simp [AllOrNothing, ReplacesSafely, Hoare.Post, hrun, hsource, hwrite]
  · -- the answer is `false`, and the file has been replaced
    rw [replacesSafely_iff sys C rPath rUser fs hsource hwrite]
    have hcontent : AllOrNothing sys C rPath rUser fs ↔
        some (sys.save.written (saveStrings tab)) = fs.content (C.tablePath rUser) := by
      simp [AllOrNothing, Hoare.Post, hrun, content_saved]
    rw [hcontent]
    constructor
    · exact fun h => ⟨fun hgives => absurd hgives howner, fun _ => h.symm⟩
    · exact fun h => (h.2 howner).symm
  · -- the answer is `true`
    rw [replacesSafely_iff sys C rPath rUser fs hsource hwrite,
      ← written_saveStrings_iff sys rPath fs hsource]
    have hcontent : AllOrNothing sys C rPath rUser fs ↔
        sys.save.written (saveStrings tab) = saveText tab := by
      simp [AllOrNothing, Hoare.Post, hrun, content_saved, hsource]
    rw [hcontent]
    constructor
    · exact fun h => ⟨fun _ => h, fun hnot => absurd howner hnot⟩
    · exact fun h => h.1 howner

end Cases

/-! ## Two failures -/

/-- A failing `chown` leaves the new table behind, and a full disk that shows in `fclose` leaves
an empty one with the answer `true`. -/
theorem not_allOrNothing_bob :
    ¬ AllOrNothing { Calls.works with chown := fun _ _ => false } plainConfig "/tmp/new".toList
        "bob".toList bobsFiles ∧
      ¬ AllOrNothing { Calls.works with save := ⟨fun _ => ⟨true, 0⟩, ⟨false, 0⟩⟩ } plainConfig
        "/tmp/new".toList "bob".toList bobsFiles := by
  constructor
  · intro h
    have hrun := (Hoare.Post.ok h rfl).1 rfl
    revert hrun
    decide +kernel
  · intro h
    obtain ⟨tab, hsource, hrun⟩ := (Hoare.Post.ok h rfl).2 rfl
    obtain rfl := (Prod.mk.inj (Except.ok.inj (load_newText.symm.trans hsource))).2
    revert hrun
    decide +kernel

end Incron.Incrontab
