import Incron.Daemon.FirstWins
import Incron.Daemon.SecondLoop

/-! The wildcard lines of a table: which of the paths that `find` gives for them get a watch. -/
namespace Incron.Daemon
open Hoare

variable {κ : Type}

section
variable [System κ]

/-- The paths that `getAllFilesByDescriptor` gives for a line, behind the call of
`getSubDirVec`. -/
def wildcardFiles (rE : IncronTabEntry) (k : κ) : List Str :=
  let dirs := System.popen k (Executor.getSubDirCmd rE.path rE.dotDirs)
  Executor.execBashVec (System.popen dirs.1 (Executor.getAllFilesCmd rE.path rE.dotDirs)).2

/-- `rE` is a line of the table file with a wildcard, and `f` one of the paths that `find` gives
for it, other than the text of the wildcard. -/
structure Globbed (t : UserTable) (k : κ) (rE : IncronTabEntry) (f : Str) : Prop where
  wildcard : '*' ∈ rE.path
  found : ∃ before after, lineEntries (System.readFile k t.path).2 = before ++ rE :: after ∧
    f ∈ wildcardFiles rE (derivedAll before (System.readFile k t.path).1).1
  other : f ≠ rE.path

/-- During `Load`, the kernel is asked for the path in vain. -/
def Refused (t : UserTable) (fd : ℕ) (s : DaemonState κ) (f : Str) : Prop :=
  ∃ s₀ s₁ pE, expandTab t s = .ok () s₀ ∧ Asks t s₀ s₁ pE ∧ pathOf s₁ pE = f ∧
    TurnedDown t fd s₁ pE

end

section
variable {t : UserTable} {fd : ℕ} {s s' : DaemonState κ}

/-! ## The expanded table -/

variable [System κ]

theorem derivedAll_append (l l' : List IncronTabEntry) (k : κ) :
    (derivedAll (l ++ l') k).2 =
      (derivedAll l k).2 ++ (derivedAll l' (derivedAll l k).1).2 := by
  induction l generalizing k with
  | nil => rfl
  | cons e l ih => simp [derivedAll, ih]

theorem mem_foldl_new {f : Str} (files dirs : List Str) :
    f ∈ files.foldl (fun v f => if v.contains f then v else v ++ [f]) dirs ↔
      f ∈ dirs ∨ f ∈ files := by
  induction files generalizing dirs with
  | nil => simp
  | cons g files ih =>
    rw [List.foldl_cons, ih]
    split_ifs with hg
    · have hmem : g ∈ dirs := by simpa using hg
      rw [List.mem_cons]
      constructor
      · exact Or.imp_right .inr
      · rintro (h | rfl | h)
        · exact .inl h
        · exact .inl hmem
        · exact .inr h
    · simp [or_assoc]

/-- A wildcard that is expanded makes entries of its paths. -/
theorem Globbed.exists_entry {rE : IncronTabEntry} {f : Str} {k : κ} (h : Globbed t k rE f)
    (hrec : rE.noRecursion = false) : ∃ e ∈ (tableEntries t k).2, e.path = f := by
  obtain ⟨before, after, hlines, hf⟩ := h.found
  generalize hk : (derivedAll before (System.readFile k t.path).1).1 = k₁ at hf
  have hsub : f ∈ (subDirs rE k₁).2 := by
    rw [subDirs, if_pos h.wildcard]
    exact (mem_foldl_new _ _).mpr (.inr hf)
  have hderived : { path := f, mask := rE.mask, cmd := rE.cmd } ∈ (derived rE k₁).2 := by
    rw [derived, if_neg (by simp [hrec])]
    refine List.mem_map.mpr ⟨f, ?_, rfl⟩
    simpa using ⟨hsub, h.other⟩
  have hmem : { path := f, mask := rE.mask, cmd := rE.cmd } ∈ (tableEntries t k).2 := by
    refine List.mem_append_right _ ?_
    rw [hlines, derivedAll_append, hk]
    exact List.mem_append_right _ (List.mem_append_left _ hderived)
  exact ⟨_, hmem, rfl⟩

/-! ## Load -/

/-- The paths that are watched or refused are those of the entries without a wildcard. -/
theorem hasWatch_or_refused_iff (h : BeforeLoad t fd s) (hload : load t s = .ok () s') (f : Str) :
    HasWatch s' f ∨ Refused t fd s f ↔
      '*' ∉ f ∧ ∃ e ∈ (tableEntries t s.kernel).2, e.path = f := by
  obtain ⟨hsound, hmap, hmaps⟩ := h.sound
  obtain ⟨s₀, s₁, hexpand, h₀, hrun, h₁, hregistered⟩ :=
    (post_load_planted hsound hmap hmaps t).ok hload
  have hrefused : Refused t fd s f ↔
      ∃ s₁ pE, Asks t s₀ s₁ pE ∧ pathOf s₁ pE = f ∧ TurnedDown t fd s₁ pE := by
    constructor
    · rintro ⟨s₀', s₁, pE, hexpand', hrest⟩
      rw [hexpand] at hexpand'
      cases hexpand'
      exact ⟨s₁, pE, hrest⟩
    · rintro ⟨s₁, pE, hrest⟩
      exact ⟨s₀, s₁, pE, hexpand, hrest⟩
  have hentry : (∃ pE ∈ s₀.tab, pathOf s₀ pE = f) ↔
      ∃ e ∈ (tableEntries t s.kernel).2, e.path = f := by
    rw [← h₀.entries]
    simp only [List.mem_map, exists_exists_and_eq_and]
    rfl
  have hwatch : HasWatch s' f ↔ HasWatch s₁ f := by
    rw [hregistered]
    rfl
  rw [hwatch, hrefused, h₀.planted.hasWatch_or_asked_iff hrun, hentry]

/-- A path that `find` gives for a wildcard is watched or refused exactly if it has no asterisk
itself, and the wildcard is expanded or another entry has the path. -/
theorem load_globbed_iff (h : BeforeLoad t fd s) (hload : load t s = .ok () s')
    {rE : IncronTabEntry} {f : Str} (hf : Globbed t s.kernel rE f) :
    HasWatch s' f ∨ Refused t fd s f ↔
      '*' ∉ f ∧ (rE.noRecursion = true → ∃ e ∈ (tableEntries t s.kernel).2, e.path = f) := by
  rw [hasWatch_or_refused_iff h hload]
  refine and_congr_right fun _ => ⟨fun he _ => he, fun he => ?_⟩
  cases hrec : rE.noRecursion with
  | true => exact he hrec
  | false => exact hf.exists_entry hrec

end

/-! ## One wildcard -/

structure GlobSystem where
  file : Str
  found : Str

instance : System GlobSystem where
  addWatch k _ path _ := (k, .ok path.length)
  hasWatch _ _ _ := true
  rmWatch k _ _ := k
  readEvents k _ := (k, .ok [])
  mayAccess k _ _ _ := (k, true)
  readFile k _ := (k, some k.file)
  popen k _ := (k, some k.found)
  fork k := (k, true)
  order l := l
  order_perm l := List.Perm.refl l

def globTable (file found : Str) : DaemonState GlobSystem where
  kernel := { file := file, found := found }
  watchHeap := default
  entryHeap := default
  nodeHeap := default
  inotify := { this := 0, fd := some 3, watches := ∅, paths := ∅, events := [] }
  tab := []
  map := ∅
  maps := ∅
  faults := []

theorem beforeLoad_globTable (file found : Str) :
    BeforeLoad systemTable 3 (globTable file found) :=
  .first ⟨rfl, rfl, rfl, rfl, rfl, rfl, rfl, rfl, rfl, Heap.Valid.default, rfl⟩

theorem exists_load_globTable (file found : Str)
    (hfile : ∀ s ∈ Stdio.readAll 1000 file, s.head? ≠ some '\x00') :
    ∃ s', load systemTable (globTable file found) = .ok () s' := by
  obtain ⟨hsound, hmap, hmaps⟩ := (beforeLoad_globTable file found).sound
  have hloads : FileLoads systemTable (globTable file found).kernel := by
    intro content hcontent
    obtain rfl := Option.some.inj hcontent
    exact hfile
  obtain ⟨⟨⟩, s', hs'⟩ := ((post_load hsound hmap hmaps systemTable).exists_ok_iff
    (fun _ _ h => h.1) fun _ _ h => h.2.1).mpr hloads
  exact ⟨s', hs'⟩

def starEntry : IncronTabEntry := { path := "/tmp/*".toList, mask := inCreate, cmd := "ls".toList }

theorem load_globbed_tmp :
    let s := globTable "/tmp/* IN_CREATE ls\n".toList "/tmp/a\n/tmp/b\n".toList
    ∃ s', load systemTable s = .ok () s' ∧
      (HasWatch s' "/tmp/b".toList ∨ Refused systemTable 3 s "/tmp/b".toList) := by
  intro s
  obtain ⟨s', hs'⟩ := exists_load_globTable "/tmp/* IN_CREATE ls\n".toList
    "/tmp/a\n/tmp/b\n".toList (by decide +kernel)
  have hf : Globbed systemTable s.kernel starEntry "/tmp/b".toList :=
    ⟨by decide, ⟨[], [], by decide +kernel, by decide +kernel⟩, by decide⟩
  exact ⟨s', hs', (load_globbed_iff (beforeLoad_globTable _ _) hs' hf).mpr
    ⟨by decide, fun h => absurd h (by decide)⟩⟩

/-- `find` gives the path for the wildcard line, but after `Load` it is neither watched nor has
the kernel refused it. -/
def Missed (file found : Str) (rE : IncronTabEntry) (f : Str) : Prop :=
  ∃ s', load systemTable (globTable file found) = .ok () s' ∧
    Globbed systemTable (globTable file found).kernel rE f ∧
      ¬ (HasWatch s' f ∨ Refused systemTable 3 (globTable file found) f)

theorem missed_of_load {file found : Str} {rE : IncronTabEntry} {f : Str}
    (hfile : ∀ s ∈ Stdio.readAll 1000 file, s.head? ≠ some '\x00')
    (hf : Globbed systemTable (globTable file found).kernel rE f)
    (hno : ¬ ('*' ∉ f ∧
      ∃ e ∈ (tableEntries systemTable (globTable file found).kernel).2, e.path = f)) :
    Missed file found rE f := by
  obtain ⟨s', hs'⟩ := exists_load_globTable file found hfile
  exact ⟨s', hs', hf, fun h =>
    hno ((hasWatch_or_refused_iff (beforeLoad_globTable file found) hs' f).mp h)⟩

/-- A wildcard that must not be recursive is not expanded, and a file name with an asterisk is
taken for a wildcard. -/
theorem not_load_globbed :
    Missed "/tmp/* IN_CREATE,recursive=false ls\n".toList "/tmp/a\n".toList
        { starEntry with noRecursion := true } "/tmp/a".toList ∧
      Missed "/tmp/* IN_CREATE ls\n".toList "/tmp/a*\n".toList starEntry "/tmp/a*".toList := by
  constructor
  · exact missed_of_load (by decide +kernel)
      ⟨by decide, ⟨[], [], by decide +kernel, by decide +kernel⟩, by decide⟩ (by decide +kernel)
  · exact missed_of_load (by decide +kernel)
      ⟨by decide, ⟨[], [], by decide +kernel, by decide +kernel⟩, by decide⟩ (by decide +kernel)

end Incron.Daemon
