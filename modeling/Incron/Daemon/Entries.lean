import Incron.Daemon.Sound

/-! The entries of a table after `Load`: the lines of the file, and behind them the entries
that are derived from each line by `find`. -/
namespace Incron.Daemon
open Hoare

variable {κ : Type}

section
variable [System κ]

/-- The paths that `Load` adds for an entry, and the kernel after the commands. -/
def subDirs (rE : IncronTabEntry) (k : κ) : κ × List Str :=
  let dirs := System.popen k (Executor.getSubDirCmd rE.path rE.dotDirs)
  let ssvec := Executor.execBashVec dirs.2
  if '*' ∈ rE.path then
    let files := System.popen dirs.1 (Executor.getAllFilesCmd rE.path rE.dotDirs)
    (files.1, (Executor.execBashVec files.2).foldl
      (fun v f => if v.contains f then v else v ++ [f]) ssvec)
  else (dirs.1, ssvec)

/-- The entries that are derived from a line: its mask and command for each of the paths, but
not for its own. -/
def derived (rE : IncronTabEntry) (k : κ) : κ × List IncronTabEntry :=
  if rE.noRecursion then (k, [])
  else
    let found := subDirs rE k
    (found.1, (found.2.filter (· ≠ rE.path)).map fun subDir =>
      { path := subDir, mask := rE.mask, cmd := rE.cmd })

def derivedAll : List IncronTabEntry → κ → κ × List IncronTabEntry
  | [], k => (k, [])
  | rE :: lines, k =>
    let first := derived rE k
    let rest := derivedAll lines first.1
    (rest.1, first.2 ++ rest.2)

def lineEntries (file : Option Str) : List IncronTabEntry :=
  match IncronTab.load file with
  | .ok (_, entries) => entries
  | .error _ => []

/-- The entries that `Load` makes of the table file and the answers of `find`, in order. -/
def tableEntries (t : UserTable) (k : κ) : κ × List IncronTabEntry :=
  let file := System.readFile k t.path
  let lines := lineEntries file.2
  let found := derivedAll lines file.1
  (found.1, lines ++ found.2)

end

structure Appended (entries : List IncronTabEntry) (k : κ) (s s' : DaemonState κ) : Prop where
  frame : s' = { s with kernel := k, entryHeap := s'.entryHeap, tab := s'.tab }
  tab : ∃ l, s'.tab = s.tab ++ l ∧ l.map s'.entryHeap.cell = entries ∧
    ∀ p ∈ l, p < s'.entryHeap.next ∧ s'.entryHeap.live p = true
  next : s.entryHeap.next ≤ s'.entryHeap.next
  cell : ∀ p < s.entryHeap.next, s'.entryHeap.cell p = s.entryHeap.cell p
  live : ∀ p < s.entryHeap.next, s'.entryHeap.live p = s.entryHeap.live p

namespace Appended
variable {entries entries' : List IncronTabEntry} {k k' : κ} {s s' s'' : DaemonState κ}

theorem kernel (s : DaemonState κ) (k : κ) : Appended [] k s { s with kernel := k } :=
  ⟨rfl, ⟨[], by simp⟩, Nat.le_refl _, fun _ _ => rfl, fun _ _ => rfl⟩

theorem kernel_eq (h : Appended entries k s s') : s'.kernel = k := by rw [h.frame]

theorem trans (h : Appended entries k s s') (h' : Appended entries' k' s' s'') :
    Appended (entries ++ entries') k' s s'' := by
  obtain ⟨l, htab, hcells, hlt⟩ := h.tab
  obtain ⟨l', htab', hcells', hlt'⟩ := h'.tab
  refine ⟨?_, ⟨l ++ l', ?_, ?_, ?_⟩, Nat.le_trans h.next h'.next, fun p hp => ?_, fun p hp => ?_⟩
  · rw [h'.frame, h.frame]
  · rw [htab', htab, List.append_assoc]
  · rw [List.map_append, hcells', ← hcells]
    congr 1
    exact List.map_congr_left fun p hp => h'.cell p (hlt p hp).1
  · intro p hp
    rcases List.mem_append.mp hp with hp | hp
    · obtain ⟨hlt, hlive⟩ := hlt p hp
      exact ⟨Nat.lt_of_lt_of_le hlt h'.next, by rw [h'.live p hlt, hlive]⟩
    · exact hlt' p hp
  · rw [h'.cell p (Nat.lt_of_lt_of_le hp h.next), h.cell p hp]
  · rw [h'.live p (Nat.lt_of_lt_of_le hp h.next), h.live p hp]

end Appended

section
variable {s : DaemonState κ}

theorem appended_pushEntry (e : IncronTabEntry) :
    Post (pushEntry e) s (fun _ s' => Appended [e] s.kernel s s') fun _ _ => False := by
  refine ⟨rfl, ⟨[s.entryHeap.next], rfl, ?_, ?_⟩, Nat.le_succ _, fun p hp => ?_, fun p hp => ?_⟩
  · simp [Heap.alloc_cell]
  · simp [Heap.alloc_live]
  · rw [Heap.alloc_cell, if_neg (Nat.ne_of_lt hp)]
  · rw [Heap.alloc_live, if_neg (Nat.ne_of_lt hp)]

theorem appended_pushEntries {γ : Type} (l : List γ) (f : γ → IncronTabEntry) :
    Post (l.forM fun x => pushEntry (f x)) s (fun _ s' => Appended (l.map f) s.kernel s s')
      fun _ _ => False := by
  induction l generalizing s with
  | nil => exact Appended.kernel s s.kernel
  | cons x l ih =>
    rw [List.forM, post_bind]
    refine (appended_pushEntry (f x)).imp fun _ s₁ h => ?_
    refine ih.imp fun _ s₂ h' => ?_
    rw [h.kernel_eq] at h'
    exact h.trans h'

variable [System κ]

theorem post_subDirVec_eq (rE : IncronTabEntry) :
    Post (subDirVec rE) s (fun v s' => v = (subDirs rE s.kernel).2 ∧
      s' = { s with kernel := (subDirs rE s.kernel).1 }) fun _ _ => False := by
  unfold subDirVec subDirs
  simp only [post_bind, post_call, post_ite, post_pure, List.contains_iff_mem]
  split_ifs
  · exact ⟨rfl, rfl⟩
  · exact ⟨rfl, rfl⟩

theorem appended_addSubDirs {p : ℕ} (hlive : s.entryHeap.live p = true) :
    Post (addSubDirs p) s
      (fun _ s' => Appended (derived (s.entryHeap.cell p) s.kernel).2
        (derived (s.entryHeap.cell p) s.kernel).1 s s') fun _ _ => False := by
  unfold addSubDirs derived
  simp only [post_bind, post_entryAt, hlive, touch_live, post_ite, post_pure]
  split_ifs
  · exact Appended.kernel s s.kernel
  · refine (post_subDirVec_eq _).imp fun v s₁ h => ?_
    obtain ⟨rfl, rfl⟩ := h
    exact (appended_pushEntries _ _).imp
      fun _ _ h => (Appended.kernel s _).trans h

/-- The first loop of `Load`. -/
theorem appended_addAllSubDirs (l : List ℕ)
    (hl : ∀ p ∈ l, p < s.entryHeap.next ∧ s.entryHeap.live p = true) :
    Post (l.forM addSubDirs) s
      (fun _ s' => Appended (derivedAll (l.map s.entryHeap.cell) s.kernel).2
        (derivedAll (l.map s.entryHeap.cell) s.kernel).1 s s') fun _ _ => False := by
  induction l generalizing s with
  | nil => exact Appended.kernel s s.kernel
  | cons p l ih =>
    rw [List.forM, post_bind]
    refine (appended_addSubDirs (hl p (by simp)).2).imp fun _ s₁ h => ?_
    have hl₁ : ∀ q ∈ l, q < s₁.entryHeap.next ∧ s₁.entryHeap.live q = true := by
      intro q hq
      obtain ⟨hlt, hlive⟩ := hl q (by simp [hq])
      exact ⟨Nat.lt_of_lt_of_le hlt h.next, by rw [h.live q hlt, hlive]⟩
    have hcells : l.map s₁.entryHeap.cell = l.map s.entryHeap.cell :=
      List.map_congr_left fun q hq => h.cell q (hl q (by simp [hq])).1
    refine (ih hl₁).imp fun _ s₂ h' => ?_
    rw [hcells, h.kernel_eq] at h'
    exact h.trans h'

theorem appended_tableEntries (t : UserTable) :
    Post (expandTab t) s
      (fun _ s' => FileLoads t s.kernel ∧
        Appended (tableEntries t s.kernel).2 (tableEntries t s.kernel).1 (cleared s) s')
      fun _ _ => ¬ FileLoads t s.kernel := by
  unfold expandTab loadTab clearTab
  simp only [post_bind, post_modify, post_call, post_get]
  cases hload : IncronTab.load (System.readFile s.kernel t.path).2 with
  | error e =>
    intro hfile
    obtain ⟨r, hr⟩ := (IncronTab.exists_load_iff _).mpr hfile
    rw [hload] at hr
    exact absurd hr (by simp)
  | ok r =>
    have hlines : lineEntries (System.readFile s.kernel t.path).2 = r.2 := by
      rw [lineEntries, hload]
    have hfile : FileLoads t s.kernel := (IncronTab.exists_load_iff _).mp ⟨r, hload⟩
    refine (appended_pushEntries r.2 id).imp_of_total fun _ s₁ h₁ => ?_
    have h₁ := (Appended.kernel (cleared s) (System.readFile s.kernel t.path).1).trans h₁
    obtain ⟨l, htab, hcells, hl⟩ := h₁.tab
    have htab : s₁.tab = l := htab
    refine (appended_addAllSubDirs s₁.tab (htab ▸ hl)).imp_of_total fun _ s₂ h₂ => ⟨hfile, ?_⟩
    rw [htab, hcells, List.map_id, List.nil_append, h₁.kernel_eq] at h₂
    have h := h₁.trans h₂
    rw [List.map_id, List.nil_append] at h
    simp only [tableEntries, hlines]
    exact h

/-- The table in the state `s₀`, where the second loop of `Load` starts. -/
structure Expanded (t : UserTable) (fd : ℕ) (s s₀ : DaemonState κ) : Prop where
  progress : Progress fd (cleared s) s₀
  map : s₀.map = ∅
  entries : s₀.tab.map s₀.entryHeap.cell = (tableEntries t s.kernel).2
  kernel : s₀.kernel = (tableEntries t s.kernel).1

/-- The second loop is reached unless `Parse` throws. -/
theorem post_expandTab {fd : ℕ} (h : Sound fd s) (hmap : s.map = ∅) (t : UserTable) :
    Post (expandTab t) s (fun _ s₀ => FileLoads t s.kernel ∧ Expanded t fd s s₀)
      fun _ _ => ¬ FileLoads t s.kernel := by
  refine ((appended_tableEntries t).and (post_expanded h hmap t)).mono (fun _ s₀ h₀ => ?_)
    fun _ _ he => he.1
  obtain ⟨⟨hfile, happ⟩, hprogress, -⟩ := h₀
  refine ⟨hfile, hprogress, ?_, ?_, happ.kernel_eq⟩
  · rw [happ.frame]
    exact hmap
  · obtain ⟨l, htab, hcells, -⟩ := happ.tab
    have htab : s₀.tab = l := htab
    rw [htab, hcells]

end

end Incron.Daemon
