import Incron.Daemon.Fitting

/-! The second loop of `Load` with any kernel: an entry without a wildcard gets a watch, or the
kernel turns it down. -/
namespace Incron.Daemon
open Hoare

variable {κ : Type}

def HasWatch (s : DaemonState κ) (f : Str) : Prop :=
  ∃ p ∈ s.map, (s.watchHeap.cell p).path = f

section
variable [System κ]

section
variable (t : UserTable) (fd : ℕ) (s₀ s : DaemonState κ) (pE : ℕ)

/-- The second loop, which has started in the state `s₀`, comes to the entry in the state `s`, and
`Add` asks the kernel for a descriptor. -/
structure Asks : Prop where
  loop : ∃ before after, s₀.tab = before ++ pE :: after ∧
    before.forM (addPlainEntry t) s₀ = .ok () s
  plain : '*' ∉ pathOf s pE
  free : s.inotify.paths.lookup (pathOf s pE) = none

def answerFor : Except ℕ ℕ :=
  let e := s.entryHeap.cell pE
  (System.addWatch (mayAccess t e.path e.mask s.kernel).1 fd e.path e.mask).2

/-- The kernel gives an error, or the descriptor of an earlier entry. -/
def TurnedDown : Prop :=
  (∃ errno, answerFor t fd s pE = .error errno) ∨
    ∃ wd q, answerFor t fd s pE = .ok wd ∧ s.inotify.watches.lookup wd = some q

end

end

section
variable {t : UserTable} {fd : ℕ} {s s₀ s' : DaemonState κ} {pE : ℕ}

theorem Sound.hasWatch_iff (h : Sound fd s) (f : Str) :
    HasWatch s f ↔ ∃ q, s.inotify.paths.lookup f = some q := by
  constructor
  · rintro ⟨p, hp, hpath⟩
    exact ⟨p, (h.indexed.paths f p).mpr ⟨hp, congrArg some hpath⟩⟩
  · rintro ⟨q, hq⟩
    obtain ⟨hmem, hpath⟩ := (h.indexed.paths f q).mp hq
    exact ⟨q, hmem, Option.some.inj hpath⟩

structure Planted (fd : ℕ) (s₀ s : DaemonState κ) : Prop where
  progress : Progress fd s₀ s
  entryHeap : s.entryHeap = s₀.entryHeap
  tab : s.tab = s₀.tab
  matched : Matched s
  plain : ∀ p pE, s.map.lookup p = some pE → '*' ∉ pathOf s pE
  kept : ∀ f, HasWatch s₀ f → HasWatch s f

namespace Planted

theorem pathOf_eq (h : Planted fd s₀ s) : pathOf s = pathOf s₀ := by
  funext p
  rw [pathOf, pathOf, h.entryHeap]

theorem refl (h : Planted fd s₀ s) : Planted fd s s :=
  ⟨h.progress.sound.progress, rfl, rfl, h.matched, h.plain, fun _ hf => hf⟩

theorem dropped (h : Planted fd s₀ s) {w : InotifyWatch} {k : κ}
    (hprogress : Progress fd s (droppedWatch s w k)) : Planted fd s₀ (droppedWatch s w k) := by
  refine ⟨h.progress.trans hprogress, h.entryHeap, h.tab, h.matched.dropped k h.progress.sound,
    h.plain, fun f hf => ?_⟩
  obtain ⟨p, hp, hpath⟩ := h.kept f hf
  refine ⟨p, hp, ?_⟩
  rw [droppedWatch_cell w k h.progress.sound hp]
  exact hpath

theorem bound (h : Planted fd s₀ s) (hplain : '*' ∉ pathOf s pE) {wd : ℕ} {k : κ}
    (hprogress : Progress fd s (boundWatch s
      { path := pathOf s pE, mask := (s.entryHeap.cell pE).mask } pE wd k)) :
    Planted fd s₀ (boundWatch s
      { path := pathOf s pE, mask := (s.entryHeap.cell pE).mask } pE wd k) := by
  have hsound := h.progress.sound
  refine ⟨h.progress.trans hprogress, h.entryHeap, h.tab,
    h.matched.bound wd k hsound rfl rfl, fun p pE' hp => ?_, fun f hf => ?_⟩
  · rw [boundWatch_lookup _ pE wd k hsound] at hp
    split_ifs at hp with hnext
    · obtain rfl := Option.some.inj hp
      exact hplain
    · exact h.plain p pE' hp
  · obtain ⟨p, hp, hpath⟩ := h.kept f hf
    refine ⟨p, FinMap.mem_insertNew.mpr (.inr hp), ?_⟩
    rw [boundWatch_cell _ pE wd k hsound hp]
    exact hpath

variable [System κ]

/-- An entry without a wildcard gets a watch, or it is turned down. -/
theorem post_addTabEntry (h : Planted fd s₀ s) (hpE : pE ∈ s₀.tab) (hplain : '*' ∉ pathOf s pE) :
    Post (addTabEntry t pE) s
      (fun _ s' => Planted fd s₀ s' ∧
        (HasWatch s' (pathOf s pE) ∨
          s.inotify.paths.lookup (pathOf s pE) = none ∧ TurnedDown t fd s pE))
      fun _ _ => False := by
  have hsound := h.progress.sound
  refine (post_addTabEntry_cases t hsound (h.tab ▸ hpE)).imp fun _ s' hs' => ?_
  obtain ⟨hprogress, hcases⟩ := hs'
  -- a path that is watched already keeps its watch
  have hor (hkept : HasWatch s (pathOf s pE) → HasWatch s' (pathOf s pE))
      (hdown : TurnedDown t fd s pE) : HasWatch s' (pathOf s pE) ∨
        s.inotify.paths.lookup (pathOf s pE) = none ∧ TurnedDown t fd s pE := by
    by_cases hwatch : HasWatch s (pathOf s pE)
    · exact .inl (hkept hwatch)
    · rw [hsound.hasWatch_iff, ← Option.ne_none_iff_exists', not_not] at hwatch
      exact .inr ⟨hwatch, hdown⟩
  rcases hcases with ⟨-, wd, -, -, rfl⟩ | ⟨hpath, rfl⟩ | ⟨herr, rfl⟩ | ⟨wd, q, hok, hq, rfl⟩
  · refine ⟨h.bound hplain hprogress, .inl ⟨s.watchHeap.next, ?_, ?_⟩⟩
    · exact FinMap.mem_insertNew.mpr (.inl rfl)
    · rw [boundWatch_cell_next]
      rfl
  · exact ⟨h.dropped hprogress,
      .inl ((h.refl.dropped hprogress).kept _ ((hsound.hasWatch_iff _).mpr hpath))⟩
  · exact ⟨h.dropped hprogress, hor ((h.refl.dropped hprogress).kept _) (.inl herr)⟩
  · exact ⟨h.dropped hprogress,
      hor ((h.refl.dropped hprogress).kept _) (.inr ⟨wd, q, hok, hq⟩)⟩

theorem post_addPlainEntry (h : Planted fd s₀ s) (hpE : pE ∈ s₀.tab) :
    Post (addPlainEntry t pE) s
      (fun _ s' => Planted fd s₀ s' ∧ ('*' ∉ pathOf s pE → HasWatch s' (pathOf s pE) ∨
        s.inotify.paths.lookup (pathOf s pE) = none ∧ TurnedDown t fd s pE))
      fun _ _ => False := by
  have hlive := h.progress.sound.tab pE (h.tab ▸ hpE)
  unfold addPlainEntry
  simp only [post_bind, post_entryAt, hlive, touch_live, post_ite, post_pure]
  split_ifs with hwild
  · exact ⟨h, fun hplain => absurd hwild hplain⟩
  · exact (h.post_addTabEntry hpE hwild).imp fun _ _ h' => ⟨h'.1, fun _ => h'.2⟩

theorem post_addPlainEntries (h : Planted fd s₀ s) {l : List ℕ} (hl : ∀ pE ∈ l, pE ∈ s₀.tab) :
    Post (l.forM (addPlainEntry t)) s (fun _ s' => Planted fd s₀ s') fun _ _ => False :=
  Post.forM_invariant (fun pE hpE _ h' => (h'.post_addPlainEntry (hl pE hpE)).imp
    (fun _ _ h'' => h''.1)) h

/-- The paths that are watched, or asked for in vain, are those of the entries without a
wildcard. -/
theorem hasWatch_or_asked_iff (h : Planted fd s₀ s₀)
    (hrun : s₀.tab.forM (addPlainEntry t) s₀ = .ok () s) (f : Str) :
    (HasWatch s f ∨ ∃ s₁ pE, Asks t s₀ s₁ pE ∧ pathOf s₁ pE = f ∧ TurnedDown t fd s₁ pE) ↔
      '*' ∉ f ∧ ∃ pE ∈ s₀.tab, pathOf s₀ pE = f := by
  constructor
  · rintro (⟨p, hp, hpath⟩ | ⟨s₁, pE, hasks, rfl, -⟩)
    · have hs := (h.post_addPlainEntries fun _ hpE => hpE).ok hrun
      obtain ⟨pE, hpE⟩ := FinMap.exists_lookup hp
      have hf : pathOf s pE = f := ((hs.matched.entry p pE hpE).1).symm.trans hpath
      refine ⟨hf ▸ hs.plain p pE hpE, pE, ?_, ?_⟩
      · rw [← hs.tab]
        exact hs.progress.sound.entry p pE hpE
      · rw [← hs.pathOf_eq, hf]
    · obtain ⟨before, after, htab, hbefore⟩ := hasks.loop
      have hs₁ := (h.post_addPlainEntries fun pE' hpE' => by simp [htab, hpE']).ok hbefore
      exact ⟨hasks.plain, pE, by simp [htab], by rw [hs₁.pathOf_eq]⟩
  · rintro ⟨hplain, pE, hpE, rfl⟩
    obtain ⟨before, after, htab⟩ := List.append_of_mem hpE
    rw [htab] at hrun
    obtain ⟨s₁, s₂, hbefore, hturn, hafter⟩ := forM_append_cons_eq_ok.mp hrun
    have hs₁ := (h.post_addPlainEntries fun pE' hpE' => by simp [htab, hpE']).ok hbefore
    have hpath : pathOf s₁ pE = pathOf s₀ pE := by rw [hs₁.pathOf_eq]
    obtain ⟨hs₂, hcases⟩ := (hs₁.post_addPlainEntry hpE).ok hturn
    have hs := (hs₂.refl.post_addPlainEntries fun pE' hpE' => by
      simp [hs₂.tab, htab, hpE']).ok hafter
    rw [← hpath] at hplain ⊢
    rcases hcases hplain with hwatch | ⟨hfree, hdown⟩
    · exact .inl (hs.kept _ hwatch)
    · exact .inr ⟨s₁, pE, ⟨⟨before, after, htab, hbefore⟩, hplain, hfree⟩, rfl, hdown⟩

end Planted

/-! ## Load -/

variable [System κ]

theorem Expanded.planted (h : Expanded t fd s s₀) : Planted fd s₀ s₀ := by
  refine ⟨h.progress.sound.progress, rfl, rfl, .of_empty h.map, fun p pE hp => ?_, fun _ hf => hf⟩
  rw [h.map] at hp
  exact absurd hp (by simp)

theorem post_load_planted (h : Sound fd s) (hmap : s.map = ∅) (hmaps : s.maps.lookup fd = none)
    (t : UserTable) :
    Post (load t) s
      (fun _ s' => ∃ s₀ s₁, expandTab t s = .ok () s₀ ∧ Expanded t fd s s₀ ∧
        s₀.tab.forM (addPlainEntry t) s₀ = .ok () s₁ ∧ Planted fd s₀ s₁ ∧ s' = registered t fd s₁)
      fun _ _ => True := by
  rw [load_eq_expandTab]
  simp only [post_bind, post_get]
  refine ((post_expandTab h hmap t).and Post.self).imp_any fun _ s₀ h₀ => ?_
  obtain ⟨⟨-, h₀⟩, hexpand⟩ := h₀
  refine ((h₀.planted.post_addPlainEntries fun _ hpE => hpE).and Post.self).imp_any
    fun _ s₁ h₁ => ?_
  obtain ⟨h₁, hrun⟩ := h₁
  have hnone : s₁.maps.lookup fd = none := by
    rw [h₁.progress.grown.maps, h₀.progress.grown.maps]
    exact hmaps
  exact (post_register h₁.progress.sound.opened hnone t).imp_any
    fun _ s₂ h₂ => ⟨s₀, s₁, hexpand, h₀, hrun, h₁, h₂⟩

/-- Whatever the kernel answers, the new watches are those of the paths and the masks of their
entries. -/
theorem post_load_matched (t : UserTable) (h : Sound fd s) (hmap : s.map = ∅)
    (hmaps : s.maps.lookup fd = none) :
    Post (load t) s (fun _ s' => Matched s') fun _ _ => True := by
  refine (post_load_planted h hmap hmaps t).imp_any fun _ s' h' => ?_
  obtain ⟨s₀, s₁, -, -, -, h₁, rfl⟩ := h'
  exact ⟨h₁.matched.entry, h₁.matched.active⟩

end

end Incron.Daemon
