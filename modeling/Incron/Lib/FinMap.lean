import Mathlib.Data.List.AList

/-! Finite maps with the insertion of `std::map`, which keeps an existing value. -/

abbrev FinMap (κ : Type*) (β : Type*) := AList fun _ : κ => β

namespace FinMap

variable {κ β γ : Type*} [DecidableEq κ]

/-- `std::map::insert`. -/
def insertNew (m : FinMap κ β) (k : κ) (b : β) : FinMap κ β :=
  if k ∈ m then m else m.insert k b

theorem exists_lookup {m : FinMap κ β} {k : κ} (h : k ∈ m) : ∃ b, m.lookup k = some b :=
  Option.isSome_iff_exists.mp (AList.lookup_isSome.mpr h)

theorem mem_of_lookup {m : FinMap κ β} {k : κ} {b : β} (h : m.lookup k = some b) : k ∈ m :=
  AList.lookup_isSome.mp (by rw [h]; rfl)

theorem lookup_insert (m : FinMap κ β) (k k' : κ) (b : β) :
    (m.insert k b).lookup k' = if k' = k then some b else m.lookup k' := by
  split_ifs with h
  · rw [h, AList.lookup_insert]
  · rw [AList.lookup_insert_ne h]

theorem lookup_erase (m : FinMap κ β) (k k' : κ) :
    (m.erase k).lookup k' = if k' = k then none else m.lookup k' := by
  split_ifs with h
  · rw [h, AList.lookup_erase]
  · rw [AList.lookup_erase_ne h]

theorem erase_eq_self_iff {m : FinMap κ β} {k : κ} : m.erase k = m ↔ m.lookup k = none := by
  constructor
  · intro h
    rw [← h, AList.lookup_erase]
  · intro h
    exact AList.ext (List.kerase_of_notMem_keys (AList.lookup_eq_none.mp h))

instance (m : FinMap κ β) [DecidableEq β] (b : β) : Decidable (∃ k, m.lookup k = some b) :=
  decidable_of_iff (∃ e ∈ m.entries, e.2 = b) <| by
    constructor
    · rintro ⟨e, he, rfl⟩
      exact ⟨e.1, AList.mem_lookup_iff.mpr he⟩
    · rintro ⟨k, hk⟩
      exact ⟨⟨k, b⟩, AList.mem_lookup_iff.mp hk, rfl⟩

theorem lookup_insertNew (m : FinMap κ β) (k k' : κ) (b : β) :
    (m.insertNew k b).lookup k' = if k' = k then some ((m.lookup k).getD b) else m.lookup k' := by
  unfold insertNew
  by_cases hk : k ∈ m
  · obtain ⟨c, hc⟩ := exists_lookup hk
    rw [if_pos hk]
    split_ifs with h
    · rw [h, hc]
      rfl
    · rfl
  · rw [if_neg hk, lookup_insert, AList.lookup_eq_none.mpr hk]
    rfl

theorem lookup_insertNew_of_none {m : FinMap κ β} {k : κ} (hk : m.lookup k = none) (k' : κ)
    (b : β) : (m.insertNew k b).lookup k' = if k' = k then some b else m.lookup k' := by
  rw [lookup_insertNew, hk]
  rfl

theorem mem_insertNew {m : FinMap κ β} {k k' : κ} {b : β} :
    k' ∈ m.insertNew k b ↔ k' = k ∨ k' ∈ m := by
  unfold insertNew
  split_ifs with hk
  · refine ⟨Or.inr, ?_⟩
    rintro (rfl | h)
    · exact hk
    · exact h
  · exact AList.mem_insert m

theorem eq_empty_of_lookup {m : FinMap κ β} (h : ∀ k, m.lookup k = none) : m = ∅ := by
  refine AList.ext ?_
  cases hm : m.entries with
  | nil => rfl
  | cons e l =>
    have := h e.1
    rw [AList.lookup, hm, List.dlookup_cons_eq] at this
    exact absurd this (by simp)

/-- A loop that inserts the values of some elements under their keys. -/
theorem lookup_foldl_insertNew (l : List γ) (p : γ → Bool) (key : γ → κ) (val : γ → β)
    (m : FinMap κ β) (k : κ) :
    (l.foldl (fun m x => if p x then insertNew m (key x) (val x) else m) m).lookup k =
      (m.lookup k).or ((l.find? fun x => p x && key x = k).map val) := by
  induction l generalizing m with
  | nil => simp
  | cons x l ih =>
    rw [List.foldl_cons, ih, List.find?_cons]
    cases hp : p x with
    | false => simp
    | true =>
      by_cases hk : key x = k
      · subst hk
        simp only [if_true, lookup_insertNew, decide_true, Bool.and_true, Option.map_some]
        cases m.lookup (key x) <;> simp
      · simp [lookup_insertNew, Ne.symm hk, hk]

theorem find?_entries (m : FinMap κ β) (p : κ → Bool) (k : κ) (f : κ → γ) :
    (m.entries.find? fun e => p e.1 && e.1 = k).map (fun e => f e.1) =
      if p k then (m.lookup k).map fun _ => f k else none := by
  rw [AList.lookup]
  induction m.entries with
  | nil => simp
  | cons e l ih =>
    obtain ⟨k', b⟩ := e
    by_cases hk : k' = k
    · subst hk
      cases hp : p k' <;> simp_all
    · simp [hk, List.dlookup_cons_ne, Ne.symm hk, ih]

/-! ## Indexes -/

/-- The map finds the elements of a list by their keys; elements without a key are not in
the map. -/
def Indexes (m : FinMap κ β) (l : List β) (key : β → Option κ) : Prop :=
  ∀ k b, m.lookup k = some b ↔ b ∈ l ∧ key b = some k

namespace Indexes
variable {m : FinMap κ β} {l l' : List β} {key key' : β → Option κ} {k : κ} {b : β}

theorem congr (H : Indexes m l key) (hkey : ∀ b ∈ l, key' b = key b) : Indexes m l key' := by
  intro k b
  rw [H]
  exact and_congr_right fun hb => by rw [hkey b hb]

theorem of_mem_iff (H : Indexes m l key) (hl : ∀ b, b ∈ l' ↔ b ∈ l) : Indexes m l' key := by
  intro k b
  rw [H, hl]

theorem empty : Indexes (∅ : FinMap κ β) [] key := by
  intro k b
  simp

theorem eq_empty (H : Indexes m [] key) : m = ∅ := by
  refine eq_empty_of_lookup fun k => ?_
  cases hk : m.lookup k with
  | none => rfl
  | some b => exact absurd ((H k b).mp hk).1 (by simp)

theorem insertNew (H : Indexes m l key) (hb : b ∉ l) (hk : m.lookup k = none)
    (hkey : key' b = some k) (hother : ∀ c ∈ l, key' c = key c) :
    Indexes (m.insertNew k b) (b :: l) key' := by
  intro k' c
  rw [lookup_insertNew_of_none hk, List.mem_cons]
  constructor
  · intro h
    split_ifs at h with hk'
    · obtain rfl := Option.some.inj h
      exact ⟨Or.inl rfl, by rw [hkey, hk']⟩
    · obtain ⟨hc, hkc⟩ := (H k' c).mp h
      exact ⟨Or.inr hc, by rw [hother c hc, hkc]⟩
  · rintro ⟨rfl | hc, hkc⟩
    · rw [hkey] at hkc
      rw [if_pos (Option.some.inj hkc).symm]
    · rw [hother c hc] at hkc
      have hfound := (H k' c).mpr ⟨hc, hkc⟩
      have hne : k' ≠ k := by
        rintro rfl
        rw [hk] at hfound
        exact absurd hfound (by simp)
      rw [if_neg hne, hfound]

/-- A new element without a key stays out of the map. -/
theorem unkeyed (H : Indexes m l key) (hkey : key' b = none)
    (hother : ∀ c ∈ l, key' c = key c) : Indexes m (b :: l) key' := by
  intro k' c
  rw [H, List.mem_cons]
  constructor
  · rintro ⟨hc, hkc⟩
    exact ⟨.inr hc, by rw [hother c hc, hkc]⟩
  · rintro ⟨rfl | hc, hkc⟩
    · rw [hkey] at hkc
      exact absurd hkc (by simp)
    · exact ⟨hc, by rw [← hother c hc, hkc]⟩

theorem skip (H : Indexes m l key) (hk : key b = none) (hl : ∀ c, c ≠ b → (c ∈ l' ↔ c ∈ l))
    (hb : b ∉ l') : Indexes m l' key := by
  intro k' c
  rw [H]
  by_cases hc : c = b
  · subst hc
    simp [hk, hb]
  · rw [hl c hc]

theorem erase (H : Indexes m l key) (hbl : b ∈ l) (hk : key b = some k)
    (hl : ∀ c, c ≠ b → (c ∈ l' ↔ c ∈ l)) (hother : ∀ c ∈ l', c ≠ b → key' c = key c)
    (hb : b ∉ l' ∨ key' b = none) : Indexes (m.erase k) l' key' := by
  intro k' c
  rw [lookup_erase]
  by_cases hc : c = b
  · subst hc
    have hnot : ¬ (c ∈ l' ∧ key' c = some k') := by
      rintro ⟨hmem, hkc⟩
      rcases hb with hb | hb
      · exact hb hmem
      · rw [hb] at hkc
        exact absurd hkc (by simp)
    refine ⟨fun h => ?_, fun h => absurd h hnot⟩
    split_ifs at h with hk'
    have := ((H k' c).mp h).2
    rw [hk] at this
    exact absurd (Option.some.inj this).symm hk'
  · constructor
    · intro h
      split_ifs at h with hk'
      obtain ⟨hmem, hkc⟩ := (H k' c).mp h
      have hmem' := (hl c hc).mpr hmem
      exact ⟨hmem', by rw [hother c hmem' hc, hkc]⟩
    · rintro ⟨hmem, hkc⟩
      rw [hother c hmem hc] at hkc
      have hfound := (H k' c).mpr ⟨(hl c hc).mp hmem, hkc⟩
      have hne : k' ≠ k := by
        rintro rfl
        have := (H k' b).mpr ⟨hbl, hk⟩
        rw [hfound] at this
        exact hc (Option.some.inj this)
      rw [if_neg hne, hfound]

end Indexes

end FinMap
