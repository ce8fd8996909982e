import Mathlib.Data.List.Induction
import Mathlib.Data.Nat.Notation

/-! First fit: elements are admitted in order, each under its key and with the resource that it
is offered; a key and a resource are given once only. -/
namespace FirstFit

variable {α κ ρ : Type*} [DecidableEq κ] [DecidableEq ρ] (key : α → κ) (offer : α → Option ρ)

def place (given : List (α × ρ)) (a : α) : List (α × ρ) :=
  match offer a with
  | none => given
  | some r =>
    if (∃ b ∈ given, key b.1 = key a) ∨ (∃ b ∈ given, b.2 = r) then given else given ++ [(a, r)]

/-- The admitted elements of a list with their resources. -/
def firstFit (l : List α) : List (α × ρ) := l.foldl (place key offer) []

/-- At its turn, behind the elements `before`, the offer of an element can be accepted: the
resource is not given to another key. -/
def Accepts (before : List α) (a : α) : Prop :=
  ∃ r, offer a = some r ∧ ∀ b ∈ firstFit key offer before, b.2 = r → key b.1 = key a

/-- The first element of a key whose offer can be accepted at its turn. -/
def First (l : List α) (k : κ) (a : α) : Prop :=
  ∃ before after, l = before ++ a :: after ∧ key a = k ∧ Accepts key offer before a ∧
    ∀ c b d, before = c ++ b :: d → key b = k → ¬ Accepts key offer c b

section
variable {key offer} {l : List α}

@[simp] theorem firstFit_nil : firstFit key offer [] = [] := rfl

theorem firstFit_append (l : List α) (a : α) :
    firstFit key offer (l ++ [a]) = place key offer (firstFit key offer l) a := by
  rw [firstFit, List.foldl_append]
  rfl

theorem mem_place {given : List (α × ρ)} {a : α} {x : α × ρ} :
    x ∈ place key offer given a ↔ x ∈ given ∨ (x.1 = a ∧ offer a = some x.2 ∧
      (∀ b ∈ given, key b.1 ≠ key a) ∧ ∀ b ∈ given, b.2 ≠ x.2) := by
  obtain ⟨b, r⟩ := x
  unfold place
  cases hoffer : offer a with
  | none => simp
  | some r' =>
    by_cases htaken : (∃ b ∈ given, key b.1 = key a) ∨ (∃ b ∈ given, b.2 = r')
    · simp only [if_pos htaken, Option.some.injEq]
      constructor
      · exact .inl
      · rintro (h | ⟨rfl, rfl, hkey, hres⟩)
        · exact h
        · rcases htaken with ⟨c, hc, h⟩ | ⟨c, hc, h⟩
          · exact absurd h (hkey c hc)
          · exact absurd h (hres c hc)
    · simp only [if_neg htaken, List.mem_append, List.mem_singleton, Prod.mk.injEq,
        Option.some.injEq]
      simp only [not_or, not_exists, not_and] at htaken
      constructor
      · rintro (h | ⟨rfl, rfl⟩)
        · exact .inl h
        · exact .inr ⟨rfl, rfl, htaken.1, htaken.2⟩
      · rintro (h | ⟨rfl, rfl, -⟩)
        · exact .inl h
        · exact .inr ⟨rfl, rfl⟩

/-- Nothing changes when the key or the resource is taken, or nothing is offered. -/
theorem firstFit_append_same {a : α}
    (h : (∃ x ∈ firstFit key offer l, key x.1 = key a) ∨ offer a = none ∨
      ∃ x ∈ firstFit key offer l, offer a = some x.2) :
    firstFit key offer (l ++ [a]) = firstFit key offer l := by
  rw [firstFit_append, place]
  cases hoffer : offer a with
  | none => rfl
  | some r =>
    rcases h with h | h | ⟨x, hx, h⟩
    · exact if_pos (.inl h)
    · rw [hoffer] at h
      exact absurd h (by simp)
    · rw [hoffer] at h
      exact if_pos (.inr ⟨x, hx, (Option.some.inj h).symm⟩)

theorem firstFit_map {β : Type*} (f : β → α) (l : List β) :
    firstFit key offer (l.map f) =
      (firstFit (key ∘ f) (offer ∘ f) l).map fun x => (f x.1, x.2) := by
  induction l using List.reverseRecOn with
  | nil => rfl
  | append_singleton l a ih =>
    rw [List.map_append, List.map_singleton, firstFit_append, firstFit_append, ih, place, place]
    simp only [Function.comp_apply]
    cases offer (f a) with
    | none => rfl
    | some r =>
      simp only [List.mem_map, exists_exists_and_eq_and]
      split_ifs
      · rfl
      · rw [List.map_append, List.map_singleton]

theorem offer_of_mem {x : α × ρ} (h : x ∈ firstFit key offer l) : offer x.1 = some x.2 := by
  induction l using List.reverseRecOn with
  | nil => simp at h
  | append_singleton l a ih =>
    rw [firstFit_append, mem_place] at h
    rcases h with h | ⟨rfl, h, -⟩
    · exact ih h
    · exact h

theorem fst_mem_of_mem {x : α × ρ} (h : x ∈ firstFit key offer l) : x.1 ∈ l := by
  induction l using List.reverseRecOn with
  | nil => simp at h
  | append_singleton l a ih =>
    rw [firstFit_append, mem_place] at h
    rw [List.mem_append, List.mem_singleton]
    rcases h with h | ⟨h, -⟩
    · exact .inl (ih h)
    · exact .inr h

/-- Later elements change nothing for the earlier ones. -/
theorem mem_firstFit_append {before after : List α} (hl : (before ++ after).Nodup) {x : α × ρ} :
    x ∈ firstFit key offer before ↔ x ∈ firstFit key offer (before ++ after) ∧ x.1 ∈ before := by
  induction after using List.reverseRecOn with
  | nil =>
    rw [List.append_nil]
    exact ⟨fun h => ⟨h, fst_mem_of_mem h⟩, fun h => h.1⟩
  | append_singleton after a ih =>
    rw [← List.append_assoc] at hl ⊢
    obtain ⟨hl, -, hnot⟩ := List.nodup_append.mp hl
    rw [ih hl, firstFit_append, mem_place]
    constructor
    · exact fun h => ⟨.inl h.1, h.2⟩
    · rintro ⟨h | ⟨h, -⟩, hx⟩
      · exact ⟨h, hx⟩
      · exact absurd h (hnot x.1 (List.mem_append_left _ hx) a (List.mem_singleton.mpr rfl))

/-- An element is admitted if its offer can be accepted and its key is free. -/
theorem mem_firstFit_snoc {a a' : α} :
    (∃ r, (a', r) ∈ firstFit key offer (l ++ [a])) ↔ (∃ r, (a', r) ∈ firstFit key offer l) ∨
      (a' = a ∧ Accepts key offer l a ∧ ∀ x ∈ firstFit key offer l, key x.1 ≠ key a) := by
  simp only [firstFit_append, mem_place]
  constructor
  · rintro ⟨r, h | ⟨rfl, hoffer, hkey, hres⟩⟩
    · exact .inl ⟨r, h⟩
    · exact .inr ⟨rfl, ⟨r, hoffer, fun b hb hr => absurd hr (hres b hb)⟩, hkey⟩
  · rintro (⟨r, h⟩ | ⟨rfl, ⟨r, hoffer, hacc⟩, hkey⟩)
    · exact ⟨r, .inl h⟩
    · exact ⟨r, .inr ⟨rfl, hoffer, hkey, fun b hb hr => hkey b hb (hacc b hb hr)⟩⟩

private theorem append_singleton_split {before after : List α} {a b : α} :
    l ++ [a] = before ++ b :: after ↔
      (before = l ∧ b = a ∧ after = []) ∨
        ∃ after', after = after' ++ [a] ∧ l = before ++ b :: after' := by
  induction after using List.reverseRecOn with
  | nil =>
    constructor
    · intro h
      obtain ⟨hl, ha⟩ := List.append_inj' h rfl
      exact .inl ⟨hl.symm, (List.cons.inj ha).1.symm, rfl⟩
    · rintro (⟨rfl, rfl, -⟩ | ⟨after', h, -⟩)
      · rfl
      · simp at h
  | append_singleton after c =>
    constructor
    · intro h
      rw [← List.cons_append, ← List.append_assoc] at h
      obtain ⟨hl, ha⟩ := List.append_inj' h rfl
      exact .inr ⟨after, by rw [(List.cons.inj ha).1], hl⟩
    · rintro (⟨-, -, h⟩ | ⟨after', h, rfl⟩)
      · simp at h
      · obtain ⟨rfl, hc⟩ := List.append_inj' h rfl
        rw [(List.cons.inj hc).1]
        simp

/-- A key has an admitted element exactly if the offer of one of its elements can be accepted
at its turn. -/
theorem exists_mem_iff (k : κ) : (∃ a r, (a, r) ∈ firstFit key offer l ∧ key a = k) ↔
    ∃ before a after, l = before ++ a :: after ∧ key a = k ∧ Accepts key offer before a := by
  induction l using List.reverseRecOn with
  | nil => simp
  | append_singleton l a ih =>
    have hstep : (∃ a' r, (a', r) ∈ firstFit key offer (l ++ [a]) ∧ key a' = k) ↔
        (∃ a' r, (a', r) ∈ firstFit key offer l ∧ key a' = k) ∨
          (key a = k ∧ Accepts key offer l a) := by
      constructor
      · rintro ⟨a', r, h, hk⟩
        rcases mem_firstFit_snoc.mp ⟨r, h⟩ with ⟨r', h'⟩ | ⟨rfl, hacc, -⟩
        · exact .inl ⟨a', r', h', hk⟩
        · exact .inr ⟨hk, hacc⟩
      · rintro (⟨a', r, h, hk⟩ | ⟨hk, hacc⟩)
        · obtain ⟨r', h'⟩ := mem_firstFit_snoc.mpr (.inl ⟨r, h⟩)
          exact ⟨a', r', h', hk⟩
        · by_cases htaken : ∃ x ∈ firstFit key offer l, key x.1 = key a
          · obtain ⟨x, hx, hkx⟩ := htaken
            obtain ⟨r', h'⟩ := mem_firstFit_snoc.mpr (.inl ⟨x.2, hx⟩)
            exact ⟨x.1, r', h', hkx.trans hk⟩
          · have hfree : ∀ x ∈ firstFit key offer l, key x.1 ≠ key a := fun x hx h =>
              htaken ⟨x, hx, h⟩
            obtain ⟨r', h'⟩ := mem_firstFit_snoc.mpr (.inr ⟨rfl, hacc, hfree⟩)
            exact ⟨a, r', h', hk⟩
    rw [hstep, ih]
    constructor
    · rintro (⟨before, b, after, rfl, hk, hacc⟩ | ⟨hk, hacc⟩)
      · exact ⟨before, b, after ++ [a], by simp, hk, hacc⟩
      · exact ⟨l, a, [], rfl, hk, hacc⟩
    · rintro ⟨before, b, after, hsplit, hk, hacc⟩
      rcases append_singleton_split.mp hsplit with ⟨rfl, rfl, -⟩ | ⟨after', -, hl⟩
      · exact .inr ⟨hk, hacc⟩
      · exact .inl ⟨before, b, after', hl, hk, hacc⟩

/-- The admitted element of a key is the first one whose offer can be accepted. -/
theorem mem_iff_first {a : α} :
    (∃ r, (a, r) ∈ firstFit key offer l) ↔ First key offer l (key a) a := by
  induction l using List.reverseRecOn with
  | nil => simp [First]
  | append_singleton l b ih =>
    have hfree : (∀ x ∈ firstFit key offer l, key x.1 ≠ key b) ↔
        ∀ c d e, l = c ++ d :: e → key d = key b → ¬ Accepts key offer c d := by
      have h : ¬ (∃ a r, (a, r) ∈ firstFit key offer l ∧ key a = key b) ↔
          ¬ ∃ c d e, l = c ++ d :: e ∧ key d = key b ∧ Accepts key offer c d :=
        not_congr (exists_mem_iff (key b))
      simp only [not_exists, not_and] at h
      rw [← h]
      exact ⟨fun hx a r hmem => hx (a, r) hmem, fun hx x hmem => hx x.1 x.2 hmem⟩
    rw [mem_firstFit_snoc, ih, hfree]
    constructor
    · rintro (⟨before, after, rfl, hrest⟩ | ⟨rfl, hacc, hno⟩)
      · exact ⟨before, after ++ [b], by simp, hrest⟩
      · exact ⟨l, [], rfl, rfl, hacc, hno⟩
    · rintro ⟨before, after, hsplit, hk, hacc, hno⟩
      rcases append_singleton_split.mp hsplit with ⟨rfl, rfl, -⟩ | ⟨after', -, hl⟩
      · exact .inr ⟨rfl, hacc, hno⟩
      · exact .inl ⟨before, after', hl, hk, hacc, hno⟩

end
end FirstFit
