import Incron.Table.Loading
import Incron.Text.Escapes
import Mathlib.Data.List.Induction

/-! Escaped paths: `GetSafePath` and `StripPrefix` are inverse to each other, and every blank of
an escaped path is protected by the backslashes before it. -/
namespace Incron.IncronTabEntry
open StringTokenizer

/-- Before every blank stands an odd number of backslashes. -/
def BlanksEscaped (s : Str) : Prop := ∀ i, s[i]? = some ' ' → prefixRun '\\' (s.take i) % 2 = 1

instance (s : Str) : Decidable (BlanksEscaped s) :=
  decidable_of_iff (∀ i < s.length, s[i]? = some ' ' → prefixRun '\\' (s.take i) % 2 = 1) (by
    constructor
    · intro h i hi
      exact h i (List.getElem?_eq_some_iff.mp hi).1 hi
    · exact fun h i _ => h i)

example : BlanksEscaped "/a\\ b\\\\".toList ∧ ¬ BlanksEscaped "/a\\\\ b".toList := by decide

theorem blanksEscaped_nil : BlanksEscaped [] := by
  intro i hi
  simp at hi

/-- One more character is a blank only behind an odd number of backslashes. -/
theorem blanksEscaped_concat (s : Str) (c : Char) :
    BlanksEscaped (s ++ [c]) ↔ BlanksEscaped s ∧ (c = ' ' → prefixRun '\\' s % 2 = 1) := by
  have hold : ∀ i < s.length, (s ++ [c])[i]? = s[i]? ∧ (s ++ [c]).take i = s.take i := by
    intro i hi
    constructor
    · exact List.getElem?_append_left hi
    · exact List.take_append_of_le_length (by omega)
  have hlast : (s ++ [c])[s.length]? = some c ∧ (s ++ [c]).take s.length = s := by simp
  constructor
  · intro h
    constructor
    · intro i hi
      have hlt : i < s.length := (List.getElem?_eq_some_iff.mp hi).1
      have hesc := h i
      rw [(hold i hlt).1, (hold i hlt).2] at hesc
      exact hesc hi
    · intro hc
      have hesc := h s.length
      rw [hlast.1, hlast.2, hc] at hesc
      exact hesc rfl
  · rintro ⟨hs, hc⟩ i hi
    rcases Nat.lt_trichotomy i s.length with hlt | heq | hgt
    · rw [(hold i hlt).1] at hi
      rw [(hold i hlt).2]
      exact hs i hi
    · subst heq
      rw [hlast.1] at hi
      rw [hlast.2]
      exact hc (Option.some.inj hi)
    · have hnone : (s ++ [c])[i]? = none := List.getElem?_eq_none (by simp; omega)
      rw [hnone] at hi
      simp at hi

theorem getSafePath_append (p q : Str) :
    getSafePath (p ++ q) = getSafePath p ++ getSafePath q := List.flatMap_append

/-- A character adds a blank and its backslash, two backslashes, or itself. -/
theorem getSafePath_concat (p : Str) (c : Char) :
    getSafePath (p ++ [c]) = getSafePath p ++
      if c = ' ' then ['\\'] ++ [' '] else if c = '\\' then ['\\'] ++ ['\\'] else [c] := by
  rw [getSafePath_append, getSafePath_cons, getSafePath_nil, List.append_nil]
  rfl

/-- The backslashes at the end of an escaped path come in pairs. -/
theorem prefixRun_getSafePath (p : Str) : prefixRun '\\' (getSafePath p) % 2 = 0 := by
  induction p using List.reverseRecOn with
  | nil => rfl
  | append_singleton p c ih =>
    rw [getSafePath_concat]
    split_ifs with hblank hback
    · rw [← List.append_assoc, prefixRun_append, if_neg (by decide)]
    · rw [← List.append_assoc, prefixRun_append, prefixRun_append, if_pos rfl, if_pos rfl]
      omega
    · rw [prefixRun_append, if_neg hback]

theorem blanksEscaped_getSafePath (p : Str) : BlanksEscaped (getSafePath p) := by
  induction p using List.reverseRecOn with
  | nil => exact blanksEscaped_nil
  | append_singleton p c ih =>
    have hrun := prefixRun_getSafePath p
    rw [getSafePath_concat]
    split_ifs with hblank hback
    · rw [← List.append_assoc, blanksEscaped_concat, blanksEscaped_concat, prefixRun_append,
        if_pos rfl]
      exact ⟨⟨ih, fun h => absurd h (by decide)⟩, fun _ => by omega⟩
    · rw [← List.append_assoc, blanksEscaped_concat, blanksEscaped_concat]
      exact ⟨⟨ih, fun h => absurd h (by decide)⟩, fun h => absurd h (by decide)⟩
    · rw [blanksEscaped_concat]
      exact ⟨ih, fun h => absurd h hblank⟩

/-- Unescaping undoes escaping, every blank of an escaped path is escaped, and different paths
have different escaped forms. -/
theorem getSafePath_inverse :
    (∀ p, stripPrefix '\\' (getSafePath p) = p ∧ BlanksEscaped (getSafePath p)) ∧
      Function.Injective getSafePath := by
  constructor
  · exact fun p => ⟨stripPrefix_getSafePath p, blanksEscaped_getSafePath p⟩
  · exact Function.LeftInverse.injective stripPrefix_getSafePath

end Incron.IncronTabEntry
