import Incron.Basic
import Incron.Lib.Stdio

/-! The allow and deny files: `IncronTab::CheckUser` (incrontab.cpp). Both paths come from the
configuration, which always has them by the defaults of `IncronCfg::Init`. -/
namespace Incron

/-- What `fopen` finds: `absent` is `ENOENT`, `unreadable` any other error. -/
inductive FileState where
  | absent
  | unreadable
  | readable (content : Str)
  deriving DecidableEq, Repr

namespace IncronTab
open Stdio

/-- `sscanf(s, "%s", u)`, `none` when nothing is converted. -/
def scanWord (s : Str) : Option Str :=
  let u := ((cString s).dropWhile isSpace).takeWhile fun c => !isSpace c
  if u = [] then none else some u

/-- The `while (fgets(s, 100, f) != NULL)` loops: is one of the words the user? -/
def findUser (rUser : Str) : List Str → Bool
  | [] => false
  | s :: rest =>
    match scanWord s with
    | some u => if rUser = u then true else findUser rUser rest
    | none => findUser rUser rest

def checkUser (allow deny : FileState) (rUser : Str) : Bool :=
  match allow with
  | .absent =>
    match deny with
    | .absent => true
    | .unreadable => false
    | .readable f => !findUser rUser (readAll 100 f)
  | .unreadable => false
  | .readable f => findUser rUser (readAll 100 f)

/-! ## The meaning of the two files -/

def Listed (rUser f : Str) : Prop := ∃ l ∈ lines f, scanWord l = some rUser

/-- The semantics of the two files (comment at the head of incrontab.cpp). -/
def Allowed (allow deny : FileState) (rUser : Str) : Prop :=
  (∃ f, allow = .readable f ∧ Listed rUser f) ∨
    (allow = .absent ∧ ∃ f, deny = .readable f ∧ ¬ Listed rUser f) ∨
    (allow = .absent ∧ deny = .absent)

/-- The file whose content decides. -/
def decisive (allow deny : FileState) : Option Str :=
  match allow, deny with
  | .readable f, _ => some f
  | .absent, .readable f => some f
  | _, _ => none

/-- The buffer does not change whether the name is found: a line of at most 99 bytes has the
name, or the longer lines have it as first word exactly if one of their blocks of 99 bytes
has. -/
def Undisturbed (rUser f : Str) : Prop :=
  (∃ l ∈ lines f, l.length < 100 ∧ scanWord l = some rUser) ∨
    ((∃ l ∈ lines f, 100 ≤ l.length ∧ scanWord l = some rUser) ↔
      ∃ l ∈ lines f, 100 ≤ l.length ∧ ∃ k, scanWord (block 99 l k) = some rUser)

theorem findUser_iff (rUser : Str) (l : List Str) :
    findUser rUser l = true ↔ ∃ s ∈ l, scanWord s = some rUser := by
  induction l with
  | nil => simp [findUser]
  | cons s l ih =>
    rw [findUser]
    cases h : scanWord s with
    | none => simp [ih, h]
    | some u =>
      by_cases hu : rUser = u
      · simp [hu, h]
      · simp [ih, h, hu, Ne.symm hu]

@[simp] private theorem scanWord_nil : scanWord [] = none := rfl

/-- What the loops find: a short line with the name, or a block of a longer line. -/
theorem findUser_readAll_iff (rUser f : Str) :
    findUser rUser (readAll 100 f) = true ↔
      (∃ l ∈ lines f, l.length < 100 ∧ scanWord l = some rUser) ∨
        ∃ l ∈ lines f, 100 ≤ l.length ∧ ∃ k, scanWord (block 99 l k) = some rUser := by
  have hline : ∀ l ∈ lines f, ((∃ s ∈ readAll 100 l, scanWord s = some rUser) ↔
      l.length < 100 ∧ scanWord l = some rUser ∨
        100 ≤ l.length ∧ ∃ k, scanWord (block 99 l k) = some rUser) := by
    intro l hl
    obtain ⟨hne, hnl⟩ := mem_lines hl
    rcases Nat.lt_or_ge l.length 100 with hlt | hge
    · rw [readAll_short (by decide) hne hnl hlt]
      simp [hlt, Nat.not_le.mpr hlt]
    · simp only [mem_readAll_line (n := 99) (by decide) hnl, hge, Nat.not_lt.mpr hge, true_and,
        false_and, false_or]
      constructor
      · rintro ⟨_, ⟨k, -, rfl⟩, hk⟩
        exact ⟨k, hk⟩
      · rintro ⟨k, hk⟩
        refine ⟨_, ⟨k, ?_, rfl⟩, hk⟩
        by_contra hlt
        rw [block, List.drop_eq_nil_of_le (Nat.le_of_not_lt hlt)] at hk
        simp at hk
  rw [findUser_iff, readAll_lines 100 (by decide) f]
  simp only [List.mem_flatMap]
  constructor
  · rintro ⟨s, ⟨l, hl, hs⟩, hword⟩
    rcases (hline l hl).mp ⟨s, hs, hword⟩ with h | h
    · exact .inl ⟨l, hl, h⟩
    · exact .inr ⟨l, hl, h⟩
  · rintro (⟨l, hl, h⟩ | ⟨l, hl, h⟩)
    · obtain ⟨s, hs, hword⟩ := (hline l hl).mpr (.inl h)
      exact ⟨s, ⟨l, hl, hs⟩, hword⟩
    · obtain ⟨s, hs, hword⟩ := (hline l hl).mpr (.inr h)
      exact ⟨s, ⟨l, hl, hs⟩, hword⟩

private theorem findUser_listed_iff (rUser f : Str) :
    (findUser rUser (readAll 100 f) = true ↔ Listed rUser f) ↔ Undisturbed rUser f := by
  have hsplit : Listed rUser f ↔ (∃ l ∈ lines f, l.length < 100 ∧ scanWord l = some rUser) ∨
      ∃ l ∈ lines f, 100 ≤ l.length ∧ scanWord l = some rUser := by
    constructor
    · rintro ⟨l, hl, h⟩
      rcases Nat.lt_or_ge l.length 100 with hlt | hge
      · exact .inl ⟨l, hl, hlt, h⟩
      · exact .inr ⟨l, hl, hge, h⟩
    · rintro (⟨l, hl, -, h⟩ | ⟨l, hl, -, h⟩) <;> exact ⟨l, hl, h⟩
  rw [findUser_readAll_iff, hsplit, Undisturbed]
  by_cases hshort : ∃ l ∈ lines f, l.length < 100 ∧ scanWord l = some rUser
  · simp only [hshort, true_or]
  · simp only [hshort, false_or]
    exact iff_comm

/-- `CheckUser` follows the two files exactly if the buffer does not disturb the search in the
file that decides. -/
theorem checkUser_iff (allow deny : FileState) (rUser : Str) :
    (checkUser allow deny rUser = true ↔ Allowed allow deny rUser) ↔
      ∀ f, decisive allow deny = some f → Undisturbed rUser f := by
  cases allow with
  | unreadable => simp [checkUser, Allowed, decisive]
  | readable f =>
    simp only [checkUser, Allowed, decisive, FileState.readable.injEq, Option.some.injEq,
      exists_eq_left', forall_eq', reduceCtorEq, false_and, or_false]
    exact findUser_listed_iff rUser f
  | absent =>
    cases deny with
    | absent => simp [checkUser, Allowed, decisive]
    | unreadable => simp [checkUser, Allowed, decisive]
    | readable f =>
      simp only [checkUser, Allowed, decisive, FileState.readable.injEq, Option.some.injEq,
        exists_eq_left', forall_eq', reduceCtorEq, false_and, exists_false, true_and, and_false,
        or_false, false_or, Bool.not_eq_true', ← Bool.not_eq_true]
      rw [not_iff_not]
      exact findUser_listed_iff rUser f

/-- A name behind 99 bytes of one line is taken for the first word of a line. -/
theorem checkUser_long_line :
    let f : Str := List.replicate 99 'x' ++ "root\n".toList
    checkUser (.readable f) .absent "root".toList = true ∧
      ¬ Allowed (.readable f) .absent "root".toList := by
  intro f
  constructor
  · decide +kernel
  · have hword : (lines f).all (fun l => scanWord l ≠ some "root".toList) = true := by
      decide +kernel
    rintro (⟨g, hg, l, hl, h⟩ | ⟨h, -⟩ | ⟨h, -⟩)
    · obtain rfl := FileState.readable.inj hg
      simpa [h] using List.all_eq_true.mp hword l hl
    · exact FileState.noConfusion h
    · exact FileState.noConfusion h

end IncronTab
end Incron
