import Mathlib.Data.List.Basic
import Mathlib.Data.List.TakeWhile
import Mathlib.Data.Nat.Notation

/-! Reading text files through a fixed buffer with `fgets`, C strings and the decimal
conversion of `sscanf`. A file is the list of its characters. -/
namespace Stdio

/-- The first `n` characters of the file, but not beyond the first newline, and the rest. -/
def split : ℕ → List Char → List Char × List Char
  | 0, f => ([], f)
  | _ + 1, [] => ([], [])
  | n + 1, c :: f => if c = '\n' then ([c], f) else ((split n f).map (c :: ·) id)

/-- `fgets(s, size, f)`: the characters put into the buffer, `none` at the end of the file. -/
def fgets (size : ℕ) (f : List Char) : Option (List Char × List Char) :=
  if f = [] then none else some (split (size - 1) f)

def fgetsLoop (size : ℕ) : ℕ → List Char → List (List Char)
  | 0, _ => []
  | fuel + 1, f =>
    match fgets size f with
    | none => []
    | some (s, f') => s :: fgetsLoop size fuel f'

/-- The buffers seen by `while (fgets(s, size, f) != NULL)`. -/
def readAll (size : ℕ) (f : List Char) : List (List Char) := fgetsLoop size f.length f

/-- The buffer read as a C string. -/
def cString (s : List Char) : List Char := s.takeWhile (· ≠ '\x00')

def isSpace (c : Char) : Bool :=
  c = ' ' || c = '\t' || c = '\n' || c = '\x0b' || c = '\x0c' || c = '\r'

def decimal (digits : List Char) : ℕ :=
  digits.foldl (fun n c => 10 * n + (c.toNat - '0'.toNat)) 0

def uLongMax : ℕ := 0xFFFFFFFFFFFFFFFF

/-- `sscanf(s, "%lu", &u)` with 64-bit `unsigned long`; `none` when nothing is converted.
Values out of range give the maximum. -/
def scanULong (s : List Char) : Option ℕ :=
  let s := (cString s).dropWhile isSpace
  let neg := s.head? = some '-'
  let digits := (if neg ∨ s.head? = some '+' then s.tail else s).takeWhile Char.isDigit
  if digits = [] then none
  else if uLongMax < decimal digits then some uLongMax
  else if neg then some ((uLongMax + 1 - decimal digits) % (uLongMax + 1))
  else some (decimal digits)

theorem nul_not_mem_cString (s : List Char) : '\x00' ∉ cString s := by
  intro h
  simpa using List.all_eq_true.mp (List.all_takeWhile (p := (· ≠ '\x00')) (l := s)) _ h

theorem cString_length_le (s : List Char) : (cString s).length ≤ s.length :=
  (List.takeWhile_sublist _).length_le

theorem cString_of_not_mem {s : List Char} (h : '\x00' ∉ s) : cString s = s := by
  induction s with
  | nil => rfl
  | cons c s ih =>
    simp only [List.mem_cons, not_or] at h
    simpa [cString, Ne.symm h.1] using ih h.2

/-! ## One buffer -/

theorem split_append (n : ℕ) (f : List Char) : (split n f).1 ++ (split n f).2 = f := by
  induction n generalizing f with
  | zero => rfl
  | succ n ih =>
    cases f with
    | nil => rfl
    | cons c f =>
      unfold split
      split_ifs
      · rfl
      · simp [ih f]

theorem split_length_le (n : ℕ) (f : List Char) : (split n f).1.length ≤ n := by
  induction n generalizing f with
  | zero => simp [split]
  | succ n ih =>
    cases f with
    | nil => simp [split]
    | cons c f =>
      have := ih f
      unfold split
      split_ifs
      · simp
      · simpa using this

theorem split_ne_nil (n : ℕ) (f : List Char) (hn : 0 < n) (hf : f ≠ []) :
    (split n f).1 ≠ [] := by
  obtain ⟨n, rfl⟩ : ∃ k, n = k + 1 := ⟨n - 1, by omega⟩
  cases f with
  | nil => exact absurd rfl hf
  | cons c f =>
    unfold split
    split_ifs <;> simp

/-- A newline is the last character of its buffer. -/
theorem newline_not_mem_dropLast (n : ℕ) (f : List Char) : '\n' ∉ (split n f).1.dropLast := by
  induction n generalizing f with
  | zero => simp [split]
  | succ n ih =>
    cases f with
    | nil => simp [split]
    | cons c f =>
      unfold split
      split_ifs with hc
      · simp
      · have := ih f
        simp only [Prod.map_fst]
        cases hs : (split n f).1 with
        | nil => simp
        | cons d s =>
          rw [hs] at this
          simpa [List.dropLast_cons_of_ne_nil, Ne.symm hc] using this

/-- A line that fits is read whole, with its newline. -/
theorem split_line (n : ℕ) (l r : List Char) (hl : '\n' ∉ l) (hn : l.length < n) :
    split n (l ++ '\n' :: r) = (l ++ ['\n'], r) := by
  induction l generalizing n with
  | nil =>
    obtain ⟨n, rfl⟩ : ∃ k, n = k + 1 := ⟨n - 1, by simp at hn; omega⟩
    simp [split]
  | cons c l ih =>
    obtain ⟨n, rfl⟩ : ∃ k, n = k + 1 := ⟨n - 1, by simp at hn; omega⟩
    simp only [List.mem_cons, not_or] at hl
    have := ih n hl.2 (by simpa using hn)
    simp [split, Ne.symm hl.1, this]

/-- A longer line is cut where the buffer is full. -/
theorem split_long (n : ℕ) (l r : List Char) (hl : '\n' ∉ l) (hn : n ≤ l.length) :
    split n (l ++ r) = (l.take n, l.drop n ++ r) := by
  induction l generalizing n with
  | nil =>
    obtain rfl : n = 0 := by simpa using hn
    rfl
  | cons c l ih =>
    cases n with
    | zero => rfl
    | succ n =>
      simp only [List.mem_cons, not_or] at hl
      have := ih n hl.2 (by simpa using hn)
      simp [split, Ne.symm hl.1, this]

/-! ## The whole file -/

private theorem fgetsLoop_fuel (size : ℕ) (hs : 2 ≤ size) (f : List Char) (m k : ℕ)
    (hm : f.length ≤ m) (hk : f.length ≤ k) : fgetsLoop size m f = fgetsLoop size k f := by
  induction m generalizing k f with
  | zero =>
    obtain rfl : f = [] := List.eq_nil_of_length_eq_zero (by omega)
    cases k <;> simp [fgetsLoop, fgets]
  | succ m ih =>
    by_cases hf : f = []
    · subst f
      cases k <;> simp [fgetsLoop, fgets]
    · obtain ⟨k, rfl⟩ : ∃ j, k = j + 1 :=
        ⟨k - 1, by have := List.length_pos_iff.mpr hf; omega⟩
      have hpos := List.length_pos_iff.mpr (split_ne_nil (size - 1) f (by omega) hf)
      have hlen := congrArg List.length (split_append (size - 1) f)
      rw [List.length_append] at hlen
      simp only [fgetsLoop, fgets, if_neg hf]
      rw [ih (split (size - 1) f).2 k (by omega) (by omega)]

@[simp] theorem readAll_nil (size : ℕ) : readAll size [] = [] := rfl

theorem readAll_eq (size : ℕ) (hs : 2 ≤ size) (f : List Char) (hf : f ≠ []) :
    readAll size f = (split (size - 1) f).1 :: readAll size (split (size - 1) f).2 := by
  obtain ⟨k, hk⟩ : ∃ k, f.length = k + 1 :=
    ⟨f.length - 1, by have := List.length_pos_iff.mpr hf; omega⟩
  have hpos := List.length_pos_iff.mpr (split_ne_nil (size - 1) f (by omega) hf)
  have hlen := congrArg List.length (split_append (size - 1) f)
  rw [List.length_append] at hlen
  unfold readAll
  rw [hk]
  simp only [fgetsLoop, fgets, if_neg hf]
  rw [fgetsLoop_fuel size hs (split (size - 1) f).2 k (split (size - 1) f).2.length (by omega)
    (Nat.le_refl _)]

theorem readAll_induction {size : ℕ} (hs : 2 ≤ size) {motive : List Char → Prop}
    (nil : motive [])
    (step : ∀ f, f ≠ [] → motive (split (size - 1) f).2 → motive f) (f : List Char) :
    motive f := by
  induction hn : f.length using Nat.strongRecOn generalizing f with
  | ind n ih =>
    by_cases hf : f = []
    · exact hf ▸ nil
    · have hpos := List.length_pos_iff.mpr (split_ne_nil (size - 1) f (by omega) hf)
      have hlen := congrArg List.length (split_append (size - 1) f)
      rw [List.length_append] at hlen
      exact step f hf (ih _ (by omega) _ rfl)

theorem readAll_flatten (size : ℕ) (hs : 2 ≤ size) (f : List Char) :
    (readAll size f).flatten = f := by
  induction f using readAll_induction hs with
  | nil => rfl
  | step f hf ih => rw [readAll_eq size hs f hf, List.flatten_cons, ih, split_append]

/-- The shape of a buffer: not empty, within the size, a newline only at the end, and made of
characters of the file. -/
structure IsBuffer (size : ℕ) (f s : List Char) : Prop where
  ne_nil : s ≠ []
  length_lt : s.length < size
  newline : '\n' ∉ s.dropLast
  subset : ∀ c ∈ s, c ∈ f

theorem readAll_isBuffer (size : ℕ) (hs : 2 ≤ size) (f : List Char) :
    ∀ s ∈ readAll size f, IsBuffer size f s := by
  induction f using readAll_induction hs with
  | nil => simp
  | step f hf ih =>
    rw [readAll_eq size hs f hf]
    have happ := split_append (size - 1) f
    intro s hmem
    rcases List.mem_cons.mp hmem with rfl | hmem
    · refine ⟨split_ne_nil _ f (by omega) hf, ?_, newline_not_mem_dropLast _ f, ?_⟩
      · have := split_length_le (size - 1) f
        omega
      · intro c hc
        rw [← happ]
        exact List.mem_append_left _ hc
    · have h := ih s hmem
      refine ⟨h.ne_nil, h.length_lt, h.newline, ?_⟩
      intro c hc
      rw [← happ]
      exact List.mem_append_right _ (h.subset c hc)

/-- What is appended from the buffers is the text, if no byte ends a buffer early. -/
theorem flatMap_cString_readAll (size : ℕ) (hs : 2 ≤ size) {f : List Char} (hf : '\x00' ∉ f) :
    (readAll size f).flatMap cString = f := by
  have hid : (readAll size f).map cString = (readAll size f).map id :=
    List.map_congr_left fun s hmem =>
      cString_of_not_mem fun hc => hf ((readAll_isBuffer size hs f s hmem).subset _ hc)
  rw [List.flatMap, hid, List.map_id, readAll_flatten size hs]

/-- The buffers of a terminated line are its own: the next line starts a new buffer. -/
theorem readAll_line_append (size : ℕ) (hs : 2 ≤ size) (l r : List Char) (hl : '\n' ∉ l) :
    readAll size (l ++ '\n' :: r) = readAll size (l ++ ['\n']) ++ readAll size r := by
  induction hn : l.length using Nat.strongRecOn generalizing l with
  | ind n ih =>
    rw [readAll_eq size hs (l ++ '\n' :: r) (by simp), readAll_eq size hs (l ++ ['\n']) (by simp)]
    by_cases hlt : l.length < size - 1
    · rw [split_line _ l r hl hlt, split_line _ l [] hl hlt]
      simp
    · have hle : size - 1 ≤ l.length := by omega
      rw [split_long _ l ('\n' :: r) hl hle, split_long _ l ['\n'] hl hle]
      have hdrop : '\n' ∉ l.drop (size - 1) := fun h => hl (List.mem_of_mem_drop h)
      have := ih (l.drop (size - 1)).length (by simp; omega) (l.drop (size - 1)) hdrop rfl
      rw [this, List.cons_append]

/-! ## Lines -/

/-- The lines of a file, each with its newline. -/
def lines : List Char → List (List Char)
  | [] => []
  | c :: f =>
    if c = '\n' then [c] :: lines f
    else
      match lines f with
      | [] => [[c]]
      | l :: ls => (c :: l) :: ls

theorem lines_line_append (l r : List Char) (hl : '\n' ∉ l) :
    lines (l ++ '\n' :: r) = (l ++ ['\n']) :: lines r := by
  induction l with
  | nil => simp [lines]
  | cons c l ih =>
    simp only [List.mem_cons, not_or] at hl
    rw [List.cons_append, lines, if_neg (Ne.symm hl.1), ih hl.2]
    rfl

/-- The last line need not be terminated. -/
theorem lines_last (l : List Char) (hne : l ≠ []) (hl : '\n' ∉ l) : lines l = [l] := by
  induction l with
  | nil => exact absurd rfl hne
  | cons c l ih =>
    simp only [List.mem_cons, not_or] at hl
    rw [lines, if_neg (Ne.symm hl.1)]
    cases l with
    | nil => rfl
    | cons d l => rw [ih (by simp) hl.2]

theorem lines_induction {motive : List Char → Prop} (nil : motive [])
    (last : ∀ l, l ≠ [] → '\n' ∉ l → motive l)
    (line : ∀ l r, '\n' ∉ l → motive r → motive (l ++ '\n' :: r)) (f : List Char) :
    motive f := by
  induction hn : f.length using Nat.strongRecOn generalizing f with
  | ind n ih =>
    by_cases hf : '\n' ∈ f
    · obtain ⟨l, r, rfl, hl⟩ := List.eq_append_cons_of_mem hf
      simp only [List.length_append, List.length_cons] at hn
      exact line l r hl (ih r.length (by omega) r rfl)
    · by_cases hne : f = []
      · exact hne ▸ nil
      · exact last f hne hf

theorem lines_flatten (f : List Char) : (lines f).flatten = f := by
  induction f using lines_induction with
  | nil => rfl
  | last l hne hl => simp [lines_last l hne hl]
  | line l r hl ih => simp [lines_line_append l r hl, ih]

theorem mem_lines {f l : List Char} (h : l ∈ lines f) : l ≠ [] ∧ '\n' ∉ l.dropLast := by
  induction f using lines_induction with
  | nil => simp [lines] at h
  | last f hne hf =>
    rw [lines_last f hne hf, List.mem_singleton] at h
    subst h
    exact ⟨hne, fun hc => hf ((List.dropLast_sublist _).subset hc)⟩
  | line a r ha ih =>
    rw [lines_line_append a r ha, List.mem_cons] at h
    rcases h with rfl | h
    · exact ⟨by simp, by simpa using ha⟩
    · exact ih h

/-- Every line is read through buffers of its own. -/
theorem readAll_lines (size : ℕ) (hs : 2 ≤ size) (f : List Char) :
    readAll size f = (lines f).flatMap (readAll size) := by
  induction f using lines_induction with
  | nil => rfl
  | last l hne hl => rw [lines_last l hne hl, List.flatMap_singleton]
  | line l r hl ih =>
    rw [readAll_line_append size hs l r hl, lines_line_append l r hl, List.flatMap_cons, ih]

private theorem split_eq_take (n : ℕ) (l : List Char) (hl : '\n' ∉ l.dropLast) :
    split n l = (l.take n, l.drop n) := by
  induction n generalizing l with
  | zero => rfl
  | succ n ih =>
    cases l with
    | nil => rfl
    | cons c l =>
      cases l with
      | nil =>
        by_cases hc : c = '\n' <;> cases n <;> simp [split, hc]
      | cons d l =>
        simp only [List.dropLast_cons_cons, List.mem_cons, not_or] at hl
        rw [split, if_neg (Ne.symm hl.1), ih _ hl.2]
        rfl

private theorem newline_drop {l : List Char} (hl : '\n' ∉ l.dropLast) (n : ℕ) :
    '\n' ∉ (l.drop n).dropLast := by
  have hdrop : (l.drop n).dropLast = l.dropLast.drop n := by
    rw [List.dropLast_eq_take, List.dropLast_eq_take, List.drop_take, List.length_drop,
      Nat.sub_right_comm]
  rw [hdrop]
  exact fun h => hl (List.mem_of_mem_drop h)

/-- The `k`-th block of `n` characters. -/
def block (n : ℕ) (l : List Char) (k : ℕ) : List Char := (l.drop (n * k)).take n

theorem mem_readAll_line {n : ℕ} (hn : 0 < n) {l : List Char} (hl : '\n' ∉ l.dropLast)
    {s : List Char} : s ∈ readAll (n + 1) l ↔ ∃ k, n * k < l.length ∧ s = block n l k := by
  induction hlen : l.length using Nat.strongRecOn generalizing l with
  | ind m ih =>
    by_cases hne : l = []
    · subst hne
      simp at hlen
      simp [← hlen]
    · have hpos := List.length_pos_iff.mpr hne
      have hrec := ih (l.drop n).length (by rw [List.length_drop]; omega) (newline_drop hl n) rfl
      have hblock : ∀ k, block n (l.drop n) k = block n l (k + 1) := by
        intro k
        rw [block, block, List.drop_drop, Nat.mul_succ, Nat.add_comm n]
      have hlt : ∀ k, n * k < (l.drop n).length ↔ n * (k + 1) < m := by
        intro k
        rw [List.length_drop, Nat.mul_succ]
        omega
      rw [readAll_eq (n + 1) (by omega) l hne, Nat.add_sub_cancel, split_eq_take _ l hl,
        List.mem_cons, hrec]
      constructor
      · rintro (rfl | ⟨k, hk, rfl⟩)
        · exact ⟨0, by omega, by simp [block]⟩
        · exact ⟨k + 1, (hlt k).mp hk, hblock k⟩
      · rintro ⟨k, hk, rfl⟩
        cases k with
        | zero => exact .inl (by simp [block])
        | succ k => exact .inr ⟨k, (hlt k).mpr hk, (hblock k).symm⟩

/-- A line that fits has one buffer. -/
theorem readAll_short {size : ℕ} (hs : 2 ≤ size) {l : List Char} (hne : l ≠ [])
    (hl : '\n' ∉ l.dropLast) (hlt : l.length < size) : readAll size l = [l] := by
  rw [readAll_eq size hs l hne, split_eq_take _ l hl, List.take_of_length_le (by omega),
    List.drop_eq_nil_of_le (by omega), readAll_nil]

/-- The buffers of a file are its lines exactly if every line fits. -/
theorem readAll_eq_lines_iff {size : ℕ} (hs : 2 ≤ size) (f : List Char) :
    readAll size f = lines f ↔ ∀ l ∈ lines f, l.length < size := by
  constructor
  · intro h l hl
    rw [← h] at hl
    exact (readAll_isBuffer size hs f l hl).length_lt
  · intro h
    rw [readAll_lines size hs f]
    have hone : (lines f).flatMap (readAll size) = (lines f).flatMap fun l => [l] := by
      apply List.flatMap_congr
      intro l hl
      obtain ⟨hne, hnl⟩ := mem_lines hl
      exact readAll_short hs hne hnl (h l hl)
    rw [hone, List.flatMap_singleton']

/-! ## Numbers -/

/-- A decimal number with its sign stands at the beginning of a text, behind white space. -/
def StartsWithNumber (s : List Char) (neg : Bool) (n : ℕ) : Prop :=
  ∃ space sign digits tail, s = space ++ (sign ++ (digits ++ tail)) ∧
    (∀ c ∈ space, isSpace c = true) ∧
    (sign = ['-'] ∧ neg = true ∨ (sign = [] ∨ sign = ['+']) ∧ neg = false) ∧
    digits ≠ [] ∧ (∀ c ∈ digits, c.isDigit = true) ∧ (∀ c ∈ tail.head?, c.isDigit = false) ∧
    n = decimal digits

/-- The value of a number as an `unsigned long`, which is limited to the maximum. -/
def uLongOf (neg : Bool) (n : ℕ) : ℕ :=
  if uLongMax < n then uLongMax
  else if neg then (uLongMax + 1 - n) % (uLongMax + 1)
  else n

theorem not_isSpace_of_isDigit {c : Char} (h : c.isDigit = true) : isSpace c = false := by
  by_contra hno
  rw [Bool.not_eq_false, isSpace] at hno
  simp only [Bool.or_eq_true, decide_eq_true_eq] at hno
  rcases hno with ((((rfl | rfl) | rfl) | rfl) | rfl) | rfl <;> exact absurd h (by decide)

theorem takeWhile_digits {digits tail : List Char} (hdigits : ∀ c ∈ digits, c.isDigit = true)
    (htail : ∀ c ∈ tail.head?, c.isDigit = false) :
    (digits ++ tail).takeWhile Char.isDigit = digits := by
  rw [List.takeWhile_append_of_pos hdigits]
  cases tail with
  | nil => simp
  | cons c tail => simp [htail c rfl]

theorem scanULong_of_number {s : List Char} (hs : '\x00' ∉ s) {neg : Bool} {n : ℕ}
    (h : StartsWithNumber s neg n) : scanULong s = some (uLongOf neg n) := by
  obtain ⟨space, sign, digits, tail, hparts, hspace, hsign, hne, hdigits, htail, rfl⟩ := h
  have htake := takeWhile_digits hdigits htail
  obtain ⟨d, ds, rfl⟩ := List.exists_cons_of_ne_nil hne
  have hd := hdigits d (by simp)
  have hminus : d ≠ '-' := by rintro rfl; exact absurd hd (by decide)
  have hplus : d ≠ '+' := by rintro rfl; exact absurd hd (by decide)
  let signed := sign ++ (d :: ds ++ tail)
  have hdrop : signed.dropWhile isSpace = signed := by
    obtain ⟨rfl, -⟩ | ⟨rfl | rfl, -⟩ := hsign
    · rfl
    · simp [signed, not_isSpace_of_isDigit hd]
    · rfl
  have hneg : signed.head? = some '-' ↔ neg = true := by
    obtain ⟨rfl, rfl⟩ | ⟨rfl | rfl, rfl⟩ := hsign <;> simp [signed, hminus]
  have hunsigned : (if signed.head? = some '-' ∨ signed.head? = some '+' then signed.tail
      else signed) = d :: ds ++ tail := by
    obtain ⟨rfl, rfl⟩ | ⟨rfl | rfl, rfl⟩ := hsign <;> simp [signed, hminus, hplus]
  unfold scanULong
  rw [cString_of_not_mem hs, hparts, List.dropWhile_append_of_pos hspace, hdrop]
  simp only [signed] at hunsigned hneg ⊢
  simp only [hunsigned]
  simp only [htake, hneg, hne, if_false]
  unfold uLongOf
  split_ifs <;> rfl

theorem number_of_scanULong {s : List Char} (hs : '\x00' ∉ s) (h : scanULong s ≠ none) :
    ∃ neg n, StartsWithNumber s neg n := by
  unfold scanULong at h
  rw [cString_of_not_mem hs] at h
  let signed := s.dropWhile isSpace
  let unsigned := if signed.head? = some '-' ∨ signed.head? = some '+' then signed.tail else signed
  have hne : unsigned.takeWhile Char.isDigit ≠ [] := by
    intro hnil
    exact h (if_pos hnil)
  have hspace : ∀ c ∈ s.takeWhile isSpace, isSpace c = true := fun c hc =>
    List.mem_takeWhile_imp hc
  have hdigits : ∀ c ∈ unsigned.takeWhile Char.isDigit, c.isDigit = true := fun c hc =>
    List.mem_takeWhile_imp hc
  have htail : ∀ c ∈ (unsigned.dropWhile Char.isDigit).head?, c.isDigit = false := by
    intro c hc
    have hnot := List.head?_dropWhile_not Char.isDigit unsigned
    rw [hc] at hnot
    exact hnot
  have hs' : s = s.takeWhile isSpace ++ signed := (List.takeWhile_append_dropWhile ..).symm
  have hu : unsigned = unsigned.takeWhile Char.isDigit ++ unsigned.dropWhile Char.isDigit :=
    (List.takeWhile_append_dropWhile ..).symm
  -- the sign that is skipped
  obtain ⟨neg, sign, hsign, hsigned⟩ : ∃ neg sign,
      (sign = ['-'] ∧ neg = true ∨ (sign = [] ∨ sign = ['+']) ∧ neg = false) ∧
        signed = sign ++ unsigned := by
    cases hsigned : signed with
    | nil => exact ⟨false, [], .inr ⟨.inl rfl, rfl⟩, by simp [unsigned, hsigned]⟩
    | cons c t =>
      by_cases hminus : c = '-'
      · exact ⟨true, ['-'], .inl ⟨rfl, rfl⟩, by simp [unsigned, hsigned, hminus]⟩
      · by_cases hplus : c = '+'
        · exact ⟨false, ['+'], .inr ⟨.inr rfl, rfl⟩, by simp [unsigned, hsigned, hplus]⟩
        · exact ⟨false, [], .inr ⟨.inl rfl, rfl⟩, by simp [unsigned, hsigned, hminus, hplus]⟩
  refine ⟨neg, _, s.takeWhile isSpace, sign, _, _, ?_, hspace, hsign, hne, hdigits, htail, rfl⟩
  rw [← hu, ← hsigned]
  exact hs'

end Stdio
