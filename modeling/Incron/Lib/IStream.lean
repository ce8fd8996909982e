import Mathlib.Data.List.Basic
import Mathlib.Data.List.TakeWhile
import Mathlib.Data.Nat.Notation

/-! Input streams with their state bits, and the functions that read a part of a stream into a
buffer. A text is the list of its characters. -/

/-- What is still to be read, and the bits of `rdstate`. -/
structure IStream where
  rest : List Char
  eofbit : Bool := false
  failbit : Bool := false
  deriving DecidableEq, Repr

namespace IStream

variable (s : IStream) (n : ℕ) (delim : Char)

def good : Bool := !s.eofbit && !s.failbit

/-- The characters that fit into a buffer of size `n`, which are ended by the delimiter. -/
def stored : List Char := (s.rest.take (n - 1)).takeWhile (· ≠ delim)

/-- `getline(buffer, n, delim)`: the delimiter is taken from the stream. -/
def getline (delim : Char := '\n') : List Char × IStream :=
  if !s.good then ([], { s with failbit := true })
  else
    let buffer := s.stored n delim
    match s.rest.drop buffer.length with
    | [] => (buffer, { rest := [], eofbit := true, failbit := buffer.isEmpty })
    | c :: rest =>
      if c = delim then (buffer, { s with rest := rest })
      else (buffer, { s with rest := c :: rest, failbit := true })

/-- `get(buffer, n, delim)`: the delimiter stays in the stream. -/
def get (delim : Char := '\n') : List Char × IStream :=
  if !s.good then ([], { s with failbit := true })
  else
    let buffer := s.stored n delim
    let rest := s.rest.drop buffer.length
    (buffer, { rest := rest, eofbit := rest.isEmpty, failbit := buffer.isEmpty })

def getlines : ℕ → IStream → List (List Char)
  | 0, _ => []
  | fuel + 1, s =>
    if s.good then (s.getline n).1 :: getlines fuel (s.getline n).2 else []

/-- The strings that `while (!is.eof() && !is.fail()) is.getline(buffer, n);` reads. -/
def readLines (text : List Char) : List (List Char) :=
  getlines n (text.length + 1) { rest := text }

variable {n delim} {l r : List Char}

/-! ## One call -/

theorem stored_of_length_lt (h : s.rest.length < n) :
    s.stored n delim = s.rest.takeWhile (· ≠ delim) := by
  rw [stored, List.take_of_length_le (by omega)]

theorem get_of_length_lt (hgood : s.good = true) (h : s.rest.length < n) :
    s.get n delim = (s.rest.takeWhile (· ≠ delim),
      { rest := s.rest.dropWhile (· ≠ delim),
        eofbit := (s.rest.dropWhile (· ≠ delim)).isEmpty,
        failbit := (s.rest.takeWhile (· ≠ delim)).isEmpty }) := by
  have hdrop : s.rest.drop (s.rest.takeWhile (· ≠ delim)).length =
      s.rest.dropWhile (· ≠ delim) := by
    conv_lhs => rw [← List.takeWhile_append_dropWhile (p := (· ≠ delim)) (l := s.rest)]
    exact List.drop_left' (by simp)
  simp only [get, hgood, Bool.not_true, Bool.false_eq_true, if_false, s.stored_of_length_lt h,
    hdrop]

theorem takeWhile_line (hl : delim ∉ l) : (l ++ delim :: r).takeWhile (· ≠ delim) = l := by
  rw [List.takeWhile_append_of_pos fun c hc => by simpa using ne_of_mem_of_not_mem hc hl]
  simp

theorem dropWhile_line (hl : delim ∉ l) :
    (l ++ delim :: r).dropWhile (· ≠ delim) = delim :: r := by
  rw [List.dropWhile_append_of_pos fun c hc => by simpa using ne_of_mem_of_not_mem hc hl]
  simp

theorem takeWhile_last (hl : delim ∉ l) : l.takeWhile (· ≠ delim) = l :=
  List.takeWhile_eq_self_iff.mpr fun c hc => by simpa using ne_of_mem_of_not_mem hc hl

theorem dropWhile_last (hl : delim ∉ l) : l.dropWhile (· ≠ delim) = [] :=
  List.dropWhile_eq_nil_iff.mpr fun c hc => by simpa using ne_of_mem_of_not_mem hc hl

theorem getline_line (hl : delim ∉ l) (h : l.length < n) :
    getline { rest := l ++ delim :: r } n delim = (l, { rest := r }) := by
  have hstored : stored { rest := l ++ delim :: r } n delim = l := by
    obtain ⟨k, hk⟩ : ∃ k, n - 1 = l.length + k := ⟨n - 1 - l.length, by omega⟩
    rw [stored, hk, List.take_length_add_append]
    cases k with
    | zero => simpa using takeWhile_last hl
    | succ k => exact takeWhile_line hl
  simp [getline, good, hstored]

theorem getline_last (hl : delim ∉ l) (h : l.length < n) :
    getline { rest := l } n delim =
      (l, { rest := [], eofbit := true, failbit := l.isEmpty }) := by
  have hstored : stored { rest := l } n delim = l := by
    rw [stored, List.take_of_length_le (by simp; omega), takeWhile_last hl]
  simp [getline, good, hstored]

/-- A line that does not fit is cut, and the stream fails. -/
theorem getline_long (hn : 0 < n) (hl : delim ∉ l) (h : n ≤ l.length) :
    (getline { rest := l ++ r } n delim).1 = l.take (n - 1) ∧
      (getline { rest := l ++ r } n delim).2.failbit = true := by
  have hstored : stored { rest := l ++ r } n delim = l.take (n - 1) := by
    rw [stored, List.take_append_of_le_length (by omega),
      takeWhile_last fun hc => hl (List.mem_of_mem_take hc)]
  have hlen : (l.take (n - 1)).length = n - 1 := by rw [List.length_take]; omega
  have hlt : n - 1 < l.length := by omega
  have hrest : (l ++ r).drop (n - 1) = l[n - 1] :: (l.drop n ++ r) := by
    rw [List.drop_append_of_le_length (by omega), List.drop_eq_getElem_cons hlt,
      Nat.sub_add_cancel hn]
    rfl
  have hne : l[n - 1] ≠ delim := fun hc => hl (hc ▸ List.getElem_mem hlt)
  simp [getline, good, hstored, hlen, hrest, hne]

/-! ## The lines of a text -/

def fits (n : ℕ) (l : List Char) : Bool := l.length < n

/-- The lines as they are up to the first one that does not fit, of which the start is read. -/
theorem getlines_eq (hn : 0 < n) (text : List Char) (fuel : ℕ) (hfuel : text.length < fuel) :
    getlines n fuel { rest := text } =
      (text.splitOn '\n').takeWhile (fits n) ++
        (((text.splitOn '\n').dropWhile (fits n)).head?.map (·.take (n - 1))).toList := by
  have hstop (s : IStream) (hs : s.good = false) (fuel : ℕ) : getlines n fuel s = [] := by
    cases fuel with
    | zero => rfl
    | succ fuel => simp [getlines, hs]
  induction fuel generalizing text with
  | zero => omega
  | succ fuel ih =>
    have hgood : good { rest := text } = true := rfl
    by_cases hmem : '\n' ∈ text
    · obtain ⟨l, r, rfl, hl⟩ := List.eq_append_cons_of_mem hmem
      rw [getlines, if_pos hgood, List.splitOn_append_cons_self_of_not_mem hl]
      by_cases h : l.length < n
      · rw [getline_line hl h, ih r (by simp at hfuel; omega)]
        simp [fits, h]
      · obtain ⟨hbuf, hfail⟩ := getline_long (r := '\n' :: r) hn hl (not_lt.mp h)
        rw [hbuf, hstop _ (by simp [good, hfail])]
        simp [fits, h]
    · rw [getlines, if_pos hgood, List.splitOn_eq_singleton hmem]
      by_cases h : text.length < n
      · rw [getline_last hmem h, hstop _ rfl]
        simp [fits, h]
      · obtain ⟨hbuf, hfail⟩ := getline_long (r := []) hn hmem (not_lt.mp h)
        rw [List.append_nil] at hbuf hfail
        rw [hbuf, hstop _ (by simp [good, hfail])]
        simp [fits, h]

theorem readLines_eq (hn : 0 < n) (text : List Char) :
    readLines n text =
      (text.splitOn '\n').takeWhile (fits n) ++
        (((text.splitOn '\n').dropWhile (fits n)).head?.map (·.take (n - 1))).toList :=
  getlines_eq hn text _ (Nat.lt_succ_self _)

/-- What is read fits into the buffer and lies within one line of the text. -/
structure IsLine (n : ℕ) (text l : List Char) : Prop where
  length_lt : l.length < n
  newline : '\n' ∉ l
  subset : l ⊆ text

theorem mem_getlines (hn : 0 < n) (fuel : ℕ) (s : IStream) :
    ∀ l ∈ getlines n fuel s, IsLine n s.rest l := by
  induction fuel generalizing s with
  | zero => simp [getlines]
  | succ fuel ih =>
    intro l hl
    rw [getlines] at hl
    split_ifs at hl with hgood
    · have hbuf : (s.getline n).1 = s.stored n '\n' := by
        simp only [getline, hgood, Bool.not_true, Bool.false_eq_true, if_false]
        split
        · rfl
        · split_ifs <;> rfl
      have hrest : (s.getline n).2.rest ⊆ s.rest := by
        simp only [getline, hgood, Bool.not_true, Bool.false_eq_true, if_false]
        split
        · exact List.nil_subset _
        · rename_i c rest hdrop
          have hsub := hdrop ▸ List.drop_subset (s.stored n '\n').length s.rest
          split_ifs
          · exact fun d hd => hsub (List.mem_cons_of_mem _ hd)
          · exact hsub
      rcases List.mem_cons.mp hl with rfl | hl
      · rw [hbuf]
        refine ⟨?_, fun h => by simpa using List.mem_takeWhile_imp h, fun c hc => ?_⟩
        · have := (List.takeWhile_sublist (· ≠ '\n') (l := s.rest.take (n - 1))).length_le
          rw [List.length_take] at this
          unfold stored
          omega
        · exact List.mem_of_mem_take ((List.takeWhile_sublist _).subset hc)
      · have h := ih _ l hl
        exact ⟨h.length_lt, h.newline, fun c hc => hrest (h.subset hc)⟩
    · simp at hl

theorem mem_readLines (hn : 0 < n) {text l : List Char} (h : l ∈ readLines n text) :
    IsLine n text l :=
  mem_getlines hn _ _ l h

end IStream
