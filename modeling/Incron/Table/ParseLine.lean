import Incron.Table.Entry

/-! What `IncronTabEntry::Parse` makes of a line: two blank-separated fields and a rest.
With the two delimiters of a table line a backslash never escapes a blank. -/
namespace Incron

def isBlank (c : Char) : Bool := c = ' ' || c = '\t'

namespace StringTokenizer

/-- The tokenizer of a table line at some position. -/
structure OfLine (t : StringTokenizer) : Prop where
  delim : t.delim = [' ', '\t']
  cPrefix : t.cPrefix = '\\'

private theorem prefStep_blank (c : Char) :
    prefStep '\\' c [' ', '\t'] false = if isBlank c then none else some false := by
  by_cases h1 : c = ' '
  · simp [prefStep, isBlank, h1]
  by_cases h2 : c = '\t'
  · subst h2; decide
  by_cases h3 : c = '\\'
  · subst h3; decide
  simp [prefStep, isBlank, h1, h2, h3]

/-- The flag is toggled once for each of the two delimiters, so it is never left set. -/
theorem scanWithPrefix_blank (s : Str) :
    scanWithPrefix '\\' [' ', '\t'] false s = s.findIdx? isBlank := by
  induction s with
  | nil => rfl
  | cons c s ih =>
    simp only [scanWithPrefix, prefStep_blank, List.findIdx?_cons]
    cases hb : isBlank c
    · simp [ih]
    · simp

private theorem nextToken_eq {t : StringTokenizer} (ht : t.OfLine) :
    t.nextToken true = (stripPrefix '\\' (t.cut (t.rest.findIdx? isBlank)).1,
      (t.cut (t.rest.findIdx? isBlank)).2) := by
  have hne : ¬ t.cPrefix = '\x00' := by rw [ht.cPrefix]; decide
  rw [nextToken, if_neg hne, getNextTokenWithPrefix, ht.cPrefix, ht.delim, scanWithPrefix_blank]
  rfl

theorem nextToken_blank {t : StringTokenizer} (ht : t.OfLine) (raw r : Str) (b : Char)
    (hraw : ∀ c ∈ raw, isBlank c = false) (hb : isBlank b = true)
    (hrest : t.rest = raw ++ b :: r) :
    (t.nextToken true).1 = stripPrefix '\\' raw ∧ (t.nextToken true).2.OfLine ∧
      (t.nextToken true).2.rest = r := by
  have hidx : (raw ++ b :: r).findIdx? isBlank = some raw.length := by
    rw [List.findIdx?_append, List.findIdx?_eq_none_iff.mpr hraw]
    simp [List.findIdx?_cons, hb]
  have hdrop : t.str.drop (t.pos + raw.length + 1) = r := by
    have hsplit : t.str.drop t.pos = (raw ++ [b]) ++ r := by simpa [rest] using hrest
    have := congrArg (List.drop (raw ++ [b]).length) hsplit
    rw [List.drop_left, List.drop_drop] at this
    simpa [Nat.add_assoc] using this
  rw [nextToken_eq ht, hrest, hidx]
  refine ⟨?_, ⟨ht.delim, ht.cPrefix⟩, hdrop⟩
  simp [cut, hrest]

theorem nextToken_last {t : StringTokenizer} (ht : t.OfLine)
    (hraw : ∀ c ∈ t.rest, isBlank c = false) :
    (t.nextToken true).1 = stripPrefix '\\' t.rest ∧ (t.nextToken true).2.OfLine ∧
      (t.nextToken true).2.rest = [] := by
  rw [nextToken_eq ht, List.findIdx?_eq_none_iff.mpr hraw]
  exact ⟨rfl, ⟨ht.delim, ht.cPrefix⟩, by simp [cut, rest, len]⟩

/-- A text either has no blank or splits at its first one. -/
theorem blank_cases (s : Str) :
    (∀ c ∈ s, isBlank c = false) ∨
      ∃ raw b r, s = raw ++ b :: r ∧ (∀ c ∈ raw, isBlank c = false) ∧ isBlank b = true := by
  cases hfind : s.find? isBlank with
  | none => exact Or.inl (by simpa using hfind)
  | some b =>
    obtain ⟨hb, raw, r, hs, hraw⟩ := List.find?_eq_some_iff_append.mp hfind
    exact Or.inr ⟨raw, b, r, hs, by simpa using hraw, hb⟩

/-- A token with something behind it: some skipped text, a blank-free token that is not
empty once stripped, and one blank. -/
theorem nextTokenLoop_some {t t' : StringTokenizer} {s : Str} (ht : t.OfLine) (fuel : ℕ)
    (hfuel : t.rest.length < fuel) (hs : nextTokenLoop true true fuel t = (s, t'))
    (hmore : t'.rest ≠ []) :
    t'.OfLine ∧ ∃ skipped raw b, t.rest = skipped ++ raw ++ b :: t'.rest ∧
      (∀ c ∈ raw, isBlank c = false) ∧ isBlank b = true ∧ s = stripPrefix '\\' raw ∧ s ≠ [] := by
  induction fuel generalizing t with
  | zero => omega
  | succ fuel ih =>
    rcases blank_cases t.rest with h | ⟨raw, b, r, hrest, hraw, hb⟩
    · obtain ⟨-, -, hr⟩ := nextToken_last ht h
      have hstop := hasMoreTokens_of_rest hr
      rw [nextTokenLoop_eq_of_stop true fuel t (Or.inr hstop)] at hs
      rw [hs] at hr
      exact absurd hr hmore
    · obtain ⟨htok, hline, hr⟩ := nextToken_blank ht raw r b hraw hb hrest
      by_cases hne : (t.nextToken true).1 = []
      · by_cases hr0 : r = []
        · have hstop := hasMoreTokens_of_rest (hr.trans hr0)
          rw [nextTokenLoop_eq_of_stop true fuel t (Or.inr hstop)] at hs
          rw [hs] at hr
          exact absurd (hr.trans hr0) hmore
        · have hcont : (t.nextToken true).2.hasMoreTokens = true := by
            rw [hasMoreTokens_iff, hr]; exact hr0
          have hlen : (t.nextToken true).2.rest.length < fuel := by
            rw [hr]
            have := congrArg List.length hrest
            simp only [List.length_append, List.length_cons] at this
            omega
          simp only [nextTokenLoop, hne, List.isEmpty_nil, hcont, Bool.and_self, if_true] at hs
          obtain ⟨hl, skipped, raw', b', happ, hrest'⟩ := ih hline hlen hs
          rw [hr] at happ
          refine ⟨hl, raw ++ b :: skipped, raw', b', ?_, hrest'⟩
          rw [hrest, happ]
          simp
      · rw [nextTokenLoop_eq_of_stop true fuel t (Or.inl hne)] at hs
        have h1 : (t.nextToken true).1 = s := by rw [hs]
        have h2 : (t.nextToken true).2 = t' := by rw [hs]
        rw [h2] at hline hr
        refine ⟨hline, [], raw, b, ?_, hraw, hb, ?_, ?_⟩
        · rw [hrest, hr]; rfl
        · rw [← h1, htok]
        · rw [← h1]; exact hne

/-- A token that is not empty is returned at once. -/
theorem getNextToken_blank {t : StringTokenizer} (ht : t.OfLine) (raw r : Str) (b : Char)
    (hraw : ∀ c ∈ raw, isBlank c = false) (hb : isBlank b = true)
    (hrest : t.rest = raw ++ b :: r) (hne : stripPrefix '\\' raw ≠ []) :
    ∃ t', t.getNextToken true = (stripPrefix '\\' raw, t') ∧ t'.OfLine ∧ t'.rest = r := by
  obtain ⟨htok, hline, hr⟩ := nextToken_blank ht raw r b hraw hb hrest
  refine ⟨(t.nextToken true).2, ?_, hline, hr⟩
  rw [getNextToken, nextTokenLoop_eq_of_stop true _ t (Or.inl (htok ▸ hne)), ← htok]

theorem mem_of_mem_stripPrefix {p c : Char} {s : Str} (h : c ∈ stripPrefix p s) : c ∈ s := by
  induction s using stripPrefix.induct p with
  | case1 => exact h
  | case2 => simp [stripPrefix] at h
  | case3 d hd => simpa [stripPrefix, hd] using h
  | case4 s ih =>
    simp only [stripPrefix, if_true, List.mem_cons] at h ⊢
    exact h.elim Or.inl fun h => Or.inr (Or.inr (ih h))
  | case5 d s hd ih =>
    simp only [stripPrefix, if_true, if_neg hd] at h
    exact List.mem_cons_of_mem _ (ih h)
  | case6 c' d s hc ih =>
    simp only [stripPrefix, if_neg hc, List.mem_cons] at h ⊢
    exact h.imp id fun h => by simpa using ih h

end StringTokenizer

namespace IncronTabEntry
open StringTokenizer

/-- How `Parse` cuts a line: skipped text, path field, blank, skipped text, mask field, one
blank, and the rest. -/
structure LineCut where
  skip₁ : Str
  raw₁ : Str
  b₁ : Char
  skip₂ : Str
  raw₂ : Str
  b₂ : Char
  rest : Str

namespace LineCut

def line (k : LineCut) : Str :=
  k.skip₁ ++ k.raw₁ ++ k.b₁ :: (k.skip₂ ++ k.raw₂ ++ k.b₂ :: k.rest)

def entry (k : LineCut) : IncronTabEntry :=
  parseMask (stripPrefix '\\' k.raw₂) { path := stripPrefix '\\' k.raw₁, cmd := chomp k.rest }

structure Valid (k : LineCut) : Prop where
  blank₁ : isBlank k.b₁ = true
  blank₂ : isBlank k.b₂ = true
  raw₁ : ∀ c ∈ k.raw₁, isBlank c = false
  raw₂ : ∀ c ∈ k.raw₂, isBlank c = false
  path : stripPrefix '\\' k.raw₁ ≠ []
  mask : stripPrefix '\\' k.raw₂ ≠ []
  rest : k.rest ≠ []

end LineCut

def lineTok (s : Str) : StringTokenizer :=
  { str := s, delim := [' ', '\t'], cPrefix := '\\' }

theorem lineTok_ofLine (s : Str) : (lineTok s).OfLine := ⟨rfl, rfl⟩

theorem lineTok_rest (s : Str) : (lineTok s).rest = s := rfl

theorem parse_unfold (s : Str) (hs : s ≠ []) (hc : s.head? ≠ some '#') :
    parse s =
      if !((lineTok s).getNextToken true).2.hasMoreTokens then .ok none
      else if !(((lineTok s).getNextToken true).2.getNextToken true).2.hasMoreTokens then .ok none
      else .ok (some (parseMask (((lineTok s).getNextToken true).2.getNextToken true).1
        { path := ((lineTok s).getNextToken true).1,
          cmd := chomp (((lineTok s).getNextToken true).2.getNextToken true).2.rest })) := by
  cases s with
  | nil => exact absurd rfl hs
  | cons c s =>
    have hc' : c ≠ '#' := by simpa using hc
    have hmore : (lineTok (c :: s)).hasMoreTokens = true := by
      rw [hasMoreTokens_iff, lineTok_rest]; simp
    simp only [parse, if_neg hc']
    rw [if_neg (by simpa [lineTok] using hmore)]
    rfl

private theorem getNextToken_some {t t' : StringTokenizer} {s : Str} (ht : t.OfLine)
    (hs : t.getNextToken true = (s, t')) (hmore : t'.rest ≠ []) :
    t'.OfLine ∧ ∃ skipped raw b, t.rest = skipped ++ raw ++ b :: t'.rest ∧
      (∀ c ∈ raw, isBlank c = false) ∧ isBlank b = true ∧ s = stripPrefix '\\' raw ∧ s ≠ [] :=
  nextTokenLoop_some ht (t.len + 1) (by rw [rest_length]; omega) hs hmore

/-- Every accepted line is cut into two fields and a rest. -/
theorem parse_some {s : Str} {e : IncronTabEntry} (h : parse s = .ok (some e)) :
    s.head? ≠ some '#' ∧ ∃ k : LineCut, k.Valid ∧ k.line = s ∧ k.entry = e := by
  have hs : s ≠ [] := by
    rintro rfl
    simp [parse] at h
  have hc : s.head? ≠ some '#' := by
    intro hc
    cases s with
    | nil => simp at hc
    | cons c s =>
      have : c = '#' := by simpa using hc
      simp [parse, this] at h
  rw [parse_unfold s hs hc] at h
  refine ⟨hc, ?_⟩
  rcases ht1 : (lineTok s).getNextToken true with ⟨s1, t1⟩
  rcases ht2 : t1.getNextToken true with ⟨s2, t2⟩
  simp only [ht1, ht2] at h
  have h1 : t1.hasMoreTokens = true := by
    by_contra hno
    rw [Bool.not_eq_true] at hno
    simp [hno] at h
  have h2 : t2.hasMoreTokens = true := by
    by_contra hno
    rw [Bool.not_eq_true] at hno
    simp [h1, hno] at h
  simp only [h1, h2, Bool.not_true, Bool.false_eq_true, if_false] at h
  obtain ⟨hl1, skip₁, raw₁, b₁, hr1, hraw1, hb1, hs1, hne1⟩ :=
    getNextToken_some (lineTok_ofLine s) ht1 ((hasMoreTokens_iff t1).mp h1)
  obtain ⟨-, skip₂, raw₂, b₂, hr2, hraw2, hb2, hs2, hne2⟩ :=
    getNextToken_some hl1 ht2 ((hasMoreTokens_iff t2).mp h2)
  refine ⟨⟨skip₁, raw₁, b₁, skip₂, raw₂, b₂, t2.rest⟩, ?_, ?_, ?_⟩
  · exact ⟨hb1, hb2, hraw1, hraw2, hs1 ▸ hne1, hs2 ▸ hne2, (hasMoreTokens_iff t2).mp h2⟩
  · rw [LineCut.line, ← hr2, ← hr1, lineTok_rest]
  · rw [LineCut.entry, ← hs1, ← hs2]
    exact Option.some.inj (Except.ok.inj h)

/-- The mask field has no influence on the other two. -/
theorem parseMask_path (s : Str) (e : IncronTabEntry) :
    (parseMask s e).path = e.path ∧ (parseMask s e).cmd = e.cmd := by
  have hfold : ∀ (l : List Str) (d : IncronTabEntry),
      (l.foldl applySymbol d).path = d.path ∧ (l.foldl applySymbol d).cmd = d.cmd := by
    intro l
    induction l with
    | nil => exact fun d => ⟨rfl, rfl⟩
    | cons s l ih =>
      intro d
      obtain ⟨hp, hc⟩ := ih (applySymbol d s)
      rw [List.foldl_cons, hp, hc]
      unfold applySymbol
      split_ifs <;> exact ⟨rfl, rfl⟩
  unfold parseMask
  split
  · exact ⟨rfl, rfl⟩
  · exact hfold _ e

/-- The path of an accepted line is a word without blanks. -/
theorem parse_path {s : Str} {e : IncronTabEntry} (h : parse s = .ok (some e)) :
    e.path ≠ [] ∧ ∀ c ∈ e.path, isBlank c = false := by
  obtain ⟨-, k, hk, -, rfl⟩ := parse_some h
  rw [LineCut.entry, (parseMask_path _ _).1]
  exact ⟨hk.path, fun c hc => hk.raw₁ c (mem_of_mem_stripPrefix hc)⟩

/-- A line whose fields start at once is parsed into its fields. -/
theorem parse_fields {raw₁ raw₂ r : Str} {b₁ b₂ : Char} (hc : raw₁.head? ≠ some '#')
    (hk : LineCut.Valid ⟨[], raw₁, b₁, [], raw₂, b₂, r⟩) :
    parse (raw₁ ++ b₁ :: (raw₂ ++ b₂ :: r)) =
      .ok (some (LineCut.entry ⟨[], raw₁, b₁, [], raw₂, b₂, r⟩)) := by
  have hne : raw₁ ≠ [] := by
    rintro rfl
    exact hk.path rfl
  obtain ⟨t1, ht1, hl1, hr1⟩ := getNextToken_blank (lineTok_ofLine _) raw₁ (raw₂ ++ b₂ :: r) b₁
    hk.raw₁ hk.blank₁ (lineTok_rest _) hk.path
  obtain ⟨t2, ht2, -, hr2⟩ := getNextToken_blank hl1 raw₂ r b₂ hk.raw₂ hk.blank₂ hr1 hk.mask
  have hm1 : t1.hasMoreTokens = true := by rw [hasMoreTokens_iff, hr1]; simp
  have hm2 : t2.hasMoreTokens = true := by rw [hasMoreTokens_iff, hr2]; exact hk.rest
  rw [parse_unfold _ (by simp) (by cases raw₁ <;> simp_all), ht1]
  simp [ht2, hm1, hm2, hr2, LineCut.entry]

/-- A line with nothing behind its mask field is refused. -/
theorem parse_noRest {raw₁ raw₂ tail : Str} {b₁ : Char} (hc : raw₁.head? ≠ some '#')
    (hb₁ : isBlank b₁ = true) (hraw₁ : ∀ c ∈ raw₁, isBlank c = false)
    (hraw₂ : ∀ c ∈ raw₂, isBlank c = false) (hpath : stripPrefix '\\' raw₁ ≠ [])
    (htail : tail.length ≤ 1) : parse (raw₁ ++ b₁ :: (raw₂ ++ tail)) = .ok none := by
  have hne : raw₁ ≠ [] := by
    rintro rfl
    exact hpath rfl
  obtain ⟨t1, ht1, hl1, hr1⟩ := getNextToken_blank (lineTok_ofLine _) raw₁ (raw₂ ++ tail) b₁
    hraw₁ hb₁ (lineTok_rest _) hpath
  rw [parse_unfold _ (by simp) (by cases raw₁ <;> simp_all), ht1]
  rcases ht2 : t1.getNextToken true with ⟨s2, t2⟩
  have hend : t2.rest = [] := by
    by_contra hmore
    obtain ⟨-, skip, raw, b, hr, -, hb, -⟩ := getNextToken_some hl1 ht2 hmore
    -- the blank `b` has something behind it, so it stands in `raw₂`
    have hmem : b ∈ raw₂ := by
      have hlen := congrArg List.length (hr1.symm.trans hr)
      have hpos := List.length_pos_iff.mpr hmore
      simp only [List.length_append, List.length_cons] at hlen
      have hget := congrArg (fun l : Str => l[(skip ++ raw).length]?) (hr1.symm.trans hr)
      simp only [List.getElem?_append_right (Nat.le_refl _), Nat.sub_self,
        List.getElem?_cons_zero] at hget
      rw [List.getElem?_append_left (by simp only [List.length_append]; omega)] at hget
      exact List.mem_of_getElem? hget
    rw [hraw₂ b hmem] at hb
    exact Bool.false_ne_true hb
  have hm2 := hasMoreTokens_of_rest hend
  cases hm1 : t1.hasMoreTokens <;> simp [hm2]

end IncronTabEntry
end Incron
