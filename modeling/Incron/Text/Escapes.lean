import Incron.Text.StrTok
import Mathlib.Data.List.Count

/-! Escaped delimiters: where a token should end by the documentation of the prefix character
(strtok.h), and where `GetNextTokenRaw` ends it. -/
namespace Incron.StringTokenizer

/-- How many prefix characters stand at the end of a text. -/
def prefixRun (cPrefix : Char) (a : Str) : ℕ := (a.reverse.takeWhile (· = cPrefix)).length

/-- The delimiter at an offset of the remaining text, if one stands there. -/
def delimAt (t : StringTokenizer) (i : ℕ) : Option Char := t.rest[i]?.filter (· ∈ t.delim)

/-- At `i` stands a delimiter behind an even number of prefix characters. -/
def Unescaped (t : StringTokenizer) (i : ℕ) : Prop :=
  (t.delimAt i).isSome ∧ prefixRun t.cPrefix (t.rest.take i) % 2 = 0

def Escaped (t : StringTokenizer) (i : ℕ) : Prop :=
  (t.delimAt i).isSome ∧ prefixRun t.cPrefix (t.rest.take i) % 2 = 1

instance (t : StringTokenizer) (i : ℕ) : Decidable (t.Unescaped i) :=
  inferInstanceAs (Decidable (_ ∧ _))

instance (t : StringTokenizer) (i : ℕ) : Decidable (t.Escaped i) :=
  inferInstanceAs (Decidable (_ ∧ _))

/-- The offset at which the token ends by the documentation. -/
def firstUnescaped (t : StringTokenizer) : Option ℕ :=
  (List.range t.rest.length).find? fun i => t.Unescaped i

/-- The delimiters that the escape flag protects: a prefix is set, the flag is turned an odd
number of times at a prefix character, and the flag is still on when the loop over the
delimiters meets the character, and meets it once only. -/
def Protected (t : StringTokenizer) (i : ℕ) : Prop :=
  t.cPrefix ≠ '\x00' ∧ t.delim.length % 2 = 1 ∧
    ∃ c, t.delimAt i = some c ∧ t.delim.head? = some c ∧ t.delim.count c = 1

/-! ## One character -/

theorem prefixRun_append (cPrefix c : Char) (a : Str) :
    prefixRun cPrefix (a ++ [c]) = if c = cPrefix then prefixRun cPrefix a + 1 else 0 := by
  simp only [prefixRun, List.reverse_append, List.reverse_singleton, List.singleton_append,
    List.takeWhile_cons, decide_eq_true_eq]
  split <;> rfl

private theorem prefStep_false {cPrefix c : Char} (hc : c ≠ cPrefix) (delim : Str) :
    prefStep cPrefix c delim false = if c ∈ delim then none else some false := by
  induction delim with
  | nil => rfl
  | cons d ds ih =>
    by_cases hd : c = d
    · simp [prefStep, hd]
    · simp [prefStep, hd, hc, ih]

/-- At a delimiter the flag is kept only for the first one, and only if it has no double. -/
private theorem prefStep_delim {cPrefix c : Char} (hc : c ≠ cPrefix) {delim : Str}
    (hmem : c ∈ delim) (pref : Bool) :
    prefStep cPrefix c delim pref =
      if pref = true ∧ delim.head? = some c ∧ delim.count c = 1 then some false else none := by
  cases delim with
  | nil => simp at hmem
  | cons d ds =>
    by_cases hd : c = d
    · subst hd
      have hcount : (c :: ds).count c = 1 ↔ c ∉ ds := by
        rw [List.count_cons_self, Nat.add_eq_right, List.count_eq_zero]
      cases pref with
      | false => simp [prefStep]
      | true =>
        simp only [prefStep, if_true, prefStep_false hc, hcount]
        by_cases h : c ∈ ds <;> simp [h]
    · have hds : c ∈ ds := (List.mem_cons.mp hmem).resolve_left hd
      have hhead : (d :: ds).head? ≠ some c := fun h => hd (Option.some.inj h).symm
      simp [prefStep, hd, hc, prefStep_false, hds, Ne.symm hd]

/-- A prefix character turns the flag once for each delimiter. -/
private theorem prefStep_escape {cPrefix : Char} (delim : Str) (hmem : cPrefix ∉ delim)
    (pref : Bool) :
    prefStep cPrefix cPrefix delim pref = some (pref ^^ decide (delim.length % 2 = 1)) := by
  induction delim generalizing pref with
  | nil => simp [prefStep]
  | cons d ds ih =>
    simp only [List.mem_cons, not_or] at hmem
    rw [prefStep, if_neg hmem.1, if_pos rfl, ih hmem.2, List.length_cons]
    rcases Nat.mod_two_eq_zero_or_one ds.length with h | h
    · have h' : (ds.length + 1) % 2 = 1 := by omega
      simp [h, h']
    · have h' : (ds.length + 1) % 2 = 0 := by omega
      simp [h, h']

/-- Any other character turns the flag off. -/
private theorem prefStep_plain {cPrefix c : Char} (hc : c ≠ cPrefix) {delim : Str}
    (hmem : c ∉ delim) {pref : Bool} (hpref : pref = true → delim ≠ []) :
    prefStep cPrefix c delim pref = some false := by
  cases delim with
  | nil =>
    have hoff : pref = false := by simpa using hpref
    rw [prefStep, hoff]
  | cons d ds =>
    simp only [List.mem_cons, not_or] at hmem
    rw [prefStep, if_neg hmem.1, if_neg hc, prefStep_false hc, if_neg hmem.2]

/-! ## The first offset with a property -/

def IsFirst (P : ℕ → Prop) : Option ℕ → Prop
  | some i => P i ∧ ∀ j < i, ¬ P j
  | none => ∀ j, ¬ P j

theorem IsFirst.head {P : ℕ → Prop} (h : P 0) : IsFirst P (some 0) :=
  ⟨h, fun _ hj => absurd hj (Nat.not_lt_zero _)⟩

theorem IsFirst.tail {P : ℕ → Prop} (h : ¬ P 0) {o : Option ℕ}
    (ho : IsFirst (fun k => P (k + 1)) o) : IsFirst P (o.map (· + 1)) := by
  cases o with
  | none =>
    intro j
    cases j with
    | zero => exact h
    | succ j => exact ho j
  | some i =>
    constructor
    · exact ho.1
    · intro j hj
      cases j with
      | zero => exact h
      | succ j => exact ho.2 j (Nat.lt_of_succ_lt_succ hj)

theorem isFirst_find?_range {P : ℕ → Prop} [DecidablePred P] {n : ℕ} (hn : ∀ i, P i → i < n) :
    IsFirst P ((List.range n).find? fun i => P i) := by
  cases h : (List.range n).find? fun i => P i with
  | none =>
    intro j hj
    have hnot := List.find?_range_eq_none.mp h j (hn j hj)
    simp [hj] at hnot
  | some i =>
    obtain ⟨hi, -, hlt⟩ := List.find?_range_eq_some.mp h
    constructor
    · simpa using hi
    · intro j hj
      simpa using hlt j hj

/-- The first offsets of a property and of a weaker one are the same exactly if the weaker one
is not met before the other. -/
theorem isFirst_eq_iff {P Q : ℕ → Prop} (hPQ : ∀ i, P i → Q i) {o o' : Option ℕ}
    (ho : IsFirst P o) (ho' : IsFirst Q o') :
    o' = o ↔ ∀ i, Q i → (∀ j ≤ i, ¬ P j) → False := by
  constructor
  · rintro rfl i hQ hP
    cases o' with
    | none => exact ho' i hQ
    | some k =>
      rcases Nat.lt_or_ge i k with hik | hki
      · exact ho'.2 i hik hQ
      · exact hP k hki ho.1
  · intro h
    cases o' with
    | none =>
      cases o with
      | none => rfl
      | some i => exact absurd (hPQ i ho.1) (ho' i)
    | some i =>
      cases o with
      | none => exact absurd (fun j _ => ho j) (h i ho'.1)
      | some k =>
        have hki : ¬ i < k := fun hik => h i ho'.1 fun j hj => ho.2 j (by omega)
        have hik : ¬ k < i := fun hlt => ho'.2 k hlt (hPQ k ho.1)
        rw [show i = k by omega]

/-! ## The loops over the text -/

/-- Where the loops over the text return: at every delimiter that is not both escaped and
protected. -/
def Stops (t : StringTokenizer) (i : ℕ) : Prop :=
  (t.delimAt i).isSome ∧ ¬ (t.Escaped i ∧ t.Protected i)

section Loops
variable {t : StringTokenizer}

private theorem delimAt_append {a s : Str} {c : Char} (hr : t.rest = a ++ c :: s) :
    t.delimAt a.length = if c ∈ t.delim then some c else none := by
  rw [delimAt, hr, List.getElem?_append_right (Nat.le_of_eq rfl), Nat.sub_self,
    List.getElem?_cons_zero]
  by_cases h : c ∈ t.delim <;> simp [h]

private theorem take_append {a r : Str} (hr : t.rest = a ++ r) : t.rest.take a.length = a := by
  rw [hr, List.take_left]

/-- A delimiter stops the loops unless the escape flag is on and is kept. -/
private theorem stops_length_iff (h0 : t.cPrefix ≠ '\x00') {a s : Str} {c : Char}
    (hr : t.rest = a ++ c :: s) (hc : c ∈ t.delim) : t.Stops a.length ↔
      ¬ ((prefixRun t.cPrefix a % 2 = 1 ∧ t.delim.length % 2 = 1) ∧ t.delim.head? = some c ∧
        t.delim.count c = 1) := by
  have hdelim := delimAt_append hr
  rw [if_pos hc] at hdelim
  have hrun : prefixRun t.cPrefix (t.rest.take a.length) = prefixRun t.cPrefix a := by
    rw [take_append hr]
  simp only [Stops, Escaped, Protected, hdelim, hrun, Option.isSome_some, true_and,
    Option.some.injEq, exists_eq_left', ne_eq, h0, not_false_eq_true, and_assoc]

private theorem scanWithPrefix_first (hp : t.cPrefix ∉ t.delim) (h0 : t.cPrefix ≠ '\x00')
    (a r : Str) (hr : t.rest = a ++ r) (pref : Bool)
    (hpref : pref = true ↔ prefixRun t.cPrefix a % 2 = 1 ∧ t.delim.length % 2 = 1) :
    IsFirst (fun k => t.Stops (a.length + k)) (scanWithPrefix t.cPrefix t.delim pref r) := by
  induction r generalizing a pref with
  | nil =>
    intro k hk
    have hnone : t.rest[a.length + k]? = none := by
      rw [hr, List.append_nil]
      exact List.getElem?_eq_none (by omega)
    simp [Stops, delimAt, hnone] at hk
  | cons c s ih =>
    have hr' : t.rest = (a ++ [c]) ++ s := by simpa using hr
    have hrec := fun pref' h => ih (a ++ [c]) hr' pref' h
    have hshift : ∀ k, (a ++ [c]).length + k = a.length + (k + 1) := by
      intro k
      simp only [List.length_append, List.length_singleton]
      omega
    simp only [hshift, prefixRun_append] at hrec
    simp only [scanWithPrefix]
    by_cases hc : c ∈ t.delim
    · have hcp : c ≠ t.cPrefix := fun h => hp (h ▸ hc)
      have hstops : t.Stops (a.length + 0) ↔ _ := stops_length_iff h0 hr hc
      rw [← hpref] at hstops
      rw [prefStep_delim hcp hc]
      by_cases hkeep : pref = true ∧ t.delim.head? = some c ∧ t.delim.count c = 1
      · rw [if_pos hkeep]
        exact IsFirst.tail (fun h => hstops.mp h hkeep) (hrec false (by simp [hcp]))
      · rw [if_neg hkeep]
        exact IsFirst.head (hstops.mpr hkeep)
    · have hnot : ¬ t.Stops (a.length + 0) := by simp [Stops, delimAt_append hr, hc]
      by_cases hcp : c = t.cPrefix
      · subst hcp
        rw [prefStep_escape _ hp]
        apply IsFirst.tail hnot
        apply hrec
        simp only [if_true]
        cases pref with
        | true =>
          obtain ⟨hodd, hlen⟩ := hpref.mp rfl
          simp [hlen]
          omega
        | false =>
          have h := mt hpref.mpr (by simp)
          simp
          omega
      · have hne : pref = true → t.delim ≠ [] := by
          intro h hnil
          have hlen := (hpref.mp h).2
          simp [hnil] at hlen
        rw [prefStep_plain hcp hc hne]
        exact IsFirst.tail hnot (hrec false (by simp [hcp]))

private theorem scanNoPrefix_first (h0 : t.cPrefix = '\x00') (a r : Str) (hr : t.rest = a ++ r) :
    IsFirst (fun k => t.Stops (a.length + k)) (scanNoPrefix t.delim r) := by
  induction r generalizing a with
  | nil =>
    intro k hk
    have hnone : t.rest[a.length + k]? = none := by
      rw [hr, List.append_nil]
      exact List.getElem?_eq_none (by omega)
    simp [Stops, delimAt, hnone] at hk
  | cons c s ih =>
    have hdelim := delimAt_append hr
    have hrec := ih (a ++ [c]) (by simpa using hr)
    have hshift : ∀ k, (a ++ [c]).length + k = a.length + (k + 1) := by
      intro k
      simp only [List.length_append, List.length_singleton]
      omega
    simp only [hshift] at hrec
    have hprot : ∀ i, ¬ t.Protected i := fun i h => h.1 h0
    rw [scanNoPrefix, List.findIdx?_cons]
    by_cases hc : c ∈ t.delim
    · rw [if_pos (by simpa using hc)]
      exact IsFirst.head ⟨by simp [hdelim, hc], fun h => hprot _ h.2⟩
    · rw [if_neg (by simpa using hc)]
      exact IsFirst.tail (by simp [Stops, hdelim, hc]) hrec

end Loops

/-- The token is cut at the first delimiter at which the loops stop. -/
theorem getNextTokenRaw_cut {t : StringTokenizer} (hp : t.cPrefix ∉ t.delim) :
    ∃ o, IsFirst t.Stops o ∧ t.getNextTokenRaw = t.cut o := by
  by_cases h0 : t.cPrefix = '\x00'
  · refine ⟨scanNoPrefix t.delim t.rest, ?_, ?_⟩
    · simpa using scanNoPrefix_first h0 [] t.rest rfl
    · rw [getNextTokenRaw_once, nextToken, if_pos h0, getNextTokenNoPrefix]
  · refine ⟨scanWithPrefix t.cPrefix t.delim false t.rest, ?_, ?_⟩
    · simpa using scanWithPrefix_first hp h0 [] t.rest rfl false (by simp [prefixRun])
    · rw [getNextTokenRaw_once, nextToken, if_neg h0, getNextTokenWithPrefix]
      rfl

private theorem rest_lt_of_delimAt {t : StringTokenizer} {i : ℕ} (h : (t.delimAt i).isSome) :
    i < t.rest.length := by
  by_contra hlt
  rw [delimAt, List.getElem?_eq_none (Nat.le_of_not_lt hlt)] at h
  simp at h

private theorem cut_inj {t : StringTokenizer} {o o' : Option ℕ}
    (ho : ∀ i, o = some i → i < t.rest.length) (ho' : ∀ i, o' = some i → i < t.rest.length) :
    t.cut o = t.cut o' ↔ o = o' := by
  constructor
  · intro h
    have hlen := congrArg (fun r : Str × StringTokenizer => r.1.length) h
    cases o with
    | none =>
      cases o' with
      | none => rfl
      | some j =>
        have hj := ho' j rfl
        simp only [cut, List.length_take] at hlen
        omega
    | some i =>
      have hi := ho i rfl
      cases o' with
      | none =>
        simp only [cut, List.length_take] at hlen
        omega
      | some j =>
        have hj := ho' j rfl
        simp only [cut, List.length_take] at hlen
        rw [show i = j by omega]
  · rintro rfl
    rfl

private theorem IsFirst.lt {P : ℕ → Prop} {o : Option ℕ} {n : ℕ} (h : IsFirst P o)
    (hn : ∀ i, P i → i < n) : ∀ i, o = some i → i < n := by
  rintro i rfl
  exact hn i h.1

/-- A token ends at the first unescaped delimiter exactly if every escaped delimiter before it
is one that the escape flag protects. -/
theorem getNextTokenRaw_eq_iff (t : StringTokenizer) (hp : t.cPrefix ∉ t.delim) :
    t.getNextTokenRaw = t.cut t.firstUnescaped ↔
      ∀ i, t.Escaped i → (∀ j < i, ¬ t.Unescaped j) → t.Protected i := by
  have hunesc : ∀ i, t.Unescaped i → i < t.rest.length := fun i h => rest_lt_of_delimAt h.1
  have hstops : ∀ i, t.Stops i → i < t.rest.length := fun i h => rest_lt_of_delimAt h.1
  have hweak : ∀ i, t.Unescaped i → t.Stops i := by
    intro i h
    constructor
    · exact h.1
    · intro hesc
      have := h.2
      have := hesc.1.2
      omega
  have hfirst : IsFirst t.Unescaped t.firstUnescaped := isFirst_find?_range hunesc
  obtain ⟨o, ho, hcut⟩ := getNextTokenRaw_cut hp
  rw [hcut, cut_inj (ho.lt hstops) (hfirst.lt hunesc), isFirst_eq_iff hweak hfirst ho]
  constructor
  · intro h i hesc hbefore
    by_contra hprot
    apply h i ⟨hesc.1, fun hboth => hprot hboth.2⟩
    intro j hj hu
    rcases Nat.lt_or_eq_of_le hj with hlt | rfl
    · exact hbefore j hlt hu
    · have := hu.2
      have := hesc.2
      omega
  · intro h i hstop hbefore
    apply hstop.2
    have hesc : t.Escaped i := by
      constructor
      · exact hstop.1
      · have hnot : ¬ prefixRun t.cPrefix (t.rest.take i) % 2 = 0 := fun heven =>
          hbefore i (Nat.le_of_eq rfl) ⟨hstop.1, heven⟩
        omega
    exact ⟨hesc, h i hesc fun j hj => hbefore j (Nat.le_of_lt hj)⟩

/-- One delimiter is always protected. -/
theorem getNextTokenRaw_one_delimiter :
    let t : StringTokenizer := { str := "a\\ b c".toList, delim := [' '], cPrefix := '\\' }
    t.cPrefix ∉ t.delim ∧ (t.getNextTokenRaw = t.cut t.firstUnescaped ↔
      ∀ i, t.Escaped i → (∀ j < i, ¬ t.Unescaped j) → t.Protected i) :=
  ⟨by decide, getNextTokenRaw_eq_iff _ (by decide)⟩

/-- The delimiters and the prefix of a table line: the escaped blank ends the path. -/
theorem getNextTokenRaw_splits_escaped_blank :
    let t : StringTokenizer :=
      { str := "/a\\ b IN_OPEN ls".toList, delim := [' ', '\t'], cPrefix := '\\' }
    t.cPrefix ∉ t.delim ∧ t.delim ≠ [] ∧
      t.cut t.firstUnescaped = ("/a\\ b".toList, { t with pos := 6 }) ∧
      t.getNextTokenRaw = ("/a\\".toList, { t with pos := 4 }) ∧
      t.getNextTokenRaw ≠ t.cut t.firstUnescaped := by
  decide

end Incron.StringTokenizer
