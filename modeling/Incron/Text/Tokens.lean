import Incron.Text.StrTok

/-! Tokenizing loses and repeats nothing: the raw tokens, the delimiters that ended them and the
remainder are the source string, and the loop over empty tokens ends on every string. -/
namespace Incron.StringTokenizer

/-- The delimiter between a token and the new position; a token that ends with the string has
none. -/
def endedBy (t : StringTokenizer) (tok : Str) (t' : StringTokenizer) : Option Char :=
  if t.pos + tok.length < t'.pos then t.str[t.pos + tok.length]? else none

/-- `GetNextTokenRaw(false)` at most `n` times while `HasMoreTokens` holds: the tokens with the
delimiters that ended them. -/
def rawCalls : ℕ → StringTokenizer → List (Str × Option Char) × StringTokenizer
  | 0, t => ([], t)
  | n + 1, t =>
    if t.hasMoreTokens then
      let (tok, t') := t.getNextTokenRaw
      ((tok, t.endedBy tok t') :: (rawCalls n t').1, (rawCalls n t').2)
    else ([], t)

def written (calls : List (Str × Option Char)) : Str := calls.flatMap fun c => c.1 ++ c.2.toList

/-- The calls and the remainder make up what was left of the source, each token is followed by
one delimiter, and only the last one may end with the string instead. -/
structure SplitsUp (t : StringTokenizer) (calls : List (Str × Option Char))
    (t' : StringTokenizer) : Prop where
  text : written calls ++ t'.setNoPrefix.getRemainder = t.rest
  pos_le : t'.pos ≤ t'.len
  ended : ∀ l₁ c l₂, calls = l₁ ++ c :: l₂ →
    (∃ d ∈ t.delim, c.2 = some d) ∨ c.2 = none ∧ l₂ = [] ∧ t'.hasMoreTokens = false

/-- The condition of the `do … while` loop of `GetNextToken` and `GetNextTokenRaw`. -/
def again (fSkipEmpty : Bool) (r : Str × StringTokenizer) : Bool :=
  fSkipEmpty && r.1.isEmpty && r.2.hasMoreTokens

/-- The rounds of that loop, as many as it takes. -/
inductive Rounds (fStripPrefix fSkipEmpty : Bool) :
    StringTokenizer → Str × StringTokenizer → Prop
  | last (t : StringTokenizer) (h : again fSkipEmpty (t.nextToken fStripPrefix) = false) :
      Rounds fStripPrefix fSkipEmpty t (t.nextToken fStripPrefix)
  | more (t : StringTokenizer) (r : Str × StringTokenizer)
      (h : again fSkipEmpty (t.nextToken fStripPrefix) = true)
      (hr : Rounds fStripPrefix fSkipEmpty (t.nextToken fStripPrefix).2 r) :
      Rounds fStripPrefix fSkipEmpty t r

/-! ## One call -/

private theorem mem_of_prefStep {cPrefix c : Char} {delim : Str} {pref : Bool}
    (h : prefStep cPrefix c delim pref = none) : c ∈ delim := by
  induction delim generalizing pref with
  | nil => simp [prefStep] at h
  | cons d ds ih =>
    by_cases hd : c = d
    · simp [hd]
    · rw [prefStep, if_neg hd] at h
      apply List.mem_cons_of_mem
      by_cases hc : c = cPrefix
      · rw [if_pos hc] at h
        exact ih h
      · rw [if_neg hc] at h
        exact ih h

/-- A scan stops at a delimiter only. -/
private theorem scanWithPrefix_some {cPrefix : Char} {delim s : Str} {pref : Bool} {i : ℕ}
    (h : scanWithPrefix cPrefix delim pref s = some i) : ∃ d ∈ delim, s[i]? = some d := by
  induction s generalizing pref i with
  | nil => simp [scanWithPrefix] at h
  | cons c s ih =>
    rw [scanWithPrefix] at h
    cases hstep : prefStep cPrefix c delim pref with
    | none =>
      rw [hstep] at h
      obtain rfl := Option.some.inj h
      exact ⟨c, mem_of_prefStep hstep, rfl⟩
    | some pref' =>
      rw [hstep] at h
      obtain ⟨j, hj, rfl⟩ := Option.map_eq_some_iff.mp h
      rw [List.getElem?_cons_succ]
      exact ih hj

private theorem scanNoPrefix_some {delim s : Str} {i : ℕ} (h : scanNoPrefix delim s = some i) :
    ∃ d ∈ delim, s[i]? = some d := by
  obtain ⟨hi, hmem, -⟩ := List.findIdx?_eq_some_iff_getElem.mp h
  exact ⟨s[i], by simpa using hmem, List.getElem?_eq_getElem hi⟩

/-- A raw token ends before a delimiter, which is passed, or with the string. -/
theorem nextToken_false_cases (t : StringTokenizer) :
    (∃ tok d r, d ∈ t.delim ∧ t.rest = tok ++ d :: r ∧
      t.nextToken false = (tok, { t with pos := t.pos + tok.length + 1 })) ∨
    t.nextToken false = (t.rest, { t with pos := t.len }) := by
  have hcut : ∀ o : Option ℕ, (∀ i, o = some i → ∃ d ∈ t.delim, t.rest[i]? = some d) →
      (∃ tok d r, d ∈ t.delim ∧ t.rest = tok ++ d :: r ∧
        t.cut o = (tok, { t with pos := t.pos + tok.length + 1 })) ∨
      t.cut o = (t.rest, { t with pos := t.len }) := by
    intro o ho
    cases o with
    | none => exact .inr rfl
    | some i =>
      obtain ⟨d, hd, hi⟩ := ho i rfl
      obtain ⟨hlt, hget⟩ := List.getElem?_eq_some_iff.mp hi
      have hlen : (t.rest.take i).length = i := List.length_take_of_le (by omega)
      have hsplit : t.rest = t.rest.take i ++ d :: t.rest.drop (i + 1) := by
        rw [← hget, List.getElem_cons_drop, List.take_append_drop]
      refine .inl ⟨t.rest.take i, d, t.rest.drop (i + 1), hd, hsplit, ?_⟩
      rw [cut, hlen]
  by_cases h0 : t.cPrefix = '\x00'
  · have htok : t.nextToken false = t.cut (scanNoPrefix t.delim t.rest) := by
      rw [nextToken, if_pos h0, getNextTokenNoPrefix]
    rw [htok]
    exact hcut _ fun i h => scanNoPrefix_some h
  · have htok : t.nextToken false = t.cut (scanWithPrefix t.cPrefix t.delim false t.rest) := by
      rw [nextToken, if_neg h0, getNextTokenWithPrefix]
      rfl
    rw [htok]
    exact hcut _ fun i h => scanWithPrefix_some h

theorem nextToken_snd (t : StringTokenizer) (fStripPrefix : Bool) :
    (t.nextToken fStripPrefix).2 = (t.nextToken false).2 := by
  unfold nextToken
  split_ifs <;> rfl

/-- What every call does to the position. -/
theorem nextToken_pos (t : StringTokenizer) (fStripPrefix : Bool) (h : t.pos ≤ t.len) :
    (t.nextToken fStripPrefix).2.len = t.len ∧ (t.nextToken fStripPrefix).2.pos ≤ t.len ∧
      (t.hasMoreTokens = true → t.pos < (t.nextToken fStripPrefix).2.pos) := by
  rw [nextToken_snd]
  obtain ⟨tok, d, r, -, hr, htok⟩ | htok := nextToken_false_cases t
  · have hlen := congrArg List.length hr
    rw [rest_length, List.length_append, List.length_cons] at hlen
    rw [htok]
    refine ⟨rfl, ?_, fun _ => ?_⟩
    · show t.pos + tok.length + 1 ≤ t.len
      omega
    · show t.pos < t.pos + tok.length + 1
      omega
  · rw [htok]
    refine ⟨rfl, Nat.le_refl _, fun hmore => ?_⟩
    simpa [hasMoreTokens] using hmore

/-! ## The loop over empty tokens -/

/-- A round that is not the last one leaves less of the string. -/
private theorem rest_length_lt {t : StringTokenizer} {b : Bool}
    (hmore : (t.nextToken b).2.hasMoreTokens = true) :
    (t.nextToken b).2.rest.length < t.rest.length := by
  rw [nextToken_snd] at hmore ⊢
  obtain ⟨tok, d, r, -, hr, htok⟩ | htok := nextToken_false_cases t
  · rw [htok, rest_advance hr, hr, List.length_append, List.length_cons]
    omega
  · rw [htok] at hmore
    simp [hasMoreTokens, len] at hmore

theorem rounds_nextTokenLoop (b skip : Bool) (fuel : ℕ) (t : StringTokenizer)
    (hf : t.rest.length < fuel) : Rounds b skip t (nextTokenLoop b skip fuel t) := by
  induction fuel generalizing t with
  | zero => omega
  | succ fuel ih =>
    have hunfold : nextTokenLoop b skip (fuel + 1) t =
        if again skip (t.nextToken b) then nextTokenLoop b skip fuel (t.nextToken b).2
        else t.nextToken b := rfl
    rw [hunfold]
    cases hagain : again skip (t.nextToken b) with
    | false => exact .last t hagain
    | true =>
      have hmore : (t.nextToken b).2.hasMoreTokens = true := by
        rw [again, Bool.and_eq_true] at hagain
        exact hagain.2
      have hlt := rest_length_lt hmore
      exact .more t _ hagain (ih _ (by omega))

/-- The loop of `GetNextToken` ends on every string. -/
theorem rounds_getNextToken (t : StringTokenizer) (skip : Bool) :
    Rounds true skip t (t.getNextToken skip) := by
  apply rounds_nextTokenLoop true skip
  rw [rest_length]
  omega

/-- The loop ends behind a round that asks for no other one, with the position in range. -/
theorem Rounds.stopped {b skip : Bool} {t : StringTokenizer} {r : Str × StringTokenizer}
    (hr : Rounds b skip t r) (h : t.pos ≤ t.len) :
    again skip r = false ∧ r.2.len = t.len ∧ r.2.pos ≤ t.len := by
  induction hr with
  | last t hagain =>
    obtain ⟨hlen, hle, -⟩ := nextToken_pos t b h
    exact ⟨hagain, hlen, hle⟩
  | more t r hagain hr ih =>
    obtain ⟨hlen, hle, -⟩ := nextToken_pos t b h
    rw [hlen] at ih
    exact ih hle

/-! ## Calls while there are more tokens -/

theorem rawCalls_more {t : StringTokenizer} (h : t.hasMoreTokens = true) (n : ℕ) :
    rawCalls (n + 1) t =
      (((t.nextToken false).1, t.endedBy (t.nextToken false).1 (t.nextToken false).2) ::
        (rawCalls n (t.nextToken false).2).1, (rawCalls n (t.nextToken false).2).2) := by
  rw [rawCalls, if_pos h, getNextTokenRaw_once]

theorem rawCalls_end {t : StringTokenizer} (h : ¬ t.hasMoreTokens = true) (n : ℕ) :
    rawCalls n t = ([], t) := by
  cases n with
  | zero => rfl
  | succ n => rw [rawCalls, if_neg h]

/-- The token, its delimiter and what is left are what was left before. -/
private theorem nextToken_text (t : StringTokenizer) :
    (t.nextToken false).1 ++
        ((t.endedBy (t.nextToken false).1 (t.nextToken false).2).toList ++
          (t.nextToken false).2.rest) = t.rest ∧
      ((∃ d ∈ t.delim, t.endedBy (t.nextToken false).1 (t.nextToken false).2 = some d) ∨
        t.endedBy (t.nextToken false).1 (t.nextToken false).2 = none ∧
          (t.nextToken false).2.hasMoreTokens = false) := by
  obtain ⟨tok, d, r, hd, hr, htok⟩ | htok := nextToken_false_cases t
  · have hget : t.str[t.pos + tok.length]? = some d := by
      rw [← List.getElem?_drop]
      show t.rest[tok.length]? = some d
      rw [hr]
      simp
    have hended : t.endedBy tok { t with pos := t.pos + tok.length + 1 } = some d := by
      rw [endedBy, if_pos (by show t.pos + tok.length < t.pos + tok.length + 1; omega), hget]
    rw [htok]
    simp only [hended]
    exact ⟨by rw [rest_advance hr, hr]; rfl, .inl ⟨d, hd, rfl⟩⟩
  · have hended : t.endedBy t.rest { t with pos := t.len } = none := by
      rw [endedBy, rest_length, if_neg (by show ¬ t.pos + (t.len - t.pos) < t.len; omega)]
    rw [htok]
    simp only [hended]
    exact ⟨by simp [rest, len], .inr ⟨trivial, by simp [hasMoreTokens, len]⟩⟩

theorem nextToken_delim (t : StringTokenizer) : (t.nextToken false).2.delim = t.delim := by
  obtain ⟨tok, d, r, -, -, htok⟩ | htok := nextToken_false_cases t <;> rw [htok]

private theorem SplitsUp.cons {t t' : StringTokenizer} {calls : List (Str × Option Char)}
    (h : SplitsUp (t.nextToken false).2 calls t')
    (hend : (t.nextToken false).2.hasMoreTokens = false →
      calls = [] ∧ t'.hasMoreTokens = false) :
    SplitsUp t
      (((t.nextToken false).1, t.endedBy (t.nextToken false).1 (t.nextToken false).2) :: calls)
      t' := by
  obtain ⟨htext, hended⟩ := nextToken_text t
  refine ⟨?_, h.pos_le, ?_⟩
  · rw [← h.text, ← List.append_assoc, ← List.append_assoc] at htext
    rw [written, List.flatMap_cons, ← htext]
    rfl
  · intro l₁ c l₂ hl
    cases l₁ with
    | nil =>
      obtain ⟨rfl, rfl⟩ := List.cons.inj hl
      rcases hended with hdelim | ⟨hnone, hlast⟩
      · exact .inl hdelim
      · exact .inr ⟨hnone, hend hlast⟩
    | cons c' l₁ =>
      have hsub := h.ended l₁ c l₂ (List.cons.inj hl).2
      rwa [nextToken_delim] at hsub

theorem rawCalls_splitsUp (n : ℕ) (t : StringTokenizer) (h : t.pos ≤ t.len) :
    SplitsUp t (rawCalls n t).1 (rawCalls n t).2 := by
  induction n generalizing t with
  | zero =>
    refine ⟨rfl, h, fun l₁ c l₂ hl => ?_⟩
    simp [rawCalls] at hl
  | succ n ih =>
    by_cases hmore : t.hasMoreTokens = true
    · obtain ⟨hlen, hle, -⟩ := nextToken_pos t false h
      rw [rawCalls_more hmore]
      apply SplitsUp.cons (ih _ (by omega))
      intro hlast
      rw [rawCalls_end (by simp [hlast])]
      exact ⟨rfl, hlast⟩
    · rw [rawCalls_end hmore]
      refine ⟨rfl, h, fun l₁ c l₂ hl => ?_⟩
      simp at hl

/-- As many calls as there are characters use the string up. -/
theorem rawCalls_used_up (n : ℕ) (t : StringTokenizer) (h : t.pos ≤ t.len)
    (hn : t.len ≤ t.pos + n) : (rawCalls n t).2.hasMoreTokens = false := by
  induction n generalizing t with
  | zero =>
    have : ¬ t.pos < t.len := by omega
    rw [rawCalls, hasMoreTokens, decide_eq_false_iff_not]
    exact this
  | succ n ih =>
    by_cases hmore : t.hasMoreTokens = true
    · obtain ⟨hlen, hle, hlt⟩ := nextToken_pos t false h
      have := hlt hmore
      rw [rawCalls_more hmore]
      exact ih _ (by omega) (by omega)
    · rw [rawCalls_end hmore]
      simpa using hmore

/-- The calls of `GetNextTokenRaw(false)` go forward, end, and split the source up without a
loss, and `GetNextToken(true)` ends at every position and gives an empty token only when the
source is used up. -/
theorem tokenizing_lossless (str delim : Str) (cPrefix : Char) :
    let t : StringTokenizer := { str := str, delim := delim, cPrefix := cPrefix }
    (∀ n, SplitsUp t (rawCalls n t).1 (rawCalls n t).2 ∧
      ((rawCalls n t).2.hasMoreTokens = true →
        (rawCalls n t).2.pos < (rawCalls n t).2.getNextTokenRaw.2.pos)) ∧
    (∀ n, str.length ≤ n → (rawCalls n t).2.hasMoreTokens = false) ∧
    ∀ pos ≤ str.length,
      Rounds true true { t with pos := pos } (getNextToken { t with pos := pos } true) ∧
        (getNextToken { t with pos := pos } true).2.pos ≤ str.length ∧
        ((getNextToken { t with pos := pos } true).1 = [] →
          (getNextToken { t with pos := pos } true).2.hasMoreTokens = false) := by
  intro t
  have hstart : t.pos ≤ t.len := Nat.zero_le _
  refine ⟨fun n => ⟨rawCalls_splitsUp n t hstart, ?_⟩, ?_, ?_⟩
  · have hle := (rawCalls_splitsUp n t hstart).pos_le
    rw [getNextTokenRaw_once]
    exact (nextToken_pos _ false hle).2.2
  · intro n hn
    apply rawCalls_used_up n t hstart
    show str.length ≤ 0 + n
    omega
  · intro pos hpos
    have hrounds := rounds_getNextToken { t with pos := pos } true
    obtain ⟨hagain, -, hle⟩ := hrounds.stopped hpos
    refine ⟨hrounds, hle, fun hempty => ?_⟩
    simpa [again, hempty] using hagain

example : (rawCalls 9 { str := ",a\\,b\\".toList, cPrefix := '\\' }).1 =
    [([], some ','), ("a\\,b\\".toList, none)] := by decide

end Incron.StringTokenizer
