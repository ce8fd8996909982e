import Incron.Basic

/-! `StringTokenizer` (strtok.cpp): tokens up to a delimiter, with an optional prefix
character. The position moves through a fixed string. -/
namespace Incron

/-- `cPrefix = '\0'` means that no prefix is set; `m_len` is the length of `str`. -/
structure StringTokenizer where
  str : Str
  delim : Str := [',']
  cPrefix : Char := '\x00'
  pos : ℕ := 0
  deriving DecidableEq, Repr

namespace StringTokenizer

def len (t : StringTokenizer) : ℕ := t.str.length

def rest (t : StringTokenizer) : Str := t.str.drop t.pos

def hasMoreTokens (t : StringTokenizer) : Bool := t.pos < t.len

/-- `StripPrefix`: a doubled prefix gives one, a single one is dropped. -/
def stripPrefix (cPrefix : Char) : Str → Str
  | [] => []
  | [c] => if c = cPrefix then [] else [c]
  | c :: d :: s =>
    if c = cPrefix then
      if d = cPrefix then cPrefix :: stripPrefix cPrefix s
      else stripPrefix cPrefix (d :: s)
    else c :: stripPrefix cPrefix (d :: s)

/-- The inner loop of `_GetNextTokenWithPrefix` at one character: `none` is the `return`
at an unescaped delimiter. The escape flag is updated once for each delimiter. -/
def prefStep (cPrefix c : Char) : Str → Bool → Option Bool
  | [], pref => some pref
  | d :: ds, pref =>
    if c = d then
      if pref then prefStep cPrefix c ds false else none
    else if c = cPrefix then prefStep cPrefix c ds !pref
    else prefStep cPrefix c ds false

/-- The outer loop of `_GetNextTokenWithPrefix`: the offset of the ending delimiter. -/
def scanWithPrefix (cPrefix : Char) (delim : Str) : Bool → Str → Option ℕ
  | _, [] => none
  | pref, c :: s =>
    match prefStep cPrefix c delim pref with
    | none => some 0
    | some pref => (scanWithPrefix cPrefix delim pref s).map (· + 1)

/-- The loops of `_GetNextTokenNoPrefix`. -/
def scanNoPrefix (delim s : Str) : Option ℕ := s.findIdx? (delim.contains ·)

/-- Token and new position from the offset of the delimiter that ends the token. -/
def cut (t : StringTokenizer) : Option ℕ → Str × StringTokenizer
  | some n => (t.rest.take n, { t with pos := t.pos + n + 1 })
  | none => (t.rest, { t with pos := t.len })

def getNextTokenNoPrefix (t : StringTokenizer) : Str × StringTokenizer :=
  t.cut (scanNoPrefix t.delim t.rest)

def getNextTokenWithPrefix (t : StringTokenizer) : Str × StringTokenizer :=
  t.cut (scanWithPrefix t.cPrefix t.delim false t.rest)

def nextToken (t : StringTokenizer) (fStripPrefix : Bool) : Str × StringTokenizer :=
  if t.cPrefix = '\x00' then t.getNextTokenNoPrefix
  else
    let (tok, t') := t.getNextTokenWithPrefix
    (if fStripPrefix then stripPrefix t.cPrefix tok else tok, t')

/-- The `do … while (fSkipEmpty && s.empty() && m_pos < m_len)` of `GetNextToken` and
`GetNextTokenRaw`. -/
def nextTokenLoop (fStripPrefix fSkipEmpty : Bool) :
    ℕ → StringTokenizer → Str × StringTokenizer
  | 0, t => ([], t)
  | fuel + 1, t =>
    let (s, t') := t.nextToken fStripPrefix
    if fSkipEmpty && s.isEmpty && t'.hasMoreTokens then
      nextTokenLoop fStripPrefix fSkipEmpty fuel t'
    else (s, t')

def getNextToken (t : StringTokenizer) (fSkipEmpty : Bool := false) : Str × StringTokenizer :=
  nextTokenLoop true fSkipEmpty (t.len + 1) t

def getNextTokenRaw (t : StringTokenizer) (fSkipEmpty : Bool := false) : Str × StringTokenizer :=
  nextTokenLoop false fSkipEmpty (t.len + 1) t

def setNoPrefix (t : StringTokenizer) : StringTokenizer := { t with cPrefix := '\x00' }

def getRemainder (t : StringTokenizer) : Str :=
  if t.cPrefix = '\x00' then t.rest else stripPrefix t.cPrefix t.rest

/-- The tokens of a `while (HasMoreTokens()) GetNextToken()` loop. -/
def tokensLoop : ℕ → StringTokenizer → List Str
  | 0, _ => []
  | fuel + 1, t =>
    if t.hasMoreTokens then
      let (s, t') := t.getNextToken
      s :: tokensLoop fuel t'
    else []

def tokens (t : StringTokenizer) : List Str := tokensLoop t.len t

/-! ## Progress -/

/-- One token without an empty-token retry. -/
theorem getNextToken_once (t : StringTokenizer) : t.getNextToken = t.nextToken true := by
  simp [getNextToken, nextTokenLoop]

theorem getNextTokenRaw_once (t : StringTokenizer) : t.getNextTokenRaw = t.nextToken false := by
  simp [getNextTokenRaw, nextTokenLoop]

/-- The retry loop needs no more rounds than there are characters left. -/
theorem nextTokenLoop_eq_of_stop (b : Bool) (fuel : ℕ) (t : StringTokenizer)
    (h : (t.nextToken b).1 ≠ [] ∨ (t.nextToken b).2.hasMoreTokens = false) :
    nextTokenLoop b true (fuel + 1) t = t.nextToken b := by
  simp only [nextTokenLoop]
  rcases h with h | h <;> simp [h]

/-! ## Splitting at one delimiter without a prefix -/

private theorem scanNoPrefix_append (d : Char) (s r : Str) (hs : d ∉ s) :
    scanNoPrefix [d] (s ++ d :: r) = some s.length := by
  induction s with
  | nil => simp [scanNoPrefix, List.findIdx?_cons]
  | cons c s ih =>
    simp only [List.mem_cons, not_or] at hs
    have := ih hs.2
    simp_all [scanNoPrefix, List.findIdx?_cons, Ne.symm hs.1]

private theorem scanNoPrefix_none (d : Char) (s : Str) (hs : d ∉ s) :
    scanNoPrefix [d] s = none := by
  simpa [scanNoPrefix] using fun c hc (h : c = d) => hs (h ▸ hc)

theorem rest_length (t : StringTokenizer) : t.rest.length = t.len - t.pos := by
  simp [rest, len]

theorem hasMoreTokens_iff (t : StringTokenizer) : t.hasMoreTokens = true ↔ t.rest ≠ [] := by
  rw [← List.length_pos_iff, rest_length]
  simp only [hasMoreTokens, decide_eq_true_eq]
  omega

theorem hasMoreTokens_of_rest {t : StringTokenizer} (h : t.rest = []) :
    t.hasMoreTokens = false := by
  rw [← Bool.not_eq_true, hasMoreTokens_iff, h]
  simp

/-- Behind a token and its delimiter. -/
theorem rest_advance {t : StringTokenizer} {s r : Str} {d : Char} (hr : t.rest = s ++ d :: r) :
    ({ t with pos := t.pos + s.length + 1 } : StringTokenizer).rest = r := by
  have hdrop : t.str.drop t.pos = (s ++ [d]) ++ r := by simpa [rest] using hr
  have := congrArg (List.drop (s ++ [d]).length) hdrop
  rw [List.drop_left, List.drop_drop] at this
  simpa [rest, Nat.add_assoc, Nat.add_comm] using this

theorem getNextToken_last {t : StringTokenizer} {d : Char} (hdelim : t.delim = [d])
    (hpre : t.cPrefix = '\x00') (hd : d ∉ t.rest) :
    ∃ t' : StringTokenizer, t.getNextToken = (t.rest, t') ∧ t'.rest = [] := by
  have hscan : scanNoPrefix t.delim t.rest = none := by rw [hdelim, scanNoPrefix_none d _ hd]
  refine ⟨{ t with pos := t.len }, ?_, by simp [rest, len]⟩
  rw [getNextToken_once, nextToken, if_pos hpre, getNextTokenNoPrefix, hscan]
  rfl

theorem getNextToken_delim {t : StringTokenizer} {d : Char} (hdelim : t.delim = [d])
    (hpre : t.cPrefix = '\x00') {s r : Str} (hr : t.rest = s ++ d :: r) (hd : d ∉ s) :
    ∃ t' : StringTokenizer, t.getNextToken = (s, t') ∧ t'.delim = [d] ∧ t'.cPrefix = '\x00' ∧
      t'.rest = r := by
  have hscan : scanNoPrefix t.delim t.rest = some s.length := by
    rw [hdelim, hr, scanNoPrefix_append d s _ hd]
  refine ⟨{ t with pos := t.pos + s.length + 1 }, ?_, hdelim, hpre, rest_advance hr⟩
  rw [getNextToken_once, nextToken, if_pos hpre, getNextTokenNoPrefix, hscan, cut, hr,
    List.take_left]

private theorem tokensLoop_end {t : StringTokenizer} (h : t.rest = []) (fuel : ℕ) :
    tokensLoop fuel t = [] := by
  have hm := hasMoreTokens_of_rest h
  cases fuel <;> simp [tokensLoop, hm]

private theorem tokensLoop_more {t : StringTokenizer} (h : t.rest ≠ []) (fuel : ℕ) :
    tokensLoop (fuel + 1) t = t.getNextToken.1 :: tokensLoop fuel t.getNextToken.2 := by
  rw [tokensLoop, if_pos ((hasMoreTokens_iff t).mpr h)]

private theorem tokensLoop_last {t : StringTokenizer} {d : Char} (hdelim : t.delim = [d])
    (hpre : t.cPrefix = '\x00') (hne : t.rest ≠ []) (hd : d ∉ t.rest) (fuel : ℕ) :
    tokensLoop (fuel + 1) t = [t.rest] := by
  obtain ⟨t', htok, hend⟩ := getNextToken_last hdelim hpre hd
  rw [tokensLoop_more hne, htok, tokensLoop_end hend]

private theorem tokensLoop_delim {t : StringTokenizer} {d : Char} (hdelim : t.delim = [d])
    (hpre : t.cPrefix = '\x00') {s r : Str} (hr : t.rest = s ++ d :: r) (hd : d ∉ s)
    (fuel : ℕ) : ∃ t' : StringTokenizer, t'.delim = [d] ∧ t'.cPrefix = '\x00' ∧ t'.rest = r ∧
      tokensLoop (fuel + 1) t = s :: tokensLoop fuel t' := by
  obtain ⟨t', htok, hdelim', hpre', htail⟩ := getNextToken_delim hdelim hpre hr hd
  refine ⟨t', hdelim', hpre', htail, ?_⟩
  rw [tokensLoop_more (by rw [hr]; simp), htok]

private theorem tokensLoop_joined (d : Char) (l : List Str) (hne : ∀ s ∈ l, s ≠ [])
    (hd : ∀ s ∈ l, d ∉ s) (t : StringTokenizer) (hdelim : t.delim = [d])
    (hpre : t.cPrefix = '\x00') (hr : t.rest = [d].intercalate l) (fuel : ℕ)
    (hf : t.rest.length ≤ fuel) : tokensLoop fuel t = l := by
  induction l generalizing t fuel with
  | nil => exact tokensLoop_end (by simpa using hr) fuel
  | cons s l ih =>
    have hsne := hne s (by simp)
    have hrne : t.rest ≠ [] := by
      rw [hr]; cases l <;> simp [hsne]
    obtain ⟨fuel, rfl⟩ : ∃ n, fuel = n + 1 := by
      have := List.length_pos_iff.mpr hrne
      exact ⟨fuel - 1, by omega⟩
    cases l with
    | nil =>
      rw [List.intercalate_singleton] at hr
      rw [tokensLoop_last hdelim hpre hrne (hr ▸ hd s (by simp)), hr]
    | cons s' l =>
      rw [List.intercalate_cons_cons] at hr
      have hr' : t.rest = s ++ d :: [d].intercalate (s' :: l) := by simpa using hr
      obtain ⟨t', hdelim', hpre', htail, hloop⟩ :=
        tokensLoop_delim hdelim hpre hr' (hd s (by simp)) fuel
      have hlen : ([d].intercalate (s' :: l)).length ≤ fuel := by
        rw [hr'] at hf
        simp only [List.length_append, List.length_cons] at hf
        omega
      rw [hloop, ih (fun x hx => hne x (by simp [hx])) (fun x hx => hd x (by simp [hx])) t'
        hdelim' hpre' htail fuel (htail ▸ hlen)]

/-- Splitting a joined list of non-empty pieces at the delimiter gives the list back. -/
theorem tokens_joined (d : Char) (l : List Str) (hne : ∀ s ∈ l, s ≠ []) (hd : ∀ s ∈ l, d ∉ s) :
    tokens { str := [d].intercalate l, delim := [d] } = l := by
  apply tokensLoop_joined d l hne hd _ rfl rfl rfl
  simp [rest, len]

/-- The tokens are the pieces between the delimiters; an empty piece at the end is left out. -/
theorem tokens_splitOn (d : Char) (s : Str) :
    s.splitOn d = tokens { str := s, delim := [d] } ∨
      s.splitOn d = tokens { str := s, delim := [d] } ++ [[]] := by
  have hloop : ∀ (fuel : ℕ) (t : StringTokenizer), t.delim = [d] → t.cPrefix = '\x00' →
      t.rest.length ≤ fuel → t.rest.splitOn d = tokensLoop fuel t ∨
        t.rest.splitOn d = tokensLoop fuel t ++ [[]] := by
    intro fuel
    induction fuel with
    | zero =>
      intro t _ _ hf
      have hend := List.eq_nil_of_length_eq_zero (Nat.le_zero.mp hf)
      rw [hend, List.splitOn_nil]
      exact .inr rfl
    | succ fuel ih =>
      intro t hdelim hpre hf
      by_cases hend : t.rest = []
      · rw [hend, tokensLoop_end hend, List.splitOn_nil]
        exact .inr rfl
      · by_cases hd : d ∈ t.rest
        · obtain ⟨l, r, hr, hl⟩ := List.eq_append_cons_of_mem hd
          obtain ⟨t', hdelim', hpre', htail, hloop⟩ := tokensLoop_delim hdelim hpre hr hl fuel
          have hlen : r.length ≤ fuel := by
            rw [hr] at hf
            simp only [List.length_append, List.length_cons] at hf
            omega
          have hrest := ih t' hdelim' hpre' (htail ▸ hlen)
          rw [htail] at hrest
          rw [hr, hloop, List.splitOn_append_cons_self, List.splitOn_eq_singleton hl]
          exact hrest.imp (fun h => by rw [h]; rfl) fun h => by rw [h]; rfl
        · rw [tokensLoop_last hdelim hpre hend hd, List.splitOn_eq_singleton hd]
          exact .inl rfl
  have hstart : ({ str := s, delim := [d] } : StringTokenizer).rest = s := rfl
  have hsplit := hloop s.length { str := s, delim := [d] } rfl rfl (Nat.le_of_eq (by rw [hstart]))
  rwa [hstart] at hsplit

end StringTokenizer
end Incron
