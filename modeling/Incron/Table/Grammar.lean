import Incron.Inotify.MaskCodec
import Incron.Table.Loading

/-! The grammar of table lines without backslashes, and the entries that `IncronTabEntry::Parse`
makes of them. -/
namespace Incron

namespace StringTokenizer

/-- A text is a word between blanks and the rest of the text. -/
theorem exists_word (s : Str) : ∃ lead word tail, s = lead ++ (word ++ tail) ∧
    (∀ c ∈ lead, isBlank c = true) ∧ (∀ c ∈ word, isBlank c = false) ∧
      (tail = [] ∨ word ≠ [] ∧ ∃ b r, tail = b :: r ∧ isBlank b = true) := by
  let s' := s.dropWhile isBlank
  have hs : s = s.takeWhile isBlank ++ s' := (List.takeWhile_append_dropWhile ..).symm
  have hlead : ∀ c ∈ s.takeWhile isBlank, isBlank c = true := fun c hc =>
    List.mem_takeWhile_imp hc
  rcases blank_cases s' with hword | ⟨word, b, r, hsplit, hword, hb⟩
  · exact ⟨_, s', [], by rw [List.append_nil]; exact hs, hlead, hword, .inl rfl⟩
  · refine ⟨_, word, b :: r, by rw [← hsplit]; exact hs, hlead, hword, .inr ⟨?_, b, r, rfl, hb⟩⟩
    rintro rfl
    have hnot := List.head?_dropWhile_not isBlank s
    rw [show s.dropWhile isBlank = b :: r from hsplit] at hnot
    rw [List.head?_cons] at hnot
    exact absurd (hb.symm.trans hnot) (by simp)

/-- A blank in front of a word is a delimiter of its own, which the retry skips. -/
private theorem nextTokenLoop_lead {t : StringTokenizer} (ht : t.OfLine) {b : Char} {r : Str}
    (hb : isBlank b = true) (hrest : t.rest = b :: r) (hr : r ≠ []) (fuel : ℕ) :
    ∃ t' : StringTokenizer, t'.OfLine ∧ t'.rest = r ∧
      nextTokenLoop true true (fuel + 1) t = nextTokenLoop true true fuel t' := by
  obtain ⟨htok, hline, hr'⟩ := nextToken_blank ht [] r b (by simp) hb (by simpa using hrest)
  refine ⟨_, hline, hr', ?_⟩
  have hmore : (t.nextToken true).2.hasMoreTokens = true := by
    rw [hasMoreTokens_iff, hr']
    exact hr
  have hempty : (t.nextToken true).1 = [] := htok
  simp only [nextTokenLoop, hempty, hmore, List.isEmpty_nil, Bool.and_self, if_true]

/-- A word with a blank behind it is the next token. -/
theorem getNextToken_word {t : StringTokenizer} (ht : t.OfLine) {lead word r : Str} {b : Char}
    (hlead : ∀ c ∈ lead, isBlank c = true) (hword : ∀ c ∈ word, isBlank c = false)
    (hne : word ≠ []) (hb : isBlank b = true) (hback : '\\' ∉ word)
    (hrest : t.rest = lead ++ (word ++ b :: r)) :
    ∃ t', t.getNextToken true = (word, t') ∧ t'.OfLine ∧ t'.rest = r := by
  have hstrip : stripPrefix '\\' word = word := stripPrefix_of_not_mem hback
  have hloop : ∀ (fuel : ℕ) (t : StringTokenizer), t.OfLine → lead.length < fuel →
      t.rest = lead ++ (word ++ b :: r) →
        ∃ t', nextTokenLoop true true fuel t = (word, t') ∧ t'.OfLine ∧ t'.rest = r := by
    clear ht hrest
    induction lead with
    | nil =>
      intro fuel t ht hfuel hrest
      obtain ⟨n, rfl⟩ : ∃ n, fuel = n + 1 := ⟨fuel - 1, by simp at hfuel; omega⟩
      obtain ⟨htok, hline, hr⟩ := nextToken_blank ht word r b hword hb hrest
      rw [hstrip] at htok
      refine ⟨_, ?_, hline, hr⟩
      rw [nextTokenLoop_eq_of_stop true n t (.inl (htok ▸ hne)), ← htok]
    | cons c lead ih =>
      intro fuel t ht hfuel hrest
      obtain ⟨n, rfl⟩ : ∃ n, fuel = n + 1 := ⟨fuel - 1, by simp at hfuel; omega⟩
      obtain ⟨t', hline, hr, hloop⟩ :=
        nextTokenLoop_lead ht (hlead c (by simp)) hrest (by simp [hne]) n
      rw [hloop]
      exact ih (fun x hx => hlead x (by simp [hx])) n t' hline (by simp at hfuel; omega) hr
  refine hloop (t.len + 1) t ht ?_ hrest
  have hlen := congrArg List.length hrest
  simp only [List.length_append, rest_length] at hlen
  omega

theorem getNextToken_noMore {t : StringTokenizer} (ht : t.OfLine) {lead word : Str}
    (hlead : ∀ c ∈ lead, isBlank c = true) (hword : ∀ c ∈ word, isBlank c = false)
    (hrest : t.rest = lead ++ word) : (t.getNextToken true).2.hasMoreTokens = false := by
  have hloop : ∀ (fuel : ℕ) (t : StringTokenizer), t.OfLine → lead.length < fuel →
      t.rest = lead ++ word → (nextTokenLoop true true fuel t).2.hasMoreTokens = false := by
    clear ht hrest
    induction lead with
    | nil =>
      intro fuel t ht hfuel hrest
      obtain ⟨n, rfl⟩ : ∃ n, fuel = n + 1 := ⟨fuel - 1, by simp at hfuel; omega⟩
      have hrest : t.rest = word := hrest
      obtain ⟨-, -, hr⟩ := nextToken_last ht (hrest ▸ hword)
      have hstop := hasMoreTokens_of_rest hr
      rw [nextTokenLoop_eq_of_stop true n t (.inr hstop)]
      exact hstop
    | cons c lead ih =>
      intro fuel t ht hfuel hrest
      obtain ⟨n, rfl⟩ : ∃ n, fuel = n + 1 := ⟨fuel - 1, by simp at hfuel; omega⟩
      by_cases hend : lead ++ word = []
      · obtain ⟨-, -, hr⟩ := nextToken_blank ht [] [] c (by simp) (hlead c (by simp))
          (by rw [hrest, List.cons_append, hend]; rfl)
        have hstop := hasMoreTokens_of_rest hr
        rw [nextTokenLoop_eq_of_stop true n t (.inr hstop)]
        exact hstop
      · obtain ⟨t', hline, hr, hloop⟩ := nextTokenLoop_lead ht (hlead c (by simp)) hrest hend n
        rw [hloop]
        exact ih (fun x hx => hlead x (by simp [hx])) n t' hline (by simp at hfuel; omega) hr
  refine hloop (t.len + 1) t ht ?_ hrest
  have hlen := congrArg List.length hrest
  simp only [List.length_append, rest_length] at hlen
  omega

end StringTokenizer

namespace IncronTabEntry
open StringTokenizer InotifyEvent

/-! ## The form of a line -/

/-- Blanks, a path, blanks, a mask field, one blank and a rest. -/
structure TableLine (line P M R : Str) : Prop where
  form : ∃ lead gap b, line = lead ++ (P ++ (gap ++ (M ++ b :: R))) ∧
    (∀ c ∈ lead, isBlank c = true) ∧ gap ≠ [] ∧ (∀ c ∈ gap, isBlank c = true) ∧ isBlank b = true
  path : P ≠ [] ∧ ∀ c ∈ P, isBlank c = false
  mask : M ≠ [] ∧ ∀ c ∈ M, isBlank c = false
  rest : R ≠ []

/-- No comment, and of the form of a line. -/
def Accepted (line : Str) : Prop := line.head? ≠ some '#' ∧ ∃ P M R, TableLine line P M R

theorem parse_of_tableLine {line P M R : Str} (hc : line.head? ≠ some '#') (hback : '\\' ∉ line)
    (h : TableLine line P M R) :
    parse line = .ok (some (parseMask M { path := P, cmd := chomp R })) := by
  obtain ⟨lead, gap, b, hline, hlead, hgap, hblank, hb⟩ := h.form
  obtain ⟨b₁, lead₂, rfl⟩ := List.exists_cons_of_ne_nil hgap
  have hne : line ≠ [] := by
    rw [hline]
    simp [h.path.1]
  have hbackP : '\\' ∉ P := fun hmem => hback (by rw [hline]; simp [hmem])
  have hbackM : '\\' ∉ M := fun hmem => hback (by rw [hline]; simp [hmem])
  obtain ⟨t1, ht1, hl1, hr1⟩ := getNextToken_word (lineTok_ofLine line) hlead h.path.2 h.path.1
    (hblank b₁ (by simp)) hbackP ((lineTok_rest line).trans hline)
  obtain ⟨t2, ht2, -, hr2⟩ := getNextToken_word hl1 (fun c hmem => hblank c (by simp [hmem]))
    h.mask.2 h.mask.1 hb hbackM hr1
  have hm1 : t1.hasMoreTokens = true := by rw [hasMoreTokens_iff, hr1]; simp
  have hm2 : t2.hasMoreTokens = true := by rw [hasMoreTokens_iff, hr2]; exact h.rest
  rw [parse_unfold line hne hc, ht1]
  simp only [ht2, hm1, hm2, hr2, Bool.not_true, Bool.false_eq_true, if_false]

theorem parse_none_or {line : Str} (hne : line ≠ []) (hc : line.head? ≠ some '#')
    (hback : '\\' ∉ line) : parse line = .ok none ∨ ∃ P M R, TableLine line P M R := by
  rw [parse_unfold line hne hc]
  obtain ⟨lead, P, tail, hline, hlead, hP, rfl | ⟨hPne, b₁, rest, rfl, hb₁⟩⟩ := exists_word line
  · left
    rw [List.append_nil] at hline
    have hstop := getNextToken_noMore (lineTok_ofLine line) hlead hP
      ((lineTok_rest line).trans hline)
    rw [hstop]
    rfl
  · have hbackP : '\\' ∉ P := fun hmem => hback (by rw [hline]; simp [hmem])
    obtain ⟨t1, ht1, hl1, hr1⟩ := getNextToken_word (lineTok_ofLine line) hlead hP hPne hb₁ hbackP
      ((lineTok_rest line).trans hline)
    rw [ht1]
    obtain ⟨lead₂, M, tail₂, hrest, hlead₂, hM, rfl | ⟨hMne, b₂, R, rfl, hb₂⟩⟩ := exists_word rest
    · left
      rw [List.append_nil] at hrest
      have hstop := getNextToken_noMore hl1 hlead₂ hM (hr1.trans hrest)
      simp only [hstop, Bool.not_false, if_true]
      split_ifs <;> rfl
    · have hbackM : '\\' ∉ M := fun hmem => hback (by rw [hline, hrest]; simp [hmem])
      obtain ⟨t2, ht2, -, hr2⟩ := getNextToken_word hl1 hlead₂ hM hMne hb₂ hbackM
        (hr1.trans hrest)
      by_cases hR : R = []
      · left
        have hstop := hasMoreTokens_of_rest (hr2.trans hR)
        simp only [ht2, hstop, Bool.not_false, if_true]
        split_ifs <;> rfl
      · right
        refine ⟨P, M, R, ⟨lead, b₁ :: lead₂, b₂, ?_, hlead, by simp, ?_, hb₂⟩, ⟨hPne, hP⟩,
          ⟨hMne, hM⟩, hR⟩
        · rw [hline, hrest, List.cons_append]
        · simp only [List.forall_mem_cons]
          exact ⟨hb₁, hlead₂⟩

/-! ## The mask field -/

/-- The flag that a symbol leaves behind. -/
def loopFlag (noLoop : Bool) (s : Str) : Bool :=
  if s = inNoLoopOld.toList then true else if s = ctLoopable.toList then false else noLoop

/-- The mask and the flags that a field stands for: those of its number, or of its symbols. -/
structure ReadsMask (M : Str) (e : IncronTabEntry) : Prop where
  number : ∀ neg n, Stdio.StartsWithNumber M neg n →
    e.mask = BitVec.ofNat 32 (Stdio.uLongOf neg n) ∧
      e.noLoop = true ∧ e.noRecursion = false ∧ e.dotDirs = false
  symbols : (∀ neg n, ¬ Stdio.StartsWithNumber M neg n) →
    e.mask = orNames (M.splitOn ',') ∧
      e.noLoop = (M.splitOn ',').foldl loopFlag true ∧
      e.noRecursion = decide (ctNoRecursion.toList ∈ M.splitOn ',') ∧
      e.dotDirs = decide (ctDotDirs.toList ∈ M.splitOn ',')

theorem applySymbol_mask (e : IncronTabEntry) (s : Str) :
    (applySymbol e s).mask = e.mask ||| getMaskByName s := by
  -- the symbols of the flags are no names of masks
  have hflags : ∀ name ∈ [inNoLoopOld, ctLoopable, ctNoRecursion, ctDotDirs],
      getMaskByName name.toList = 0 := by decide
  have hkept : ∀ name ∈ [inNoLoopOld, ctLoopable, ctNoRecursion, ctDotDirs],
      e.mask = e.mask ||| getMaskByName name.toList := by
    intro name hname
    rw [hflags name hname]
    exact BitVec.or_zero.symm
  unfold applySymbol
  split_ifs with h1 h2 h3 h4
  · exact h1 ▸ hkept _ (by simp)
  · exact h2 ▸ hkept _ (by simp)
  · exact h3 ▸ hkept _ (by simp)
  · exact h4 ▸ hkept _ (by simp)
  · rfl

theorem applySymbol_flags (e : IncronTabEntry) (s : Str) :
    (applySymbol e s).noLoop = loopFlag e.noLoop s ∧
      (applySymbol e s).noRecursion = (e.noRecursion || decide (s = ctNoRecursion.toList)) ∧
      (applySymbol e s).dotDirs = (e.dotDirs || decide (s = ctDotDirs.toList)) := by
  have hold : inNoLoopOld.toList ≠ ctNoRecursion.toList ∧
      inNoLoopOld.toList ≠ ctDotDirs.toList := by
    decide
  have hloop : ctLoopable.toList ≠ ctNoRecursion.toList ∧ ctLoopable.toList ≠ ctDotDirs.toList := by
    decide
  have hrec : ctNoRecursion.toList ≠ ctDotDirs.toList := by decide
  unfold applySymbol loopFlag
  split_ifs <;> simp_all

theorem foldl_applySymbol (l : List Str) (e : IncronTabEntry) :
    (l.foldl applySymbol e).mask = l.foldl (fun u s => u ||| getMaskByName s) e.mask ∧
      (l.foldl applySymbol e).noLoop = l.foldl loopFlag e.noLoop ∧
      (l.foldl applySymbol e).noRecursion =
        (e.noRecursion || decide (ctNoRecursion.toList ∈ l)) ∧
      (l.foldl applySymbol e).dotDirs = (e.dotDirs || decide (ctDotDirs.toList ∈ l)) := by
  induction l generalizing e with
  | nil => simp
  | cons s l ih =>
    obtain ⟨hmask, hloop, hrec, hdot⟩ := ih (applySymbol e s)
    obtain ⟨hloop', hrec', hdot'⟩ := applySymbol_flags e s
    refine ⟨?_, ?_, ?_, ?_⟩
    · rw [List.foldl_cons, hmask, applySymbol_mask, List.foldl_cons]
    · rw [List.foldl_cons, hloop, hloop', List.foldl_cons]
    · rw [List.foldl_cons, hrec, hrec']
      simp [Bool.or_assoc, eq_comm]
    · rw [List.foldl_cons, hdot, hdot']
      simp [Bool.or_assoc, eq_comm]

/-- The symbols are what stands between the commas. -/
theorem foldl_tokens (M : Str) (e : IncronTabEntry) :
    (tokens { str := M }).foldl applySymbol e = (M.splitOn ',').foldl applySymbol e := by
  have hempty : ∀ e, applySymbol e [] = e := by
    intro e
    have hname : getMaskByName [] = 0 := by decide
    have hmask : e.mask ||| getMaskByName [] = e.mask := by
      rw [hname]
      exact BitVec.or_zero
    change { e with mask := e.mask ||| getMaskByName [] } = e
    rw [hmask]
  rcases tokens_splitOn ',' M with h | h
  · rw [h]
  · rw [h, List.foldl_append, List.foldl_cons, List.foldl_nil, hempty]

theorem readsMask_parseMask {M : Str} (hnul : '\x00' ∉ M) (path cmd : Str) :
    ReadsMask M (parseMask M { path := path, cmd := cmd }) := by
  unfold parseMask
  constructor
  · intro neg n h
    rw [Stdio.scanULong_of_number hnul h]
    exact ⟨rfl, rfl, rfl, rfl⟩
  · intro h
    have hnone : Stdio.scanULong M = none := by
      by_contra hsome
      obtain ⟨neg, n, hnumber⟩ := Stdio.number_of_scanULong hnul hsome
      exact h neg n hnumber
    rw [hnone]
    simp only [foldl_tokens]
    obtain ⟨hmask, hloop, hrec, hdot⟩ := foldl_applySymbol (M.splitOn ',')
      { path := path, cmd := cmd }
    exact ⟨hmask, hloop, hrec.trans (Bool.false_or _), hdot.trans (Bool.false_or _)⟩

/-! ## The grammar -/

def WithoutNewline (R cmd : Str) : Prop :=
  R = cmd ++ ['\n'] ∨ (R.getLast? ≠ some '\n' ∧ cmd = R)

theorem withoutNewline_chomp (R : Str) : WithoutNewline R (chomp R) := by
  unfold chomp
  split_ifs with h
  · obtain ⟨l, rfl⟩ := List.getLast?_eq_some_iff.mp h
    exact .inl (by simp)
  · exact .inr ⟨h, rfl⟩

/-- Exactly the lines of the grammar are accepted, and their fields are the fields of the entry. -/
theorem parse_grammar {line : Str} (hne : line ≠ []) (hback : '\\' ∉ line)
    (hnul : '\x00' ∉ line) :
    ((∃ e, parse line = .ok (some e)) ↔ Accepted line) ∧
      (¬ Accepted line → parse line = .ok none) ∧
      ∀ e P M R, parse line = .ok (some e) → TableLine line P M R →
        e.path = P ∧ WithoutNewline R e.cmd ∧ ReadsMask M e := by
  have hrefused : ¬ Accepted line → parse line = .ok none := by
    intro hnot
    by_cases hc : line.head? = some '#'
    · cases line with
      | nil => exact absurd rfl hne
      | cons c line =>
        obtain rfl := Option.some.inj hc
        rfl
    · refine (parse_none_or hne hc hback).resolve_right fun h => hnot ⟨hc, h⟩
  refine ⟨⟨?_, ?_⟩, hrefused, ?_⟩
  · rintro ⟨e, he⟩
    by_contra hnot
    rw [hrefused hnot] at he
    exact absurd he (by simp)
  · rintro ⟨hc, P, M, R, h⟩
    exact ⟨_, parse_of_tableLine hc hback h⟩
  · intro e P M R he h
    have hc := (parse_some he).1
    rw [parse_of_tableLine hc hback h] at he
    obtain rfl := Option.some.inj (Except.ok.inj he)
    obtain ⟨hpath, hcmd⟩ := parseMask_path M { path := P, cmd := chomp R }
    have hnulM : '\x00' ∉ M := by
      obtain ⟨lead, gap, b, hline, -⟩ := h.form
      exact fun hmem => hnul (by rw [hline]; simp [hmem])
    exact ⟨hpath, hcmd ▸ withoutNewline_chomp R, readsMask_parseMask hnulM P (chomp R)⟩

/-- A line with a flag, an unknown symbol and a command with blanks. -/
def lineOfTmp : Str := "  /tmp\tIN_CREATE,,recursive=false,IN_X ls  $@\n".toList

example : parse lineOfTmp =
    .ok (some { path := "/tmp".toList
                mask := inCreate
                cmd := "ls  $@".toList
                noRecursion := true }) := by
  decide

theorem parse_grammar_tmp : ((∃ e, parse lineOfTmp = .ok (some e)) ↔ Accepted lineOfTmp) ∧
    (¬ Accepted lineOfTmp → parse lineOfTmp = .ok none) ∧
    ∀ e P M R, parse lineOfTmp = .ok (some e) → TableLine lineOfTmp P M R →
      e.path = P ∧ WithoutNewline R e.cmd ∧ ReadsMask M e :=
  parse_grammar (by decide) (by decide) (by decide)

end IncronTabEntry
end Incron
