import Mathlib.Data.List.Basic
import Mathlib.Data.List.Count
import Mathlib.Data.Nat.Notation

/-! Lexical syntax of a shell: blanks, operators, expansions, globs, comments and quoting.
A text is read character by character into words and operators. -/
namespace Shell

/-- The special characters besides blanks, backslash and quotes. -/
structure Lexicon where
  operator : Char → Bool
  expansion : Char → Bool
  glob : Char → Bool
  /-- Whether `#` at the start of a word starts a comment. -/
  comment : Bool

/-- A character of a word: itself, or the place of an expansion or a pattern. -/
inductive Piece where
  | lit (c : Char)
  | active (c : Char)
  deriving DecidableEq, Repr

/-- `glued` tells an operator that follows a word without a blank (`2>`). -/
inductive Token where
  | word (w : List Piece)
  | op (c : Char) (glued : Bool)
  deriving DecidableEq, Repr

inductive Mode where
  | plain | escaped | single | double | doubleEscaped | comment
  deriving DecidableEq, Repr

structure State where
  tokens : List Token := []
  /-- The word that is being read. -/
  cur : Option (List Piece) := none
  mode : Mode := .plain
  deriving DecidableEq, Repr

def isBlank (c : Char) : Bool := c = ' ' || c = '\t'

namespace State

def word (s : State) : List Piece := s.cur.getD []

def push (s : State) (p : Piece) : State := { s with cur := some (s.word ++ [p]) }

def setMode (s : State) (m : Mode) : State := { s with mode := m }

/-- A quote starts a word, even an empty one. -/
def quote (s : State) (m : Mode) : State := { s with cur := some s.word, mode := m }

def close (s : State) : State :=
  match s.cur with
  | none => s
  | some w => { s with tokens := s.tokens ++ [.word w], cur := none }

def operator (s : State) (c : Char) : State :=
  { s.close with tokens := s.close.tokens ++ [.op c s.cur.isSome] }

def literal (s : State) (l : List Char) : State := l.foldl (fun s c => s.push (.lit c)) s

end State

section Lexing
variable (L : Lexicon)

/-- One character outside quotes. -/
def plainStep (s : State) (c : Char) : State :=
  if c = '\\' then s.setMode .escaped
  else if c = '\'' then s.quote .single
  else if c = '"' then s.quote .double
  else if isBlank c then s.close
  else if L.operator c then s.operator c
  else if L.comment && c = '#' && s.cur.isNone then s.setMode .comment
  else if L.expansion c || L.glob c then s.push (.active c)
  else s.push (.lit c)

/-- One character. An escaped newline vanishes; in double quotes the backslash stays before
a character without a meaning there. -/
def step (s : State) (c : Char) : State :=
  match s.mode with
  | .plain => plainStep L s c
  | .escaped => if c = '\n' then s.setMode .plain else (s.push (.lit c)).setMode .plain
  | .single => if c = '\'' then s.setMode .plain else s.push (.lit c)
  | .double =>
    if c = '"' then s.setMode .plain
    else if c = '\\' then s.setMode .doubleEscaped
    else if L.expansion c then s.push (.active c)
    else s.push (.lit c)
  | .doubleEscaped =>
    if c = '\n' then s.setMode .double
    else if c = '"' || c = '\\' || L.expansion c then (s.push (.lit c)).setMode .double
    else ((s.push (.lit '\\')).push (.lit c)).setMode .double
  | .comment => if c = '\n' then plainStep L (s.setMode .plain) c else s

def run (s : State) (l : List Char) : State := l.foldl (step L) s

/-- The tokens at the end of the text, `none` inside quotes. -/
def finish (s : State) : Option (List Token) :=
  match s.mode with
  | .plain | .comment => some s.close.tokens
  | .escaped => some (s.push (.lit '\\')).close.tokens
  | .single | .double | .doubleEscaped => none

def lex (l : List Char) : Option (List Token) := finish (run L {} l)

/-- A character that stands for itself outside quotes, except for `#` at the start of a
word. -/
def Ordinary (c : Char) : Prop :=
  c ≠ '\\' ∧ c ≠ '\'' ∧ c ≠ '"' ∧ isBlank c = false ∧ L.operator c = false ∧
    L.expansion c = false ∧ L.glob c = false

instance : DecidablePred (Ordinary L) := fun _ => inferInstanceAs (Decidable (_ ∧ _))

theorem finish_single {s : State} (h : s.mode = .single) : finish s = none := by
  simp only [finish, h]

theorem finish_double {s : State} (h : s.mode = .double) : finish s = none := by
  simp only [finish, h]

theorem finish_comment {s : State} (h : s.mode = .comment) : finish s = some s.close.tokens := by
  simp only [finish, h]

/-- A text that is read as one literal word. -/
def PlainText (l : List Char) : Prop :=
  (∀ c ∈ l, Ordinary L c) ∧ (L.comment = false ∨ l.head? ≠ some '#')

instance (l : List Char) : Decidable (PlainText L l) :=
  @instDecidableAnd _ _ (List.decidableBAll (Ordinary L) l) inferInstance

@[simp] theorem run_nil (s : State) : run L s [] = s := rfl

@[simp] theorem run_cons (s : State) (c : Char) (l : List Char) :
    run L s (c :: l) = run L (step L s c) l := rfl

theorem run_append (s : State) (l l' : List Char) : run L s (l ++ l') = run L (run L s l) l' :=
  List.foldl_append

end Lexing

namespace State

@[simp] theorem push_mode (s : State) (p : Piece) : (s.push p).mode = s.mode := rfl

@[simp] theorem push_tokens (s : State) (p : Piece) : (s.push p).tokens = s.tokens := rfl

@[simp] theorem setMode_mode (s : State) (m : Mode) : (s.setMode m).mode = m := rfl

@[simp] theorem push_cur (s : State) (p : Piece) : (s.push p).cur = some (s.word ++ [p]) := rfl

@[simp] theorem close_mode (s : State) : s.close.mode = s.mode := by
  unfold close
  split <;> rfl

@[simp] theorem literal_nil (s : State) : s.literal [] = s := rfl

@[simp] theorem literal_cons (s : State) (c : Char) (l : List Char) :
    s.literal (c :: l) = (s.push (.lit c)).literal l := rfl

@[simp] theorem literal_mode (s : State) (l : List Char) : (s.literal l).mode = s.mode := by
  induction l generalizing s with
  | nil => rfl
  | cons c l ih => rw [literal_cons, ih, push_mode]

@[simp] theorem literal_tokens (s : State) (l : List Char) :
    (s.literal l).tokens = s.tokens := by
  induction l generalizing s with
  | nil => rfl
  | cons c l ih => rw [literal_cons, ih, push_tokens]

theorem literal_cur (s : State) (l : List Char) (hl : l ≠ []) :
    (s.literal l).cur = some (s.word ++ l.map .lit) := by
  induction l generalizing s with
  | nil => exact absurd rfl hl
  | cons c l ih =>
    rw [literal_cons]
    cases l with
    | nil => simp
    | cons d l => rw [ih _ (by simp)]; simp [word]

end State

/-! ## Ordinary text -/

theorem step_ordinary {L : Lexicon} {s : State} {c : Char} (hc : Ordinary L c)
    (hs : s.mode = .plain) (hcom : L.comment = false ∨ c ≠ '#' ∨ s.cur ≠ none) :
    step L s c = s.push (.lit c) := by
  obtain ⟨h1, h2, h3, h4, h5, h6, h7⟩ := hc
  have hcom' : (L.comment && decide (c = '#') && s.cur.isNone) = false := by
    rcases hcom with h | h | h
    · simp [h]
    · simp [h]
    · cases hcur : s.cur with
      | none => exact absurd hcur h
      | some w => simp
  simp [step, hs, plainStep, h1, h2, h3, h4, h5, hcom', h6, h7]

/-- Ordinary text is read as it stands. -/
theorem run_ordinary {L : Lexicon} {s : State} {l : List Char} (hl : ∀ c ∈ l, Ordinary L c)
    (hs : s.mode = .plain) (hcom : L.comment = false ∨ l.head? ≠ some '#' ∨ s.cur ≠ none) :
    run L s l = s.literal l := by
  induction l generalizing s with
  | nil => rfl
  | cons c l ih =>
    have hc : L.comment = false ∨ c ≠ '#' ∨ s.cur ≠ none := by simpa using hcom
    rw [run_cons, step_ordinary (hl c (by simp)) hs hc, State.literal_cons]
    exact ih (fun d hd => hl d (by simp [hd])) (by simpa using hs) (by simp)

/-- Between two tokens. -/
def State.between (ts : List Token) : State := { tokens := ts }

def literalWord (w : List Char) : Token := .word (w.map .lit)

section Words
variable {L : Lexicon} (ts : List Token) {w : List Char}

theorem step_blank {s : State} (hs : s.mode = .plain) : step L s ' ' = s.close := by
  simp [step, hs, plainStep, isBlank]

private theorem literal_between (hne : w ≠ []) :
    ((State.between ts).literal w).cur = some (w.map .lit) := by
  rw [State.literal_cur _ _ hne]
  rfl

theorem run_between (hw : PlainText L w) :
    run L (.between ts) w = (State.between ts).literal w :=
  run_ordinary hw.1 rfl (hw.2.imp id Or.inl)

/-- An ordinary word and the blank behind it. -/
theorem run_word (hw : PlainText L w) (hne : w ≠ []) :
    run L (.between ts) (w ++ [' ']) = .between (ts ++ [literalWord w]) := by
  rw [run_append, run_between ts hw, run_cons, run_nil, step_blank (by simp [State.between]),
    State.close, literal_between ts hne]
  simp [State.between, literalWord]

theorem run_single {s : State} (hs : s.mode = .single) (hw : '\'' ∉ w) :
    run L s w = s.literal w := by
  induction w generalizing s with
  | nil => rfl
  | cons c w ih =>
    simp only [List.mem_cons, not_or] at hw
    have hstep : step L s c = s.push (.lit c) := by simp [step, hs, Ne.symm hw.1]
    rw [run_cons, hstep, State.literal_cons]
    exact ih (by simpa using hs) hw.2

/-- A word in single quotes and the blank behind it. -/
theorem run_quoted (hne : w ≠ []) (hw : '\'' ∉ w) :
    run L (.between ts) ('\'' :: (w ++ ['\'', ' '])) = .between (ts ++ [literalWord w]) := by
  have hquote : step L (.between ts) '\'' = (State.between ts).quote .single := by
    simp [step, State.between, plainStep]
  have hend : step L (((State.between ts).quote .single).literal w) '\'' =
      (((State.between ts).quote .single).literal w).setMode .plain := by
    simp [step, State.quote]
  rw [run_cons, hquote, run_append, run_single rfl hw, run_cons, hend, run_cons, run_nil,
    step_blank rfl]
  simp only [State.close, State.setMode, State.literal_cur _ _ hne, State.literal_tokens]
  rfl

theorem mode_run_single {s : State} (hs : s.mode = .single) (hw : '\'' ∉ w) :
    (run L s w).mode = .single := by
  rw [run_single hs hw, State.literal_mode, hs]

theorem mode_run_double {s : State} (hs : s.mode = .double) (hq : '"' ∉ w) (hb : '\\' ∉ w) :
    (run L s w).mode = .double := by
  induction w generalizing s with
  | nil => exact hs
  | cons c w ih =>
    simp only [List.mem_cons, not_or] at hq hb
    refine ih ?_ hq.2 hb.2
    simp only [step, hs, if_neg (Ne.symm hq.1), if_neg (Ne.symm hb.1)]
    split_ifs <;> exact hs

/-- A quoted part within quotes leaves the part itself unquoted. -/
theorem mode_run_requoted {s : State} {a b c : List Char} (hs : s.mode = .single)
    (ha : '\'' ∉ a) (hb : PlainText L b) (hc : '\'' ∉ c) :
    (run L s (a ++ '\'' :: (b ++ '\'' :: c))).mode = .single := by
  have hclose : (step L (s.literal a) '\'').mode = .plain := by simp [step, hs]
  have hopen : ∀ s : State, s.mode = .plain → (step L s '\'').mode = .single := by
    intro s hs
    simp [step, hs, plainStep, State.quote]
  rw [run_append, run_single hs ha, run_cons, run_append,
    run_ordinary hb.1 hclose (hb.2.imp id Or.inl), run_cons]
  exact mode_run_single (hopen _ (by rw [State.literal_mode, hclose])) hc

theorem run_comment {s : State} (hs : s.mode = .comment) (hw : '\n' ∉ w) : run L s w = s := by
  induction w generalizing s with
  | nil => rfl
  | cons c w ih =>
    simp only [List.mem_cons, not_or] at hw
    have hstep : step L s c = s := by simp [step, hs, Ne.symm hw.1]
    rw [run_cons, hstep, ih hs hw.2]

end Words

/-! ## What a state has read

Every character adds at most one literal of its own, so text that loses one of its
characters cannot make up for it. -/

def Token.pieces : Token → List Piece
  | .word w => w
  | .op _ _ => []

namespace State

def pieces (s : State) : List Piece := s.tokens.flatMap Token.pieces ++ s.word

@[simp] theorem pieces_push (s : State) (p : Piece) : (s.push p).pieces = s.pieces ++ [p] := by
  simp [pieces, push, word]

theorem pieces_literal (s : State) (l : List Char) :
    (s.literal l).pieces = s.pieces ++ l.map .lit := by
  induction l generalizing s with
  | nil => simp
  | cons c l ih => rw [literal_cons, ih, pieces_push]; simp

@[simp] theorem pieces_close (s : State) : s.close.pieces = s.pieces := by
  unfold close
  split
  · rfl
  · next w hw => simp [pieces, word, hw, Token.pieces]

@[simp] theorem pieces_setMode (s : State) (m : Mode) : (s.setMode m).pieces = s.pieces := rfl

@[simp] theorem pieces_operator (s : State) (c : Char) :
    (s.operator c).pieces = s.pieces := by
  rw [← pieces_close s]
  simp [operator, pieces, word, Token.pieces]

end State

variable {L : Lexicon}

/-- What a character outside quotes adds. -/
theorem pieces_plainStep (s : State) (c : Char) :
    (plainStep L s c).pieces = s.pieces ∨
      (plainStep L s c).pieces = s.pieces ++ [.active c] ∨
      (plainStep L s c).pieces = s.pieces ++ [.lit c] ∧ Ordinary L c ∧
        ¬ (L.comment = true ∧ c = '#' ∧ s.cur = none) := by
  unfold plainStep
  split_ifs with h1 h2 h3 h4 h5 h6 h7
  · exact Or.inl rfl
  · exact Or.inl rfl
  · exact Or.inl rfl
  · exact Or.inl (State.pieces_close s)
  · exact Or.inl (State.pieces_operator s c)
  · exact Or.inl rfl
  · exact Or.inr (Or.inl (State.pieces_push s _))
  · refine Or.inr (Or.inr ⟨State.pieces_push s _, ?_, ?_⟩)
    · simp only [Bool.or_eq_true, not_or, Bool.not_eq_true] at h4 h5 h7
      exact ⟨h1, h2, h3, h4, h5, h7⟩
    · simpa [and_assoc] using h6

theorem mode_plainStep (s : State) (c : Char) (hs : s.mode ≠ .doubleEscaped) :
    (plainStep L s c).mode ≠ .doubleEscaped := by
  unfold plainStep
  split_ifs <;> simp [State.quote, State.operator, hs]

theorem isPrefix_pieces_step (s : State) (c : Char) : s.pieces <+: (step L s c).pieces := by
  have hplain : ∀ s : State, s.pieces <+: (plainStep L s c).pieces := by
    intro s
    rcases pieces_plainStep (L := L) s c with h | h | ⟨h, -⟩ <;> simp [h]
  unfold step
  split
  · exact hplain s
  · split_ifs <;> simp
  · split_ifs <;> simp
  · split_ifs <;> simp
  · split_ifs <;> simp
  · split_ifs
    · exact hplain (s.setMode .plain)
    · exact List.prefix_rfl

theorem isPrefix_pieces_run (s : State) (l : List Char) : s.pieces <+: (run L s l).pieces := by
  induction l generalizing s with
  | nil => exact List.prefix_rfl
  | cons c l ih => exact (isPrefix_pieces_step s c).trans (ih _)

/-- The literals `q` read so far, with the backslash that is held back in double quotes. -/
def litCount (q : Char) (s : State) : ℕ :=
  s.pieces.count (.lit q) + if q = '\\' ∧ s.mode = .doubleEscaped then 1 else 0

theorem litCount_of_mode {q : Char} {s : State} (h : s.mode ≠ .doubleEscaped) :
    litCount q s = s.pieces.count (.lit q) := by
  simp [litCount, h]

private theorem count_lit (q c : Char) :
    [Piece.lit c].count (.lit q) = if c = q then 1 else 0 := by
  by_cases h : c = q <;> simp [h]

private theorem litCount_plainStep_le (q : Char) (s : State) (c : Char)
    (hs : s.mode ≠ .doubleEscaped) :
    litCount q (plainStep L s c) ≤ litCount q s + if c = q then 1 else 0 := by
  rw [litCount_of_mode hs, litCount_of_mode (mode_plainStep s c hs)]
  rcases pieces_plainStep (L := L) s c with h | h | ⟨h, -⟩
  · rw [h]
    omega
  · rw [h, List.count_append]
    simp
  · exact Nat.le_of_eq (by rw [h, List.count_append, count_lit])

theorem litCount_step_le (q : Char) (s : State) (c : Char) :
    litCount q (step L s c) ≤ litCount q s + if c = q then 1 else 0 := by
  cases hm : s.mode with
  | plain =>
    simp only [step, hm]
    exact litCount_plainStep_le q s c (by simp [hm])
  | comment =>
    simp only [step, hm]
    split
    · have := litCount_plainStep_le (L := L) q (s.setMode .plain) c (by simp)
      simpa [litCount, hm] using this
    · omega
  | _ =>
    simp only [step, hm]
    split_ifs <;> simp only [litCount, State.pieces_setMode, State.pieces_push,
      State.setMode_mode, State.push_mode, List.count_append, count_lit, hm] <;> grind

theorem litCount_run_le (q : Char) (s : State) (l : List Char) :
    litCount q (run L s l) ≤ litCount q s + l.count q := by
  induction l generalizing s with
  | nil => simp
  | cons c l ih =>
    have hstep := litCount_step_le (L := L) q s c
    have := ih (step L s c)
    rw [run_cons, List.count_cons]
    simp only [beq_iff_eq]
    omega

/-- A special character adds nothing. -/
theorem litCount_step_special {s : State} {q : Char} (hs : s.mode = .plain)
    (hq : ¬ Ordinary L q ∨ L.comment = true ∧ q = '#' ∧ s.cur = none) :
    litCount q (step L s q) ≤ litCount q s := by
  have hmode : s.mode ≠ .doubleEscaped := by simp [hs]
  have hstep : step L s q = plainStep L s q := by simp only [step, hs]
  rw [hstep, litCount_of_mode hmode, litCount_of_mode (mode_plainStep s q hmode)]
  rcases pieces_plainStep (L := L) s q with h | h | ⟨-, hord, hcom⟩
  · exact Nat.le_of_eq (by rw [h])
  · rw [h, List.count_append]
    simp
  · exact absurd hq (by simp only [hord, not_true_eq_false, false_or]; exact hcom)

/-- A text with a special character gives fewer literals than it has characters. -/
theorem litCount_run_special {s : State} {q : Char} (a b : List Char)
    (hs : (run L s a).mode = .plain)
    (hq : ¬ Ordinary L q ∨ L.comment = true ∧ q = '#' ∧ (run L s a).cur = none) :
    litCount q (run L s (a ++ q :: b)) < litCount q s + (a ++ q :: b).count q := by
  have ha := litCount_run_le (L := L) q s a
  have hstep := litCount_step_special hs hq
  have hb := litCount_run_le (L := L) q (step L (run L s a) q) b
  rw [run_append, run_cons, List.count_append, List.count_cons_self]
  omega

/-- A text that is not plain loses a literal of some character. -/
theorem plainText_or_litCount_lt (L : Lexicon) (ts : List Token) (l : List Char) :
    PlainText L l ∨
      ∃ q, litCount q (run L (.between ts) l) < litCount q (.between ts) + l.count q := by
  by_cases hhash : L.comment = true ∧ l.head? = some '#'
  · obtain ⟨hcom, hhead⟩ := hhash
    cases l with
    | nil => simp at hhead
    | cons c l =>
      obtain rfl : c = '#' := by simpa using hhead
      exact Or.inr ⟨'#', litCount_run_special (L := L) (s := .between ts) [] l rfl
        (Or.inr ⟨hcom, rfl, rfl⟩)⟩
  have hhash' : ∀ a b : List Char, l = a ++ b → L.comment = false ∨ a.head? ≠ some '#' := by
    intro a b hl
    cases hcom : L.comment with
    | false => exact Or.inl rfl
    | true =>
      right
      intro ha
      exact hhash ⟨hcom, by rw [hl, List.head?_append, ha]; rfl⟩
  cases hfind : l.find? (fun c => !decide (Ordinary L c)) with
  | none => exact Or.inl ⟨by simpa using hfind, hhash' l [] (by simp)⟩
  | some q =>
    obtain ⟨hq, a, b, rfl, ha⟩ := List.find?_eq_some_iff_append.mp hfind
    have ha : ∀ c ∈ a, Ordinary L c := by simpa using ha
    have hmode : (run L (.between ts) a).mode = .plain := by
      rw [run_between ts ⟨ha, hhash' a (q :: b) rfl⟩, State.literal_mode]
      rfl
    exact Or.inr ⟨q, litCount_run_special a b hmode (Or.inl (by simpa using hq))⟩

theorem flatMap_pieces_close (s : State) : s.close.tokens.flatMap Token.pieces = s.pieces := by
  have hword : s.close.word = [] := by
    unfold State.close State.word
    split
    · next h => simp [h]
    · rfl
  have h := State.pieces_close s
  rwa [State.pieces, hword, List.append_nil] at h

theorem pieces_prefix_of_finish {s : State} {ts : List Token} (h : finish s = some ts) :
    s.pieces <+: ts.flatMap Token.pieces := by
  unfold finish at h
  split at h
  all_goals cases h
  · exact (flatMap_pieces_close s).symm ▸ List.prefix_rfl
  · exact (flatMap_pieces_close s).symm ▸ List.prefix_rfl
  · rw [flatMap_pieces_close, State.pieces_push]
    exact List.prefix_append _ _

theorem litCount_literal (q : Char) {s : State} (hs : s.mode = .plain) (l : List Char) :
    litCount q (s.literal l) = litCount q s + l.count q := by
  have hmode : (s.literal l).mode ≠ .doubleEscaped := by simp [hs]
  rw [litCount_of_mode hmode, litCount_of_mode (by simp [hs]), State.pieces_literal,
    List.count_append]
  congr 1
  exact List.count_map_of_injective l Piece.lit (fun _ _ h => by simpa using h) q

theorem count_of_finish {s : State} {ts : List Token} (h : finish s = some ts) {q : Char}
    (hq : q ≠ '\\') : (ts.flatMap Token.pieces).count (.lit q) = litCount q s := by
  have hcount : litCount q s = s.pieces.count (.lit q) := by simp [litCount, hq]
  rw [hcount]
  unfold finish at h
  split at h
  all_goals cases h
  · rw [flatMap_pieces_close]
  · rw [flatMap_pieces_close]
  · rw [flatMap_pieces_close, State.pieces_push, List.count_append, count_lit,
      if_neg (Ne.symm hq), Nat.add_zero]

end Shell
