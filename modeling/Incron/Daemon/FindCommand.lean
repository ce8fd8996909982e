import Incron.Daemon.Executor
import Incron.Lib.Shell
import Incron.Table.ParseLine

/-! The command that `Executor::getSubDirVec` hands to `popen`, and the paths for which the
shell reads it as the intended call of `find`. -/
namespace Incron.Executor
open Shell

def pathLexicon : Lexicon where
  operator c := [';', '&', '|', '<', '>', '(', ')', '\n'].contains c
  expansion c := ['$', '`'].contains c
  glob _ := false
  comment := true

def optionTokens (includeDotDirs : Bool) : List Token :=
  [literalWord "-type".toList, literalWord "d".toList] ++
    (if includeDotDirs then []
     else [literalWord "!".toList, literalWord "-path".toList, literalWord "*/.*".toList]) ++
    [literalWord "2".toList, .op '>' true, literalWord "/dev/null".toList]

/-- One call of `find` with the path as a single literal word. -/
def findTokens (dir : Str) (includeDotDirs : Bool) : List Token :=
  [literalWord "find".toList, literalWord dir] ++ optionTokens includeDotDirs

/-! ## Around the path -/

private theorem getSubDirCmd_eq (dir : Str) (dd : Bool) :
    getSubDirCmd dir dd = "find ".toList ++ (dir ++ (" -type d ".toList ++ findOptions dd)) := by
  unfold getSubDirCmd
  rw [List.append_assoc, List.append_assoc]

private theorem run_find :
    run pathLexicon {} "find ".toList = .between [literalWord "find".toList] := by
  rw [show "find ".toList = "find".toList ++ [' '] by decide]
  exact run_word [] (by decide) (by decide)

private theorem run_type {s : State} (hs : s.mode = .plain) :
    run pathLexicon s " -type d ".toList =
      .between (s.close.tokens ++ [literalWord "-type".toList, literalWord "d".toList]) := by
  have hclose : s.close = .between s.close.tokens := by
    cases hc : s.cur <;> cases s <;> simp_all [State.close, State.between]
  rw [show " -type d ".toList = ' ' :: (("-type".toList ++ [' ']) ++ ("d".toList ++ [' '])) by
      decide, run_cons, step_blank hs, hclose, run_append,
    run_word (w := "-type".toList) _ (by decide) (by decide),
    run_word (w := "d".toList) _ (by decide) (by decide)]
  simp [State.between, State.close]

private theorem run_notHidden (ts : List Token) :
    run pathLexicon (.between ts) "! -path '*/.*' ".toList =
      .between (ts ++ [literalWord "!".toList, literalWord "-path".toList,
        literalWord "*/.*".toList]) := by
  rw [show "! -path '*/.*' ".toList = ("!".toList ++ [' ']) ++ (("-path".toList ++ [' ']) ++
      '\'' :: ("*/.*".toList ++ ['\'', ' '])) by decide, run_append,
    run_word (w := "!".toList) _ (by decide) (by decide), run_append,
    run_word (w := "-path".toList) _ (by decide) (by decide),
    run_quoted _ (by decide) (by decide)]
  simp

private theorem finish_redirection (ts : List Token) :
    finish (run pathLexicon (.between ts) "2>/dev/null".toList) =
      some (ts ++ [literalWord "2".toList, .op '>' true, literalWord "/dev/null".toList]) := by
  have hsplit : "2>/dev/null".toList = "2".toList ++ '>' :: "/dev/null".toList := by decide
  have hop : step pathLexicon (run pathLexicon (.between ts) "2".toList) '>' =
      .between (ts ++ [literalWord "2".toList] ++ [.op '>' true]) := rfl
  have hnull : PlainText pathLexicon "/dev/null".toList := by decide
  have hne : "/dev/null".toList ≠ [] := by decide
  rw [hsplit, run_append, run_cons, hop, run_between _ hnull, finish, State.literal_mode,
    State.close, State.literal_cur _ _ hne]
  simp only [State.literal_tokens]
  change some (ts ++ [literalWord "2".toList] ++ [.op '>' true] ++
    [literalWord "/dev/null".toList]) = _
  simp

/-- What follows the path is read as the options and the redirection. -/
private theorem finish_tail {s : State} (hs : s.mode = .plain) (dd : Bool) :
    finish (run pathLexicon s (" -type d ".toList ++ findOptions dd)) =
      some (s.close.tokens ++ optionTokens dd) := by
  rw [run_append, run_type hs, findOptions, run_append]
  cases dd with
  | true =>
    rw [if_pos rfl, run_nil, finish_redirection]
    simp [optionTokens]
  | false =>
    rw [if_neg (by decide), run_notHidden, finish_redirection]
    simp [optionTokens]

/-! ## Which paths are read as they stand -/

private theorem lex_eq (p : Str) (dd : Bool) :
    lex pathLexicon (getSubDirCmd p dd) =
      finish (run pathLexicon (run pathLexicon (.between [literalWord "find".toList]) p)
        (" -type d ".toList ++ findOptions dd)) := by
  rw [lex, getSubDirCmd_eq, run_append, run_find, run_append]

private theorem lex_of_plainText {p : Str} (hp : PlainText pathLexicon p) (hne : p ≠ [])
    (dd : Bool) :
    lex pathLexicon (getSubDirCmd p dd) = some (findTokens p dd) := by
  rw [lex_eq, run_between _ hp, finish_tail (State.literal_mode _ _),
    State.close, State.literal_cur _ _ hne]
  simp only [State.literal_tokens]
  rfl

/-- Quotes in the path stay open to the end of the command. -/
private theorem finish_tail_quoted {s : State}
    (hs : s.mode = .single ∨ s.mode = .double ∨ s.mode = .doubleEscaped) (dd : Bool) :
    finish (run pathLexicon s (" -type d ".toList ++ findOptions dd)) = none := by
  rcases hs with hs | hs | hs
  · apply finish_single
    cases dd with
    | true => exact mode_run_single hs (by decide)
    | false =>
      have hsplit : " -type d ".toList ++ findOptions false =
          " -type d ! -path ".toList ++
            '\'' :: ("*/.*".toList ++ '\'' :: " 2>/dev/null".toList) := by
        decide
      rw [hsplit]
      exact mode_run_requoted hs (by decide) (by decide) (by decide)
  · exact finish_double (mode_run_double hs (by cases dd <;> decide) (by cases dd <;> decide))
  · -- the blank behind the path ends the escape
    have hblank : (step pathLexicon s ' ').mode = .double := by
      simp only [step, hs]
      split_ifs <;> rfl
    rw [show " -type d ".toList = ' ' :: "-type d ".toList by decide, List.cons_append, run_cons]
    exact finish_double (mode_run_double hblank (by cases dd <;> decide) (by cases dd <;> decide))

/-- The literals `q` that the words of the intended command hold. -/
private theorem count_findTokens (q : Char) (p : Str) (dd : Bool) :
    ((findTokens p dd).flatMap Token.pieces).count (.lit q) =
      (literalWord "find".toList).pieces.count (.lit q) + p.count q +
        ((optionTokens dd).flatMap Token.pieces).count (.lit q) := by
  have hmap : (p.map Piece.lit).count (.lit q) = p.count q :=
    List.count_map_of_injective p Piece.lit (fun _ _ h => by simpa using h) q
  simp only [findTokens, List.flatMap_append, List.count_append, List.flatMap_cons,
    List.flatMap_nil, List.append_nil]
  rw [← hmap]
  rfl

/-- The shell reads the command as the intended one exactly for paths that are plain text. -/
theorem lex_getSubDirCmd_iff (line : Str) (e : IncronTabEntry)
    (h : IncronTabEntry.parse line = .ok (some e)) (dd : Bool) :
    lex pathLexicon (getSubDirCmd e.path dd) = some (findTokens e.path dd) ↔
      PlainText pathLexicon e.path := by
  obtain ⟨hne, hblank⟩ := IncronTabEntry.parse_path h
  refine ⟨fun hlex => ?_, fun hp => lex_of_plainText hp hne dd⟩
  refine (plainText_or_litCount_lt pathLexicon [literalWord "find".toList] e.path).resolve_right ?_
  rintro ⟨q, hlt⟩
  have hstart : litCount q (.between [literalWord "find".toList]) =
      (literalWord "find".toList).pieces.count (.lit q) := by
    simp [litCount, State.pieces, State.between, State.word]
  have hcount := count_findTokens q e.path dd
  rw [lex_eq] at hlex
  generalize run pathLexicon (.between [literalWord "find".toList]) e.path = s at hlex hlt
  cases hm : s.mode with
  | plain =>
    rw [finish_tail hm] at hlex
    rw [litCount_of_mode (by simp [hm])] at hlt
    rw [← Option.some.inj hlex, List.flatMap_append, List.count_append, flatMap_pieces_close]
      at hcount
    omega
  | comment =>
    -- nothing behind the path is read
    rw [run_comment hm (by cases dd <;> decide), finish_comment hm] at hlex
    rw [litCount_of_mode (by simp [hm])] at hlt
    rw [← Option.some.inj hlex, flatMap_pieces_close] at hcount
    omega
  | escaped =>
    -- the blank behind the path becomes part of a word
    rw [show " -type d ".toList = ' ' :: "-type d ".toList by decide, List.cons_append,
      run_cons] at hlex
    have hpush : Piece.lit ' ' ∈ (step pathLexicon s ' ').pieces := by
      simp [step, hm]
    have hmem := (pieces_prefix_of_finish hlex).subset
      ((isPrefix_pieces_run _ _).subset hpush)
    have hpath : e.path.count ' ' = 0 :=
      List.count_eq_zero.mpr fun hc => absurd (hblank ' ' hc) (by decide)
    have hnone : ((findTokens e.path dd).flatMap Token.pieces).count (.lit ' ') = 0 := by
      rw [count_findTokens, hpath]
      cases dd <;> decide
    exact List.count_eq_zero.mp hnone hmem
  | single =>
    rw [finish_tail_quoted (Or.inl hm)] at hlex
    exact absurd hlex (by simp)
  | double =>
    rw [finish_tail_quoted (Or.inr (Or.inl hm))] at hlex
    exact absurd hlex (by simp)
  | doubleEscaped =>
    rw [finish_tail_quoted (Or.inr (Or.inr hm))] at hlex
    exact absurd hlex (by simp)

theorem lex_getSubDirCmd_tmp :
    lex pathLexicon (getSubDirCmd "/tmp/a".toList false) =
        some (findTokens "/tmp/a".toList false) ↔ PlainText pathLexicon "/tmp/a".toList :=
  lex_getSubDirCmd_iff "/tmp/a IN_CREATE ls\n".toList
    { path := "/tmp/a".toList, mask := inCreate, cmd := "ls".toList } (by decide) false

/-- The path of this line ends the command of `find` and starts a second one. -/
theorem lex_getSubDirCmd_semicolon :
    ∃ e, IncronTabEntry.parse "/tmp/;id IN_CREATE ls\n".toList = .ok (some e) ∧
      '*' ∉ e.path ∧
      lex pathLexicon (getSubDirCmd e.path false) ≠ some (findTokens e.path false) := by
  refine ⟨{ path := "/tmp/;id".toList, mask := inCreate, cmd := "ls".toList }, ?_, ?_, ?_⟩
  · decide
  · decide
  · decide

end Incron.Executor
