import Incron.Daemon.Expand
import Incron.Lib.Shell
import Incron.Table.Loading

/-! How the shell reads an expanded command: the names that `GetSafePath` makes literal, for
every template with its placeholders outside quotes. -/
namespace Incron.UserTable
open Shell IncronTabEntry

def commandLexicon : Lexicon where
  operator c := [';', '&', '|', '<', '>', '(', ')', '\n'].contains c
  expansion c := ['$', '`'].contains c
  glob c := ['*', '?', '['].contains c
  comment := false

/-! ## The intended reading -/

/-- A placeholder stands for its name, character by character; it has no reading inside
quotes or behind a backslash. -/
def readItem (path name : Str) (s : Option State) (i : Item) : Option State :=
  match s, i with
  | none, _ => none
  | some s, .char c => some (step commandLexicon s c)
  | some s, .path => if s.mode = .plain then some (s.literal path) else none
  | some s, .name => if s.mode = .plain then some (s.literal name) else none

def readTemplate (path name : Str) (items : List Item) : Option State :=
  items.foldl (readItem path name) (some {})

/-- The character is ordinary to the shell or escaped by `GetSafePath`. -/
def SafeChar (c : Char) : Prop := c = ' ' ∨ c = '\\' ∨ Ordinary commandLexicon c

instance : DecidablePred SafeChar := fun _ => inferInstanceAs (Decidable (_ ∨ _))

def SafeName (s : Str) : Prop := ∀ c ∈ s, SafeChar c

instance : DecidablePred SafeName := fun s => List.decidableBAll SafeChar s

/-! ## Safe names are read as they stand -/

private theorem run_escaped {s : State} (hs : s.mode = .plain) {c : Char} (hc : c ≠ '\n') :
    run commandLexicon s ['\\', c] = s.push (.lit c) := by
  cases s
  simp only at hs
  subst hs
  simp [step, plainStep, hc, State.setMode, State.push, State.word]

theorem run_getSafePath {s : State} (hs : s.mode = .plain) {p : Str} (hp : SafeName p) :
    run commandLexicon s (getSafePath p) = s.literal p := by
  induction p generalizing s with
  | nil => rfl
  | cons c p ih =>
    have ih := fun {s : State} (hs : s.mode = .plain) => ih hs fun d hd => hp d (by simp [hd])
    rw [getSafePath_cons, run_append, State.literal_cons]
    split_ifs with h1 h2
    · subst h1
      rw [run_escaped hs (by decide), ih (by simpa using hs)]
    · subst h2
      rw [run_escaped hs (by decide), ih (by simpa using hs)]
    · have hord := ((hp c (by simp)).resolve_left h1).resolve_left h2
      rw [run_cons, run_nil, step_ordinary hord hs (Or.inl rfl), ih (by simpa using hs)]

private theorem foldl_readItem_none (path name : Str) (items : List Item) :
    items.foldl (readItem path name) none = none := by
  induction items with
  | nil => rfl
  | cons i items ih => exact ih

private theorem run_render {path name : Str} (hpath : SafeName path) (hname : SafeName name)
    (items : List Item) {s s' : State}
    (h : items.foldl (readItem path name) (some s) = some s') :
    run commandLexicon s (render path name items) = s' := by
  induction items generalizing s with
  | nil => exact Option.some.inj h
  | cons i items ih =>
    rw [render_cons, run_append]
    cases i with
    | char c => exact ih h
    | path =>
      rw [List.foldl_cons, readItem] at h
      split_ifs at h with hs
      · rw [Item.text, run_getSafePath hs hpath]
        exact ih h
      · rw [foldl_readItem_none] at h
        exact absurd h (by simp)
    | name =>
      rw [List.foldl_cons, readItem] at h
      split_ifs at h with hs
      · rw [Item.text, run_getSafePath hs hname]
        exact ih h
      · rw [foldl_readItem_none] at h
        exact absurd h (by simp)

/-! ## Other names are not -/

private theorem count_getSafePath {q : Char} (hq : q ≠ '\\') (p : Str) :
    (getSafePath p).count q = p.count q := by
  induction p with
  | nil => rfl
  | cons c p ih =>
    rw [getSafePath_cons, List.count_append, ih, List.count_cons, Nat.add_comm]
    congr 1
    by_cases h1 : c = ' '
    · simp [h1, List.count_cons, Ne.symm hq]
    by_cases h2 : c = '\\'
    · simp [h2, Ne.symm hq]
    simp [h1, h2, List.count_cons]

/-- A name that is read as itself when it stands alone is safe. -/
private theorem safeName_of_lex {p : Str}
    (h : lex commandLexicon (getSafePath p) = finish (({} : State).literal p)) :
    SafeName p := by
  cases hfind : p.find? fun c => !decide (SafeChar c) with
  | none => simpa [SafeName] using hfind
  | some q =>
    exfalso
    obtain ⟨hq, a, b, hp, ha⟩ := List.find?_eq_some_iff_append.mp hfind
    have ha : SafeName a := by simpa [SafeName] using ha
    have hq : ¬ SafeChar q := by simpa using hq
    simp only [SafeChar, not_or] at hq
    obtain ⟨hspace, hback, hord⟩ := hq
    -- the first unsafe character adds no literal of its own
    have hsafe : getSafePath p = getSafePath a ++ q :: getSafePath b := by
      rw [hp, getSafePath, List.flatMap_append, ← getSafePath, ← getSafePath, getSafePath_cons,
        if_neg hspace, if_neg hback]
      rfl
    have hmode : (run commandLexicon {} (getSafePath a)).mode = .plain := by
      rw [run_getSafePath rfl ha, State.literal_mode]
    have hlt := litCount_run_special (L := commandLexicon) (q := q) (getSafePath a)
      (getSafePath b) hmode (Or.inl hord)
    rw [← hsafe, count_getSafePath hback] at hlt
    have hlit := litCount_literal q (s := {}) rfl p
    have hread : finish (({} : State).literal p) = some (({} : State).literal p).close.tokens := by
      simp only [finish, State.literal_mode]
    rw [hread] at h
    have h1 := count_of_finish h hback
    have h2 := count_of_finish hread hback
    omega

private theorem safeName_of_alone {p text : Str} {cmd : Str}
    (htext : text = getSafePath p ++ []) (hcmd : (Except.ok text : Except OutOfRange Str) = .ok cmd)
    (h : lex commandLexicon cmd = finish (({} : State).literal p)) : SafeName p := by
  rw [List.append_nil] at htext
  rw [← Except.ok.inj hcmd, htext] at h
  exact safeName_of_lex h

/-- The expanded command is read as the template with literal names, for every template,
exactly when both names are safe. -/
theorem lex_expandCmd_iff (path name : Str) :
    (∀ (cs : Str) (mask : Mask) (s : State),
      readTemplate path name (template mask cs) = some s →
        ∃ cmd, expandCmd cs path name mask = .ok cmd ∧ lex commandLexicon cmd = finish s) ↔
      SafeName path ∧ SafeName name := by
  constructor
  · intro h
    constructor
    · obtain ⟨cmd, hcmd, hlex⟩ := h ['$', '@'] 0 (({} : State).literal path) rfl
      rw [expandCmd_eq] at hcmd
      exact safeName_of_alone rfl hcmd hlex
    · obtain ⟨cmd, hcmd, hlex⟩ := h ['$', '#'] 0 (({} : State).literal name) rfl
      rw [expandCmd_eq] at hcmd
      exact safeName_of_alone rfl hcmd hlex
  · rintro ⟨hpath, hname⟩ cs mask s hs
    exact ⟨_, expandCmd_eq cs path name mask, by rw [lex, run_render hpath hname _ hs]⟩

/-- A semicolon in a file name ends the command that the entry asks for. -/
theorem lex_expandCmd_semicolon :
    '\x00' ∉ "a;id".toList ∧ '/' ∉ "a;id".toList ∧
      ∃ (s : State) (cmd : Str),
        readTemplate "/tmp".toList "a;id".toList (template inCreate "ls $@/$#".toList) = some s ∧
        expandCmd "ls $@/$#".toList "/tmp".toList "a;id".toList inCreate = .ok cmd ∧
        lex commandLexicon cmd ≠ finish s := by
  refine ⟨by decide, by decide, _, "ls /tmp/a;id".toList, rfl, by decide, ?_⟩
  decide

end Incron.UserTable
