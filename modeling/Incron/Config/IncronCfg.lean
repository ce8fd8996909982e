import Incron.Basic
import Incron.Lib.FinMap
import Incron.Lib.IStream
import Incron.Lib.Stdio
import Mathlib.Data.List.DropRight

/-! The configuration (incroncfg.cpp): `Init`, `Load` and `GetValue`. A key has the value that the
first line for it gives, as long as the lines before fit into the buffer. -/
namespace Incron

structure IncronCfg where
  values : FinMap Str Str := ∅
  defaults : FinMap Str Str := ∅

namespace IncronCfg

def cfgDefault : Str := "/etc/incron.conf".toList

/-- What `Init` inserts. -/
def builtin : List (Str × Str) :=
  [("system_table_dir".toList, "/etc/incron.d".toList),
   ("user_table_dir".toList, "/var/spool/incron".toList),
   ("allowed_users".toList, "/etc/incron.allow".toList),
   ("denied_users".toList, "/etc/incron.deny".toList),
   ("lockfile_dir".toList, "/var/run".toList),
   ("lockfile_name".toList, "incrond".toList),
   ("editor".toList, [])]

def insertAll (m : FinMap Str Str) (l : List (Str × Str)) : FinMap Str Str :=
  l.foldl (fun m kv => m.insertNew kv.1 kv.2) m

def init (C : IncronCfg) : IncronCfg := { C with defaults := insertAll C.defaults builtin }

def isComment (s : Str) : Bool :=
  match s.findIdx? (· = '#') with
  | none => false
  | some len => (s.take len).all fun c => c = ' ' || c = '\t'

/-- `s.find_first_not_of(set)`; `none` is `npos`. -/
def findFirstNotOf (s set : Str) : Option ℕ := s.findIdx? (· ∉ set)

/-- `s.find_last_not_of(set)`. -/
def findLastNotOf (s set : Str) : Option ℕ :=
  (s.reverse.findIdx? (· ∉ set)).map (s.length - 1 - ·)

/-- `s.substr(a, b-a+1)` for the two positions, if there are any. -/
def between (s left right : Str) : Option Str :=
  match findFirstNotOf s left, findLastNotOf s right with
  | some a, some b => some ((s.drop a).take (b - a + 1))
  | _, _ => none

/-- `ParseLine`: the key and the value. -/
def parseLine (s : Str) : Option (Str × Str) :=
  if isComment s then none
  else
    let (key, ss) := IStream.get { rest := s } 1023 '='
    if ss.failbit then none
    else
      let (val, ss) := ss.get 1023
      if ss.failbit then none
      else
        match between key [' ', '\t'] [' ', '\t'] with
        | none => none
        | some rKey => some (rKey, (between val [' ', '\t', '='] [' ', '\t']).getD [])

/-- The loop of `Load` over an opened file. -/
def read (C : IncronCfg) (content : Str) : IncronCfg :=
  { C with
    values := insertAll C.values
      ((IStream.readLines 1023 content).filterMap fun s => parseLine (Stdio.cString s)) }

/-- `Load`; only a file that can be opened has a content. -/
def load (C : IncronCfg) (files : Str → Option Str) (rPath : Str) : IncronCfg :=
  match files rPath with
  | some content => C.read content
  | none =>
    if rPath = cfgDefault then C
    else
      match files cfgDefault with
      | some content => C.read content
      | none => C

/-- `GetValue` for strings; `none` is the answer `false`. -/
def getValue (C : IncronCfg) (rKey : Str) : Option Str :=
  match C.values.lookup rKey with
  | some rVal => some rVal
  | none => C.defaults.lookup rKey

/-! ## What a line says -/

def blanks : Str := [' ', '\t']

def strip (s : Str) : Str := (s.dropWhile (· ∈ blanks)).rdropWhile (· ∈ blanks)

/-- Nothing but blanks stands before the hash sign. -/
def Comment (line : Str) : Prop := (line.dropWhile (· ∈ blanks)).head? = some '#'

instance (line : Str) : Decidable (Comment line) := inferInstanceAs (Decidable (_ = _))

def keyOf (line : Str) : Str := strip (line.takeWhile (· ≠ '='))

/-- What stands after the first equals sign, without more of them and without blanks. -/
def valueOf (line : Str) : Str :=
  ((line.dropWhile (· ≠ '=')).tail.dropWhile (· ∈ blanks ++ ['='])).rdropWhile (· ∈ blanks)

def setting (key line : Str) : Option Str :=
  if ¬ Comment line ∧ '=' ∈ line ∧ keyOf line = key then some (valueOf line) else none

def firstSetting (key : Str) (lines : List Str) : Option Str := lines.findSome? (setting key)

/-! ## `ParseLine` -/

theorem isComment_cons (c : Char) (s : Str) :
    isComment (c :: s) = (c = '#' || (c = ' ' || c = '\t') && isComment s) := by
  by_cases hc : c = '#'
  · simp [isComment, List.findIdx?_cons, hc]
  · cases h : s.findIdx? (· = '#') <;> simp [isComment, List.findIdx?_cons, hc, h]

theorem isComment_eq_true_iff (s : Str) : isComment s = true ↔ Comment s := by
  induction s with
  | nil => decide
  | cons c s ih =>
    unfold Comment at ih ⊢
    by_cases hblank : c ∈ blanks
    · have hc : c = ' ' ∨ c = '\t' := by simpa [blanks] using hblank
      have hne : c ≠ '#' := by rcases hc with rfl | rfl <;> decide
      rw [isComment_cons, List.dropWhile_cons_of_pos (by simpa using hblank), ← ih]
      simpa [hne] using fun _ => hc
    · have hc : ¬ (c = ' ' ∨ c = '\t') := by simpa [blanks] using hblank
      rw [isComment_cons, List.dropWhile_cons_of_neg (by simpa using hblank)]
      simpa using fun h => absurd h hc

theorem findFirstNotOf_append {p m set : Str} {c : Char} (hp : ∀ d ∈ p, d ∈ set) (hc : c ∉ set) :
    findFirstNotOf (p ++ c :: m) set = some p.length := by
  have hnone : p.findIdx? (fun d => !decide (d ∈ set)) = none :=
    List.findIdx?_eq_none_iff.mpr (by simpa using hp)
  simp [findFirstNotOf, List.findIdx?_append, hnone, List.findIdx?_cons, hc]

theorem findLastNotOf_append {m q set : Str} {c : Char} (hq : ∀ d ∈ q, d ∈ set) (hc : c ∉ set) :
    findLastNotOf (m ++ c :: q) set = some m.length := by
  have hnone : q.reverse.findIdx? (fun d => !decide (d ∈ set)) = none :=
    List.findIdx?_eq_none_iff.mpr (by simpa using hq)
  simp [findLastNotOf, List.findIdx?_append, hnone, List.findIdx?_cons, hc]

/-- The part between two texts, from a character that is not left out to another one. -/
theorem between_append {p m init q left right : Str} {c d : Char} (hp : ∀ e ∈ p, e ∈ left)
    (hc : c ∉ left) (hm : c :: m = init ++ d :: q) (hd : d ∉ right) (hq : ∀ e ∈ q, e ∈ right) :
    between (p ++ c :: m) left right = some (init ++ [d]) := by
  have hlast : findLastNotOf (p ++ c :: m) right = some (p ++ init).length := by
    rw [hm, ← List.append_assoc]
    exact findLastNotOf_append hq hd
  have hlen : (p ++ init).length - p.length + 1 = (init ++ [d]).length := by simp
  have hmid : c :: m = init ++ [d] ++ q := by simpa using hm
  rw [between, findFirstNotOf_append hp hc, hlast]
  simp only [hlen, List.drop_left, hmid, List.take_left]

theorem between_eq {left right : Str} (hsub : ∀ c ∈ right, c ∈ left) (s : Str) :
    between s left right =
      if s.dropWhile (· ∈ left) = [] then none
      else some ((s.dropWhile (· ∈ left)).rdropWhile (· ∈ right)) := by
  split_ifs with hall
  · have hnone : findFirstNotOf s left = none := List.findIdx?_eq_none_iff.mpr (by simpa using hall)
    rw [between, hnone]
  · obtain ⟨c, m, hdrop⟩ : ∃ c m, s.dropWhile (· ∈ left) = c :: m :=
      List.exists_cons_of_ne_nil hall
    have hc : c ∉ left := by
      have := List.head_dropWhile_not (· ∈ left) (l := s) (by simp [hdrop])
      simpa [hdrop] using this
    have hne : (c :: m).rdropWhile (· ∈ right) ≠ [] := by
      rw [Ne, List.rdropWhile_eq_nil_iff]
      exact fun h => hc (hsub c (by simpa using h c (by simp)))
    have hinit := List.dropLast_append_getLast hne
    have hm : c :: m = ((c :: m).rdropWhile (· ∈ right)).dropLast ++
        ((c :: m).rdropWhile (· ∈ right)).getLast hne :: (c :: m).rtakeWhile (· ∈ right) := by
      rw [List.append_cons, hinit, List.rdropWhile_append_rtakeWhile]
    rw [hdrop, ← hinit, ← between_append (p := s.takeWhile (· ∈ left))
      (fun e he => by simpa using List.mem_takeWhile_imp he) hc hm
      (by simpa using List.rdropWhile_last_not _ _ hne)
      (fun e he => by simpa using List.mem_rtakeWhile_imp he), ← hdrop,
      List.takeWhile_append_dropWhile]

theorem strip_eq_nil_iff (s : Str) : strip s = [] ↔ s.dropWhile (· ∈ blanks) = [] := by
  constructor
  · intro h
    rw [strip, List.rdropWhile_eq_nil_iff] at h
    by_contra hne
    have hhead := List.head_dropWhile_not (· ∈ blanks) (l := s) hne
    exact absurd (h _ (List.head_mem hne)) (by simpa using hhead)
  · intro h
    rw [strip, h, List.rdropWhile_nil]

theorem between_blanks (s : Str) :
    between s [' ', '\t'] [' ', '\t'] = if strip s = [] then none else some (strip s) := by
  rw [between_eq fun c hc => hc]
  exact if_congr (strip_eq_nil_iff s).symm rfl rfl

theorem between_value (v : Str) : (between ('=' :: v) [' ', '\t', '='] [' ', '\t']).getD [] =
    (v.dropWhile (· ∈ blanks ++ ['='])).rdropWhile (· ∈ blanks) := by
  have hsub : ∀ c ∈ [' ', '\t'], c ∈ [' ', '\t', '='] := by simp
  rw [between_eq hsub]
  split_ifs with hall
  · have hdrop : v.dropWhile (· ∈ blanks ++ ['=']) = [] := hall
    rw [hdrop]
    rfl
  · rfl

/-- `ParseLine` gives what the line says, unless the line has no key. -/
theorem parseLine_eq {s : Str} (hlen : s.length < 1023) (hline : '\n' ∉ s) :
    parseLine s =
      if ¬ Comment s ∧ '=' ∈ s ∧ keyOf s ≠ [] then some (keyOf s, valueOf s) else none := by
  by_cases hcomment : Comment s
  · rw [parseLine, if_pos ((isComment_eq_true_iff s).mpr hcomment), if_neg fun h => h.1 hcomment]
  have hno : ¬ isComment s = true := fun h => hcomment ((isComment_eq_true_iff s).mp h)
  rw [parseLine, if_neg hno, IStream.get_of_length_lt _ rfl hlen]
  by_cases hmem : '=' ∈ s
  · obtain ⟨k, v, rfl, hk⟩ := List.eq_append_cons_of_mem hmem
    have hval : '\n' ∉ '=' :: v := fun h => hline (List.mem_append_right _ h)
    have hvlen : ('=' :: v).length < 1023 := by simp at hlen ⊢; omega
    simp only [keyOf, valueOf, IStream.takeWhile_line hk, IStream.dropWhile_line hk]
    cases k with
    | nil => simp [strip]
    | cons c k =>
      -- the second `get` starts at the equals sign
      simp only [List.isEmpty_cons, Bool.false_eq_true, if_false]
      rw [IStream.get_of_length_lt _ rfl hvlen]
      simp only [IStream.takeWhile_last hval, List.isEmpty_cons, Bool.false_eq_true, if_false,
        between_blanks, between_value, List.tail_cons]
      by_cases hkey : strip (c :: k) = []
      · simp [hkey]
      · simpa [hkey] using hcomment
  · simp only [IStream.takeWhile_last hmem, IStream.dropWhile_last hmem]
    -- the first `get` reaches the end, so that the second one fails
    cases s <;> simp [hmem, IStream.get, IStream.good]

/-! ## `Load` -/

theorem lookup_insertAll (m : FinMap Str Str) (l : List (Str × Str)) (key : Str) :
    (insertAll m l).lookup key = (m.lookup key).or ((l.find? (·.1 = key)).map (·.2)) := by
  have h := FinMap.lookup_foldl_insertNew l (fun _ => true) (·.1) (·.2) m key
  simp only [if_true, Bool.true_and] at h
  exact h

def builtinDefault (key : Str) : Option Str := (builtin.find? (·.1 = key)).map (·.2)

theorem setting_eq_of_parseLine {s key : Str} (hlen : s.length < 1023) (hline : '\n' ∉ s)
    (hkey : key ≠ []) :
    setting key s = (parseLine s).bind fun kv => if kv.1 = key then some kv.2 else none := by
  rw [parseLine_eq hlen hline, setting]
  by_cases h : keyOf s = key
  · subst h
    by_cases hc : ¬ Comment s ∧ '=' ∈ s
    · simp [hc, hkey]
    · rw [if_neg fun h => hc ⟨h.1, h.2.1⟩, if_neg fun h => hc ⟨h.1, h.2.1⟩]
      rfl
  · rw [if_neg fun hs => h hs.2.2]
    split_ifs <;> simp [h]

/-- The first line for a key is the one that stays in the map. -/
theorem find?_parseLine (l : List Str) {key : Str} (hkey : key ≠ [])
    (hl : ∀ s ∈ l, s.length < 1023 ∧ '\n' ∉ s ∧ '\x00' ∉ s) :
    ((l.filterMap fun s => parseLine (Stdio.cString s)).find? (·.1 = key)).map (·.2) =
      firstSetting key l := by
  induction l with
  | nil => rfl
  | cons s l ih =>
    obtain ⟨hlen, hline, hnul⟩ := hl s (by simp)
    have ih := ih fun s hs => hl s (by simp [hs])
    have hs := setting_eq_of_parseLine hlen hline hkey
    rw [firstSetting] at ih ⊢
    rw [List.findSome?_cons, List.filterMap_cons, Stdio.cString_of_not_mem hnul, hs]
    cases hp : parseLine s with
    | none => exact ih
    | some kv =>
      by_cases hk : kv.1 = key
      · simp [hk]
      · simp only [List.find?_cons, hk, decide_false, Option.bind_some, if_false]
        exact ih

theorem getValue_read {content key : Str} (hnul : '\x00' ∉ content) (hkey : key ≠ []) :
    ((init {}).read content).getValue key =
      (firstSetting key (IStream.readLines 1023 content)).or (builtinDefault key) := by
  have hlines (s : Str) (hs : s ∈ IStream.readLines 1023 content) :
      s.length < 1023 ∧ '\n' ∉ s ∧ '\x00' ∉ s := by
    have h := IStream.mem_readLines (by decide) hs
    exact ⟨h.length_lt, h.newline, fun hc => hnul (h.subset hc)⟩
  have hvalues : ((init {}).read content).values.lookup key =
      firstSetting key (IStream.readLines 1023 content) := by
    rw [read, lookup_insertAll, find?_parseLine _ hkey hlines]
    simp [init]
  have hdefaults : ((init {}).read content).defaults.lookup key = builtinDefault key := by
    rw [read, init, lookup_insertAll, builtinDefault]
    simp
  rw [getValue, hvalues, hdefaults]
  cases firstSetting key (IStream.readLines 1023 content) <;> rfl

def opened (files : Str → Option Str) (rPath : Str) : Option Str :=
  (files rPath).or (files cfgDefault)

theorem load_eq (C : IncronCfg) {files : Str → Option Str} {rPath content : Str}
    (h : opened files rPath = some content) : C.load files rPath = C.read content := by
  unfold opened at h
  unfold load
  cases hfile : files rPath with
  | some c =>
    rw [hfile, Option.some_or] at h
    rw [Option.some.inj h]
  | none =>
    rw [hfile, Option.none_or] at h
    have hne : rPath ≠ cfgDefault := by
      rintro rfl
      rw [hfile] at h
      exact absurd h (by simp)
    rw [if_neg hne, h]

/-! ## Lines that do not fit -/

/-- Whether a line is a comment and its key are settled before the equals sign. -/
theorem setting_append (key v : Str) {k : Str} (hk : '=' ∉ k) :
    setting key (k ++ '=' :: v) =
      if ¬ Comment k ∧ strip k = key then
        some ((v.dropWhile (· ∈ blanks ++ ['='])).rdropWhile (· ∈ blanks))
      else none := by
  have hcomment : Comment (k ++ '=' :: v) ↔ Comment k := by
    unfold Comment
    rw [List.dropWhile_append]
    cases hdrop : k.dropWhile (· ∈ blanks) with
    | nil => simp [blanks]
    | cons c m => simp
  simp only [setting, keyOf, valueOf, IStream.takeWhile_line hk, IStream.dropWhile_line hk,
    hcomment, List.tail_cons]
  simp

theorem setting_isSome_of_take {key l : Str} {n : ℕ} (h : (setting key (l.take n)).isSome) :
    (setting key l).isSome := by
  have hmem : '=' ∈ l.take n := by
    by_contra hmem
    rw [setting, if_neg fun hs => hmem hs.2.1] at h
    exact absurd h (by simp)
  obtain ⟨k, v, htake, hk⟩ := List.eq_append_cons_of_mem hmem
  have hl : l = k ++ '=' :: (v ++ l.drop n) := by
    conv_lhs => rw [← List.take_append_drop n l, htake]
    simp
  rw [htake, setting_append key v hk] at h
  rw [hl, setting_append key _ hk]
  split_ifs at h ⊢
  · rfl
  · simp at h

/-- A line that does not fit does no harm to the key: its start gives the key the value that the
whole line gives, or the start gives it none and the default is the right value. -/
def Harmless (key long : Str) (post : List Str) : Prop :=
  match setting key (long.take 1022) with
  | some v => setting key long = some v
  | none => ∀ v ∈ firstSetting key (long :: post), builtinDefault key = some v

/-- A line before the first one that does not fit is for the key, or that one does no harm. -/
def ReadsFor (key : Str) (lines : List Str) : Prop :=
  ∀ long post, lines.dropWhile (IStream.fits 1023) = long :: post →
    firstSetting key (lines.takeWhile (IStream.fits 1023)) = none → Harmless key long post

theorem harmless_iff (key long : Str) (post : List Str) :
    (setting key (long.take 1022)).or (builtinDefault key) =
        (firstSetting key (long :: post)).or (builtinDefault key) ↔
      Harmless key long post := by
  unfold Harmless
  cases hcut : setting key (long.take 1022) with
  | some v =>
    obtain ⟨w, hw⟩ := Option.isSome_iff_exists.mp
      (setting_isSome_of_take (l := long) (n := 1022) (by rw [hcut]; rfl))
    simp [firstSetting, hw, eq_comm]
  | none =>
    cases firstSetting key (long :: post) <;> simp

/-- The first line for a key that is read gives the value of the first line for it in the file. -/
theorem firstSetting_readLines_iff (key content : Str) :
    (firstSetting key (IStream.readLines 1023 content)).or (builtinDefault key) =
        (firstSetting key (content.splitOn '\n')).or (builtinDefault key) ↔
      ReadsFor key (content.splitOn '\n') := by
  rw [IStream.readLines_eq (by decide)]
  generalize content.splitOn '\n' = lines
  have hlines := List.takeWhile_append_dropWhile (p := IStream.fits 1023) (l := lines)
  unfold ReadsFor
  generalize lines.takeWhile (IStream.fits 1023) = pre at hlines ⊢
  generalize lines.dropWhile (IStream.fits 1023) = rest at hlines ⊢
  subst hlines
  have happend (l : List Str) : firstSetting key (pre ++ l) =
      (firstSetting key pre).or (firstSetting key l) := List.findSome?_append
  rw [happend, happend]
  cases firstSetting key pre with
  | some v => simp
  | none =>
    cases rest with
    | nil => simp
    | cons long post =>
      have hcut : firstSetting key [long.take 1022] = setting key (long.take 1022) := by
        rw [firstSetting, List.findSome?_singleton]
      refine Iff.trans ?_ ((harmless_iff key long post).trans ?_)
      · rw [Option.none_or, Option.none_or, ← hcut]
        rfl
      · simp

/-- `GetValue` gives the value of the first line for the key, or its default, exactly if no line
that is too long for the buffer stands in the way. -/
theorem getValue_eq_iff {files : Str → Option Str} {rPath content key : Str}
    (hfile : opened files rPath = some content) (hnul : '\x00' ∉ content) (hkey : key ≠ []) :
    ((init {}).load files rPath).getValue key =
        (firstSetting key (content.splitOn '\n')).or (builtinDefault key) ↔
      ReadsFor key (content.splitOn '\n') := by
  rw [load_eq _ hfile, getValue_read hnul hkey]
  exact firstSetting_readLines_iff key content

def editorLines : Str := "# editor\n editor = vi \neditor=ed\n".toList

theorem getValue_eq_editor :
    ((init {}).load (fun _ => some editorLines) cfgDefault).getValue "editor".toList =
      some "vi".toList := by
  have hfits : (editorLines.splitOn '\n').dropWhile (IStream.fits 1023) = [] := by
    decide +kernel
  have hreads : ReadsFor "editor".toList (editorLines.splitOn '\n') := by
    intro long post hdrop
    rw [hfits] at hdrop
    exact absurd hdrop (by simp)
  have hopened : opened (fun _ => some editorLines) cfgDefault = some editorLines := rfl
  rw [(getValue_eq_iff hopened (by decide +kernel) (by decide)).mpr hreads]
  decide +kernel

/-- A comment that does not fit into the buffer. -/
def longLine : Str := '#' :: List.replicate 1022 'x' ++ "\neditor=vi\n".toList

/-- The line after a long comment is not read. -/
theorem not_getValue_eq_longLine :
    '\x00' ∉ longLine ∧
      (firstSetting "editor".toList (longLine.splitOn '\n')).or
        (builtinDefault "editor".toList) = some "vi".toList ∧
      ((init {}).load (fun _ => some longLine) cfgDefault).getValue "editor".toList = some [] := by
  decide +kernel

end IncronCfg
end Incron
