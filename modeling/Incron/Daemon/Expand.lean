import Incron.Table.Entry

/-! The command expansion of `UserTable::OnEvent`, and the template that it evaluates. -/
namespace Incron.UserTable
open IncronTabEntry

/-- `cs.substr(pos, n)`. -/
def substr (s : Str) (pos n : ℕ) : Except OutOfRange Str :=
  if pos ≤ s.length then .ok ((s.drop pos).take n) else .error .outOfRange

/-- `cs.find('$', pos)`. -/
def findDollar (s : Str) (pos : ℕ) : Option ℕ :=
  ((s.drop pos).findIdx? (· = '$')).map (· + pos)

/-- `asprintf(&s, "%u", mask)`. -/
def numericMask (mask : Mask) : Str := Nat.toDigits 10 mask.toNat

section Expansion
variable (cs path name : Str) (mask : Mask)

/-- The body of the expansion loop at the `$` found at `pos`: what is appended to the command
and the new `oldpos`. -/
def expandStep (oldpos pos : ℕ) : Except OutOfRange (Str × ℕ) :=
  if pos < cs.length - 1 then
    match cs[pos + 1]? with
    | some '$' => do return (← substr cs oldpos (pos - oldpos + 1), pos + 2)
    | some '@' => do return ((← substr cs oldpos (pos - oldpos)) ++ getSafePath path, pos + 2)
    | some '#' => do return ((← substr cs oldpos (pos - oldpos)) ++ getSafePath name, pos + 2)
    | some '%' => do
      return ((← substr cs oldpos (pos - oldpos)) ++ InotifyEvent.dumpTypes mask, pos + 2)
    | some '&' => do return ((← substr cs oldpos (pos - oldpos)) ++ numericMask mask, pos + 2)
    | _ => do return (← substr cs oldpos (pos - oldpos), pos + 1)
  else do
    return (← substr cs oldpos (pos - oldpos), pos + 1)

/-- The loop over the `$` signs and the copy of what stands behind the last one. -/
def expandLoop : ℕ → ℕ → Str → Except OutOfRange Str
  | 0, _, cmd => .ok cmd
  | fuel + 1, oldpos, cmd =>
    match findDollar cs oldpos with
    | none => do return cmd ++ (← substr cs oldpos cs.length)
    | some pos => do
      let (s, oldpos') ← expandStep cs path name mask oldpos pos
      expandLoop fuel oldpos' (cmd ++ s)

/-- The command for an event: `cs` is the command of the entry, `path` the path of the watch
and `name` the file name of the event. -/
def expandCmd : Except OutOfRange Str := expandLoop cs path name mask (cs.length + 1) 0 []

/-- The finished runs of the loop: from `oldpos` and the command built so far, every substring
exists and the loop is left with the command `r`. -/
inductive Expands : ℕ → Str → Str → Prop where
  | done {oldpos : ℕ} {cmd s : Str} : findDollar cs oldpos = none →
      substr cs oldpos cs.length = .ok s → Expands oldpos cmd (cmd ++ s)
  | round {oldpos pos oldpos' : ℕ} {cmd s r : Str} : findDollar cs oldpos = some pos →
      expandStep cs path name mask oldpos pos = .ok (s, oldpos') →
      Expands oldpos' (cmd ++ s) r → Expands oldpos cmd r

end Expansion

/-! ## One scan from left to right -/

section Scan
variable (path name : Str) (mask : Mask)

/-- The text for the character behind a `$`. -/
def placeholder : Char → Option Str
  | '$' => some ['$']
  | '@' => some (getSafePath path)
  | '#' => some (getSafePath name)
  | '%' => some (InotifyEvent.dumpTypes mask)
  | '&' => some (numericMask mask)
  | _ => none

def scan : Str → Str
  | [] => []
  | ['$'] => []
  | '$' :: d :: ds =>
    match placeholder path name mask d with
    | some s => s ++ scan ds
    | none => d :: scan ds
  | c :: cs => c :: scan cs

end Scan

/-! ## The loop is the scan -/

section Loop
variable (path name : Str) (mask : Mask)

private theorem scan_cons {c : Char} (hc : c ≠ '$') (cs : Str) :
    scan path name mask (c :: cs) = c :: scan path name mask cs := by
  rw [scan.eq_def]
  split <;> simp_all

private theorem scan_append (a cs : Str) (ha : '$' ∉ a) :
    scan path name mask (a ++ cs) = a ++ scan path name mask cs := by
  induction a with
  | nil => rfl
  | cons c a ih =>
    simp only [List.mem_cons, not_or] at ha
    rw [List.cons_append, scan_cons path name mask (Ne.symm ha.1), ih ha.2, List.cons_append]

private theorem substr_append (pre a r : Str) :
    substr (pre ++ (a ++ r)) pre.length a.length = .ok a := by
  simp [substr]

private theorem findDollar_append (pre a r : Str) (ha : '$' ∉ a) :
    findDollar (pre ++ (a ++ '$' :: r)) pre.length = some (a.length + pre.length) := by
  have hidx : (a ++ '$' :: r).findIdx? (· = '$') = some a.length := by
    rw [List.findIdx?_append, List.findIdx?_eq_none_iff.mpr]
    · simp [List.findIdx?_cons]
    · intro c hc
      simpa using fun h : c = '$' => ha (h ▸ hc)
  rw [findDollar, List.drop_left, hidx]
  rfl

private theorem findDollar_none (pre r : Str) (hr : '$' ∉ r) :
    findDollar (pre ++ r) pre.length = none := by
  rw [findDollar, List.drop_left, List.findIdx?_eq_none_iff.mpr]
  · rfl
  · intro c hc
    simpa using fun h : c = '$' => hr (h ▸ hc)

private theorem expandStep_cons (pre a ds : Str) (d : Char) :
    expandStep (pre ++ (a ++ '$' :: d :: ds)) path name mask pre.length (a.length + pre.length) =
      .ok (match placeholder path name mask d with
        | some s => (a ++ s, a.length + pre.length + 2)
        | none => (a, a.length + pre.length + 1)) := by
  have hlt : a.length + pre.length < (pre ++ (a ++ '$' :: d :: ds)).length - 1 := by
    simp
    omega
  have hget : (pre ++ (a ++ '$' :: d :: ds))[a.length + pre.length + 1]? = some d := by
    rw [List.getElem?_append_right (by omega), List.getElem?_append_right (by omega)]
    rw [show a.length + pre.length + 1 - pre.length - a.length = 1 by omega]
    rfl
  have hpos : a.length + pre.length - pre.length = a.length := by omega
  have hsub := substr_append pre a ('$' :: d :: ds)
  have hsub' : substr (pre ++ (a ++ '$' :: d :: ds)) pre.length (a.length + 1) =
      .ok (a ++ ['$']) := by
    simpa using substr_append pre (a ++ ['$']) (d :: ds)
  simp only [expandStep, if_pos hlt, hget, hpos, hsub, hsub', placeholder]
  split <;> simp_all [pure, Except.pure, bind, Except.bind]

/-- One round of the loop: `r'` is what is left of the text. -/
private theorem expandStep_eq (pre a r : Str) (ha : '$' ∉ a) :
    ∃ pre' s r', expandStep (pre ++ (a ++ '$' :: r)) path name mask pre.length
        (a.length + pre.length) = .ok (s, pre'.length) ∧ pre' ++ r' = pre ++ (a ++ '$' :: r) ∧
      r'.length ≤ r.length ∧
      scan path name mask (a ++ '$' :: r) = s ++ scan path name mask r' := by
  rw [scan_append path name mask a _ ha]
  cases r with
  | nil =>
    refine ⟨pre ++ (a ++ ['$']), a, [], ?_, by simp, by simp, by simp [scan]⟩
    have hlast : ¬ a.length + pre.length < (pre ++ (a ++ ['$'])).length - 1 := by
      simp
      omega
    have hpos : a.length + pre.length - pre.length = a.length := by omega
    rw [expandStep, if_neg hlast, hpos, substr_append]
    simp [pure, Except.pure, bind, Except.bind]
    omega
  | cons d ds =>
    have hstep := expandStep_cons path name mask pre a ds d
    cases hd : placeholder path name mask d with
    | some s =>
      refine ⟨pre ++ (a ++ ['$', d]), a ++ s, ds, ?_, by simp, by simp, ?_⟩
      · rw [hstep, hd]
        simp
        omega
      · simp [scan, hd]
    | none =>
      -- any other character stays for the next round
      have hne : d ≠ '$' := by
        rintro rfl
        simp [placeholder] at hd
      refine ⟨pre ++ (a ++ ['$']), a, d :: ds, ?_, by simp, by simp, ?_⟩
      · rw [hstep, hd]
        simp
        omega
      · rw [scan_cons path name mask hne]
        simp [scan, hd]

/-- The rounds of the loop, on what is left of the text. -/
private theorem expands_scan (pre r cmd : Str) :
    Expands (pre ++ r) path name mask pre.length cmd (cmd ++ scan path name mask r) := by
  induction hn : r.length using Nat.strongRecOn generalizing pre r cmd with
  | _ n ih =>
    by_cases hr : '$' ∈ r
    · obtain ⟨a, r, rfl, ha⟩ := List.eq_append_cons_of_mem hr
      obtain ⟨pre', s, r', hstep, happ, hlen, hscan⟩ := expandStep_eq path name mask pre a r ha
      apply Expands.round (findDollar_append pre a r ha) hstep
      rw [hscan, ← List.append_assoc cmd, ← happ]
      apply ih r'.length _ pre' r' (cmd ++ s) rfl
      simp only [List.length_append, List.length_cons] at hn
      omega
    · have hrest : scan path name mask r = r := by
        have h := scan_append path name mask r [] hr
        rwa [List.append_nil, scan, List.append_nil] at h
      have hsub : substr (pre ++ r) pre.length (pre ++ r).length = .ok r := by
        rw [substr, if_pos (by simp), List.drop_left, List.take_of_length_le (by simp)]
      rw [hrest]
      exact Expands.done (findDollar_none pre r hr) hsub

private theorem findDollar_lt {cs : Str} {oldpos pos : ℕ} (h : findDollar cs oldpos = some pos) :
    oldpos ≤ pos ∧ pos < cs.length := by
  obtain ⟨i, hi, rfl⟩ := Option.map_eq_some_iff.mp h
  have hlt := (List.findIdx?_eq_some_iff_getElem.mp hi).1
  rw [List.length_drop] at hlt
  omega

private theorem expandStep_lt {cs : Str} {oldpos pos oldpos' : ℕ} {s : Str}
    (h : expandStep cs path name mask oldpos pos = .ok (s, oldpos')) : pos < oldpos' := by
  have hbind : ∀ {x : Except OutOfRange Str} {f : Str → Str} {n : ℕ},
      (do return (f (← x), n) : Except OutOfRange (Str × ℕ)) = .ok (s, oldpos') → n = oldpos' := by
    intro x f n hx
    cases x with
    | error e => cases hx
    | ok t => exact congrArg Prod.snd (Except.ok.inj hx)
  have hor : pos + 2 = oldpos' ∨ pos + 1 = oldpos' := by
    unfold expandStep at h
    split at h
    · split at h
      all_goals first | exact .inl (hbind h) | exact .inr (hbind h)
    · exact .inr (hbind h)
  omega

/-- A finished run needs no more rounds than there are characters. -/
private theorem expandLoop_of_expands {cs : Str} {oldpos : ℕ} {cmd r : Str}
    (h : Expands cs path name mask oldpos cmd r) {fuel : ℕ} (hpos : 0 < fuel)
    (hfuel : cs.length < fuel + oldpos) :
    expandLoop cs path name mask fuel oldpos cmd = .ok r := by
  induction h generalizing fuel with
  | done hfind hsub =>
    obtain ⟨fuel, rfl⟩ := Nat.exists_eq_add_one.mpr hpos
    simp only [expandLoop, hfind, hsub]
    rfl
  | round hfind hstep _ ih =>
    obtain ⟨fuel, rfl⟩ := Nat.exists_eq_add_one.mpr hpos
    have hlt := findDollar_lt hfind
    have hnext := expandStep_lt path name mask hstep
    simp only [expandLoop, hfind, hstep]
    exact ih (by omega) (by omega)

private theorem expandLoop_scan (cs : Str) {fuel : ℕ} (hfuel : cs.length < fuel) :
    expandLoop cs path name mask fuel 0 [] = .ok (scan path name mask cs) := by
  have h := expands_scan path name mask [] cs []
  rw [List.nil_append, List.nil_append] at h
  exact expandLoop_of_expands path name mask h (by omega) (by omega)

end Loop

/-- The loop ends, with every substring inside the command, and its result is the scan. -/
theorem expands_iff_scan (cs path name : Str) (mask : Mask) :
    (∀ r, Expands cs path name mask 0 [] r ↔ r = scan path name mask cs) ∧
      ∀ fuel, cs.length < fuel →
        expandLoop cs path name mask fuel 0 [] = .ok (scan path name mask cs) := by
  constructor
  · intro r
    constructor
    · intro h
      have hr := expandLoop_of_expands path name mask h (Nat.succ_pos cs.length) (by omega)
      rw [expandLoop_scan path name mask cs (by omega)] at hr
      exact (Except.ok.inj hr).symm
    · rintro rfl
      simpa using expands_scan path name mask [] cs []
  · intro fuel hfuel
    exact expandLoop_scan path name mask cs hfuel

example : scan "/tmp".toList "a $#".toList 2 "x$$y $@/$# $$# $!$".toList =
    "x$y /tmp/a\\ $# $# !".toList := by decide

/-! ## Templates -/

/-- A command text is made of characters and of places for the two names. -/
inductive Item where
  | char (c : Char)
  | path
  | name
  deriving DecidableEq, Repr

def template (mask : Mask) : Str → List Item
  | [] => []
  | ['$'] => []
  | '$' :: '$' :: cs => .char '$' :: template mask cs
  | '$' :: '@' :: cs => .path :: template mask cs
  | '$' :: '#' :: cs => .name :: template mask cs
  | '$' :: '%' :: cs => (InotifyEvent.dumpTypes mask).map .char ++ template mask cs
  | '$' :: '&' :: cs => (numericMask mask).map .char ++ template mask cs
  | '$' :: c :: cs => template mask (c :: cs)
  | c :: cs => .char c :: template mask cs

def Item.text (path name : Str) : Item → Str
  | .char c => [c]
  | .path => getSafePath path
  | .name => getSafePath name

def render (path name : Str) (items : List Item) : Str := items.flatMap (Item.text path name)

@[simp] theorem render_nil (path name : Str) : render path name [] = [] := rfl

@[simp] theorem render_cons (path name : Str) (i : Item) (items : List Item) :
    render path name (i :: items) = i.text path name ++ render path name items := rfl

@[simp] theorem render_append (path name : Str) (l l' : List Item) :
    render path name (l ++ l') = render path name l ++ render path name l' :=
  List.flatMap_append

@[simp] theorem render_chars (path name s : Str) :
    render path name (s.map .char) = s := by
  induction s with
  | nil => rfl
  | cons c s ih => rw [List.map_cons, render_cons, ih]; rfl

/-- The template is the scan with the two names left open. -/
private theorem render_template (path name : Str) (mask : Mask) (cs : Str) :
    render path name (template mask cs) = scan path name mask cs := by
  fun_induction template mask cs with
  | case1 => rfl
  | case2 => rfl
  | case3 cs ih => rw [render_cons, ih]; rfl
  | case4 cs ih => rw [render_cons, ih]; rfl
  | case5 cs ih => rw [render_cons, ih]; rfl
  | case6 cs ih => rw [render_append, render_chars, ih]; rfl
  | case7 cs ih => rw [render_append, render_chars, ih]; rfl
  | case8 c cs h1 h2 h3 h4 h5 ih =>
    have hnone : placeholder path name mask c = none := by
      rw [placeholder.eq_6 path name mask c h1 h2 h3 h4 h5]
    rw [ih, scan_cons path name mask h1, scan, hnone]
  | case9 c cs h1 h2 h3 h4 h5 h6 h7 ih =>
    have hc : c ≠ '$' := by
      rintro rfl
      cases cs with
      | nil => exact h1 rfl rfl
      | cons d ds => exact h7 d ds rfl rfl
    rw [render_cons, ih, scan_cons path name mask hc]
    rfl

/-- The expansion never fails, and gives the text of the template. -/
theorem expandCmd_eq (cs path name : Str) (mask : Mask) :
    expandCmd cs path name mask = .ok (render path name (template mask cs)) := by
  rw [render_template, expandCmd, expandLoop_scan path name mask cs (by omega)]

end Incron.UserTable
