import Incron.Inotify.MaskCodec
import Incron.Table.ParseLine

/-! The mask field of `IncronTabEntry::ToString` as a list of symbols, and what
`IncronTabEntry::Parse` makes of it apart from the mask itself. -/
namespace Incron.IncronTabEntry
open InotifyEvent

def withoutMask (e : IncronTabEntry) : IncronTabEntry := { e with mask := 0 }

def symbols (e : IncronTabEntry) : List (Str × Mask) :=
  dumped e.mask ++ pick e.noRecursion ctNoRecursion 0 ++ pick (!e.noLoop) ctLoopable 0 ++
    pick e.dotDirs ctDotDirs 0

def maskSymbols (e : IncronTabEntry) : List (Str × Mask) :=
  if symbols e = [] then [("IN_ALL_EVENTS".toList, inAllEvents)] else symbols e

/-! ## The text of the field -/

private theorem addSymbol_eq (b : Bool) (name : String) (s : Str) :
    addSymbol b name s = if b then dumpName name s else s := by
  unfold addSymbol dumpName
  cases b <;> split <;> rfl

private theorem writes_addSymbol {s : Str} {l : List (Str × Mask)} (h : Writes s l) (b : Bool)
    (name : String) (t : Mask) (hn : name.toList ≠ []) :
    Writes (addSymbol b name s) (l ++ pick b name t) := by
  rw [addSymbol_eq]
  cases b with
  | true => exact h.name name t hn
  | false => simpa [pick] using h

theorem maskField_eq (e : IncronTabEntry) :
    e.maskField = [','].intercalate ((maskSymbols e).map Prod.fst) := by
  have h := dumpTypes_writes e.mask
  have h := writes_addSymbol h e.noRecursion ctNoRecursion 0 (by decide)
  have h := writes_addSymbol h (!e.noLoop) ctLoopable 0 (by decide)
  have h := writes_addSymbol h e.dotDirs ctDotDirs 0 (by decide)
  unfold maskSymbols
  by_cases hs : symbols e = []
  · rw [if_pos hs, maskField, if_pos (h.isEmpty_iff.mpr hs)]
    rfl
  · rw [if_neg hs, maskField, if_neg (mt h.isEmpty_iff.mp hs)]
    exact h.text

private def fieldSymbols : List (Str × Mask) :=
  maskNames ++ [(ctNoRecursion.toList, 0), (ctLoopable.toList, 0), (ctDotDirs.toList, 0)]

private theorem mem_fieldSymbols {e : IncronTabEntry} {x : Str × Mask} (hx : x ∈ maskSymbols e) :
    x ∈ fieldSymbols := by
  revert x
  unfold maskSymbols
  split
  · decide
  · have hn : ∀ x ∈ dumped e.mask, x ∈ fieldSymbols := fun x hx =>
      List.mem_append_left _ (mem_maskNames_of_mem_dumped _ x hx)
    simp only [symbols, List.forall_mem_append]
    exact ⟨⟨⟨hn, forall_mem_pick (by decide)⟩, forall_mem_pick (by decide)⟩,
      forall_mem_pick (by decide)⟩

def isSymbolChar (c : Char) : Bool := c.isAlpha || c = '_' || c = '='

private theorem fieldSymbols_ok : ∀ x ∈ fieldSymbols,
    x.1 ≠ [] ∧ x.1.length ≤ 16 ∧ x.1.all isSymbolChar = true := by
  decide

private theorem maskSymbols_ne_nil (e : IncronTabEntry) : maskSymbols e ≠ [] := by
  unfold maskSymbols
  split_ifs with h
  · simp
  · exact h

private theorem mem_intercalate {c : Char} {l : List Str} (h : c ∈ [','].intercalate l) :
    c = ',' ∨ ∃ s ∈ l, c ∈ s := by
  induction l with
  | nil => simp at h
  | cons s l ih =>
    cases l with
    | nil => exact Or.inr ⟨s, by simp, by simpa using h⟩
    | cons s' l =>
      rw [List.intercalate_cons_cons] at h
      rcases List.mem_append.mp h with h | h
      · rcases List.mem_append.mp h with h | h
        · exact Or.inr ⟨s, by simp, h⟩
        · exact Or.inl (by simpa using h)
      · rcases ih h with h | ⟨s'', hs, hc⟩
        · exact Or.inl h
        · exact Or.inr ⟨s'', by simp [List.mem_cons.mp hs], hc⟩

theorem mem_maskField {e : IncronTabEntry} {c : Char} (h : c ∈ e.maskField) :
    c = ',' ∨ isSymbolChar c = true := by
  rw [maskField_eq] at h
  refine (mem_intercalate h).imp id ?_
  rintro ⟨s, hs, hc⟩
  obtain ⟨x, hx, rfl⟩ := List.mem_map.mp hs
  exact List.all_eq_true.mp (fieldSymbols_ok x (mem_fieldSymbols hx)).2.2 c hc

theorem maskField_ne_nil (e : IncronTabEntry) : e.maskField ≠ [] := by
  rw [maskField_eq]
  cases h : maskSymbols e with
  | nil => exact absurd h (maskSymbols_ne_nil e)
  | cons x l =>
    have hx := (fieldSymbols_ok x (mem_fieldSymbols (e := e) (by simp [h]))).1
    cases l <;> simp [hx]

/-! ## The length of the field -/

private theorem length_append_pick_le {l : List (Str × Mask)} {n : ℕ} (h : l.length ≤ n)
    (b : Bool) (name : String) (t : Mask) : (l ++ pick b name t).length ≤ n + 1 := by
  cases b <;> simp [pick] <;> omega

private theorem length_pick_le (b : Bool) (name : String) (t : Mask) :
    (pick b name t).length ≤ 1 := by
  cases b <;> simp [pick]

private theorem length_symbols_le (e : IncronTabEntry) : (symbols e).length ≤ 24 := by
  have hevents : (dumpedEvents e.mask).length ≤ 14 := by
    unfold dumpedEvents
    split
    · simp
    · repeat apply length_append_pick_le
      exact length_pick_le _ _ _
  unfold symbols dumped
  repeat apply length_append_pick_le
  exact hevents

private theorem length_intercalate_le (l : List Str) (n : ℕ) (h : ∀ s ∈ l, s.length ≤ n) :
    ([','].intercalate l).length ≤ l.length * (n + 1) := by
  induction l with
  | nil => simp
  | cons s l ih =>
    have hs := h s (by simp)
    have hl := ih fun s' hs' => h s' (by simp [hs'])
    cases l with
    | nil => simp; omega
    | cons s' l =>
      rw [List.intercalate_cons_cons]
      simp only [List.length_append, List.length_cons, List.length_nil, Nat.add_mul] at hl ⊢
      omega

/-- Every mask field is shorter than a line buffer. -/
theorem length_maskField_lt (e : IncronTabEntry) : e.maskField.length < 500 := by
  have hcount : (maskSymbols e).length ≤ 24 := by
    unfold maskSymbols
    split_ifs
    · simp
    · exact length_symbols_le e
  have hlen := length_intercalate_le ((maskSymbols e).map Prod.fst) 16 (by
    intro s hs
    obtain ⟨x, hx, rfl⟩ := List.mem_map.mp hs
    exact (fieldSymbols_ok x (mem_fieldSymbols hx)).2.1)
  rw [maskField_eq]
  rw [List.length_map] at hlen
  omega

/-! ## Reading the field -/

private theorem isDigit_of_isSymbolChar {c : Char} (h : isSymbolChar c = true) :
    c.isDigit = false := by
  change ((decide ('A'.val ≤ c.val ∧ c.val ≤ 'Z'.val) || (decide ('a'.val ≤ c.val) &&
    decide (c.val ≤ 'z'.val))) || decide (c = '_') || decide (c = '=')) = true at h
  simp only [Bool.or_eq_true, Bool.and_eq_true, decide_eq_true_eq] at h
  rcases h with ((h | h) | rfl) | rfl
  · simp only [Char.isDigit, Bool.and_eq_false_iff, decide_eq_false_iff_not]
    right
    exact fun h9 => absurd (UInt32.le_trans h.1 h9) (by decide)
  · simp only [Char.isDigit, Bool.and_eq_false_iff, decide_eq_false_iff_not]
    right
    exact fun h9 => absurd (UInt32.le_trans h.1 h9) (by decide)
  · decide
  · decide

private theorem scanULong_none {s : Str} (h : ∀ c ∈ s, c = ',' ∨ isSymbolChar c = true) :
    Stdio.scanULong s = none := by
  cases s with
  | nil => decide
  | cons c s =>
    have hc := h c (by simp)
    have hnul : c ≠ '\x00' := by rintro rfl; revert hc; decide
    have hspace : Stdio.isSpace c = false := by
      simp only [Stdio.isSpace, Bool.or_eq_false_iff, decide_eq_false_iff_not]
      refine ⟨⟨⟨⟨⟨?_, ?_⟩, ?_⟩, ?_⟩, ?_⟩, ?_⟩ <;> (rintro rfl; revert hc; decide)
    have hminus : c ≠ '-' := by rintro rfl; revert hc; decide
    have hplus : c ≠ '+' := by rintro rfl; revert hc; decide
    have hdigit : c.isDigit = false := hc.elim (by rintro rfl; decide) isDigit_of_isSymbolChar
    simp [Stdio.scanULong, Stdio.cString, hnul, hspace, hminus, hplus, hdigit]

private theorem tokens_maskField (e : IncronTabEntry) :
    StringTokenizer.tokens { str := e.maskField } = (maskSymbols e).map Prod.fst := by
  rw [maskField_eq]
  apply StringTokenizer.tokens_joined
  · intro s hs
    obtain ⟨x, hx, rfl⟩ := List.mem_map.mp hs
    exact (fieldSymbols_ok x (mem_fieldSymbols hx)).1
  · intro s hs hc
    obtain ⟨x, hx, rfl⟩ := List.mem_map.mp hs
    have hchars := (fieldSymbols_ok x (mem_fieldSymbols hx)).2.2
    exact absurd (List.all_eq_true.mp hchars _ hc) (by decide)

private theorem applySymbol_event {s : Str} (hs : ∃ t, (s, t) ∈ maskNames) (e : IncronTabEntry) :
    (applySymbol e s).withoutMask = e.withoutMask := by
  have hother : ∀ x ∈ maskNames, x.1 ≠ inNoLoopOld.toList ∧ x.1 ≠ ctLoopable.toList ∧
      x.1 ≠ ctNoRecursion.toList ∧ x.1 ≠ ctDotDirs.toList := by decide
  obtain ⟨t, ht⟩ := hs
  obtain ⟨h1, h2, h3, h4⟩ := hother _ ht
  rw [applySymbol, if_neg h1, if_neg h2, if_neg h3, if_neg h4]
  rfl

private theorem foldl_events (l : List (Str × Mask)) (hl : ∀ x ∈ l, x ∈ maskNames)
    (e : IncronTabEntry) :
    ((l.map Prod.fst).foldl applySymbol e).withoutMask = e.withoutMask := by
  induction l generalizing e with
  | nil => rfl
  | cons x l ih =>
    rw [List.map_cons, List.foldl_cons, ih fun y hy => hl y (by simp [hy])]
    exact applySymbol_event ⟨x.2, hl x (by simp)⟩ e

private theorem foldl_pick (b : Bool) (name : String) (t : Mask) (e : IncronTabEntry) :
    ((pick b name t).map Prod.fst).foldl applySymbol e =
      if b then applySymbol e name.toList else e := by
  cases b <;> rfl

private theorem applySymbol_noRecursion (e : IncronTabEntry) :
    applySymbol e ctNoRecursion.toList = { e with noRecursion := true } := rfl

private theorem applySymbol_loopable (e : IncronTabEntry) :
    applySymbol e ctLoopable.toList = { e with noLoop := false } := rfl

private theorem applySymbol_dotDirs (e : IncronTabEntry) :
    applySymbol e ctDotDirs.toList = { e with dotDirs := true } := rfl

/-- Reading a written mask field into an entry with default flags gives the flags back. -/
theorem parseMask_maskField (e : IncronTabEntry) (p c : Str) :
    (parseMask e.maskField { path := p, cmd := c }).withoutMask =
      { e with path := p, cmd := c, mask := 0 } := by
  have hread : ∀ d : IncronTabEntry, d.noLoop = true → d.noRecursion = false →
      d.dotDirs = false → (((symbols e).map Prod.fst).foldl applySymbol d).withoutMask =
        { e with path := d.path, cmd := d.cmd, mask := 0 } := by
    intro d hl hr hd
    have hev := foldl_events (dumped e.mask) (mem_maskNames_of_mem_dumped e.mask) d
    simp only [symbols, List.map_append, List.foldl_append, foldl_pick]
    generalize ((dumped e.mask).map Prod.fst).foldl applySymbol d = d' at hev ⊢
    simp only [withoutMask, mk.injEq, true_and] at hev
    obtain ⟨hp, hc, hl', hr', hd'⟩ := hev
    simp only [applySymbol_noRecursion, applySymbol_loopable, applySymbol_dotDirs]
    cases h1 : e.noRecursion <;> cases h2 : e.noLoop <;> cases h3 : e.dotDirs <;>
      simp [withoutMask, hp, hc, hl', hr', hd', hl, hr, hd]
  rw [parseMask, scanULong_none fun c => mem_maskField, tokens_maskField]
  unfold maskSymbols
  split_ifs with h
  · -- the default symbol stands for the default flags
    have hflags := hread { path := p, cmd := c } rfl rfl rfl
    rw [h] at hflags
    exact hflags
  · exact hread { path := p, cmd := c } rfl rfl rfl

/-! ## Writing the field again -/

private theorem mask_applySymbol_event {s : Str} (hs : ∃ t, (s, t) ∈ maskNames)
    (e : IncronTabEntry) : (applySymbol e s).mask = e.mask ||| getMaskByName s := by
  have hother : ∀ x ∈ maskNames, x.1 ≠ inNoLoopOld.toList ∧ x.1 ≠ ctLoopable.toList ∧
      x.1 ≠ ctNoRecursion.toList ∧ x.1 ≠ ctDotDirs.toList := by decide
  obtain ⟨t, ht⟩ := hs
  obtain ⟨h1, h2, h3, h4⟩ := hother _ ht
  rw [applySymbol, if_neg h1, if_neg h2, if_neg h3, if_neg h4]

private theorem mask_foldl_events (l : List (Str × Mask)) (hl : ∀ x ∈ l, x ∈ maskNames)
    (e : IncronTabEntry) : ((l.map Prod.fst).foldl applySymbol e).mask =
      (l.map Prod.fst).foldl (fun u s => u ||| getMaskByName s) e.mask := by
  induction l generalizing e with
  | nil => rfl
  | cons x l ih =>
    rw [List.map_cons, List.foldl_cons, List.foldl_cons, ih (fun y hy => hl y (by simp [hy])),
      mask_applySymbol_event ⟨x.2, hl x (by simp)⟩]

/-- The mask that is read from a written field. -/
private theorem mask_parseMask_maskField (e : IncronTabEntry) (p c : Str) :
    (parseMask e.maskField { path := p, cmd := c }).mask =
      if symbols e = [] then inAllEvents else readBack e.mask := by
  rw [parseMask, scanULong_none fun c => mem_maskField, tokens_maskField]
  unfold maskSymbols
  split_ifs with h
  · change (applySymbol { path := p, cmd := c } "IN_ALL_EVENTS".toList).mask = inAllEvents
    rw [mask_applySymbol_event ⟨inAllEvents, by decide⟩]
    change 0 ||| getMaskByName "IN_ALL_EVENTS".toList = inAllEvents
    decide
  · simp only [symbols, List.map_append, List.foldl_append, foldl_pick]
    have hev := mask_foldl_events (dumped e.mask) (mem_maskNames_of_mem_dumped e.mask)
      { path := p, cmd := c }
    generalize ((dumped e.mask).map Prod.fst).foldl applySymbol _ = d at hev ⊢
    rw [readBack, tokens_dumpTypes, orNames, applySymbol_noRecursion, applySymbol_loopable,
      applySymbol_dotDirs]
    split_ifs <;> exact hev

/-- An entry that is read from a written field writes the same field. -/
theorem maskField_parseMask (e : IncronTabEntry) (p c : Str) :
    (parseMask e.maskField { path := p, cmd := c }).maskField = e.maskField := by
  have hmask := mask_parseMask_maskField e p c
  have hflags := parseMask_maskField e p c
  generalize parseMask e.maskField { path := p, cmd := c } = d at hmask hflags ⊢
  simp only [withoutMask, mk.injEq] at hflags
  obtain ⟨-, -, -, hl, hr, hd⟩ := hflags
  have hsymbols : maskSymbols d = maskSymbols e := by
    by_cases h : symbols e = []
    · -- without any symbol the flags are the defaults
      have hnone : pick e.noRecursion ctNoRecursion 0 = [] ∧
          pick (!e.noLoop) ctLoopable 0 = [] ∧ pick e.dotDirs ctDotDirs 0 = [] := by
        simp only [symbols, List.append_eq_nil_iff] at h
        exact ⟨h.1.1.2, h.1.2, h.2⟩
      have hd : symbols d = [("IN_ALL_EVENTS".toList, inAllEvents)] := by
        rw [symbols, hmask, if_pos h, hl, hr, hd, hnone.1, hnone.2.1, hnone.2.2]
        decide
      rw [maskSymbols, hd, maskSymbols, if_pos h, if_neg (by simp)]
    · have hd : symbols d = symbols e := by
        rw [symbols, hmask, if_neg h, dumped_readBack, hl, hr, hd, symbols]
      rw [maskSymbols, hd, maskSymbols]
  rw [maskField_eq, maskField_eq, hsymbols]

end Incron.IncronTabEntry
