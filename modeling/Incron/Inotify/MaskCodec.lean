import Incron.Inotify.EventMask
import Incron.Text.StrTok
import Mathlib.Tactic.IntervalCases

/-! What reading back a dumped mask gives: bit by bit, the text of `DumpTypes` names the
mask except for one half of `IN_CLOSE` next to `IN_MOVE_SELF`. -/
namespace Incron.InotifyEvent

/-- The OR of the values of the symbols, as `IncronTabEntry::Parse` collects it. -/
def orNames (names : List Str) : Mask := names.foldl (fun u s => u ||| getMaskByName s) 0

def namedBits : Mask :=
  inAllEvents ||| inUnmount ||| inQOverflow ||| inIgnored ||| inIsdir ||| inOneshot |||
    inDontFollow ||| inOnlydir

/-! ## `IsType` by bits -/

private def bits (t : Mask) : List ℕ := (List.range 32).filter (t.getLsbD ·)

private theorem isType_eq_all (m t : Mask) (ht : t ≠ 0) :
    isType m t = (bits t).all (m.getLsbD ·) := by
  rw [Bool.eq_iff_iff]
  simp only [isType, bits, Bool.and_eq_true, bne_iff_ne, ne_eq, beq_iff_eq, List.all_eq_true,
    List.mem_filter, List.mem_range, and_imp]
  constructor
  · rintro ⟨-, h⟩ i hi hti
    have hz : (~~~m &&& t).getLsbD i = false := by
      rw [h]
      simp
    rw [BitVec.getLsbD_and, BitVec.getLsbD_not, hti] at hz
    simpa [hi] using hz
  · intro h
    have hsub : m &&& t = t := by
      ext i hi
      have := h i hi
      simp only [BitVec.getLsbD_eq_getElem hi] at this
      cases hti : t[i] <;> simp_all
    refine ⟨by rw [hsub]; exact ht, ?_⟩
    ext i hi
    have := h i hi
    simp only [BitVec.getLsbD_eq_getElem hi] at this
    cases hti : t[i] <;> simp_all

private theorem isType_of_bits (m t : Mask) (l : List ℕ) (ht : t ≠ 0) (hl : bits t = l) :
    isType m t = l.all (m.getLsbD ·) := hl ▸ isType_eq_all m t ht

section Types
variable (m : Mask)

private theorem isType_access : isType m inAccess = [0].all (m.getLsbD ·) :=
  isType_of_bits m _ _ (by decide) (by decide)
private theorem isType_modify : isType m inModify = [1].all (m.getLsbD ·) :=
  isType_of_bits m _ _ (by decide) (by decide)
private theorem isType_attrib : isType m inAttrib = [2].all (m.getLsbD ·) :=
  isType_of_bits m _ _ (by decide) (by decide)
theorem isType_closeWrite : isType m inCloseWrite = [3].all (m.getLsbD ·) :=
  isType_of_bits m _ _ (by decide) (by decide)
theorem isType_closeNowrite : isType m inCloseNowrite = [4].all (m.getLsbD ·) :=
  isType_of_bits m _ _ (by decide) (by decide)
private theorem isType_open : isType m inOpen = [5].all (m.getLsbD ·) :=
  isType_of_bits m _ _ (by decide) (by decide)
private theorem isType_movedFrom : isType m inMovedFrom = [6].all (m.getLsbD ·) :=
  isType_of_bits m _ _ (by decide) (by decide)
private theorem isType_movedTo : isType m inMovedTo = [7].all (m.getLsbD ·) :=
  isType_of_bits m _ _ (by decide) (by decide)
private theorem isType_create : isType m inCreate = [8].all (m.getLsbD ·) :=
  isType_of_bits m _ _ (by decide) (by decide)
private theorem isType_delete : isType m inDelete = [9].all (m.getLsbD ·) :=
  isType_of_bits m _ _ (by decide) (by decide)
private theorem isType_deleteSelf : isType m inDeleteSelf = [10].all (m.getLsbD ·) :=
  isType_of_bits m _ _ (by decide) (by decide)
theorem isType_moveSelf : isType m inMoveSelf = [11].all (m.getLsbD ·) :=
  isType_of_bits m _ _ (by decide) (by decide)
private theorem isType_unmount : isType m inUnmount = [13].all (m.getLsbD ·) :=
  isType_of_bits m _ _ (by decide) (by decide)
private theorem isType_qOverflow : isType m inQOverflow = [14].all (m.getLsbD ·) :=
  isType_of_bits m _ _ (by decide) (by decide)
private theorem isType_ignored : isType m inIgnored = [15].all (m.getLsbD ·) :=
  isType_of_bits m _ _ (by decide) (by decide)
private theorem isType_onlydir : isType m inOnlydir = [24].all (m.getLsbD ·) :=
  isType_of_bits m _ _ (by decide) (by decide)
private theorem isType_dontFollow : isType m inDontFollow = [25].all (m.getLsbD ·) :=
  isType_of_bits m _ _ (by decide) (by decide)
private theorem isType_isdir : isType m inIsdir = [30].all (m.getLsbD ·) :=
  isType_of_bits m _ _ (by decide) (by decide)
private theorem isType_oneshot : isType m inOneshot = [31].all (m.getLsbD ·) :=
  isType_of_bits m _ _ (by decide) (by decide)
private theorem isType_close : isType m inClose = [3, 4].all (m.getLsbD ·) :=
  isType_of_bits m _ _ (by decide) (by decide)
private theorem isType_move : isType m inMove = [6, 7].all (m.getLsbD ·) :=
  isType_of_bits m _ _ (by decide) (by decide)
private theorem isType_allEvents :
    isType m inAllEvents = [0, 1, 2, 3, 4, 5, 6, 7, 8, 9, 10, 11].all (m.getLsbD ·) :=
  isType_of_bits m _ _ (by decide) (by decide)

end Types

/-! ## The text is the joined list of symbols -/

/-- `s` is the text of the symbols in `l`. -/
structure Writes (s : Str) (l : List (Str × Mask)) : Prop where
  text : s = [','].intercalate (l.map Prod.fst)
  nonempty : ∀ x ∈ l, x.1 ≠ []

theorem Writes.isEmpty_iff {s : Str} {l : List (Str × Mask)} (h : Writes s l) :
    s = [] ↔ l = [] := by
  constructor
  · intro hs
    cases l with
    | nil => rfl
    | cons x l =>
      have hx := h.nonempty x (by simp)
      have ht := h.text
      rw [hs, List.map_cons] at ht
      cases hl : l.map Prod.fst <;> rw [hl] at ht <;> simp [hx] at ht
  · rintro rfl
    simpa using h.text

private theorem intercalate_concat (l : List Str) (hl : l ≠ []) (s : Str) :
    [','].intercalate (l ++ [s]) = [','].intercalate l ++ ',' :: s := by
  induction l with
  | nil => exact absurd rfl hl
  | cons x l ih =>
    cases l with
    | nil => simp
    | cons y l =>
      have := ih (by simp)
      simp only [List.cons_append] at this ⊢
      rw [List.intercalate_cons_cons, this, List.intercalate_cons_cons]
      simp

theorem Writes.name {s : Str} {l : List (Str × Mask)} (h : Writes s l) (name : String)
    (t : Mask) (hn : name.toList ≠ []) : Writes (dumpName name s) (l ++ [(name.toList, t)]) := by
  refine ⟨?_, ?_⟩
  · unfold dumpName
    split_ifs with hs
    · rw [h.isEmpty_iff.mp hs]; simp
    · have hl : l.map Prod.fst ≠ [] := by simpa using mt h.isEmpty_iff.mpr hs
      rw [List.map_append, List.map_singleton, intercalate_concat _ hl, ← h.text]
  · intro x hx
    rcases List.mem_append.mp hx with hx | hx
    · exact h.nonempty x hx
    · rw [List.mem_singleton.mp hx]; exact hn

theorem Writes.type {s : Str} {l : List (Str × Mask)} (h : Writes s l) (u t : Mask)
    (name : String) (hn : name.toList ≠ []) :
    Writes (dumpType u t name s) (l ++ pick (isType u t) name t) := by
  unfold dumpType pick
  split_ifs
  · exact h.name name t hn
  · simpa using h

/-- A composite symbol, or its two halves in the `else`. -/
theorem Writes.choice {s : Str} {l : List (Str × Mask)} (h : Writes s l)
    (u t t₁ t₂ : Mask) (name name₁ name₂ : String) (hn : name.toList ≠ [])
    (hn₁ : name₁.toList ≠ []) (hn₂ : name₂.toList ≠ []) :
    Writes (if isType u t then dumpName name s else dumpType u t₂ name₂ (dumpType u t₁ name₁ s))
      (l ++ pick (isType u t) name t ++ pick (!isType u t && isType u t₁) name₁ t₁ ++
        pick (!isType u t && isType u t₂) name₂ t₂) := by
  cases hb : isType u t with
  | true => simpa [pick] using h.name name t hn
  | false =>
    have := (h.type u t₁ name₁ hn₁).type u t₂ name₂ hn₂
    simpa [pick] using this

private theorem dumpEvents_writes (m : Mask) : Writes (dumpEvents m) (dumpedEvents m) := by
  unfold dumpEvents dumpedEvents
  split
  · exact ⟨by simp, by simp⟩
  · have h : Writes [] [] := ⟨by simp, by simp⟩
    have h := h.type m inAccess "IN_ACCESS" (by decide)
    have h := h.type m inModify "IN_MODIFY" (by decide)
    have h := h.type m inAttrib "IN_ATTRIB" (by decide)
    have h := h.type m inCreate "IN_CREATE" (by decide)
    have h := h.type m inDelete "IN_DELETE" (by decide)
    have h := h.type m inDeleteSelf "IN_DELETE_SELF" (by decide)
    have h := h.type m inOpen "IN_OPEN" (by decide)
    have h := h.type m inClose "IN_CLOSE" (by decide)
    have h := h.choice m inMoveSelf inCloseWrite inCloseNowrite "IN_MOVE_SELF"
      "IN_CLOSE_WRITE" "IN_CLOSE_NOWRITE" (by decide) (by decide) (by decide)
    exact h.choice m inMove inMovedFrom inMovedTo "IN_MOVE" "IN_MOVED_FROM" "IN_MOVED_TO"
      (by decide) (by decide) (by decide)

theorem dumpTypes_writes (m : Mask) : Writes (dumpTypes m) (dumped m) := by
  have h := dumpEvents_writes m
  have h := h.type m inUnmount "IN_UNMOUNT" (by decide)
  have h := h.type m inQOverflow "IN_Q_OVERFLOW" (by decide)
  have h := h.type m inIgnored "IN_IGNORED" (by decide)
  have h := h.type m inIsdir "IN_ISDIR" (by decide)
  have h := h.type m inOneshot "IN_ONESHOT" (by decide)
  have h := h.type m inDontFollow "IN_DONT_FOLLOW" (by decide)
  exact h.type m inOnlydir "IN_ONLYDIR" (by decide)

theorem dumpTypes_eq (m : Mask) :
    dumpTypes m = [','].intercalate ((dumped m).map Prod.fst) := (dumpTypes_writes m).text

/-! ## Reading the symbols back -/

/-- What the reader relies on about a symbol and its value. -/
private def WellNamed (x : Str × Mask) : Prop :=
  x.1 ≠ [] ∧ ',' ∉ x.1 ∧ getMaskByName x.1 = x.2

private theorem maskNames_wellNamed : ∀ x ∈ maskNames, WellNamed x := by
  unfold WellNamed
  decide

theorem forall_mem_pick {p : Str × Mask → Prop} {b : Bool} {name : String} {t : Mask}
    (h : p (name.toList, t)) : ∀ x ∈ pick b name t, p x := by
  intro x hx
  cases b
  · simp [pick] at hx
  · rw [List.mem_singleton.mp hx]; exact h

theorem mem_maskNames_of_mem_dumped (m : Mask) : ∀ x ∈ dumped m, x ∈ maskNames := by
  have hp : ∀ (b : Bool) (name : String) (t : Mask), (name.toList, t) ∈ maskNames →
      ∀ x ∈ pick b name t, x ∈ maskNames := fun _ _ _ h => forall_mem_pick h
  have hevents : ∀ x ∈ dumpedEvents m, x ∈ maskNames := by
    unfold dumpedEvents
    split
    · decide
    · simp only [List.forall_mem_append]
      refine ⟨⟨⟨⟨⟨⟨⟨⟨⟨⟨⟨⟨⟨?_, ?_⟩, ?_⟩, ?_⟩, ?_⟩, ?_⟩, ?_⟩, ?_⟩, ?_⟩, ?_⟩, ?_⟩, ?_⟩, ?_⟩, ?_⟩ <;>
        exact hp _ _ _ (by decide)
  unfold dumped
  simp only [List.forall_mem_append]
  refine ⟨⟨⟨⟨⟨⟨⟨hevents, ?_⟩, ?_⟩, ?_⟩, ?_⟩, ?_⟩, ?_⟩, ?_⟩ <;> exact hp _ _ _ (by decide)

private theorem dumped_wellNamed (m : Mask) : ∀ x ∈ dumped m, WellNamed x := fun x hx =>
  maskNames_wellNamed x (mem_maskNames_of_mem_dumped m x hx)

/-- Splitting a dumped mask at the commas gives the symbols that were written. -/
theorem tokens_dumpTypes (m : Mask) :
    StringTokenizer.tokens { str := dumpTypes m } = (dumped m).map Prod.fst := by
  rw [dumpTypes_eq]
  apply StringTokenizer.tokens_joined
  · simpa using fun s t hx => (dumped_wellNamed m (s, t) hx).1
  · simpa using fun s t hx => (dumped_wellNamed m (s, t) hx).2.1

private theorem getLsbD_foldl_or (l : List Str) (a : Mask) (i : ℕ) :
    (l.foldl (fun u s => u ||| getMaskByName s) a).getLsbD i =
      (a.getLsbD i || l.any fun s => (getMaskByName s).getLsbD i) := by
  induction l generalizing a with
  | nil => simp
  | cons s l ih => simp [ih, Bool.or_assoc]

/-- A bit is read back when some written symbol contains it. -/
theorem getLsbD_orNames_dumped (m : Mask) (i : ℕ) :
    (orNames ((dumped m).map Prod.fst)).getLsbD i = (dumped m).any (·.2.getLsbD i) := by
  have hany : ((dumped m).map Prod.fst).any (fun s => (getMaskByName s).getLsbD i) =
      (dumped m).any (·.2.getLsbD i) := by
    rw [List.any_map, Bool.eq_iff_iff, List.any_eq_true, List.any_eq_true]
    refine exists_congr fun x => and_congr_right fun hx => ?_
    simp [(dumped_wellNamed m x hx).2.2]
  simp [orNames, getLsbD_foldl_or, hany]

private theorem any_pick (b : Bool) (name : String) (t : Mask) (i : ℕ) :
    (pick b name t).any (·.2.getLsbD i) = (b && t.getLsbD i) := by
  cases b <;> simp [pick]

/-- The half of `IN_CLOSE` that stays unwritten next to `IN_MOVE_SELF`. -/
def lostBit (m : Mask) (i : ℕ) : Bool :=
  (i == 3 || i == 4) && m.getLsbD 11 && m.getLsbD 3 != m.getLsbD 4

private theorem any_dumped (m : Mask) (i : ℕ) (hi : i < 32) :
    (dumped m).any (·.2.getLsbD i) =
      (m.getLsbD i && namedBits.getLsbD i && !lostBit m i) := by
  have hall := isType_allEvents m
  unfold dumped dumpedEvents
  cases h : isType m inAllEvents with
  | true =>
    rw [h] at hall
    simp only [List.all_cons, List.all_nil, Bool.and_true, Bool.true_eq,
      Bool.and_eq_true] at hall
    simp only [if_true, List.any_append, any_pick, List.any_cons, List.any_nil, Bool.or_false,
      isType_unmount, isType_qOverflow, isType_ignored, isType_onlydir, isType_dontFollow,
      isType_isdir, isType_oneshot, List.all_cons, List.all_nil, Bool.and_true]
    interval_cases i <;>
      simp [lostBit, namedBits, inAccess, inModify, inAttrib, inCloseWrite, inCloseNowrite,
        inOpen, inMovedFrom, inMovedTo, inCreate, inDelete, inDeleteSelf, inMoveSelf, inUnmount,
        inQOverflow, inIgnored, inOnlydir, inDontFollow, inIsdir, inOneshot, inAllEvents] <;>
      grind
  | false =>
    simp only [Bool.false_eq_true, if_false, List.any_append, any_pick, isType_access,
      isType_modify, isType_attrib, isType_closeWrite, isType_closeNowrite, isType_open,
      isType_movedFrom, isType_movedTo, isType_create, isType_delete, isType_deleteSelf,
      isType_moveSelf, isType_unmount, isType_qOverflow, isType_ignored, isType_onlydir,
      isType_dontFollow, isType_isdir, isType_oneshot, isType_close, isType_move,
      List.all_cons, List.all_nil, Bool.and_true]
    interval_cases i <;>
      simp [lostBit, namedBits, inAccess, inModify, inAttrib, inCloseWrite, inCloseNowrite,
        inOpen, inMovedFrom, inMovedTo, inCreate, inDelete, inDeleteSelf, inMoveSelf, inUnmount,
        inQOverflow, inIgnored, inClose, inMove, inOnlydir, inDontFollow, inIsdir, inOneshot,
        inAllEvents] <;>
      grind

theorem getLsbD_readBack (m : Mask) (i : ℕ) (hi : i < 32) :
    (orNames (StringTokenizer.tokens { str := dumpTypes m })).getLsbD i =
      (m.getLsbD i && namedBits.getLsbD i && !lostBit m i) := by
  rw [tokens_dumpTypes, getLsbD_orNames_dumped, any_dumped m i hi]

/-- Dumping and reading back keeps every named bit exactly when `IN_MOVE_SELF` does not
stand next to one half of `IN_CLOSE` alone. -/
theorem readBack_eq_iff (m : Mask) :
    orNames (StringTokenizer.tokens { str := dumpTypes m }) = m &&& namedBits ↔
      ¬ (isType m inMoveSelf = true ∧ isType m inCloseWrite ≠ isType m inCloseNowrite) := by
  have hbits : (isType m inMoveSelf = true ∧ isType m inCloseWrite ≠ isType m inCloseNowrite) ↔
      m.getLsbD 11 = true ∧ m.getLsbD 3 ≠ m.getLsbD 4 := by
    simp [isType_moveSelf, isType_closeWrite, isType_closeNowrite]
  rw [hbits]
  constructor
  · rintro heq ⟨hself, hne⟩
    -- the half that is set is the bit that differs
    have hlost : ∀ i < 32, (m.getLsbD i && namedBits.getLsbD i && !lostBit m i) =
        (m.getLsbD i && namedBits.getLsbD i) := by
      intro i hi
      rw [← getLsbD_readBack m i hi, heq, BitVec.getLsbD_and]
    have h3 := hlost 3 (by decide)
    have h4 := hlost 4 (by decide)
    have hn3 : namedBits.getLsbD 3 = true := by decide
    have hn4 : namedBits.getLsbD 4 = true := by decide
    simp only [lostBit, hself, hn3, hn4, bne_iff_ne.mpr hne] at h3 h4
    cases hb3 : m.getLsbD 3 <;> cases hb4 : m.getLsbD 4 <;> simp_all
  · intro h
    apply BitVec.eq_of_getLsbD_eq
    intro i hi
    have hkept : lostBit m i = false := by
      rw [Bool.eq_false_iff]
      intro hl
      simp only [lostBit, Bool.and_eq_true, bne_iff_ne] at hl
      exact h ⟨hl.1.2, hl.2⟩
    rw [getLsbD_readBack m i hi, hkept, BitVec.getLsbD_and]
    simp

/-- `IN_MOVE_SELF | IN_CLOSE_WRITE` is written as `IN_MOVE_SELF` alone. -/
theorem readBack_moveSelf_closeWrite :
    orNames (StringTokenizer.tokens { str := dumpTypes (inMoveSelf ||| inCloseWrite) }) ≠
      (inMoveSelf ||| inCloseWrite) &&& namedBits := by
  decide

/-! ## A text written once is written again -/

def readBack (m : Mask) : Mask := orNames (StringTokenizer.tokens { str := dumpTypes m })

private theorem all_readBack (m : Mask) (l : List ℕ) (hl : ∀ i ∈ l, namedBits.getLsbD i = true)
    (hkept : ∀ i ∈ l, lostBit m i = false) :
    l.all ((readBack m).getLsbD ·) = l.all (m.getLsbD ·) := by
  rw [Bool.eq_iff_iff, List.all_eq_true, List.all_eq_true]
  refine forall₂_congr fun i hi => ?_
  have hlt : i < 32 := by
    by_contra hge
    have h := hl i hi
    rw [BitVec.getLsbD_of_ge _ _ (by omega)] at h
    exact Bool.noConfusion h
  rw [readBack, getLsbD_readBack m i hlt, hl i hi, hkept i hi, Bool.and_true, Bool.not_false,
    Bool.and_true]

/-- A type that holds both halves of `IN_CLOSE` is set after reading if it was before: only
one half alone is ever lost. -/
private theorem all_readBack_close (m : Mask) (l : List ℕ)
    (hl : ∀ i ∈ l, namedBits.getLsbD i = true) (h3 : 3 ∈ l) (h4 : 4 ∈ l) :
    l.all ((readBack m).getLsbD ·) = l.all (m.getLsbD ·) := by
  by_cases heq : m.getLsbD 3 = m.getLsbD 4
  · exact all_readBack m l hl fun i _ => by
      rw [lostBit, heq, bne_self_eq_false, Bool.and_false]
  · have hfalse : ∀ a b : Bool, a ≠ b → (a = false ∨ b = false) := by decide
    have hm : l.all (m.getLsbD ·) = false := by
      rw [List.all_eq_false]
      rcases hfalse _ _ heq with h | h
      · exact ⟨3, h3, Bool.eq_false_iff.mp h⟩
      · exact ⟨4, h4, Bool.eq_false_iff.mp h⟩
    have hr : l.all ((readBack m).getLsbD ·) = false := by
      rw [List.all_eq_false]
      rcases hfalse _ _ heq with h | h
      · exact ⟨3, h3, by rw [readBack, getLsbD_readBack m 3 (by decide), h]; simp⟩
      · exact ⟨4, h4, by rw [readBack, getLsbD_readBack m 4 (by decide), h]; simp⟩
    rw [hm, hr]

private theorem isType_readBack (m t : Mask) (ht : t ≠ 0)
    (hn : ∀ i ∈ bits t, namedBits.getLsbD i = true)
    (hk : (3 ∈ bits t ∧ 4 ∈ bits t) ∨ ∀ i ∈ bits t, lostBit m i = false) :
    isType (readBack m) t = isType m t := by
  rw [isType_eq_all _ t ht, isType_eq_all _ t ht]
  exact hk.elim (fun h => all_readBack_close m _ hn h.1 h.2) (all_readBack m _ hn)

private theorem lostBit_of_ne {m : Mask} {i : ℕ} (h3 : i ≠ 3) (h4 : i ≠ 4) :
    lostBit m i = false := by
  simp [lostBit, h3, h4]

private theorem isType_readBack_other (m t : Mask) (ht : t ≠ 0)
    (hn : ∀ i ∈ bits t, namedBits.getLsbD i = true ∧ i ≠ 3 ∧ i ≠ 4) :
    isType (readBack m) t = isType m t :=
  isType_readBack m t ht (fun i hi => (hn i hi).1)
    (Or.inr fun i hi => lostBit_of_ne (hn i hi).2.1 (hn i hi).2.2)

private theorem isType_readBack_half (m t : Mask) (ht : t ≠ 0)
    (hn : ∀ i ∈ bits t, namedBits.getLsbD i = true) :
    (!isType (readBack m) inMoveSelf && isType (readBack m) t) =
      (!isType m inMoveSelf && isType m t) := by
  rw [isType_readBack_other m inMoveSelf (by decide) (by decide)]
  cases hself : isType m inMoveSelf
  · rw [isType_readBack m t ht hn (Or.inr fun i _ => ?_)]
    rw [isType_moveSelf] at hself
    simp only [List.all_cons, List.all_nil, Bool.and_true] at hself
    rw [lostBit, hself, Bool.and_false, Bool.false_and]
  · rfl

/-- The mask that is read back is written with the same symbols, also where a bit was lost. -/
theorem dumped_readBack (m : Mask) : dumped (readBack m) = dumped m := by
  have other := isType_readBack_other m
  have half := isType_readBack_half m
  have both := fun t ht hn h => isType_readBack m t ht hn (Or.inl h)
  unfold dumped dumpedEvents
  rw [both inAllEvents (by decide) (by decide) (by decide),
    other inAccess (by decide) (by decide), other inModify (by decide) (by decide),
    other inAttrib (by decide) (by decide), other inCreate (by decide) (by decide),
    other inDelete (by decide) (by decide), other inDeleteSelf (by decide) (by decide),
    other inOpen (by decide) (by decide), both inClose (by decide) (by decide) (by decide),
    half inCloseWrite (by decide) (by decide), half inCloseNowrite (by decide) (by decide),
    other inMoveSelf (by decide) (by decide), other inMove (by decide) (by decide),
    other inMovedFrom (by decide) (by decide), other inMovedTo (by decide) (by decide),
    other inUnmount (by decide) (by decide), other inQOverflow (by decide) (by decide),
    other inIgnored (by decide) (by decide), other inIsdir (by decide) (by decide),
    other inOneshot (by decide) (by decide), other inDontFollow (by decide) (by decide),
    other inOnlydir (by decide) (by decide)]

end Incron.InotifyEvent
