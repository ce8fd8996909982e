import Incron.Table.Loading

/-! Loading a table, saving it and loading what was saved. Apart from the masks the second
table is the first one exactly when no entry starts with `#` or outgrows the line buffer. -/
namespace Incron.IncronTab
open IncronTabEntry StringTokenizer

/-- The written line is not a comment and fits into the line buffer, with at least one
character behind its mask field. -/
def RewritesCleanly (e : IncronTabEntry) : Prop :=
  e.path.head? ≠ some '#' ∧
    (getSafePath e.path).length + e.maskField.length + 2 + max e.cmd.length 1 ≤ 999

instance : DecidablePred RewritesCleanly := fun _ => inferInstanceAs (Decidable (_ ∧ _))

structure Loaded (e : IncronTabEntry) : Prop where
  path_ne_nil : e.path ≠ []
  newline_path : '\n' ∉ e.path
  blank : ∀ c ∈ e.path, isBlank c = false
  newline_cmd : '\n' ∉ e.cmd

theorem loaded_of_mem {f : Str} {e : IncronTabEntry} (h : e ∈ entriesOf f) : Loaded e := by
  obtain ⟨s, hs, -⟩ := fromLine_of_mem h
  exact ⟨hs.path_ne_nil, fun hc => (hs.path _ hc).2.1 rfl, fun c hc => (hs.path c hc).2.2,
    fun hc => (hs.cmd _ hc).2 rfl⟩

/-! ## The written line -/

theorem toString_eq (e : IncronTabEntry) :
    e.toString = getSafePath e.path ++ '\t' :: (e.maskField ++ '\t' :: e.cmd) := by
  simp [IncronTabEntry.toString]

theorem length_toString (e : IncronTabEntry) :
    e.toString.length =
      (getSafePath e.path).length + e.maskField.length + 2 + e.cmd.length := by
  simp [toString_eq]
  omega

private theorem newline_not_mem_safe {e : IncronTabEntry} (he : Loaded e) :
    '\n' ∉ getSafePath e.path := fun h =>
  (mem_getSafePath h).elim (by decide) he.newline_path

private theorem maskField_plain (e : IncronTabEntry) :
    ∀ c ∈ e.maskField, isBlank c = false ∧ c ≠ '\n' ∧ c ≠ '\\' ∧ c ≠ '\x00' := by
  intro c hc
  have h := mem_maskField hc
  refine ⟨?_, ?_, ?_, ?_⟩
  · simp only [isBlank, Bool.or_eq_false_iff, decide_eq_false_iff_not]
    constructor <;> (rintro rfl; revert h; decide)
  all_goals (rintro rfl; revert h; decide)

theorem newline_not_mem_toString {e : IncronTabEntry} (he : Loaded e) : '\n' ∉ e.toString := by
  rw [toString_eq]
  simp only [List.mem_append, List.mem_cons, not_or]
  exact ⟨newline_not_mem_safe he, by decide, fun h => (maskField_plain e _ h).2.1 rfl,
    by decide, he.newline_cmd⟩

private theorem safe_blank {e : IncronTabEntry} (he : Loaded e) :
    ∀ c ∈ getSafePath e.path, isBlank c = false := fun c hc =>
  (mem_getSafePath hc).elim (by rintro rfl; decide) (he.blank c)

private theorem head_getSafePath (p : Str) :
    (getSafePath p).head? = some '#' ↔ p.head? = some '#' := by
  cases p with
  | nil => simp
  | cons c p =>
    rw [getSafePath_cons]
    split_ifs with h1 h2 <;> simp [*]

private theorem stripPrefix_maskField (e : IncronTabEntry) :
    stripPrefix '\\' e.maskField = e.maskField :=
  stripPrefix_of_not_mem fun h => (maskField_plain e _ h).2.2.1 rfl

/-- What is read of the written line of `e` when the rest of the line is `r`. -/
def reread (e : IncronTabEntry) (r : Str) : IncronTabEntry :=
  parseMask e.maskField { path := e.path, cmd := chomp r }

theorem withoutMask_reread (e : IncronTabEntry) (r : Str) :
    (reread e r).withoutMask = { e with cmd := chomp r, mask := 0 } := parseMask_maskField ..

/-- A written line that is not a comment gives its entry back, with what was read of its
command. -/
private theorem accepted_written {e : IncronTabEntry} (he : Loaded e)
    (hc : e.path.head? ≠ some '#') {r : Str} (hr : r ≠ []) :
    accepted (getSafePath e.path ++ '\t' :: (e.maskField ++ '\t' :: r)) = some (reread e r) := by
  have hk : LineCut.Valid ⟨[], getSafePath e.path, '\t', [], e.maskField, '\t', r⟩ :=
    ⟨rfl, rfl, safe_blank he, fun c hc => (maskField_plain e c hc).1,
      (stripPrefix_getSafePath e.path).symm ▸ he.path_ne_nil,
      (stripPrefix_maskField e).symm ▸ maskField_ne_nil e, hr⟩
  have hparse := accepted_eq_some.mpr (parse_fields (mt (head_getSafePath _).mp hc) hk)
  rw [LineCut.entry, stripPrefix_getSafePath, stripPrefix_maskField] at hparse
  exact hparse

/-! ## One line of the saved file -/

private theorem entriesOf_short {l : Str} (hl : '\n' ∉ l) (h : l.length < 999) :
    entriesOf (l ++ ['\n']) = (accepted (l ++ ['\n'])).toList := by
  rw [entriesOf_eq _ (by simp), Stdio.split_line 999 l [] hl h]
  exact List.append_nil _

private theorem entriesOf_long {l : Str} (hl : '\n' ∉ l) (h : 999 ≤ l.length) :
    entriesOf (l ++ ['\n']) =
      (accepted (l.take 999)).toList ++ entriesOf (l.drop 999 ++ ['\n']) := by
  rw [entriesOf_eq _ (by simp), Stdio.split_long 999 l ['\n'] hl h]

private theorem totalWeight_tail {l : Str} (h : 999 ≤ l.length) :
    totalWeight (entriesOf (l.drop 999 ++ ['\n'])) = 0 ∨
      totalWeight (entriesOf (l.drop 999 ++ ['\n'])) + 1001 ≤ l.length := by
  refine (totalWeight_entriesOf (l.drop 999 ++ ['\n'])).imp (by rintro h; rw [h]; rfl) ?_
  simp only [List.length_append, List.length_drop, List.length_cons, List.length_nil]
  omega

/-- The line of a clean entry gives that entry alone. -/
theorem entriesOf_clean_eq {e : IncronTabEntry} (he : Loaded e) (h : RewritesCleanly e) :
    entriesOf (e.toString ++ ['\n']) = [reread e e.cmd] := by
  have hl := newline_not_mem_toString he
  have hlen := length_toString e
  have hchomp : chomp e.cmd = e.cmd := by
    rw [chomp, if_neg]
    intro hlast
    exact he.newline_cmd (List.mem_of_getLast? hlast)
  obtain ⟨hc, hmax⟩ := h
  by_cases hlt : e.toString.length < 999
  · rw [entriesOf_short hl hlt, toString_eq]
    simp only [List.append_assoc, List.cons_append]
    rw [accepted_written he hc (by simp), reread, reread, hchomp, chomp]
    simp
  · -- the newline of a line of 999 bytes is left to a buffer of its own
    have hcmd : e.cmd ≠ [] := by
      intro h0
      rw [h0, List.length_nil] at hlen hmax
      omega
    have htake : e.toString.take 999 = e.toString := List.take_of_length_le (by omega)
    have hdrop : e.toString.drop 999 = [] := List.drop_of_length_le (by omega)
    have hnl : entriesOf ([] ++ ['\n']) = [] :=
      (totalWeight_entriesOf _).resolve_right (by simp)
    rw [entriesOf_long hl (by omega), htake, hdrop, hnl, toString_eq, accepted_written he hc hcmd]
    rfl

theorem entriesOf_clean {e : IncronTabEntry} (he : Loaded e) (h : RewritesCleanly e) :
    ∃ e', entriesOf (e.toString ++ ['\n']) = [e'] ∧ e'.withoutMask = e.withoutMask := by
  refine ⟨_, entriesOf_clean_eq he h, ?_⟩
  rw [withoutMask_reread, chomp, if_neg fun hlast => he.newline_cmd (List.mem_of_getLast? hlast)]
  rfl

private theorem accepted_comment {s : Str} (h : s.head? = some '#') : accepted s = none := by
  rw [Option.eq_none_iff_forall_not_mem]
  intro e he
  exact (parse_some (accepted_eq_some.mp he)).1 h

private theorem accepted_noBlank {s : Str} (h : ∀ c ∈ s, isBlank c = false) :
    accepted s = none := by
  rw [Option.eq_none_iff_forall_not_mem]
  intro e he
  obtain ⟨-, k, hk, rfl, -⟩ := parse_some (accepted_eq_some.mp he)
  have := h k.b₁ (by simp [LineCut.line])
  rw [hk.blank₁] at this
  exact Bool.noConfusion this

/-- What the first buffer of a long line holds. -/
private theorem take_toString {e : IncronTabEntry} (hs : (getSafePath e.path).length < 999) :
    e.toString.take 999 = getSafePath e.path ++
      '\t' :: (e.maskField.take (998 - (getSafePath e.path).length) ++
        ('\t' :: e.cmd).take (998 - (getSafePath e.path).length - e.maskField.length)) := by
  have hsucc : 999 - (getSafePath e.path).length = 998 - (getSafePath e.path).length + 1 := by
    omega
  rw [toString_eq, List.take_append, List.take_of_length_le (by omega), hsucc,
    List.take_succ_cons, List.take_append]

/-- The first buffer of a line whose two fields fill it gives no entry. -/
private theorem accepted_full {e : IncronTabEntry} (he : Loaded e)
    (hc : e.path.head? ≠ some '#')
    (hfull : 999 ≤ (getSafePath e.path).length + e.maskField.length + 2) :
    accepted (e.toString.take 999) = none := by
  by_cases hs : (getSafePath e.path).length < 999
  · rw [take_toString hs, accepted, parse_noRest (mt (head_getSafePath _).mp hc) rfl
      (safe_blank he)]
    · exact fun c h => (maskField_plain e c (List.mem_of_mem_take h)).1
    · rw [stripPrefix_getSafePath]
      exact he.path_ne_nil
    · rw [List.length_take]
      omega
  · rw [toString_eq, List.take_append_of_le_length (by omega)]
    exact accepted_noBlank fun c h => safe_blank he c (List.mem_of_mem_take h)

/-- The first buffer of a line whose two fields leave room gives an entry with the part of the
command that fits. -/
private theorem weight_take {e e' : IncronTabEntry} (he : Loaded e)
    (hc : e.path.head? ≠ some '#') (hcmd : e.cmd ≠ [])
    (hroom : (getSafePath e.path).length + e.maskField.length + 2 < 999)
    (hacc : accepted (e.toString.take 999) = some e') :
    weight e' + e.maskField.length ≤ 997 := by
  have hsucc : 998 - (getSafePath e.path).length - e.maskField.length =
      997 - (getSafePath e.path).length - e.maskField.length + 1 := by
    omega
  have hpart : e.cmd.take (997 - (getSafePath e.path).length - e.maskField.length) ≠ [] := by
    have := List.length_pos_iff.mpr hcmd
    rw [← List.length_pos_iff, List.length_take]
    omega
  rw [take_toString (by omega), List.take_of_length_le (by omega), hsucc, List.take_succ_cons,
    accepted_written he hc hpart] at hacc
  obtain rfl := Option.some.inj hacc
  have hweight : weight (reread e (e.cmd.take
      (997 - (getSafePath e.path).length - e.maskField.length))) = (getSafePath e.path).length +
      (chomp (e.cmd.take (997 - (getSafePath e.path).length - e.maskField.length))).length := by
    change weight (reread e _).withoutMask = _
    rw [withoutMask_reread]
    rfl
  have hchomp := (chomp_sublist
    (e.cmd.take (997 - (getSafePath e.path).length - e.maskField.length))).length_le
  rw [List.length_take] at hchomp
  omega

private theorem weight_pos {e : IncronTabEntry} (he : Loaded e) : 0 < weight e := by
  have hne : getSafePath e.path ≠ [] := by
    intro h
    have := stripPrefix_getSafePath e.path
    rw [h] at this
    exact he.path_ne_nil this.symm
  have := List.length_pos_iff.mpr hne
  unfold weight
  omega

/-- Any other entry leaves less than its own weight in the file. -/
theorem totalWeight_unclean {e : IncronTabEntry} (he : Loaded e) (h : ¬ RewritesCleanly e) :
    totalWeight (entriesOf (e.toString ++ ['\n'])) < weight e := by
  have hl := newline_not_mem_toString he
  have hlen := length_toString e
  have hpos := weight_pos he
  have hmask := length_maskField_lt e
  by_cases hlt : e.toString.length < 999
  · -- a line that fits is lost only as a comment
    have hc : e.path.head? = some '#' := by
      by_contra hc
      exact h ⟨hc, by omega⟩
    have hhead : (e.toString ++ ['\n']).head? = some '#' := by
      rw [toString_eq, List.append_assoc, List.head?_append, (head_getSafePath _).mpr hc]
      rfl
    rw [entriesOf_short hl hlt, accepted_comment hhead]
    exact hpos
  · have htail := totalWeight_tail (l := e.toString) (by omega)
    rw [entriesOf_long hl (by omega), totalWeight_append]
    have hweight : weight e = (getSafePath e.path).length + e.cmd.length := rfl
    cases hacc : accepted (e.toString.take 999) with
    | none =>
      simp only [Option.toList_none, totalWeight_nil]
      omega
    | some e' =>
      have hc : e.path.head? ≠ some '#' := by
        intro hc
        have hhead : (e.toString.take 999).head? = some '#' := by
          rw [List.head?_take, if_neg (by decide), toString_eq, List.head?_append,
            (head_getSafePath _).mpr hc]
          rfl
        rw [accepted_comment hhead] at hacc
        exact absurd hacc (by simp)
      have hroom : (getSafePath e.path).length + e.maskField.length + 2 < 999 := by
        by_contra hfull
        rw [accepted_full he hc (by omega)] at hacc
        exact absurd hacc (by simp)
      have hlong : 1000 ≤ (getSafePath e.path).length + e.maskField.length + 2 + e.cmd.length := by
        by_contra hle
        exact h ⟨hc, by omega⟩
      have hcmd : e.cmd ≠ [] := by
        rw [← List.length_pos_iff]
        omega
      have hpart := weight_take he hc hcmd hroom hacc
      simp only [Option.toList_some, totalWeight_cons, totalWeight_nil]
      omega

/-! ## The whole file -/

theorem entriesOf_saveText (T : List IncronTabEntry) (hT : ∀ e ∈ T, Loaded e) :
    entriesOf (saveText T) = T.flatMap fun e => entriesOf (e.toString ++ ['\n']) := by
  induction T with
  | nil => rfl
  | cons e T ih =>
    have hl := newline_not_mem_toString (hT e (by simp))
    rw [saveText, List.flatMap_cons, List.append_assoc, List.singleton_append, entriesOf,
      Stdio.readAll_line_append 1000 (by decide) _ _ hl, List.filterMap_append]
    rw [List.flatMap_cons, ← ih fun e he => hT e (by simp [he])]
    rfl

theorem nul_not_mem_toString {s : Str} {e : IncronTabEntry} (h : parse s = .ok (some e))
    (hs : '\x00' ∉ s) : '\x00' ∉ e.toString := by
  obtain ⟨-, k, -, rfl, rfl⟩ := parse_some h
  obtain ⟨hpath, hcmd⟩ := parseMask_path (stripPrefix '\\' k.raw₂)
    { path := stripPrefix '\\' k.raw₁, cmd := chomp k.rest }
  simp only [LineCut.line, List.mem_append, List.mem_cons, not_or] at hs
  rw [toString_eq]
  simp only [List.mem_append, List.mem_cons]
  rintro (hc | hc | hc | hc | hc)
  · rcases mem_getSafePath hc with hc | hc
    · exact absurd hc (by decide)
    · rw [LineCut.entry, hpath] at hc
      exact hs.1.2 (mem_of_mem_stripPrefix hc)
  · exact absurd hc (by decide)
  · exact (maskField_plain _ _ hc).2.2.2 rfl
  · exact absurd hc (by decide)
  · rw [LineCut.entry, hcmd] at hc
    exact hs.2.2.2.2 ((chomp_sublist k.rest).subset hc)

theorem nul_not_mem_saveText {f : Str} (hf : '\x00' ∉ f) :
    '\x00' ∉ saveText (entriesOf f) := by
  intro h
  obtain ⟨e, he, hc⟩ := List.mem_flatMap.mp h
  obtain ⟨s, hs, hacc⟩ := List.mem_filterMap.mp he
  have hnul : '\x00' ∉ s := fun hmem =>
    hf ((Stdio.readAll_isBuffer 1000 (by decide) f s hs).subset _ hmem)
  rcases List.mem_append.mp hc with hc | hc
  · exact nul_not_mem_toString (accepted_eq_some.mp hacc) hnul hc
  · exact absurd hc (by decide)

/-- Lines give back at most their own weight. -/
theorem totalWeight_lines (T : List IncronTabEntry) (hT : ∀ e ∈ T, Loaded e) :
    totalWeight (T.flatMap fun e => entriesOf (e.toString ++ ['\n'])) ≤ totalWeight T ∧
      ((∃ e ∈ T, ¬ RewritesCleanly e) →
        totalWeight (T.flatMap fun e => entriesOf (e.toString ++ ['\n'])) < totalWeight T) := by
  induction T with
  | nil => simp
  | cons e T ih =>
    obtain ⟨hle, hlt⟩ := ih fun e he => hT e (by simp [he])
    have he := hT e (by simp)
    simp only [List.flatMap_cons, totalWeight_append, totalWeight_cons]
    by_cases hclean : RewritesCleanly e
    · obtain ⟨e', hline, hmask⟩ := entriesOf_clean he hclean
      have hweight : weight e'.withoutMask = weight e.withoutMask := congrArg weight hmask
      change weight e' = weight e at hweight
      rw [hline, totalWeight_cons, totalWeight_nil, hweight]
      refine ⟨by omega, ?_⟩
      rintro ⟨d, hd, hunclean⟩
      rcases List.mem_cons.mp hd with rfl | hd
      · exact absurd hclean hunclean
      · have := hlt ⟨d, hd, hunclean⟩
        omega
    · have := totalWeight_unclean he hclean
      exact ⟨by omega, fun _ => by omega⟩

private theorem map_lines_of_clean (T : List IncronTabEntry) (hT : ∀ e ∈ T, Loaded e)
    (hclean : ∀ e ∈ T, RewritesCleanly e) :
    (T.flatMap fun e => entriesOf (e.toString ++ ['\n'])).map withoutMask =
      T.map withoutMask := by
  induction T with
  | nil => rfl
  | cons e T ih =>
    obtain ⟨e', hline, hmask⟩ := entriesOf_clean (hT e (by simp)) (hclean e (by simp))
    have ih := ih (fun e he => hT e (by simp [he])) fun e he => hclean e (by simp [he])
    rw [List.flatMap_cons, List.map_append, hline, ih, List.map_cons, List.map_nil, hmask,
      List.map_cons, List.singleton_append]

private theorem totalWeight_map_withoutMask (l : List IncronTabEntry) :
    totalWeight (l.map withoutMask) = totalWeight l := by
  simp only [totalWeight, List.map_map]
  rfl

/-- Saving a loaded table and loading it again keeps every path, command and flag exactly when
every entry is written as a line that is no comment and fits. -/
theorem load_save_load_iff (content : Str) (hnul : '\x00' ∉ content) :
    ∃ T T', load (some content) = .ok (true, T) ∧ load (some (saveText T)) = .ok (true, T') ∧
      (T'.map withoutMask = T.map withoutMask ↔ ∀ e ∈ T, RewritesCleanly e) := by
  have hT : ∀ e ∈ entriesOf content, Loaded e := fun e he => loaded_of_mem he
  refine ⟨_, _, load_eq hnul, load_eq (nul_not_mem_saveText hnul), ?_⟩
  rw [entriesOf_saveText _ hT]
  constructor
  · intro heq
    by_contra hbad
    simp only [not_forall, exists_prop] at hbad
    have hlt := (totalWeight_lines _ hT).2 hbad
    rw [← totalWeight_map_withoutMask, heq, totalWeight_map_withoutMask] at hlt
    exact Nat.lt_irrefl _ hlt
  · exact map_lines_of_clean _ hT

theorem load_save_load_plain : ∃ T T',
    load (some "/tmp IN_CREATE,dotdirs=true echo $@\n".toList) = .ok (true, T) ∧
      load (some (saveText T)) = .ok (true, T') ∧
      (T'.map withoutMask = T.map withoutMask ↔ ∀ e ∈ T, RewritesCleanly e) :=
  load_save_load_iff "/tmp IN_CREATE,dotdirs=true echo $@\n".toList (by decide)

/-- A leading blank lets a path start with `#`; it is written back as a comment. -/
theorem load_save_load_comment : ∃ T T',
    load (some " #foo 12 abc\n".toList) = .ok (true, T) ∧
      load (some (saveText T)) = .ok (true, T') ∧ T'.map withoutMask ≠ T.map withoutMask := by
  refine ⟨[{ path := "#foo".toList, mask := 12, cmd := "abc".toList }], [], ?_, ?_, ?_⟩ <;> decide

end Incron.IncronTab
