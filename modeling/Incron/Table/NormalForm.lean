import Incron.Table.RoundTrip

/-! Table files that are saved over and over. What a save writes is written by the next save
again exactly if all its entries are clean, and every file comes to such a text. -/
namespace Incron.IncronTab
open IncronTabEntry StringTokenizer

/-! ## What a written line tells of its entry -/

private theorem tab_not_mem_safe {e : IncronTabEntry} (he : Loaded e) :
    '\t' ∉ getSafePath e.path := fun h =>
  (mem_getSafePath h).elim (by decide) fun h => absurd (he.blank _ h) (by decide)

private theorem tab_not_mem_maskField (e : IncronTabEntry) : '\t' ∉ e.maskField := fun h =>
  (mem_maskField h).elim (by decide) fun h => absurd h (by decide)

/-- The text before the first occurrence of a character is determined. -/
private theorem split_unique {c : Char} {x x' y y' : Str} (hx : c ∉ x) (hx' : c ∉ x')
    (h : x ++ c :: y = x' ++ c :: y') : x = x' ∧ y = y' := by
  have hfront : ∀ z w : Str, c ∉ z → (z ++ c :: w).takeWhile (· ≠ c) = z := by
    intro z w hz
    rw [List.takeWhile_append_of_pos fun a ha => decide_eq_true (ne_of_mem_of_not_mem ha hz)]
    simp
  obtain rfl : x = x' := by rw [← hfront x y hx, h, hfront x' y' hx']
  exact ⟨rfl, by simpa using h⟩

private theorem weight_of_toString_eq {e e' : IncronTabEntry} (he : Loaded e) (he' : Loaded e')
    (h : e.toString = e'.toString) : weight e = weight e' := by
  rw [toString_eq, toString_eq] at h
  obtain ⟨hpath, h⟩ := split_unique (tab_not_mem_safe he) (tab_not_mem_safe he') h
  obtain ⟨-, hcmd⟩ := split_unique (tab_not_mem_maskField e) (tab_not_mem_maskField e') h
  rw [weight, weight, hpath, hcmd]

private theorem totalWeight_of_saveText_eq {T T' : List IncronTabEntry}
    (hT : ∀ e ∈ T, Loaded e) (hT' : ∀ e ∈ T', Loaded e) (h : saveText T = saveText T') :
    totalWeight T = totalWeight T' := by
  induction T generalizing T' with
  | nil =>
    cases T' with
    | nil => rfl
    | cons e' T' => simp [saveText] at h
  | cons e T ih =>
    cases T' with
    | nil => simp [saveText] at h
    | cons e' T' =>
      simp only [saveText, List.flatMap_cons, List.append_assoc, List.singleton_append] at h
      obtain ⟨hline, htail⟩ := split_unique (newline_not_mem_toString (hT e (by simp)))
        (newline_not_mem_toString (hT' e' (by simp))) h
      rw [totalWeight_cons, totalWeight_cons,
        weight_of_toString_eq (hT e (by simp)) (hT' e' (by simp)) hline,
        ih (fun d hd => hT d (by simp [hd])) (fun d hd => hT' d (by simp [hd])) htail]

/-! ## Saving twice -/

theorem toString_reread {e : IncronTabEntry} (he : Loaded e) :
    (reread e e.cmd).toString = e.toString := by
  have hfields := withoutMask_reread e e.cmd
  have hmask : (reread e e.cmd).maskField = e.maskField := maskField_parseMask ..
  rw [chomp, if_neg fun hlast => he.newline_cmd (List.mem_of_getLast? hlast)] at hfields
  simp only [withoutMask, IncronTabEntry.mk.injEq] at hfields
  rw [toString_eq, toString_eq, hmask, hfields.1, hfields.2.2.1]

private theorem saveText_entriesOf_clean (T : List IncronTabEntry) (hT : ∀ e ∈ T, Loaded e)
    (hclean : ∀ e ∈ T, RewritesCleanly e) :
    saveText (T.flatMap fun e => entriesOf (e.toString ++ ['\n'])) = saveText T := by
  induction T with
  | nil => rfl
  | cons e T ih =>
    have he := hT e (by simp)
    rw [List.flatMap_cons, entriesOf_clean_eq he (hclean e (by simp)), List.singleton_append,
      saveText, List.flatMap_cons, toString_reread he]
    exact congrArg _ (ih (fun d hd => hT d (by simp [hd])) fun d hd => hclean d (by simp [hd]))

/-- The text that is saved after a file without NUL bytes has been loaded. -/
def rewritten (content : Str) : Str := saveText (entriesOf content)

theorem rewritten_rewritten_iff (content : Str) :
    rewritten (rewritten content) = rewritten content ↔
      ∀ e ∈ entriesOf content, RewritesCleanly e := by
  have hT : ∀ e ∈ entriesOf content, Loaded e := fun e he => loaded_of_mem he
  have hreload : entriesOf (rewritten content) = _ := entriesOf_saveText _ hT
  constructor
  · intro heq
    by_contra hbad
    simp only [not_forall, exists_prop] at hbad
    have hlt := (totalWeight_lines _ hT).2 hbad
    rw [← hreload, totalWeight_of_saveText_eq (fun e he => loaded_of_mem he) hT heq] at hlt
    exact Nat.lt_irrefl _ hlt
  · intro hclean
    rw [rewritten, hreload]
    exact saveText_entriesOf_clean _ hT hclean

theorem nul_not_mem_rewritten {content : Str} (h : '\x00' ∉ content) :
    '\x00' ∉ rewritten content := nul_not_mem_saveText h

def resave (content : Str) : Except OutOfRange Str :=
  (load (some content)).map fun r => saveText r.2

theorem resave_eq {content : Str} (h : '\x00' ∉ content) :
    resave content = .ok (rewritten content) := by
  rw [resave, load_eq h]
  rfl

/-- A table that is saved, loaded and saved again has the same text exactly if every entry is
written as a line that is no comment and fits; the masks do not matter. -/
theorem resave_resave_iff (content : Str) (hnul : '\x00' ∉ content) :
    ∃ T saved, load (some content) = .ok (true, T) ∧ resave content = .ok saved ∧
      (resave saved = .ok saved ↔ ∀ e ∈ T, RewritesCleanly e) := by
  refine ⟨_, _, load_eq hnul, resave_eq hnul, ?_⟩
  rw [resave_eq (nul_not_mem_rewritten hnul), Except.ok.injEq]
  exact rewritten_rewritten_iff content

/-- The mask of this entry does not survive, its line does. -/
theorem resave_resave_lostBit : ∃ T saved,
    load (some "/tmp 2056 ls\n".toList) = .ok (true, T) ∧
      resave "/tmp 2056 ls\n".toList = .ok saved ∧
      (resave saved = .ok saved ↔ ∀ e ∈ T, RewritesCleanly e) :=
  resave_resave_iff "/tmp 2056 ls\n".toList (by decide)

/-! ## Saving over and over -/

/-- A measure that falls until a property holds bounds the time that it takes. -/
theorem exists_le_iterate {α : Type*} (f : α → α) (μ : α → ℕ) (p : α → Prop)
    (h : ∀ a, p a ∨ μ (f a) < μ a) (a : α) : ∃ n ≤ μ a, p (f^[n] a) := by
  induction hm : μ a using Nat.strong_induction_on generalizing a with
  | _ m ih =>
    subst hm
    rcases h a with hp | hlt
    · exact ⟨0, Nat.zero_le _, hp⟩
    · obtain ⟨n, hn, hp⟩ := ih _ hlt (f a) rfl
      exact ⟨n + 1, by omega, by rwa [Function.iterate_succ_apply]⟩

def resaved (content : Str) : ℕ → Except OutOfRange Str
  | 0 => .ok content
  | n + 1 => resaved content n >>= resave

theorem nul_not_mem_iterate {content : Str} (hnul : '\x00' ∉ content) (n : ℕ) :
    '\x00' ∉ rewritten^[n] content := by
  induction n with
  | zero => exact hnul
  | succ n ih =>
    rw [Function.iterate_succ_apply']
    exact nul_not_mem_rewritten ih

theorem resaved_eq {content : Str} (hnul : '\x00' ∉ content) (n : ℕ) :
    resaved content n = .ok (rewritten^[n] content) := by
  induction n with
  | zero => rfl
  | succ n ih =>
    rw [resaved, ih, Function.iterate_succ_apply']
    exact resave_eq (nul_not_mem_iterate hnul n)

private theorem clean_or_lighter (content : Str) :
    (∀ e ∈ entriesOf content, RewritesCleanly e) ∨
      totalWeight (entriesOf (rewritten content)) < totalWeight (entriesOf content) := by
  have hT : ∀ e ∈ entriesOf content, Loaded e := fun e he => loaded_of_mem he
  rw [or_iff_not_imp_left, rewritten, entriesOf_saveText _ hT]
  intro hbad
  simp only [not_forall, exists_prop] at hbad
  exact (totalWeight_lines _ hT).2 hbad

/-- Rounds from a text whose entries are clean all give the same text. -/
private theorem iterate_of_clean {content : Str}
    (hclean : ∀ e ∈ entriesOf content, RewritesCleanly e) (k : ℕ) :
    rewritten^[k + 1] content = rewritten content := by
  induction k with
  | zero => rfl
  | succ k ih =>
    rw [Function.iterate_succ_apply', ih]
    exact (rewritten_rewritten_iff content).mpr hclean

private theorem totalWeight_lt {content : Str} (h : content ≠ []) :
    totalWeight (entriesOf content) < content.length := by
  rcases totalWeight_entriesOf content with hnil | hlen
  · rw [hnil]
    exact List.length_pos_iff.mpr h
  · omega

/-- Loading and saving a table file over and over comes, in no more rounds than the file has
bytes, to the text of a table whose entries are all clean, and stays there. -/
theorem resaved_settles (content : Str) (hnul : '\x00' ∉ content) :
    ∃ n ≤ content.length, ∃ T, (∀ e ∈ T, RewritesCleanly e) ∧
      ∀ k, n ≤ k → resaved content k = .ok (saveText T) := by
  obtain ⟨n, hn, hclean⟩ := exists_le_iterate rewritten (fun f => totalWeight (entriesOf f))
    (fun f => ∀ e ∈ entriesOf f, RewritesCleanly e) clean_or_lighter content
  have hsettled : ∀ k, n + 1 ≤ k →
      resaved content k = .ok (saveText (entriesOf (rewritten^[n] content))) := by
    intro k hk
    obtain ⟨j, rfl⟩ := Nat.exists_eq_add_of_le hk
    rw [resaved_eq hnul, show n + 1 + j = j + 1 + n by omega, Function.iterate_add_apply,
      iterate_of_clean hclean, rewritten]
  by_cases hempty : content = []
  · -- the empty file is settled before the first round
    subst hempty
    refine ⟨0, le_rfl, [], by simp, fun k _ => ?_⟩
    rw [resaved_eq hnul]
    exact congrArg _ (Function.iterate_fixed rfl k)
  · have hweight := totalWeight_lt hempty
    exact ⟨n + 1, by omega, _, hclean, hsettled⟩

/-- The entry of this file is written as a comment, which the next round drops. -/
theorem resaved_settles_comment : ∃ n ≤ " #foo 12 abc\n".toList.length, ∃ T,
    (∀ e ∈ T, RewritesCleanly e) ∧
      ∀ k, n ≤ k → resaved " #foo 12 abc\n".toList k = .ok (saveText T) :=
  resaved_settles " #foo 12 abc\n".toList (by decide)

end Incron.IncronTab
