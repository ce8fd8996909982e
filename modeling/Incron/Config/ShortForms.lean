import Incron.Config.AppArgs
import Mathlib.Data.List.Induction

/-! The short forms of the options and the long ones: they leave the same results of `Parse`, unless
a short form swallows a plain argument. -/
namespace Incron.AppArgs

variable {A : AppArgs}

/-! ## Long and short forms -/

structure Names (A : AppArgs) (name : Str) (c : Char) (p : ℕ) : Prop where
  long : A.longMap.lookup name = some p
  short : A.shortMap.lookup c = some p

/-- The arguments of a short form, and the long form. -/
inductive ShortForm (A : AppArgs) : List Str → Str → Prop
  | noValue {name : Str} {c : Char} {p : ℕ} : A.Names name c p →
      (A.options.cell p).type = .noValue → ShortForm A [['-', c]] ('-' :: '-' :: name)
  | attached {name : Str} {c : Char} {p : ℕ} {V : Str} : A.Names name c p →
      (A.options.cell p).type ≠ .noValue → V ≠ [] → isOption V = false →
        ShortForm A ['-' :: c :: V] ('-' :: '-' :: (name ++ '=' :: V))
  | separate {name : Str} {c : Char} {p : ℕ} {V : Str} : A.Names name c p →
      (A.options.cell p).type ≠ .noValue → V ≠ [] → isOption V = false →
        ShortForm A [['-', c], V] ('-' :: '-' :: (name ++ '=' :: V))

/-- A short form without a value has a plain argument behind it. -/
def Swallows (short post : List Str) : Prop :=
  ∃ c, short = [['-', c]] ∧ ∃ v ∈ post.head?, isOption v = false

/-- The questions about the options and the list of values have the same answers. -/
structure SameResults (A B : AppArgs) : Prop where
  existsOption : ∀ name, A.existsOption name = B.existsOption name
  getOption : ∀ name, A.getOption name = B.getOption name
  valList : A.valList = B.valList

/-- The states differ in values only that are not set. -/
structure Agree (A B : AppArgs) : Prop where
  longMap : A.longMap = B.longMap
  shortMap : A.shortMap = B.shortMap
  valList : A.valList = B.valList
  found : ∀ p, (A.options.cell p).found = (B.options.cell p).found
  hasVal : ∀ p, (A.options.cell p).hasVal = (B.options.cell p).hasVal
  val : ∀ p, (A.options.cell p).hasVal = true →
    (A.options.cell p).val = (B.options.cell p).val

namespace Agree
variable {B : AppArgs}

theorem refl (A : AppArgs) : Agree A A :=
  ⟨rfl, rfl, rfl, fun _ => rfl, fun _ => rfl, fun _ _ => rfl⟩

theorem sameResults (h : Agree A B) : SameResults A B := by
  refine ⟨fun name => ?_, fun name => ?_, h.valList⟩
  · unfold AppArgs.existsOption
    rw [h.longMap]
    cases B.longMap.lookup name with
    | none => rfl
    | some p => exact h.found p
  · unfold AppArgs.getOption
    rw [h.longMap]
    cases B.longMap.lookup name with
    | none => rfl
    | some p =>
      simp only [h.found p, h.hasVal p]
      split_ifs with hset
      · rw [Bool.and_eq_true, ← h.hasVal p] at hset
        rw [h.val p hset.2]
      · rfl

theorem setOption (h : Agree A B) (p : ℕ) {f g : AppArgOption → AppArgOption}
    (hfound : ∀ o o', (f o).found = (g o').found) (hhasVal : ∀ o o', (f o).hasVal = (g o').hasVal)
    (hval : ∀ o o', (f o).hasVal = true → (f o).val = (g o').val) :
    Agree (A.setOption p f) (B.setOption p g) := by
  have hcell : ∀ (C : AppArgs) (k : AppArgOption → AppArgOption) (q : ℕ),
      (C.setOption p k).options.cell q =
        if q = p then k (C.options.cell p) else C.options.cell q := fun C k q => by
    exact Heap.set_cell _ _ _ _
  refine ⟨h.longMap, h.shortMap, h.valList, fun q => ?_, fun q => ?_, fun q => ?_⟩
  · rw [hcell, hcell]
    split_ifs
    · exact hfound _ _
    · exact h.found q
  · rw [hcell, hcell]
    split_ifs
    · exact hhasVal _ _
    · exact h.hasVal q
  · rw [hcell, hcell]
    split_ifs
    · exact hval _ _
    · exact h.val q

theorem foundLong (h : Agree A B) (p : ℕ) (val : Option Str) :
    Agree (A.foundLong p val) (B.foundLong p val) :=
  h.setOption p (fun _ _ => rfl) (fun _ _ => rfl) fun _ _ _ => rfl

theorem foundShort (h : Agree A B) (p : ℕ) (val : Option Str) :
    Agree (A.foundShort p val) (B.foundShort p val) := by
  refine h.setOption p (fun _ _ => rfl) (fun _ _ => rfl) fun _ _ hsome => ?_
  obtain ⟨v, rfl⟩ := Option.isSome_iff_exists.mp hsome
  rfl

theorem short_long (h : Agree A B) (p : ℕ) (val : Option Str) :
    Agree (A.foundShort p val) (B.foundLong p val) := by
  refine h.setOption p (fun _ _ => rfl) (fun _ _ => rfl) fun _ _ hsome => ?_
  obtain ⟨v, rfl⟩ := Option.isSome_iff_exists.mp hsome
  rfl

theorem longOption (h : Agree A B) (arg : Str) : Agree (A.longOption arg) (B.longOption arg) := by
  unfold AppArgs.longOption
  rw [h.longMap]
  split
  · exact h
  · split
    · exact h
    · exact h.foundLong _ _

theorem parseLoop (h : Agree A B) (args : List Str) :
    Agree (A.parseLoop args) (B.parseLoop args) := by
  fun_induction AppArgs.parseLoop A args generalizing B with
  | case1 A => exact h
  | case2 A arg rest hoption hlong ih =>
    rw [AppArgs.parseLoop, if_pos hoption, if_pos hlong]
    exact ih (h.longOption arg)
  | case3 A arg rest hoption hlong hlook ih =>
    rw [AppArgs.parseLoop, if_pos hoption, if_neg hlong, ← h.shortMap, hlook]
    exact ih h
  | case4 A arg rest hoption hlong p hlook val hval ih =>
    rw [AppArgs.parseLoop, if_pos hoption, if_neg hlong, ← h.shortMap, hlook, hval]
    exact ih (h.foundShort p _)
  | case5 A arg hoption hlong p hlook hval =>
    rw [parseLoop_short hoption hlong (h.shortMap ▸ hlook) hval]
    exact h.foundShort p none
  | case6 A arg hoption hlong p hlook hval next rest hnext ih =>
    rw [parseLoop_short hoption hlong (h.shortMap ▸ hlook) hval, if_neg (by simp [hnext])]
    exact ih (h.foundShort p none)
  | case7 A arg hoption hlong p hlook hval next rest hnext ih =>
    rw [parseLoop_short hoption hlong (h.shortMap ▸ hlook) hval, if_pos (by simp [hnext])]
    exact ih (h.foundShort p _)
  | case8 A arg rest hoption ih =>
    rw [AppArgs.parseLoop, if_neg hoption]
    exact ih ⟨h.longMap, h.shortMap, by rw [h.valList], h.found, h.hasVal, h.val⟩

end Agree

theorem parseLoop_maps (A : AppArgs) (args : List Str) :
    (A.parseLoop args).shortMap = A.shortMap ∧ (A.parseLoop args).longMap = A.longMap := by
  fun_induction parseLoop A args with
  | case1 A => exact ⟨rfl, rfl⟩
  | case2 A arg rest hoption hlong ih =>
    obtain ⟨hshort, hlong', -⟩ := longOption_frame A arg
    rw [← hshort, ← hlong']
    exact ih
  | case3 A arg rest hoption hlong hlook ih => exact ih
  | case4 A arg rest hoption hlong p hlook val hval ih => exact ih
  | case5 A arg hoption hlong p hlook hval => exact ⟨rfl, rfl⟩
  | case6 A arg hoption hlong p hlook hval next rest hnext ih => exact ih
  | case7 A arg hoption hlong p hlook hval next rest hnext ih => exact ih
  | case8 A arg rest hoption ih => exact ih

/-- An option is never taken as a value, so `Parse` comes to it whatever stands before. -/
theorem parseLoop_append (A : AppArgs) (pre : List Str) {args : List Str}
    (hargs : ∀ arg ∈ args.head?, isOption arg = true) :
    A.parseLoop (pre ++ args) = (A.parseLoop pre).parseLoop args := by
  fun_induction parseLoop A pre with
  | case1 A => rfl
  | case2 A arg rest hoption hlong ih =>
    rw [List.cons_append, parseLoop, if_pos hoption, if_pos hlong, ih]
  | case3 A arg rest hoption hlong hlook ih =>
    rw [List.cons_append, parseLoop, if_pos hoption, if_neg hlong, hlook]
    exact ih
  | case4 A arg rest hoption hlong p hlook val hval ih =>
    rw [List.cons_append, parseLoop, if_pos hoption, if_neg hlong, hlook, hval]
    exact ih
  | case5 A arg hoption hlong p hlook hval =>
    have hno : ¬ args.head?.any (fun next => !isOption next) = true := by
      rw [Option.any_eq_true]
      rintro ⟨next, hnext, hplain⟩
      rw [hargs next hnext] at hplain
      exact absurd hplain (by simp)
    rw [List.cons_append, parseLoop_short hoption hlong hlook hval, List.nil_append, if_neg hno]
  | case6 A arg hoption hlong p hlook hval next rest hnext ih =>
    rw [List.cons_append, parseLoop_short hoption hlong hlook hval, if_neg (by simp [hnext])]
    exact ih
  | case7 A arg hoption hlong p hlook hval next rest hnext ih =>
    rw [List.cons_append, parseLoop_short hoption hlong hlook hval, if_pos (by simp [hnext])]
    exact ih
  | case8 A arg rest hoption ih =>
    rw [List.cons_append, parseLoop, if_neg hoption]
    exact ih

/-! ## One occurrence -/

/-- The tokenizer of `ParseLong` behind the two hyphens. -/
private def longTok (s : Str) : StringTokenizer := { str := s, delim := ['='] }

private theorem longTok_more {s : Str} (h : s ≠ []) : (longTok s).hasMoreTokens = true :=
  (StringTokenizer.hasMoreTokens_iff _).mpr h

theorem parseLong_name {name : Str} (hne : name ≠ []) (heq : '=' ∉ name) :
    parseLong ('-' :: '-' :: name) = some (name, none) := by
  obtain ⟨t, htok, hend⟩ :=
    StringTokenizer.getNextToken_last (t := longTok name) rfl rfl heq
  have hrest : (longTok name).rest = name := rfl
  have hstop : t.hasMoreTokens = false := by
    rw [← Bool.not_eq_true, StringTokenizer.hasMoreTokens_iff, hend]
    simp
  have hmore := longTok_more hne
  rw [hrest] at htok
  unfold longTok at htok hmore
  simp only [parseLong, List.drop_succ_cons, List.drop_zero, hmore, htok, hstop, Bool.not_true,
    Bool.not_false, Bool.false_eq_true, if_false, if_true]

theorem parseLong_value {name V : Str} (heq : '=' ∉ name) (hV : V ≠ []) :
    parseLong ('-' :: '-' :: (name ++ '=' :: V)) = some (name, some V) := by
  obtain ⟨t, htok, -, hpre, hrest⟩ :=
    StringTokenizer.getNextToken_delim (t := longTok (name ++ '=' :: V)) rfl rfl rfl heq
  have hmore := longTok_more (s := name ++ '=' :: V) (by simp)
  have hmore' : t.hasMoreTokens = true := by
    rw [StringTokenizer.hasMoreTokens_iff, hrest]
    exact hV
  have hremainder : t.getRemainder = V := by
    rw [StringTokenizer.getRemainder, if_pos hpre, hrest]
  unfold longTok at htok hmore
  simp only [parseLong, List.drop_succ_cons, List.drop_zero, hmore, htok, hmore', hremainder,
    Bool.not_true, Bool.false_eq_true, if_false]

/-- A long form writes into the option with its name. -/
theorem parseLoop_longForm {A : AppArgs} {s name : Str} {val : Option Str} {p : ℕ}
    (hparse : parseLong ('-' :: '-' :: s) = some (name, val))
    (hname : A.longMap.lookup name = some p) (rest : List Str) :
    A.parseLoop (('-' :: '-' :: s) :: rest) = (A.foundLong p val).parseLoop rest := by
  have hoption : isOption ('-' :: '-' :: s) = true := isOption_iff.mpr ⟨_, _, rfl⟩
  have hlong : isLongOption ('-' :: '-' :: s) = true := by simp [isLongOption]
  rw [parseLoop, if_pos hoption, if_pos hlong, longOption, hparse]
  simp only [hname]

/-- What the declarations provide: names that `ParseLong` reads as they are. -/
def Declaration.WellNamed (d : Declaration) : Prop :=
  d.rName ≠ [] ∧ '=' ∉ d.rName ∧ d.cShort ≠ '-'

instance (d : Declaration) : Decidable d.WellNamed := inferInstanceAs (Decidable (_ ∧ _))

theorem registered_append (decls : List Declaration) (d : Declaration) :
    registered (decls ++ [d]) = ((registered decls).addOption d.rName d.cShort d.type).1 := by
  rw [registered, List.foldl_append]
  rfl

/-- The names in the maps come from the declarations. -/
theorem mem_of_registered (decls : List Declaration) :
    (∀ name p, (registered decls).longMap.lookup name = some p → ∃ d ∈ decls, d.rName = name) ∧
      ∀ c p, (registered decls).shortMap.lookup c = some p → ∃ d ∈ decls, d.cShort = c := by
  induction decls using List.reverseRecOn with
  | nil => exact ⟨fun _ _ h => absurd h (by simp [registered]), fun _ _ h =>
      absurd h (by simp [registered])⟩
  | append_singleton decls d ih =>
    obtain ⟨hlong, hshort⟩ := ih
    rw [registered_append, addOption]
    split_ifs with hold
    · refine ⟨fun name p h => ?_, fun c p h => ?_⟩
      · obtain ⟨d', hd', hname⟩ := hlong name p h
        exact ⟨d', by simp [hd'], hname⟩
      · obtain ⟨d', hd', hname⟩ := hshort c p h
        exact ⟨d', by simp [hd'], hname⟩
    · refine ⟨fun name p h => ?_, fun c p h => ?_⟩
      · simp only [FinMap.lookup_insertNew] at h
        split_ifs at h with heq
        · exact ⟨d, by simp, heq.symm⟩
        · obtain ⟨d', hd', hname⟩ := hlong name p h
          exact ⟨d', by simp [hd'], hname⟩
      · simp only [FinMap.lookup_insertNew] at h
        split_ifs at h with heq
        · exact ⟨d, by simp, heq.symm⟩
        · obtain ⟨d', hd', hname⟩ := hshort c p h
          exact ⟨d', by simp [hd'], hname⟩

/-- A short form with its value, and one without, which takes a plain argument behind it. -/
theorem parseLoop_shortForm {A : AppArgs} {c : Char} {p : ℕ} (hlook : A.shortMap.lookup c = some p)
    (hc : c ≠ '-') :
    (∀ V rest, V ≠ [] → A.parseLoop (('-' :: c :: V) :: rest) =
        (A.foundShort p (some V)).parseLoop rest) ∧
      ∀ rest, A.parseLoop (['-', c] :: rest) =
        if rest.head?.any (fun next => !isOption next) then
          (A.foundShort p rest.head?).parseLoop rest.tail
        else (A.foundShort p none).parseLoop rest := by
  have hlong : ∀ s, ¬ isLongOption ('-' :: c :: s) = true := fun s => by simp [isLongOption, hc]
  have hoption : ∀ s, isOption ('-' :: c :: s) = true := fun s => isOption_iff.mpr ⟨c, s, rfl⟩
  constructor
  · intro V rest hV
    have hval : (parseShort ('-' :: c :: V)).2 = some V := by
      unfold parseShort
      rw [if_neg (by simp [hV])]
      rfl
    have hlook' : A.shortMap.lookup (parseShort ('-' :: c :: V)).1 = some p := hlook
    rw [parseLoop, if_pos (hoption V), if_neg (hlong V), hlook', hval]
  · exact fun rest => parseLoop_short (hoption []) (hlong []) hlook rfl rest

/-- A plain argument that is taken as a value is missing in the list. -/
theorem not_sameResults_of_swallowed {A : AppArgs} {p : ℕ} {v : Str} (hv : isOption v = false)
    (rest : List Str) :
    ¬ SameResults ((A.foundShort p (some v)).parseLoop rest)
      ((A.foundLong p none).parseLoop (v :: rest)) := by
  intro h
  have hvals := h.valList
  rw [valList_parseLoop, valList_parseLoop, plainValues_plain hv] at hvals
  have hsame : (A.foundShort p (some v)).plainValues none rest =
      (A.foundLong p none).plainValues none rest := plainValues_congr (by rfl) none rest
  rw [hsame] at hvals
  have hlen := congrArg List.length hvals
  rw [List.length_append, List.length_append, List.length_cons] at hlen
  simp only [foundShort, foundLong, setOption_valList] at hlen
  omega

section
variable {A : AppArgs} {name : Str} {c : Char} {p : ℕ}

theorem noValue_iff (hnames : A.Names name c p) (hne : name ≠ []) (heq : '=' ∉ name)
    (hc : c ≠ '-') (post : List Str) :
    SameResults (A.parseLoop (['-', c] :: post)) (A.parseLoop (('-' :: '-' :: name) :: post)) ↔
      ¬ ∃ v ∈ post.head?, isOption v = false := by
  rw [(parseLoop_shortForm hnames.short hc).2, parseLoop_longForm (parseLong_name hne heq)
    hnames.long]
  by_cases hplain : ∃ v ∈ post.head?, isOption v = false
  · obtain ⟨v, hv, hoption⟩ := hplain
    cases post with
    | nil => exact absurd hv (by simp)
    | cons v' rest =>
      obtain rfl := Option.some.inj hv
      rw [if_pos (by simp [hoption])]
      exact iff_of_false (not_sameResults_of_swallowed hoption rest) fun h =>
        h ⟨_, rfl, hoption⟩
  · have hno : ¬ post.head?.any (fun next => !isOption next) = true := by
      rw [Option.any_eq_true]
      rintro ⟨v, hv, hoption⟩
      exact hplain ⟨v, hv, by simpa using hoption⟩
    rw [if_neg hno]
    exact iff_of_true (((Agree.refl A).short_long p none).parseLoop post).sameResults hplain

theorem sameResults_attached (hnames : A.Names name c p) (heq : '=' ∉ name) (hc : c ≠ '-')
    {V : Str} (hV : V ≠ []) (post : List Str) :
    SameResults (A.parseLoop (('-' :: c :: V) :: post))
      (A.parseLoop (('-' :: '-' :: (name ++ '=' :: V)) :: post)) := by
  rw [(parseLoop_shortForm hnames.short hc).1 V post hV,
    parseLoop_longForm (parseLong_value heq hV) hnames.long]
  exact (((Agree.refl A).short_long p (some V)).parseLoop post).sameResults

theorem sameResults_separate (hnames : A.Names name c p) (heq : '=' ∉ name) (hc : c ≠ '-')
    {V : Str} (hV : V ≠ []) (hplain : isOption V = false) (post : List Str) :
    SameResults (A.parseLoop (['-', c] :: V :: post))
      (A.parseLoop (('-' :: '-' :: (name ++ '=' :: V)) :: post)) := by
  rw [(parseLoop_shortForm hnames.short hc).2, if_pos (by simp [hplain]),
    parseLoop_longForm (parseLong_value heq hV) hnames.long]
  exact (((Agree.refl A).short_long p (some V)).parseLoop post).sameResults

end

/-- The forms of an option are equivalent exactly where the short one does not swallow a plain
argument. -/
theorem sameResults_iff {decls : List Declaration} (hdecls : ∀ d ∈ decls, d.WellNamed)
    {short : List Str} {long : Str} (hform : ShortForm (registered decls) short long)
    (prog : Str) (pre post : List Str) :
    SameResults ((registered decls).parse (prog :: (pre ++ (short ++ post))))
        ((registered decls).parse (prog :: (pre ++ long :: post))) ↔ ¬ Swallows short post := by
  obtain ⟨hmem, hmem'⟩ := mem_of_registered decls
  -- what the option's names are like
  have hwell : ∀ {name c p}, (registered decls).Names name c p →
      name ≠ [] ∧ '=' ∉ name ∧ c ≠ '-' := by
    intro name c p hnames
    obtain ⟨d, hd, rfl⟩ := hmem _ _ hnames.long
    obtain ⟨d', hd', rfl⟩ := hmem' _ _ hnames.short
    exact ⟨(hdecls d hd).1, (hdecls d hd).2.1, (hdecls d' hd').2.2⟩
  -- the arguments before the form do not matter
  have hat : ∀ {name c p}, (registered decls).Names name c p →
      ((registered decls).parseLoop pre).Names name c p := by
    intro name c p hnames
    obtain ⟨hshort, hlong⟩ := parseLoop_maps (registered decls) pre
    exact ⟨hlong ▸ hnames.long, hshort ▸ hnames.short⟩
  have hpre : ∀ c s args, (registered decls).parseLoop (pre ++ ('-' :: c :: s) :: args) =
      ((registered decls).parseLoop pre).parseLoop (('-' :: c :: s) :: args) := by
    refine fun c s args => parseLoop_append _ pre fun arg harg => ?_
    obtain rfl := Option.some.inj harg
    exact isOption_iff.mpr ⟨c, s, rfl⟩
  change SameResults ((registered decls).parseLoop (pre ++ (short ++ post)))
    ((registered decls).parseLoop (pre ++ long :: post)) ↔ _
  cases hform with
  | @noValue name c p hnames _ =>
    obtain ⟨hne, heq, hc⟩ := hwell hnames
    rw [hpre]
    refine (hpre c [] post ▸ noValue_iff (hat hnames) hne heq hc post).trans (not_congr ?_)
    constructor
    · exact fun h => ⟨c, rfl, h⟩
    · rintro ⟨-, -, h⟩
      exact h
  | @attached name c p V hnames _ hV _ =>
    obtain ⟨-, heq, hc⟩ := hwell hnames
    have hno : ¬ Swallows ['-' :: c :: V] post := by
      rintro ⟨c', hshort, -⟩
      simp only [List.cons.injEq, and_true, true_and] at hshort
      exact hV hshort.2
    rw [hpre]
    exact iff_of_true (hpre c V post ▸ sameResults_attached (hat hnames) heq hc hV post) hno
  | @separate name c p V hnames _ hV hplain =>
    obtain ⟨-, heq, hc⟩ := hwell hnames
    have hno : ¬ Swallows [['-', c], V] post := by
      rintro ⟨c', hshort, -⟩
      exact absurd hshort (by simp)
    rw [hpre]
    exact iff_of_true (hpre c [] (V :: post) ▸
      sameResults_separate (hat hnames) heq hc hV hplain post) hno

theorem sameResults_user : SameResults
    ((registered incrontabOptions).parse
      ("incrontab".toList :: ([] ++ (["-uroot".toList] ++ ["table".toList]))))
    ((registered incrontabOptions).parse
      ("incrontab".toList :: ([] ++ "--user=root".toList :: ["table".toList]))) ↔
      ¬ Swallows ["-uroot".toList] ["table".toList] := by
  have hnames : (registered incrontabOptions).Names "user".toList 'u' 7 :=
    ⟨by decide +kernel, by decide +kernel⟩
  have hform : ShortForm (registered incrontabOptions) ["-uroot".toList] "--user=root".toList :=
    .attached (V := "root".toList) hnames (by decide +kernel) (by decide) (by decide)
  exact sameResults_iff (by decide) hform "incrontab".toList [] ["table".toList]

/-- `-e` swallows the name of the table, `--edit` does not. -/
theorem not_sameResults_edit :
    ShortForm (registered incrontabOptions) ["-e".toList] "--edit".toList ∧
      ¬ SameResults
        ((registered incrontabOptions).parse ["incrontab".toList, "-e".toList, "table".toList])
        ((registered incrontabOptions).parse
          ["incrontab".toList, "--edit".toList, "table".toList]) := by
  have hnames : (registered incrontabOptions).Names "edit".toList 'e' 4 :=
    ⟨by decide +kernel, by decide +kernel⟩
  have hshort : ((registered incrontabOptions).parse
      ["incrontab".toList, "-e".toList, "table".toList]).valList = [] := by decide +kernel
  have hlong : ((registered incrontabOptions).parse
      ["incrontab".toList, "--edit".toList, "table".toList]).valList = ["table".toList] := by
    decide +kernel
  refine ⟨.noValue hnames (by decide +kernel), fun h => ?_⟩
  have hvals := h.valList
  rw [hshort, hlong] at hvals
  exact absurd hvals (by simp)

end Incron.AppArgs
