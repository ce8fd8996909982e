import Incron.Lib.FinMap
import Incron.Lib.Heap
import Incron.Text.StrTok

/-! The command line (appargs.cpp): `AddOption`, `Parse` and the questions about its results. The
values are the arguments that are neither options nor taken as the values of options. -/
namespace Incron

inductive AppArgType where
  | noValue
  | optionalValue
  | mandatoryValue
  deriving DecidableEq, Repr, Inhabited

/-- `AppArgOption_t`, but for `mand`. -/
structure AppArgOption where
  type : AppArgType
  found : Bool := false
  val : Str := []
  hasVal : Bool := false
  deriving DecidableEq, Repr, Inhabited

/-- The static members: both maps point to the same options. -/
structure AppArgs where
  options : Heap AppArgOption := default
  longMap : FinMap Str ℕ := ∅
  shortMap : FinMap Char ℕ := ∅
  valList : List Str := []

namespace AppArgs

def isOption (pchStr : Str) : Bool := if pchStr.length < 2 then false else pchStr[0]? = some '-'

def isLongOption (pchStr : Str) : Bool := pchStr[1]? = some '-'

/-- `ParseLong`: a name, and the value if there is one. -/
def parseLong (pchStr : Str) : Option (Str × Option Str) :=
  let tok : StringTokenizer := { str := pchStr.drop 2, delim := ['='] }
  if !tok.hasMoreTokens then none
  else
    let (rName, tok) := tok.getNextToken
    if !tok.hasMoreTokens then some (rName, none) else some (rName, some tok.getRemainder)

def parseShort (pchStr : Str) : Char × Option Str :=
  (pchStr[1]?.getD '\x00', if pchStr.length = 2 then none else some (pchStr.drop 2))

variable (A : AppArgs)

def addOption (rName : Str) (cShort : Char) (type : AppArgType) : AppArgs × Bool :=
  if (A.longMap.lookup rName).isSome || (A.shortMap.lookup cShort).isSome then (A, false)
  else
    ({ A with
      options := A.options.alloc { type := type }
      longMap := A.longMap.insertNew rName A.options.next
      shortMap := A.shortMap.insertNew cShort A.options.next }, true)

/-- An option is changed through one of the maps. -/
def setOption (p : ℕ) (f : AppArgOption → AppArgOption) : AppArgs :=
  { A with options := A.options.set p (f (A.options.cell p)) }

/-- What a long form writes into its option. -/
def foundLong (p : ℕ) (val : Option Str) : AppArgs :=
  A.setOption p fun o => { o with found := true, hasVal := val.isSome, val := val.getD [] }

/-- What a short form writes into its option; without a value the old one stays. -/
def foundShort (p : ℕ) (val : Option Str) : AppArgs :=
  A.setOption p fun o => { o with found := true, hasVal := val.isSome, val := val.getD o.val }

/-- The branch of `Parse` for a long form. -/
def longOption (arg : Str) : AppArgs :=
  match parseLong arg with
  | none => A
  | some (name, val) =>
    match A.longMap.lookup name with
    | none => A
    | some p => A.foundLong p val

def parseLoop : AppArgs → List Str → AppArgs
  | A, [] => A
  | A, arg :: rest =>
    if isOption arg then
      if isLongOption arg then parseLoop (A.longOption arg) rest
      else
        match A.shortMap.lookup (parseShort arg).1 with
        | none => parseLoop A rest
        | some p =>
          match (parseShort arg).2 with
          | some val => parseLoop (A.foundShort p (some val)) rest
          | none =>
            match rest with
            | [] => A.foundShort p none
            | next :: rest' =>
              if isOption next then parseLoop (A.foundShort p none) (next :: rest')
              else parseLoop (A.foundShort p (some next)) rest'
    else parseLoop { A with valList := A.valList ++ [arg] } rest

/-- `Parse`; the first argument is the name of the program. -/
def parse (argv : List Str) : AppArgs := A.parseLoop (argv.drop 1)

/-- `ExistsOption`. -/
def existsOption (rArg : Str) : Bool :=
  match A.longMap.lookup rArg with
  | none => false
  | some p => (A.options.cell p).found

/-- `GetOption`; `none` is the answer `false`. -/
def getOption (rArg : Str) : Option Str :=
  match A.longMap.lookup rArg with
  | none => none
  | some p =>
    if (A.options.cell p).found && (A.options.cell p).hasVal then some (A.options.cell p).val
    else none

/-- An element behind the end of the list is read. -/
inductive Overrun where
  | overrun
  deriving DecidableEq, Repr

/-- `GetValue`; `none` is the answer `false`. -/
def getValue (index : ℕ) : Except Overrun (Option Str) :=
  if index > A.valList.length then .ok none
  else
    match A.valList[index]? with
    | none => .error .overrun
    | some val => .ok (some val)

/-- What `AddOption` is called with. -/
structure Declaration where
  rName : Str
  cShort : Char
  type : AppArgType
  deriving DecidableEq, Repr

/-- The options after some calls of `AddOption`. -/
def registered (decls : List Declaration) : AppArgs :=
  decls.foldl (fun A d => (A.addOption d.rName d.cShort d.type).1) {}

/-! ## Plain values -/

/-- The short form `-c` of a registered option, which takes a value behind it. -/
def takesNext : Str → Bool
  | ['-', c] => c ≠ '-' && (A.shortMap.lookup c).isSome
  | _ => false

/-- The arguments that are neither options nor the separate value of the option just before
them. -/
def plainValues : Option Str → List Str → List Str
  | _, [] => []
  | prev, arg :: rest =>
    if isOption arg || prev.any A.takesNext then plainValues (some arg) rest
    else arg :: plainValues (some arg) rest

variable {A}

@[simp] theorem setOption_shortMap (p : ℕ) (f : AppArgOption → AppArgOption) :
    (A.setOption p f).shortMap = A.shortMap := rfl

@[simp] theorem setOption_longMap (p : ℕ) (f : AppArgOption → AppArgOption) :
    (A.setOption p f).longMap = A.longMap := rfl

@[simp] theorem setOption_valList (p : ℕ) (f : AppArgOption → AppArgOption) :
    (A.setOption p f).valList = A.valList := rfl

theorem isOption_iff {arg : Str} : isOption arg = true ↔ ∃ c s, arg = '-' :: c :: s := by
  unfold isOption
  match arg with
  | [] => simp
  | [c] => simp
  | c :: d :: s => simp

theorem takesNext_iff {arg : Str} : A.takesNext arg = true ↔
    isOption arg = true ∧ isLongOption arg = false ∧ (parseShort arg).2 = none ∧
      (A.shortMap.lookup (parseShort arg).1).isSome = true := by
  unfold isLongOption parseShort
  rw [isOption_iff]
  constructor
  · intro h
    unfold takesNext at h
    split at h
    · next c =>
      rw [Bool.and_eq_true, decide_eq_true_eq] at h
      exact ⟨⟨c, [], rfl⟩, by simpa using h.1, rfl, h.2⟩
    · exact absurd h (by simp)
  · rintro ⟨⟨c, s, rfl⟩, hlong, hval, hsome⟩
    cases s with
    | nil =>
      have hc : c ≠ '-' := by simpa using hlong
      have hsome : (A.shortMap.lookup c).isSome = true := hsome
      simp [takesNext, hc, hsome]
    | cons d s => simp at hval

/-- A registered short form without a value takes a plain argument behind it. -/
theorem parseLoop_short {A : AppArgs} {arg : Str} {p : ℕ} (hoption : isOption arg = true)
    (hlong : ¬ isLongOption arg = true) (hlook : A.shortMap.lookup (parseShort arg).1 = some p)
    (hval : (parseShort arg).2 = none) (rest : List Str) : A.parseLoop (arg :: rest) =
      if rest.head?.any (fun next => !isOption next) then
        (A.foundShort p rest.head?).parseLoop rest.tail
      else (A.foundShort p none).parseLoop rest := by
  cases rest with
  | nil => simp [parseLoop, hoption, hlong, hlook, hval]
  | cons next rest =>
    conv_lhs => rw [parseLoop, if_pos hoption, if_neg hlong, hlook, hval]
    cases hnext : isOption next <;> simp [hnext]

/-- The maps are not changed, and no option is a value. -/
theorem longOption_frame (A : AppArgs) (arg : Str) : (A.longOption arg).shortMap = A.shortMap ∧
    (A.longOption arg).longMap = A.longMap ∧ (A.longOption arg).valList = A.valList := by
  unfold longOption
  split
  · exact ⟨rfl, rfl, rfl⟩
  · split
    · exact ⟨rfl, rfl, rfl⟩
    · exact ⟨rfl, rfl, rfl⟩

theorem takesNext_congr {B : AppArgs} (h : A.shortMap = B.shortMap) :
    A.takesNext = B.takesNext := by
  funext arg
  unfold takesNext
  rw [h]

theorem plainValues_congr {B : AppArgs} (h : A.shortMap = B.shortMap) (prev : Option Str)
    (args : List Str) : A.plainValues prev args = B.plainValues prev args := by
  induction args generalizing prev with
  | nil => rfl
  | cons arg rest ih => rw [plainValues, plainValues, takesNext_congr h, ih]

/-- Only a short form without a value matters to the next argument. -/
theorem plainValues_of_not_takesNext {prev : Str} (h : A.takesNext prev = false)
    (args : List Str) : A.plainValues (some prev) args = A.plainValues none args := by
  cases args with
  | nil => rfl
  | cons arg rest => simp [plainValues, h]

theorem plainValues_option {arg : Str} (h : isOption arg = true) (hnot : A.takesNext arg = false)
    (rest : List Str) : A.plainValues none (arg :: rest) = A.plainValues none rest := by
  rw [plainValues, h, Bool.true_or, if_pos rfl, plainValues_of_not_takesNext hnot]

theorem takesNext_of_not_isOption {arg : Str} (h : isOption arg = false) :
    A.takesNext arg = false := by
  by_contra hyes
  rw [Bool.not_eq_false, takesNext_iff, h] at hyes
  exact absurd hyes.1 (by simp)

theorem plainValues_plain {arg : Str} (h : isOption arg = false) (rest : List Str) :
    A.plainValues none (arg :: rest) = arg :: A.plainValues none rest := by
  rw [plainValues, h, Option.any_none, Bool.false_or, if_neg (by simp),
    plainValues_of_not_takesNext (takesNext_of_not_isOption h)]

/-- The separate value of an option is no plain value, and another option is none anyway. -/
theorem plainValues_takesNext {arg next : Str} (h : A.takesNext arg = true) (rest : List Str) :
    A.plainValues none (arg :: next :: rest) =
      if isOption next then A.plainValues none (next :: rest) else A.plainValues none rest := by
  have harg := (takesNext_iff.mp h).1
  have hskip : A.plainValues none (arg :: next :: rest) = A.plainValues (some next) rest := by
    simp [plainValues, harg, h]
  rw [hskip]
  split_ifs with hnext
  · rw [plainValues, hnext, Bool.true_or, if_pos rfl]
  · exact plainValues_of_not_takesNext
      (takesNext_of_not_isOption (Bool.eq_false_iff.mpr hnext)) rest

/-- `Parse` appends the plain values. -/
theorem valList_parseLoop (A : AppArgs) (args : List Str) :
    (A.parseLoop args).valList = A.valList ++ A.plainValues none args := by
  fun_induction parseLoop A args with
  | case1 A => simp [plainValues]
  | case2 A arg rest hoption hlong ih =>
    obtain ⟨hmap, -, hvals⟩ := longOption_frame A arg
    have hnot : A.takesNext arg = false := by
      by_contra hyes
      rw [Bool.not_eq_false, takesNext_iff, hlong] at hyes
      exact absurd hyes.2.1 (by simp)
    rw [ih, hvals, plainValues_congr hmap, plainValues_option hoption hnot]
  | case3 A arg rest hoption hlong hlook ih =>
    have hnot : A.takesNext arg = false := by
      by_contra hyes
      rw [Bool.not_eq_false, takesNext_iff, hlook] at hyes
      exact absurd hyes.2.2.2 (by simp)
    rw [ih, plainValues_option hoption hnot]
  | case4 A arg rest hoption hlong p hlook val hval ih =>
    have hnot : A.takesNext arg = false := by
      by_contra hyes
      rw [Bool.not_eq_false, takesNext_iff, hval] at hyes
      exact absurd hyes.2.2.1 (by simp)
    rw [ih, plainValues_option hoption hnot]
    exact congrArg (A.valList ++ ·) (plainValues_congr (by rfl) none rest)
  | case5 A arg hoption hlong p hlook hval => simp [foundShort, plainValues, hoption]
  | case6 A arg hoption hlong p hlook hval next rest hnext ih =>
    have htakes : A.takesNext arg = true :=
      takesNext_iff.mpr ⟨hoption, Bool.eq_false_iff.mpr hlong, hval, by rw [hlook]; rfl⟩
    rw [ih, plainValues_takesNext htakes, if_pos hnext]
    exact congrArg (A.valList ++ ·) (plainValues_congr (by rfl) none (next :: rest))
  | case7 A arg hoption hlong p hlook hval next rest hnext ih =>
    have htakes : A.takesNext arg = true :=
      takesNext_iff.mpr ⟨hoption, Bool.eq_false_iff.mpr hlong, hval, by rw [hlook]; rfl⟩
    rw [ih, plainValues_takesNext htakes, if_neg hnext]
    exact congrArg (A.valList ++ ·) (plainValues_congr (by rfl) none rest)
  | case8 A arg rest hoption ih =>
    rw [ih, plainValues_plain (Bool.eq_false_iff.mpr hoption)]
    simp only [List.append_assoc, List.singleton_append]
    exact congrArg (A.valList ++ arg :: ·) (plainValues_congr (by rfl) none rest)

/-! ## The values by their indexes -/

theorem valList_registered (decls : List Declaration) : (registered decls).valList = [] := by
  have hloop : ∀ A : AppArgs, (decls.foldl
      (fun A d => (A.addOption d.rName d.cShort d.type).1) A).valList = A.valList := by
    induction decls with
    | nil => exact fun A => rfl
    | cons d decls ih =>
      intro A
      rw [List.foldl_cons, ih, addOption]
      split_ifs <;> rfl
  exact hloop {}

/-- `GetValue` gives the plain value with an index, or `false`. -/
def GetsPlainValue (A : AppArgs) (argv : List Str) (i : ℕ) : Prop :=
  (A.parse argv).getValue i = .ok (A.plainValues none (argv.drop 1))[i]?

theorem getValue_eq (A : AppArgs) (i : ℕ) : A.getValue i =
    if i = A.valList.length then .error .overrun else .ok A.valList[i]? := by
  unfold getValue
  split_ifs with hgt heq heq
  · omega
  · rw [List.getElem?_eq_none (by omega)]
  · rw [heq, List.getElem?_eq_none (by omega)]
  · rw [List.getElem?_eq_getElem (by omega)]

/-- `GetValue` is right except for the index behind the last value. -/
theorem getsPlainValue_iff (decls : List Declaration) (argv : List Str) (i : ℕ) :
    GetsPlainValue (registered decls) argv i ↔
      i ≠ ((registered decls).plainValues none (argv.drop 1)).length := by
  have hvals : ((registered decls).parse argv).valList =
      (registered decls).plainValues none (argv.drop 1) := by
    rw [parse, valList_parseLoop, valList_registered, List.nil_append]
  rw [GetsPlainValue, getValue_eq, hvals]
  split_ifs with hi
  · exact iff_of_false (by simp) (fun h => h hi)
  · exact iff_of_true rfl hi

def incrontabOptions : List Declaration :=
  [⟨"about".toList, '?', .noValue⟩, ⟨"help".toList, 'h', .noValue⟩, ⟨"list".toList, 'l', .noValue⟩,
    ⟨"remove".toList, 'r', .noValue⟩, ⟨"edit".toList, 'e', .noValue⟩,
    ⟨"types".toList, 't', .noValue⟩, ⟨"reload".toList, 'd', .noValue⟩,
    ⟨"user".toList, 'u', .mandatoryValue⟩, ⟨"config".toList, 'f', .mandatoryValue⟩,
    ⟨"version".toList, 'V', .noValue⟩]

/-- Without plain values the one with the index 0 is read. -/
theorem not_getsPlainValue_incrontab :
    ¬ GetsPlainValue (registered incrontabOptions) ["incrontab".toList] 0 := by
  have hread : ((registered incrontabOptions).parse ["incrontab".toList]).getValue 0 =
      .error .overrun := by decide +kernel
  intro h
  rw [GetsPlainValue, hread] at h
  exact absurd h (by simp)

end AppArgs
end Incron
