import Incron.Daemon.Executor
import Mathlib.Data.List.DropRight

/-! The paths that `execBashVec` makes of the output of `find`. -/
namespace Incron.Executor

/-! ## Splitting -/

theorem splitLines_line (l r item : Str) (hl : '\n' ∉ l) :
    splitLines (l ++ '\n' :: r) item = (item ++ l) :: splitLines r [] := by
  induction l generalizing item with
  | nil => simp [splitLines]
  | cons c l ih =>
    simp only [List.mem_cons, not_or] at hl
    rw [List.cons_append, splitLines, if_neg (Ne.symm hl.1), ih _ hl.2]
    simp

theorem splitLines_last (l item : Str) (hl : '\n' ∉ l) (hne : item ++ l ≠ []) :
    splitLines l item = [item ++ l] := by
  induction l generalizing item with
  | nil =>
    rw [List.append_nil] at hne ⊢
    rw [splitLines, if_neg hne]
  | cons c l ih =>
    simp only [List.mem_cons, not_or] at hl
    rw [splitLines, if_neg (Ne.symm hl.1), ih _ hl.2 (by simp)]
    simp

/-- The last path need not be terminated. -/
theorem splitLines_paths (paths : List Str) (last : Str) (hpaths : ∀ p ∈ paths, '\n' ∉ p)
    (hlast : '\n' ∉ last) (hne : last ≠ []) :
    splitLines (paths.flatMap (· ++ ['\n']) ++ last) [] = paths ++ [last] := by
  induction paths with
  | nil => exact splitLines_last last [] hlast (by simpa using hne)
  | cons p paths ih =>
    rw [List.flatMap_cons, List.append_assoc, List.append_assoc, List.singleton_append,
      splitLines_line _ _ _ (hpaths p (by simp)), ih fun q hq => hpaths q (by simp [hq])]
    rfl

/-! ## Trimming -/

theorem trimRightCopy_isInit (s : Str) : trimRightCopy s <+: s := List.rdropWhile_prefix _ _

theorem trimRightCopy_append_newline (s : Str) : trimRightCopy (s ++ ['\n']) = trimRightCopy s :=
  List.rdropWhile_concat_pos _ _ _ (by decide)

/-- Trimming stops within a text with another character. -/
theorem trimRightCopy_append (s : Str) {r : Str} (hr : trimRightCopy r ≠ []) :
    trimRightCopy (s ++ r) = s ++ trimRightCopy r := by
  have hne : (r.reverse.dropWhile (· ∈ trimDelimiters)).isEmpty = false := by
    simpa [trimRightCopy] using hr
  unfold trimRightCopy
  rw [List.reverse_append, List.dropWhile_append, if_neg (by simp [hne]), List.reverse_append,
    List.reverse_reverse]

theorem trimRightCopy_eq_self_iff (s : Str) :
    trimRightCopy s = s ↔ ∀ c ∈ s.getLast?, c ∉ trimDelimiters := by
  refine List.rdropWhile_eq_self_iff.trans ?_
  cases hs : s.getLast? with
  | none => simp [List.getLast?_eq_none_iff.mp hs]
  | some c =>
    obtain ⟨r, rfl⟩ := List.getLast?_eq_some_iff.mp hs
    simp

/-! ## The list of paths -/

/-- A path as `find` prints it. -/
structure IsPath (p : Str) : Prop where
  slash : p.head? = some '/'
  newline : '\n' ∉ p
  nul : '\x00' ∉ p

theorem trimLeftCopy_of_slash {s : Str} (hs : s.head? = some '/') : trimLeftCopy s = s := by
  cases s with
  | nil => rfl
  | cons c s =>
    obtain rfl := Option.some.inj hs
    rfl

theorem IsPath.trimRightCopy_head? {p : Str} (h : IsPath p) :
    (trimRightCopy p).head? = some '/' := by
  cases htrim : trimRightCopy p with
  | nil =>
    have hall := List.rdropWhile_eq_nil_iff.mp htrim '/' (List.mem_of_head? h.slash)
    exact absurd hall (by decide)
  | cons c s =>
    obtain ⟨t, ht⟩ := htrim ▸ trimRightCopy_isInit p
    have hslash := h.slash
    rw [← ht] at hslash
    exact hslash

theorem plainExec_some {out : Str} (h : '\x00' ∉ out) : plainExec (some out) = trimCopy out :=
  congrArg trimCopy (Stdio.flatMap_cString_readAll 128 (by decide) h)

/-- The paths, of which the last one is trimmed. -/
theorem execBashVec_paths (paths : List Str) (last : Str) (hpaths : ∀ p ∈ paths, IsPath p)
    (hlast : IsPath last) :
    execBashVec (some ((paths ++ [last]).flatMap (· ++ ['\n']))) =
      paths ++ [trimRightCopy last] := by
  let out := (paths ++ [last]).flatMap (· ++ ['\n'])
  have hout : out = paths.flatMap (· ++ ['\n']) ++ last ++ ['\n'] := by simp [out]
  have hnul : '\x00' ∉ out := by
    intro hmem
    obtain ⟨p, hp, hc⟩ := List.mem_flatMap.mp hmem
    have hpath : IsPath p := by
      rcases List.mem_append.mp hp with hp | hp
      · exact hpaths p hp
      · rw [List.mem_singleton.mp hp]
        exact hlast
    exact hpath.nul (by simpa using hc)
  have hhead := hlast.trimRightCopy_head?
  have hne : trimRightCopy last ≠ [] := by
    intro h
    rw [h] at hhead
    exact absurd hhead (by simp)
  have hright : trimRightCopy out = paths.flatMap (· ++ ['\n']) ++ trimRightCopy last := by
    rw [hout, trimRightCopy_append_newline, trimRightCopy_append _ hne]
  have hleft : (paths.flatMap (· ++ ['\n']) ++ trimRightCopy last).head? = some '/' := by
    cases paths with
    | nil => exact hhead
    | cons p paths =>
      have hp := (hpaths p (by simp)).slash
      simp [hp]
  have htrim : plainExec (some out) = paths.flatMap (· ++ ['\n']) ++ trimRightCopy last := by
    rw [plainExec_some hnul, trimCopy, hright, trimLeftCopy_of_slash hleft]
  rw [execBashVec, htrim]
  refine splitLines_paths paths _ (fun p hp => (hpaths p hp).newline) (fun hmem => ?_) hne
  exact hlast.newline ((trimRightCopy_isInit last).subset hmem)

/-- The paths come out as they are exactly if the last one does not end with a character that is
trimmed. -/
theorem execBashVec_eq_iff (paths : List Str) (h : ∀ p ∈ paths, IsPath p) :
    execBashVec (some (paths.flatMap (· ++ ['\n']))) = paths ↔
      ∀ p ∈ paths.getLast?, ∀ c ∈ p.getLast?, c ∉ trimDelimiters := by
  cases hlast : paths.getLast? with
  | none =>
    rw [List.getLast?_eq_none_iff.mp hlast]
    exact iff_of_true rfl (by simp)
  | some last =>
    obtain ⟨init, rfl⟩ := List.getLast?_eq_some_iff.mp hlast
    rw [execBashVec_paths init last (fun p hp => h p (by simp [hp])) (h last (by simp)),
      List.append_cancel_left_eq, List.singleton_inj, trimRightCopy_eq_self_iff]
    simp only [Option.mem_def, Option.some.injEq, forall_eq']

theorem execBashVec_tmp : (∀ p ∈ ["/tmp/a-".toList, "/tmp".toList], IsPath p) ∧
    (execBashVec (some (["/tmp/a-".toList, "/tmp".toList].flatMap (· ++ ['\n']))) =
      ["/tmp/a-".toList, "/tmp".toList] ↔
        ∀ p ∈ ["/tmp/a-".toList, "/tmp".toList].getLast?, ∀ c ∈ p.getLast?,
          c ∉ trimDelimiters) := by
  have h : ∀ p ∈ ["/tmp/a-".toList, "/tmp".toList], IsPath p := by
    simp only [List.forall_mem_cons]
    exact ⟨⟨by decide, by decide, by decide⟩, ⟨by decide, by decide, by decide⟩, by simp⟩
  exact ⟨h, execBashVec_eq_iff _ h⟩

/-- The last path loses its hyphen. -/
theorem execBashVec_hyphen : (∀ p ∈ ["/tmp".toList, "/tmp/a-".toList], IsPath p) ∧
    execBashVec (some (["/tmp".toList, "/tmp/a-".toList].flatMap (· ++ ['\n']))) =
      ["/tmp".toList, "/tmp/a".toList] ∧
    execBashVec (some (["/tmp".toList, "/tmp/a-".toList].flatMap (· ++ ['\n']))) ≠
      ["/tmp".toList, "/tmp/a-".toList] := by
  refine ⟨?_, by decide +kernel, by decide +kernel⟩
  simp only [List.forall_mem_cons]
  exact ⟨⟨by decide, by decide, by decide⟩, ⟨by decide, by decide, by decide⟩, by simp⟩

end Incron.Executor
