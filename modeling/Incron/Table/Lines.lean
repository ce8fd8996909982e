import Incron.Table.Loading

/-! Table files by their lines: what `IncronTab::Load` gives to `Parse`, and when these are the
lines of the file. -/
namespace Incron.IncronTab
open IncronTabEntry Stdio

/-- The strings that the loop of `Load` gives to `Parse`. -/
def handedToParse (content : Str) : List Str := (readAll 1000 content).map cString

private theorem handedToParse_eq_lines_iff (content : Str) :
    handedToParse content = lines content ↔
      ∀ l ∈ lines content, l.length < 1000 ∧ '\x00' ∉ l := by
  constructor
  · intro h l hl
    rw [← h] at hl
    obtain ⟨s, hs, rfl⟩ := List.mem_map.mp hl
    have hbuf := (readAll_isBuffer 1000 (by decide) content s hs).length_lt
    have hle := cString_length_le s
    exact ⟨by omega, nul_not_mem_cString s⟩
  · intro h
    have hread := (readAll_eq_lines_iff (by decide) content).mpr fun l hl => (h l hl).1
    rw [handedToParse, hread]
    exact List.map_congr_left (fun l hl => cString_of_not_mem (h l hl).2) |>.trans (List.map_id _)

/-- The table is made of the lines of the file, and only whole lines are ever parsed, exactly
if every line fits into the buffer and has no NUL byte. -/
theorem load_lines_iff (content : Str) :
    (load (some content) = .ok (true, (lines content).filterMap accepted) ∧
      handedToParse content = lines content) ↔
      ∀ l ∈ lines content, l.length < 1000 ∧ '\x00' ∉ l := by
  rw [← handedToParse_eq_lines_iff, and_iff_right_iff_imp]
  intro h
  have hlines := (handedToParse_eq_lines_iff content).mp h
  have hread := (readAll_eq_lines_iff (by decide) content).mpr fun l hl => (hlines l hl).1
  have hnul : '\x00' ∉ content := by
    rw [← lines_flatten content, List.mem_flatten]
    rintro ⟨l, hl, hc⟩
    exact (hlines l hl).2 hc
  rw [load_eq hnul, entriesOf, hread]

/-- A long comment line ends in a table line of its own. -/
def longComment : Str := '#' :: List.replicate 998 'x' ++ "/tmp 256 ls\n".toList

/-- The end of a comment becomes an entry, and a line that starts with a NUL byte makes `Load`
throw. -/
theorem load_longComment :
    (lines longComment).filterMap accepted = [] ∧
      load (some longComment) =
        .ok (true, [{ path := "/tmp".toList, mask := 256, cmd := "ls".toList }]) ∧
      handedToParse longComment ≠ lines longComment ∧
      load (some "\x00 /tmp 256 ls\n".toList) = .error .outOfRange := by
  decide +kernel

end Incron.IncronTab
