import Mathlib.Data.List.Basic
import Mathlib.Data.Nat.Notation

/-! Output streams of the C library: a buffer in front of a file, and calls that may fail. What
has been written is in the file, waits in the buffer, or is lost. -/
namespace Stdio

variable {α : Type*}

/-- How a call on an output stream ends: its answer, and how many of the waiting elements have
reached the file. A call that fails drops the others. -/
structure Outcome where
  ok : Bool
  moved : ℕ
  deriving DecidableEq, Repr

structure OStream (α : Type*) where
  file : List α := []
  buffer : List α := []

namespace OStream

/-- `fputs`; its answer is `o.ok`. -/
def fputs (f : OStream α) (s : List α) (o : Outcome) : OStream α :=
  { file := f.file ++ (f.buffer ++ s).take o.moved
    buffer := if o.ok then (f.buffer ++ s).drop o.moved else [] }

/-- `fclose`, which empties the buffer: what the file holds in the end. -/
def fclose (f : OStream α) (o : Outcome) : List α :=
  f.file ++ if o.ok then f.buffer else f.buffer.take o.moved

def lostByFputs (f : OStream α) (s : List α) (o : Outcome) : ℕ :=
  if o.ok then 0 else (f.buffer ++ s).length - o.moved

def lostByFclose (f : OStream α) (o : Outcome) : ℕ :=
  if o.ok then 0 else f.buffer.length - o.moved

/-- `fputs` of one string after the other, whatever the answers are. -/
def fputsAll (f : OStream α) : List (List α) → (ℕ → Outcome) → OStream α
  | [], _ => f
  | s :: l, o => (f.fputs s (o 0)).fputsAll l fun i => o (i + 1)

def lostByFputsAll (f : OStream α) : List (List α) → (ℕ → Outcome) → ℕ
  | [], _ => 0
  | s :: l, o => f.lostByFputs s (o 0) + (f.fputs s (o 0)).lostByFputsAll l fun i => o (i + 1)

/-! ## What one call does -/

theorem fputs_sublist (f : OStream α) (s : List α) (o : Outcome) :
    ((f.fputs s o).file ++ (f.fputs s o).buffer).Sublist (f.file ++ f.buffer ++ s) := by
  have hsplit := List.take_append_drop o.moved (f.buffer ++ s)
  rw [fputs, List.append_assoc, List.append_assoc]
  apply List.Sublist.append_left
  split_ifs
  · rw [hsplit]
  · rw [List.append_nil]
    exact List.take_sublist _ _

theorem fclose_sublist (f : OStream α) (o : Outcome) :
    (f.fclose o).Sublist (f.file ++ f.buffer) := by
  rw [fclose]
  apply List.Sublist.append_left
  split_ifs
  · exact List.Sublist.refl _
  · exact List.take_sublist _ _

/-- Every element is in the file, in the buffer, or lost. -/
theorem fputs_length (f : OStream α) (s : List α) (o : Outcome) :
    (f.fputs s o).file.length + (f.fputs s o).buffer.length + f.lostByFputs s o =
      f.file.length + f.buffer.length + s.length := by
  have hbuffer : (f.buffer ++ s).length = f.buffer.length + s.length := List.length_append
  unfold fputs lostByFputs
  cases o.ok with
  | true =>
    simp only [if_true, List.length_append, List.length_take, List.length_drop]
    omega
  | false =>
    simp only [Bool.false_eq_true, if_false, List.length_append, List.length_take,
      List.length_nil]
    omega

theorem fclose_length (f : OStream α) (o : Outcome) :
    (f.fclose o).length + f.lostByFclose o = f.file.length + f.buffer.length := by
  unfold fclose lostByFclose
  cases o.ok with
  | true =>
    simp only [if_true, List.length_append]
    omega
  | false =>
    simp only [Bool.false_eq_true, if_false, List.length_append, List.length_take]
    omega

/-! ## All of the calls -/

theorem fputsAll_sublist (f : OStream α) (l : List (List α)) (o : ℕ → Outcome) :
    ((f.fputsAll l o).file ++ (f.fputsAll l o).buffer).Sublist
      (f.file ++ f.buffer ++ l.flatten) := by
  induction l generalizing f o with
  | nil => simp [fputsAll]
  | cons s l ih =>
    have hrest := ih (f.fputs s (o 0)) fun i => o (i + 1)
    have hfirst := List.Sublist.append_right (fputs_sublist f s (o 0)) l.flatten
    rw [List.flatten_cons, ← List.append_assoc]
    exact hrest.trans hfirst

theorem fputsAll_length (f : OStream α) (l : List (List α)) (o : ℕ → Outcome) :
    (f.fputsAll l o).file.length + (f.fputsAll l o).buffer.length + f.lostByFputsAll l o =
      f.file.length + f.buffer.length + l.flatten.length := by
  induction l generalizing f o with
  | nil => simp [fputsAll, lostByFputsAll]
  | cons s l ih =>
    have hrest := ih (f.fputs s (o 0)) fun i => o (i + 1)
    have hfirst := fputs_length f s (o 0)
    rw [fputsAll, lostByFputsAll, List.flatten_cons, List.length_append]
    omega

theorem lostByFputsAll_of_ok (f : OStream α) (l : List (List α)) {o : ℕ → Outcome}
    (h : ∀ i, (o i).ok = true) : f.lostByFputsAll l o = 0 := by
  induction l generalizing f o with
  | nil => rfl
  | cons s l ih =>
    rw [lostByFputsAll, lostByFputs, if_pos (h 0), ih _ fun i => h (i + 1)]

end OStream

/-! ## From `fopen` to `fclose` -/

/-- The outcomes of the calls on a stream, in their order. -/
structure Writes where
  fputs : ℕ → Outcome
  fclose : Outcome

namespace Writes

/-- A new file after a `fputs` for each string and the `fclose`. -/
def written (w : Writes) (l : List (List α)) : List α :=
  (OStream.fputsAll {} l w.fputs).fclose w.fclose

def lost (w : Writes) (l : List (List α)) : ℕ :=
  OStream.lostByFputsAll {} l w.fputs +
    (OStream.fputsAll {} l w.fputs).lostByFclose w.fclose

def Succeed (w : Writes) : Prop := (∀ i, (w.fputs i).ok = true) ∧ w.fclose.ok = true

theorem written_sublist (w : Writes) (l : List (List α)) : (w.written l).Sublist l.flatten :=
  (OStream.fclose_sublist _ _).trans (OStream.fputsAll_sublist {} l w.fputs)

theorem written_length (w : Writes) (l : List (List α)) :
    (w.written l).length + w.lost l = l.flatten.length := by
  have hputs := OStream.fputsAll_length {} l w.fputs
  have hclose := OStream.fclose_length (OStream.fputsAll {} l w.fputs) w.fclose
  simp only [List.length_nil] at hputs
  unfold written lost
  omega

/-- The file holds all of the strings exactly if nothing is lost. -/
theorem written_eq_iff (w : Writes) (l : List (List α)) :
    w.written l = l.flatten ↔ w.lost l = 0 := by
  have hlen := written_length w l
  constructor
  · intro h
    rw [h] at hlen
    omega
  · intro h
    exact (written_sublist w l).eq_of_length (by omega)

theorem Succeed.written {w : Writes} (h : w.Succeed) (l : List (List α)) :
    w.written l = l.flatten := by
  rw [written_eq_iff, lost, OStream.lostByFputsAll_of_ok {} l h.1, OStream.lostByFclose,
    if_pos h.2]

end Writes
end Stdio
