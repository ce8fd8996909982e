import Mathlib.Data.List.Basic
import Mathlib.Data.List.Nodup
import Mathlib.Logic.Function.Basic

/-! Objects with explicit allocation and destruction. A pointer is never used again, so that a
dangling pointer can be told from all others. The cell of a dead object tells what it was at its
end, for specifications alone: what a program reads from it is undefined, and a property of such
reads has to ask for `live` as well. -/

structure Heap (α : Type*) where
  cell : ℕ → α
  live : ℕ → Bool := fun _ => false
  /-- The pointer of the next new object. -/
  next : ℕ := 0
  /-- The pointers that have been freed, in order. -/
  freed : List ℕ := []

namespace Heap

variable {α : Type*}

instance [Inhabited α] : Inhabited (Heap α) := ⟨{ cell := fun _ => default }⟩

/-- `new`; the pointer is `h.next`. -/
def alloc (h : Heap α) (a : α) : Heap α :=
  { h with
    cell := Function.update h.cell h.next a
    live := Function.update h.live h.next true
    next := h.next + 1 }

/-- `delete`. -/
def free (h : Heap α) (p : ℕ) : Heap α :=
  { h with live := Function.update h.live p false, freed := h.freed ++ [p] }

def set (h : Heap α) (p : ℕ) (a : α) : Heap α :=
  { h with cell := Function.update h.cell p a }

def freeAll (h : Heap α) (l : List ℕ) : Heap α := l.foldl free h

section
variable (h : Heap α) (a : α) (p q : ℕ)

@[simp] theorem alloc_next : (h.alloc a).next = h.next + 1 := rfl
@[simp] theorem alloc_freed : (h.alloc a).freed = h.freed := rfl
@[simp] theorem free_next : (h.free p).next = h.next := rfl
@[simp] theorem free_freed : (h.free p).freed = h.freed ++ [p] := rfl
@[simp] theorem free_cell : (h.free p).cell = h.cell := rfl

theorem alloc_live : (h.alloc a).live q = if q = h.next then true else h.live q := by
  simp [alloc, Function.update_apply]

theorem alloc_cell : (h.alloc a).cell q = if q = h.next then a else h.cell q := by
  simp [alloc, Function.update_apply]

theorem free_live : (h.free p).live q = if q = p then false else h.live q := by
  simp [free, Function.update_apply]

theorem set_cell : (h.set p a).cell q = if q = p then a else h.cell q := by
  simp [set, Function.update_apply]

end

@[simp] theorem set_cell_self (h : Heap α) (p : ℕ) (a : α) : (h.set p a).cell p = a := by
  rw [set_cell, if_pos rfl]

theorem set_cell_of_ne (h : Heap α) {p q : ℕ} (hq : q ≠ p) (a : α) :
    (h.set p a).cell q = h.cell q := by
  rw [set_cell, if_neg hq]

@[simp] theorem set_set (h : Heap α) (p : ℕ) (a b : α) : (h.set p a).set p b = h.set p b := by
  simp [set]

/-! ## All of a list -/

@[simp] theorem freeAll_nil (h : Heap α) : h.freeAll [] = h := rfl

@[simp] theorem freeAll_cons (h : Heap α) (p : ℕ) (l : List ℕ) :
    h.freeAll (p :: l) = (h.free p).freeAll l := rfl

@[simp] theorem freeAll_next (h : Heap α) (l : List ℕ) : (h.freeAll l).next = h.next := by
  induction l generalizing h with
  | nil => rfl
  | cons p l ih => rw [freeAll_cons, ih, free_next]

@[simp] theorem freeAll_cell (h : Heap α) (l : List ℕ) : (h.freeAll l).cell = h.cell := by
  induction l generalizing h with
  | nil => rfl
  | cons p l ih => rw [freeAll_cons, ih, free_cell]

theorem freeAll_live (h : Heap α) (l : List ℕ) (q : ℕ) :
    (h.freeAll l).live q = (h.live q && decide (q ∉ l)) := by
  induction l generalizing h with
  | nil => simp
  | cons p l ih =>
    rw [freeAll_cons, ih, free_live]
    by_cases hq : q = p <;> simp [hq]

/-! ## Every object is destroyed at most once -/

structure Valid (h : Heap α) : Prop where
  live_iff : ∀ p, h.live p = true ↔ p < h.next ∧ p ∉ h.freed
  freed_lt : ∀ p ∈ h.freed, p < h.next
  nodup : h.freed.Nodup

namespace Valid
variable {h : Heap α}

theorem lt_next (hv : h.Valid) {p : ℕ} (hp : h.live p = true) : p < h.next :=
  ((hv.live_iff p).mp hp).1

theorem next_dead (hv : h.Valid) : h.live h.next = false :=
  Bool.eq_false_iff.mpr fun hp => Nat.lt_irrefl _ (hv.lt_next hp)

theorem default [Inhabited α] : (default : Heap α).Valid :=
  ⟨fun _ => by simp [Inhabited.default], fun _ hp => absurd hp (by simp [Inhabited.default]),
    List.nodup_nil⟩

theorem alloc (hv : h.Valid) (a : α) : (h.alloc a).Valid := by
  refine ⟨fun p => ?_, fun p hp => Nat.lt_succ_of_lt (hv.freed_lt p hp), hv.nodup⟩
  rw [alloc_live, alloc_next, alloc_freed]
  split_ifs with hp
  · subst hp
    have hnot : h.next ∉ h.freed := fun hmem => Nat.lt_irrefl _ (hv.freed_lt _ hmem)
    simp [hnot]
  · rw [hv.live_iff]
    have hlt : p < h.next + 1 ↔ p < h.next := by omega
    rw [hlt]

theorem free (hv : h.Valid) {p : ℕ} (hp : h.live p = true) : (h.free p).Valid := by
  obtain ⟨hlt, hnot⟩ := (hv.live_iff p).mp hp
  refine ⟨fun q => ?_, fun q hq => ?_, ?_⟩
  · rw [free_live, free_next, free_freed, List.mem_append, List.mem_singleton]
    split_ifs with hq
    · simp [hq]
    · simp [hv.live_iff, hq]
  · rw [free_freed, List.mem_append, List.mem_singleton] at hq
    rcases hq with hq | rfl
    · exact hv.freed_lt q hq
    · exact hlt
  · rw [free_freed, List.nodup_append]
    refine ⟨hv.nodup, List.nodup_singleton p, ?_⟩
    intro q hq r hr hqr
    rw [List.mem_singleton] at hr
    exact hnot (hr ▸ hqr ▸ hq)

theorem freeAll (hv : h.Valid) {l : List ℕ} (hl : l.Nodup) (hlive : ∀ p ∈ l, h.live p = true) :
    (h.freeAll l).Valid := by
  induction l generalizing h with
  | nil => exact hv
  | cons p l ih =>
    obtain ⟨hp, hl⟩ := List.nodup_cons.mp hl
    refine ih (hv.free (hlive p (by simp))) hl fun q hq => ?_
    rw [free_live, if_neg (by rintro rfl; exact hp hq)]
    exact hlive q (by simp [hq])

theorem set (hv : h.Valid) (p : ℕ) (a : α) : (h.set p a).Valid :=
  ⟨hv.live_iff, hv.freed_lt, hv.nodup⟩

/-- When nothing is left, every object has been destroyed exactly once. -/
theorem count_freed (hv : h.Valid) (hdead : ∀ p, h.live p = false) {p : ℕ} (hp : p < h.next) :
    h.freed.count p = 1 := by
  refine List.count_eq_one_of_mem hv.nodup ?_
  by_contra hnot
  exact absurd ((hv.live_iff p).mpr ⟨hp, hnot⟩) (by simp [hdead p])

end Valid
end Heap
