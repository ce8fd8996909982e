import Incron.Lib.Transition
import Mathlib.Data.List.Nodup
import Mathlib.Tactic.SplitIfs

/-! Processes that share a state, fork, and own numbered tickets: a ticket is issued once,
passed on or spent. -/
namespace Pool

variable {σ P A : Type*}

/-- What a step of one process does: the tickets that it has been issued, and those that it has
spent. -/
structure Outcome (σ P : Type*) where
  shared : σ
  proc : P
  forked : List P := []
  issued : ℕ := 0
  spent : List ℕ := []

structure State (σ P : Type*) where
  shared : σ
  procs : List P
  /-- The number of the next ticket. -/
  next : ℕ
  spent : List ℕ

inductive Action (σ A : Type*) where
  /-- The shared state changes by itself. -/
  | world (s : σ)
  | proc (p : ℕ) (a : A)

/-- The pool after a step of the process `p`. -/
def State.after (τ : State σ P) (p : ℕ) (o : Outcome σ P) : State σ P where
  shared := o.shared
  procs := τ.procs.set p o.proc ++ o.forked
  next := τ.next + o.issued
  spent := τ.spent ++ o.spent

def step (f : σ → ℕ → P → A → Option (Outcome σ P)) (τ : State σ P) :
    Action σ A → Option (State σ P)
  | .world s => some { τ with shared := s }
  | .proc p a => τ.procs[p]?.bind fun x => (f τ.shared τ.next x a).map (τ.after p)

variable {f : σ → ℕ → P → A → Option (Outcome σ P)} {τ τ' : State σ P} {p : ℕ}

theorem step_proc_eq_some {a : A} : step f τ (.proc p a) = some τ' ↔
    ∃ x o, τ.procs[p]? = some x ∧ f τ.shared τ.next x a = some o ∧ τ' = τ.after p o := by
  simp only [step, Option.bind_eq_some_iff, Option.map_eq_some_iff, exists_and_left,
    eq_comm (a := τ')]

/-! ## Invariants of the single processes -/

/-- Every process satisfies the invariant of its place in the pool. -/
def Each (I : ℕ → P → Prop) (τ : State σ P) : Prop :=
  ∀ p x, τ.procs[p]? = some x → I p x

theorem Each.after {I : ℕ → P → Prop} (h : Each I τ) {x : P} (hx : τ.procs[p]? = some x)
    {o : Outcome σ P} (hproc : I p o.proc)
    (hforked : ∀ q, q ≠ 0 → ∀ y ∈ o.forked, I q y) : Each I (τ.after p o) := by
  have hp : p < τ.procs.length := (List.getElem?_eq_some_iff.mp hx).1
  intro q y hy
  rcases Nat.lt_or_ge q τ.procs.length with hq | hq
  · rw [State.after, List.getElem?_append_left (by rwa [List.length_set])] at hy
    by_cases hpq : p = q
    · subst hpq
      rw [List.getElem?_set_self hp] at hy
      rwa [← Option.some.inj hy]
    · rw [List.getElem?_set_ne hpq] at hy
      exact h q y hy
  · rw [State.after, List.getElem?_append_right (by rwa [List.length_set])] at hy
    exact hforked q (Nat.ne_of_gt (by omega)) y (List.mem_of_getElem? hy)

/-! ## Tickets -/

/-- All tickets that have been issued and not been lost. -/
def State.tickets (owned : P → List ℕ) (τ : State σ P) : List ℕ :=
  τ.procs.flatMap owned ++ τ.spent

/-- Every ticket is owned by one process or has been spent once. -/
structure Ledger (owned : P → List ℕ) (τ : State σ P) : Prop where
  nodup : (τ.tickets owned).Nodup
  issued : ∀ n ∈ τ.tickets owned, n < τ.next

/-- A step of a process copies no ticket. -/
def Balanced (owned : P → List ℕ) (next : ℕ) (x : P) (o : Outcome σ P) : Prop :=
  ∀ n, (owned o.proc ++ o.forked.flatMap owned ++ o.spent).count n ≤
    (owned x ++ List.range' next o.issued).count n

theorem Ledger.spent_nodup {owned : P → List ℕ} (h : Ledger owned τ) : τ.spent.Nodup :=
  (List.nodup_append.mp h.nodup).2.1

private theorem count_tickets_after {owned : P → List ℕ} {x : P} (hx : τ.procs[p]? = some x)
    {o : Outcome σ P} (hbal : Balanced owned τ.next x o) (n : ℕ) :
    ((τ.after p o).tickets owned).count n ≤
      (τ.tickets owned).count n + (List.range' τ.next o.issued).count n := by
  obtain ⟨hp, rfl⟩ := List.getElem?_eq_some_iff.mp hx
  obtain ⟨l₁, l₂, hprocs, -, hset⟩ : ∃ l₁ l₂, τ.procs = l₁ ++ τ.procs[p] :: l₂ ∧
      l₁.length = p ∧ τ.procs.set p o.proc = l₁ ++ o.proc :: l₂ := List.exists_of_set hp
  have hn := hbal n
  generalize τ.procs[p] = x at hn hprocs
  unfold State.tickets State.after
  rw [hset, hprocs]
  simp only [List.flatMap_append, List.flatMap_cons, List.count_append] at hn ⊢
  omega

theorem Ledger.after {owned : P → List ℕ} (h : Ledger owned τ) {x : P}
    (hx : τ.procs[p]? = some x) {o : Outcome σ P} (hbal : Balanced owned τ.next x o) :
    Ledger owned (τ.after p o) := by
  have hcount := count_tickets_after hx hbal
  constructor
  · refine List.nodup_iff_count_le_one.mpr fun n => Nat.le_trans (hcount n) ?_
    have hold := List.nodup_iff_count_le_one.mp h.nodup n
    have hnew := List.nodup_iff_count_le_one.mp
      (List.nodup_range' (s := τ.next) (n := o.issued)) n
    rcases Nat.lt_or_ge n τ.next with hn | hn
    · have : n ∉ List.range' τ.next o.issued := by
        simp only [List.mem_range'_1]
        omega
      rw [List.count_eq_zero_of_not_mem this]
      exact hold
    · have : n ∉ τ.tickets owned := fun hmem => absurd (h.issued n hmem) (Nat.not_lt_of_ge hn)
      rw [List.count_eq_zero_of_not_mem this, Nat.zero_add]
      exact hnew
  · intro n hmem
    have hpos := Nat.lt_of_lt_of_le (List.count_pos_iff.mpr hmem) (hcount n)
    change n < τ.next + o.issued
    rcases Nat.lt_or_ge n τ.next with hn | hn
    · omega
    · have : n ∉ τ.tickets owned := fun hmem => absurd (h.issued n hmem) (Nat.not_lt_of_ge hn)
      rw [List.count_eq_zero_of_not_mem this, Nat.zero_add] at hpos
      exact (List.mem_range'_1.mp (List.count_pos_iff.mp hpos)).2

end Pool
