import Mathlib.Data.List.Basic
import Mathlib.Data.Nat.Notation

/-! Runs of a state machine with a partial step function: invariants of all runs, and of the
runs whose steps all meet a condition. -/
namespace Transition

variable {σ α : Type*}

/-- A sequence of actions, `none` when one of them is not possible. -/
def run (step : σ → α → Option σ) : σ → List α → Option σ
  | s, [] => some s
  | s, a :: as => (step s a).bind fun s' => run step s' as

/-- Every step of the run is taken in a state that meets the condition for its action. -/
def Meets (step : σ → α → Option σ) (P : σ → α → Prop) : σ → List α → Prop
  | _, [] => True
  | s, a :: as => P s a ∧ ∀ s', step s a = some s' → Meets step P s' as

/-- Every state of the run satisfies the invariant. -/
def Always (step : σ → α → Option σ) (I : σ → Prop) : σ → List α → Prop
  | s, [] => I s
  | s, a :: as => I s ∧ ∀ s', step s a = some s' → Always step I s' as

variable {step : σ → α → Option σ}

@[simp] theorem run_nil (s : σ) : run step s [] = some s := rfl

theorem run_cons (s : σ) (a : α) (as : List α) :
    run step s (a :: as) = (step s a).bind fun s' => run step s' as := rfl

theorem run_cons_eq_some {s t : σ} {a : α} {as : List α} :
    run step s (a :: as) = some t ↔ ∃ s', step s a = some s' ∧ run step s' as = some t := by
  rw [run_cons, Option.bind_eq_some_iff]

theorem run_append (s : σ) (as bs : List α) :
    run step s (as ++ bs) = (run step s as).bind fun s' => run step s' bs := by
  induction as generalizing s with
  | nil => rfl
  | cons a as ih => simp only [List.cons_append, run_cons, ih, Option.bind_assoc]

/-- What every allowed step preserves holds after every run of allowed steps. -/
theorem run_invariant_of_meets {P : σ → α → Prop} {I : σ → Prop}
    (hstep : ∀ s a s', I s → P s a → step s a = some s' → I s') {s t : σ} {as : List α}
    (hs : I s) (hP : Meets step P s as) (hrun : run step s as = some t) : I t := by
  induction as generalizing s with
  | nil =>
    obtain rfl := Option.some.inj hrun
    exact hs
  | cons a as ih =>
    obtain ⟨s', hs', hrest⟩ := run_cons_eq_some.mp hrun
    exact ih (hstep s a s' hs hP.1 hs') (hP.2 s' hs') hrest

theorem meets_true (s : σ) (as : List α) : Meets step (fun _ _ => True) s as := by
  induction as generalizing s with
  | nil => trivial
  | cons a as ih => exact ⟨trivial, fun s' _ => ih s'⟩

theorem meets_cons {P : σ → α → Prop} {s s' : σ} {a : α} {as : List α} (hP : P s a)
    (hstep : step s a = some s') (h : Meets step P s' as) : Meets step P s (a :: as) := by
  refine ⟨hP, fun t ht => ?_⟩
  obtain rfl := Option.some.inj (hstep.symm.trans ht)
  exact h

/-- A condition on the actions alone. -/
theorem meets_of_forall {P : σ → α → Prop} {s : σ} {as : List α} (h : ∀ a ∈ as, ∀ s, P s a) :
    Meets step P s as := by
  induction as generalizing s with
  | nil => trivial
  | cons a as ih =>
    exact ⟨h a (by simp) s, fun s' _ => ih fun b hb => h b (by simp [hb])⟩

instance Meets.decidable {P : σ → α → Prop} [∀ s a, Decidable (P s a)] :
    ∀ (s : σ) (as : List α), Decidable (Meets step P s as)
  | _, [] => inferInstanceAs (Decidable True)
  | s, a :: as =>
    have : DecidablePred fun s' => Meets step P s' as := fun s' => Meets.decidable s' as
    inferInstanceAs (Decidable (P s a ∧ ∀ s' ∈ step s a, Meets step P s' as))

/-- A condition that implies another one in all states that an invariant describes. -/
theorem Meets.imp {P Q : σ → α → Prop} {I : σ → Prop}
    (hstep : ∀ s a s', I s → P s a → step s a = some s' → Q s a ∧ I s') {s t : σ} {as : List α}
    (hs : I s) (hP : Meets step P s as) (hrun : run step s as = some t) : Meets step Q s as := by
  induction as generalizing s with
  | nil => trivial
  | cons a as ih =>
    obtain ⟨s', hs', hrest⟩ := run_cons_eq_some.mp hrun
    obtain ⟨hQ, hI⟩ := hstep s a s' hs hP.1 hs'
    exact meets_cons hQ hs' (ih hI (hP.2 s' hs') hrest)

theorem run_invariant {I : σ → Prop} (hstep : ∀ s a s', I s → step s a = some s' → I s')
    {s t : σ} {as : List α} (hs : I s) (hrun : run step s as = some t) : I t :=
  run_invariant_of_meets (fun s a s' hs _ h => hstep s a s' hs h) hs (meets_true s as) hrun

/-- A machine whose steps are followed by a function of the actions. -/
theorem run_foldl {τ : Type*} {g : τ → α → τ} {R : σ → τ → Prop}
    (hstep : ∀ s a s' t, R s t → step s a = some s' → R s' (g t a)) {s s' : σ} {t : τ}
    {as : List α} (hs : R s t) (hrun : run step s as = some s') : R s' (as.foldl g t) := by
  induction as generalizing s t with
  | nil =>
    obtain rfl := Option.some.inj hrun
    exact hs
  | cons a as ih =>
    obtain ⟨s₁, hs₁, hrest⟩ := run_cons_eq_some.mp hrun
    exact ih (hstep s a s₁ t hs hs₁) hrest

/-- Two conditions that agree as long as an invariant holds, in a run with an assumption: every step
that meets the assumption and the second condition preserves the invariant. -/
theorem meets_congr_of_meets {A P Q : σ → α → Prop} {I : σ → Prop}
    (hiff : ∀ s a, I s → (P s a ↔ Q s a))
    (hstep : ∀ s a s', I s → A s a → Q s a → step s a = some s' → I s') {s : σ} (hs : I s)
    {as : List α} (hA : Meets step A s as) : Meets step P s as ↔ Meets step Q s as := by
  induction as generalizing s with
  | nil => exact Iff.rfl
  | cons a as ih =>
    have hrest : Q s a → ∀ s', step s a = some s' → (Meets step P s' as ↔ Meets step Q s' as) :=
      fun hQ s' hs' => ih (hstep s a s' hs hA.1 hQ hs') (hA.2 s' hs')
    constructor
    · rintro ⟨hP, hmeets⟩
      have hQ := (hiff s a hs).mp hP
      exact ⟨hQ, fun s' hs' => (hrest hQ s' hs').mp (hmeets s' hs')⟩
    · rintro ⟨hQ, hmeets⟩
      exact ⟨(hiff s a hs).mpr hQ, fun s' hs' => (hrest hQ s' hs').mpr (hmeets s' hs')⟩

/-- Two conditions that agree as long as an invariant holds, which every step that meets the
second one preserves. -/
theorem meets_congr {P Q : σ → α → Prop} {I : σ → Prop}
    (hiff : ∀ s a, I s → (P s a ↔ Q s a))
    (hstep : ∀ s a s', I s → Q s a → step s a = some s' → I s') {s : σ} (hs : I s)
    (as : List α) : Meets step P s as ↔ Meets step Q s as :=
  meets_congr_of_meets hiff (fun s a s' h _ hQ hs' => hstep s a s' h hQ hs') hs (meets_true s as)

theorem Always.run {I : σ → Prop} {s t : σ} {as : List α} (h : Always step I s as)
    (hrun : run step s as = some t) : I t := by
  induction as generalizing s with
  | nil =>
    obtain rfl := Option.some.inj hrun
    exact h
  | cons a as ih =>
    obtain ⟨s', hs', hrest⟩ := run_cons_eq_some.mp hrun
    exact ih (h.2 s' hs') hrest

/-- An invariant that is preserved as long as another one holds. -/
theorem run_invariant_of_always {P : σ → α → Prop} {A I : σ → Prop}
    (hstep : ∀ s a s', I s → A s → P s a → step s a = some s' → I s') {s t : σ} {as : List α}
    (hs : I s) (hA : Always step A s as) (hP : Meets step P s as) (hrun : run step s as = some t) :
    I t := by
  induction as generalizing s with
  | nil =>
    obtain rfl := Option.some.inj hrun
    exact hs
  | cons a as ih =>
    obtain ⟨s', hs', hrest⟩ := run_cons_eq_some.mp hrun
    exact ih (hstep s a s' hs hA.1 hP.1 hs') (hA.2 s' hs') (hP.2 s' hs') hrest

/-- An invariant of all states speaks about the first one and about what each step reaches. -/
theorem always_iff_meets {I : σ → Prop} {s : σ} {as : List α} :
    Always step I s as ↔ I s ∧ Meets step (fun s a => ∀ s', step s a = some s' → I s') s as := by
  induction as generalizing s with
  | nil => simp [Always, Meets]
  | cons a as ih =>
    simp only [Always, Meets, ih]
    exact and_congr_right fun _ =>
      ⟨fun h => ⟨fun s' hs' => (h s' hs').1, fun s' hs' => (h s' hs').2⟩,
        fun h s' hs' => ⟨h.1 s' hs', h.2 s' hs'⟩⟩

end Transition
