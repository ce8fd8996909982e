import Mathlib.Data.List.Basic

/-! Pre- and postconditions of programs with a state that survives exceptions. -/
namespace Hoare

universe u

variable {ε σ α β : Type u}

/-- From the state `s` the program ends normally with `Q` or with an exception and `E`. -/
def Post (x : EStateM ε σ α) (s : σ) (Q : α → σ → Prop) (E : ε → σ → Prop) : Prop :=
  match x s with
  | .ok a s' => Q a s'
  | .error e s' => E e s'

variable {s : σ} {Q : α → σ → Prop} {E : ε → σ → Prop}

instance {x : EStateM ε σ α} [∀ a s', Decidable (Q a s')] [∀ e s', Decidable (E e s')] :
    Decidable (Post x s Q E) :=
  match h : x s with
  | .ok a s' => decidable_of_iff (Q a s') (by rw [Post, h])
  | .error e s' => decidable_of_iff (E e s') (by rw [Post, h])

theorem Post.ok {x : EStateM ε σ α} {a : α} {s' : σ} (h : Post x s Q E) (hx : x s = .ok a s') :
    Q a s' := by
  rwa [Post, hx] at h

theorem Post.error {x : EStateM ε σ α} {e : ε} {s' : σ} (h : Post x s Q E)
    (hx : x s = .error e s') : E e s' := by
  rwa [Post, hx] at h

theorem Post.of {x : EStateM ε σ α} (hok : ∀ a s', x s = .ok a s' → Q a s')
    (herr : ∀ e s', x s = .error e s' → E e s') : Post x s Q E := by
  unfold Post
  split
  · next h => exact hok _ _ h
  · next h => exact herr _ _ h

theorem Post.mono {x : EStateM ε σ α} {Q' : α → σ → Prop} {E' : ε → σ → Prop}
    (h : Post x s Q E) (hQ : ∀ a s', Q a s' → Q' a s') (hE : ∀ e s', E e s' → E' e s') :
    Post x s Q' E' :=
  Post.of (fun a s' hx => hQ a s' (h.ok hx)) fun e s' hx => hE e s' (h.error hx)

/-- The exceptions stay as they are. -/
theorem Post.imp {x : EStateM ε σ α} {Q' : α → σ → Prop} (h : Post x s Q E)
    (hQ : ∀ a s', Q a s' → Q' a s') : Post x s Q' E :=
  h.mono hQ fun _ _ he => he

theorem Post.imp_any {x : EStateM ε σ α} {Q' : α → σ → Prop} (h : Post x s Q E)
    (hQ : ∀ a s', Q a s' → Q' a s') : Post x s Q' fun _ _ => True :=
  h.mono hQ fun _ _ _ => trivial

theorem Post.imp_of_total {x : EStateM ε σ α} {Q' : α → σ → Prop}
    (h : Post x s Q fun _ _ => False) (hQ : ∀ a s', Q a s' → Q' a s') : Post x s Q' E :=
  h.mono hQ fun _ _ he => he.elim

/-- What a program ends with is the result of its run. -/
theorem Post.self {x : EStateM ε σ α} :
    Post x s (fun a s' => x s = .ok a s') fun e s' => x s = .error e s' :=
  Post.of (fun _ _ hx => hx) fun _ _ hx => hx

theorem Post.and {x : EStateM ε σ α} {Q' : α → σ → Prop} {E' : ε → σ → Prop}
    (h : Post x s Q E) (h' : Post x s Q' E') :
    Post x s (fun a s' => Q a s' ∧ Q' a s') fun e s' => E e s' ∧ E' e s' :=
  Post.of (fun _ _ hx => ⟨h.ok hx, h'.ok hx⟩) fun _ _ hx => ⟨h.error hx, h'.error hx⟩

/-- What a program ends with, and separately what it throws. -/
theorem Post.and_error {x : EStateM ε σ α} {E' : ε → σ → Prop} (h : Post x s Q E)
    (h' : Post x s (fun _ _ => True) E') : Post x s Q E' :=
  (h.and h').mono (fun _ _ hs => hs.1) fun _ _ hs => hs.2

/-- The exceptional part of a program without exceptions is arbitrary. -/
theorem Post.exists_ok {x : EStateM ε σ α} (h : Post x s Q fun _ _ => False) :
    ∃ a s', x s = .ok a s' ∧ Q a s' := by
  cases hx : x s with
  | ok a s' => exact ⟨a, s', rfl, h.ok hx⟩
  | error e s' => exact (h.error hx).elim

/-- A program ends normally exactly when a condition on its initial state holds. -/
theorem Post.exists_ok_iff {x : EStateM ε σ α} {P : Prop} (h : Post x s Q E)
    (hQ : ∀ a s', Q a s' → P) (hE : ∀ e s', E e s' → ¬ P) : (∃ a s', x s = .ok a s') ↔ P := by
  constructor
  · rintro ⟨a, s', hx⟩
    exact hQ a s' (h.ok hx)
  · intro hP
    cases hx : x s with
    | ok a s' => exact ⟨a, s', rfl⟩
    | error e s' => exact absurd hP (hE e s' (h.error hx))

/-! ## The rules -/

@[simp] theorem post_pure (a : α) : Post (pure a : EStateM ε σ α) s Q E ↔ Q a s := Iff.rfl

@[simp] theorem post_throw (e : ε) : Post (throw e : EStateM ε σ α) s Q E ↔ E e s := Iff.rfl

@[simp] theorem post_get (Q : σ → σ → Prop) :
    Post (get : EStateM ε σ σ) s Q E ↔ Q s s := Iff.rfl

@[simp] theorem post_modify (f : σ → σ) (Q : PUnit → σ → Prop) :
    Post (modify f : EStateM ε σ PUnit) s Q E ↔ Q ⟨⟩ (f s) := Iff.rfl

@[simp] theorem post_modifyGet (f : σ → α × σ) :
    Post (modifyGet f : EStateM ε σ α) s Q E ↔ Q (f s).1 (f s).2 := Iff.rfl

@[simp] theorem post_bind {x : EStateM ε σ α} {f : α → EStateM ε σ β} {R : β → σ → Prop} :
    Post (x >>= f) s R E ↔ Post x s (fun a s' => Post (f a) s' R E) E := by
  unfold Post
  simp only [Bind.bind, EStateM.bind]
  cases hx : x s <;> rfl

theorem get_bind (f : σ → EStateM ε σ α) : ((get : EStateM ε σ σ) >>= f) s = f s s := rfl

theorem bind_eq_ok {x : EStateM ε σ α} {f : α → EStateM ε σ β} {b : β} {s' : σ} :
    (x >>= f) s = .ok b s' ↔ ∃ a s₁, x s = .ok a s₁ ∧ f a s₁ = .ok b s' := by
  simp only [Bind.bind, EStateM.bind]
  cases hx : x s with
  | ok a s₁ =>
    constructor
    · exact fun h => ⟨a, s₁, rfl, h⟩
    · rintro ⟨a', s₁', ha, h⟩
      cases ha
      exact h
  | error e s₁ => simp

theorem forM_cons_eq_ok {γ : Type u} {f : γ → EStateM ε σ PUnit} {l : List γ} {c : γ} {u : PUnit}
    {s' : σ} :
    (c :: l).forM f s = .ok u s' ↔ ∃ s₁, f c s = .ok ⟨⟩ s₁ ∧ l.forM f s₁ = .ok u s' := by
  refine (bind_eq_ok (x := f c) (f := fun _ => l.forM f)).trans ?_
  exact ⟨fun ⟨_, s₁, h⟩ => ⟨s₁, h⟩, fun ⟨s₁, h⟩ => ⟨⟨⟩, s₁, h⟩⟩

theorem forM_append_cons_eq_ok {γ : Type u} {f : γ → EStateM ε σ PUnit} {l l' : List γ} {c : γ}
    {u : PUnit} {s' : σ} : (l ++ c :: l').forM f s = .ok u s' ↔ ∃ s₁ s₂, l.forM f s = .ok ⟨⟩ s₁ ∧
      f c s₁ = .ok ⟨⟩ s₂ ∧ l'.forM f s₂ = .ok u s' := by
  induction l generalizing s with
  | nil =>
    rw [List.nil_append, forM_cons_eq_ok]
    constructor
    · rintro ⟨s₂, hc, hrest⟩
      exact ⟨s, s₂, rfl, hc, hrest⟩
    · rintro ⟨s₁, s₂, hs, hc, hrest⟩
      cases hs
      exact ⟨s₂, hc, hrest⟩
  | cons b l ih =>
    simp only [List.cons_append, forM_cons_eq_ok, ih]
    constructor
    · rintro ⟨s₀, hb, s₁, s₂, hl, hrest⟩
      exact ⟨s₁, s₂, ⟨s₀, hb, hl⟩, hrest⟩
    · rintro ⟨s₁, s₂, ⟨s₀, hb, hl⟩, hrest⟩
      exact ⟨s₀, hb, s₁, s₂, hl, hrest⟩

/-- Programs that agree on what a first one leaves behind agree after it. -/
theorem Post.bind_congr {x : EStateM ε σ α} {f g : α → EStateM ε σ β}
    (h : Post x s (fun a s' => f a s' = g a s') E) : (x >>= f) s = (x >>= g) s := by
  simp only [Bind.bind, EStateM.bind]
  cases hx : x s with
  | ok a s' => exact h.ok hx
  | error e s' => rfl

@[simp] theorem post_tryCatch {x : EStateM ε σ α} {handle : ε → EStateM ε σ α} :
    Post (tryCatch x handle) s Q E ↔ Post x s Q fun e s' => Post (handle e) s' Q E := by
  unfold Post
  simp only [tryCatch, tryCatchThe, MonadExceptOf.tryCatch, EStateM.tryCatch]
  cases hx : x s <;> rfl

@[simp] theorem post_ite {c : Prop} [Decidable c] {x y : EStateM ε σ α} :
    Post (if c then x else y) s Q E ↔ if c then Post x s Q E else Post y s Q E := by
  split_ifs <;> rfl

/-- A loop whose invariant speaks about the elements that are left. -/
theorem Post.forM {γ : Type u} {f : γ → EStateM ε σ PUnit} {I : List γ → σ → Prop}
    (hstep : ∀ a l s, I (a :: l) s → Post (f a) s (fun _ => I l) E) {l : List γ} {s : σ}
    (h : I l s) : Post (l.forM f) s (fun _ => I []) E := by
  induction l generalizing s with
  | nil => exact h
  | cons a l ih =>
    rw [List.forM, post_bind]
    exact (hstep a l s h).mono (fun _ _ h' => ih h') fun _ _ he => he

/-- A loop that keeps an invariant. -/
theorem Post.forM_invariant {γ : Type u} {f : γ → EStateM ε σ PUnit} {I : σ → Prop} {l : List γ}
    (hstep : ∀ a ∈ l, ∀ s, I s → Post (f a) s (fun _ => I) E) {s : σ} (h : I s) :
    Post (l.forM f) s (fun _ => I) E := by
  induction l generalizing s with
  | nil => exact h
  | cons a l ih =>
    rw [List.forM, post_bind]
    exact (hstep a (by simp) s h).mono
      (fun _ _ h' => ih (fun b hb => hstep b (by simp [hb])) h') fun _ _ he => he

/-- A loop that is followed step by step by a function of the elements. -/
theorem Post.forM_foldl {γ : Type u} {τ : Type*} {f : γ → EStateM ε σ PUnit} {g : τ → γ → τ}
    {R : σ → τ → Prop} (hstep : ∀ a s t, R s t → Post (f a) s (fun _ s' => R s' (g t a)) E)
    (l : List γ) {s : σ} {t : τ} (h : R s t) :
    Post (l.forM f) s (fun _ s' => R s' (l.foldl g t)) E := by
  induction l generalizing s t with
  | nil => exact h
  | cons a l ih =>
    rw [List.forM, post_bind, List.foldl_cons]
    exact (hstep a s t h).mono (fun _ _ h' => ih h') fun _ _ he => he

end Hoare
