import Incron.Lib.Hoare
import Mathlib.Order.Defs.Unbundled

/-! Programs whose steps all stay within a preorder on the states: what such a program leaves alone,
from whichever state it starts and however it ends. -/
namespace Hoare

universe u

variable {ε σ α β : Type u}

/-- Every state in which the program can end is related to the one in which it starts. -/
def Within (R : σ → σ → Prop) (x : EStateM ε σ α) : Prop :=
  ∀ s, Post x s (fun _ s' => R s s') fun _ s' => R s s'

namespace Within
variable {R : σ → σ → Prop}

theorem ok {x : EStateM ε σ α} (hx : Within R x) {s s' : σ} {a : α} (h : x s = .ok a s') :
    R s s' := (hx s).ok h

theorem mono {R' : σ → σ → Prop} {x : EStateM ε σ α} (hx : Within R x)
    (h : ∀ s s', R s s' → R' s s') : Within R' x :=
  fun s => (hx s).mono (fun _ _ h' => h _ _ h') fun _ _ h' => h _ _ h'

theorem modify {f : σ → σ} (h : ∀ s, R s (f s)) : Within R (modify f : EStateM ε σ PUnit) := h

theorem modifyGet {f : σ → α × σ} (h : ∀ s, R s (f s).2) :
    Within R (modifyGet f : EStateM ε σ α) := h

theorem ite {c : Prop} [Decidable c] {x y : EStateM ε σ α} (hx : Within R x) (hy : Within R y) :
    Within R (if c then x else y) := by
  split_ifs
  · exact hx
  · exact hy

variable [IsPreorder σ R]

theorem pure (a : α) : Within R (pure a : EStateM ε σ α) := fun s => Std.Refl.refl s

theorem throw (e : ε) : Within R (throw e : EStateM ε σ α) := fun s => Std.Refl.refl s

theorem get : Within R (get : EStateM ε σ σ) := fun s => Std.Refl.refl s

theorem bind {x : EStateM ε σ α} {f : α → EStateM ε σ β} (hx : Within R x)
    (hf : ∀ a, Within R (f a)) : Within R (x >>= f) := by
  intro s
  rw [post_bind]
  refine (hx s).mono (fun a s₁ h₁ => ?_) fun _ _ h₁ => h₁
  exact (hf a s₁).mono (fun _ _ h₂ => IsTrans.trans _ _ _ h₁ h₂)
    fun _ _ h₂ => IsTrans.trans _ _ _ h₁ h₂

theorem tryCatch {x : EStateM ε σ α} {handle : ε → EStateM ε σ α} (hx : Within R x)
    (hhandle : ∀ e, Within R (handle e)) : Within R (tryCatch x handle) := by
  intro s
  rw [post_tryCatch]
  refine (hx s).mono (fun _ _ h₁ => h₁) fun e s₁ h₁ => ?_
  exact (hhandle e s₁).mono (fun _ _ h₂ => IsTrans.trans _ _ _ h₁ h₂)
    fun _ _ h₂ => IsTrans.trans _ _ _ h₁ h₂

theorem forM {γ : Type u} {f : γ → EStateM ε σ PUnit} (hf : ∀ c, Within R (f c)) (l : List γ) :
    Within R (l.forM f) := by
  induction l with
  | nil => exact Within.pure _
  | cons c l ih => exact (hf c).bind fun _ => ih

end Within
end Hoare
