import Mathlib.Data.List.Basic

/-! The credentials of a process: user and group ids with their saved values, the supplementary
groups, and the calls that change them. -/

structure Ids where
  real : ℕ
  effective : ℕ
  saved : ℕ
  deriving DecidableEq, Repr

def Ids.fixed (i : ℕ) : Ids := ⟨i, i, i⟩

structure Credentials where
  uid : Ids
  gid : Ids
  groups : List ℕ
  deriving DecidableEq, Repr

namespace Credentials

inductive Call where
  | setuid (u : ℕ)
  | setgid (g : ℕ)
  | seteuid (u : ℕ)
  | setegid (g : ℕ)
  | setgroups (gs : List ℕ)
  deriving DecidableEq, Repr

def Privileged (c : Credentials) : Prop := c.uid.effective = 0

instance (c : Credentials) : Decidable c.Privileged := inferInstanceAs (Decidable (_ = _))

/-- Without privileges only the ids that a process has already can become effective. -/
def Permits (c : Credentials) : Call → Prop
  | .setuid u => c.Privileged ∨ u = c.uid.real ∨ u = c.uid.saved
  | .setgid g => c.Privileged ∨ g = c.gid.real ∨ g = c.gid.saved
  | .seteuid u => c.Privileged ∨ u = c.uid.real ∨ u = c.uid.effective ∨ u = c.uid.saved
  | .setegid g => c.Privileged ∨ g = c.gid.real ∨ g = c.gid.effective ∨ g = c.gid.saved
  | .setgroups _ => c.Privileged

instance (c : Credentials) : (k : Call) → Decidable (c.Permits k)
  | .setuid _ => inferInstanceAs (Decidable (_ ∨ _))
  | .setgid _ => inferInstanceAs (Decidable (_ ∨ _))
  | .seteuid _ => inferInstanceAs (Decidable (_ ∨ _))
  | .setegid _ => inferInstanceAs (Decidable (_ ∨ _))
  | .setgroups _ => inferInstanceAs (Decidable (Privileged _))

def apply (c : Credentials) : Call → Credentials
  | .setuid u => if c.Privileged then { c with uid := .fixed u }
      else { c with uid := { c.uid with effective := u } }
  | .setgid g => if c.Privileged then { c with gid := .fixed g }
      else { c with gid := { c.gid with effective := g } }
  | .seteuid u => { c with uid := { c.uid with effective := u } }
  | .setegid g => { c with gid := { c.gid with effective := g } }
  | .setgroups gs => { c with groups := gs }

/-- A program makes one call after the other; those that are not permitted change nothing. -/
def after (c : Credentials) (ks : List Call) : Credentials :=
  ks.foldl (fun c k => if c.Permits k then c.apply k else c) c

/-- Calls up to the first one that fails: whether all have worked, and the credentials then. Given
the calls so far, `fails` tells whether the last one fails for a reason of its own. -/
def attempt (fails : List Call → Bool) : List Call → List Call → Credentials → Bool × Credentials
  | _, [], c => (true, c)
  | done, k :: ks, c =>
    if c.Permits k ∧ fails (done ++ [k]) = false then attempt fails (done ++ [k]) ks (c.apply k)
    else (false, c)

variable {c : Credentials} {fails : List Call → Bool}

theorem attempt_nil_eq_true {done : List Call} {c' : Credentials} :
    attempt fails done [] c = (true, c') ↔ c = c' := by
  simp [attempt]

theorem attempt_cons_eq_true {done ks : List Call} {k : Call} {c' : Credentials} :
    attempt fails done (k :: ks) c = (true, c') ↔
      c.Permits k ∧ fails (done ++ [k]) = false ∧
        attempt fails (done ++ [k]) ks (c.apply k) = (true, c') := by
  rw [attempt]
  split_ifs with h
  · simp [h.1, h.2]
  · simp only [Prod.mk.injEq, Bool.false_eq_true, false_and, false_iff]
    exact fun h' => h ⟨h'.1, h'.2.1⟩

theorem attempt_of_append {done ks ks' : List Call}
    (h : (attempt fails done (ks ++ ks') c).1 = true) : (attempt fails done ks c).1 = true := by
  induction ks generalizing done c with
  | nil => rfl
  | cons k ks ih =>
    rw [List.cons_append, attempt] at h
    rw [attempt]
    split_ifs at h ⊢
    exact ih h

/-! ## What cannot be undone -/

/-- All ids are those of one user who is not the superuser, and of one group. -/
structure Confined (u g : ℕ) (c : Credentials) : Prop where
  user : u ≠ 0
  uid : c.uid = .fixed u
  gid : c.gid = .fixed g

theorem Confined.not_privileged {u g : ℕ} (h : Confined u g c) : ¬ c.Privileged := by
  rw [Privileged, h.uid]
  exact h.user

theorem Confined.apply_eq {u g : ℕ} (h : Confined u g c) {k : Call} (hk : c.Permits k) :
    c.apply k = c := by
  have hpriv := h.not_privileged
  have huid := h.uid
  have hgid := h.gid
  obtain ⟨uid, gid, groups⟩ := c
  subst huid hgid
  cases k with
  | setuid v =>
    have hv : v = u := hk.elim (absurd · hpriv) fun h => h.elim id id
    simp [apply, hv, Ids.fixed]
  | setgid v =>
    have hv : v = g := hk.elim (absurd · hpriv) fun h => h.elim id id
    simp [apply, hv, Ids.fixed]
  | seteuid v =>
    have hv : v = u := hk.elim (absurd · hpriv) fun h => h.elim id fun h => h.elim id id
    simp [apply, hv, Ids.fixed]
  | setegid v =>
    have hv : v = g := hk.elim (absurd · hpriv) fun h => h.elim id fun h => h.elim id id
    simp [apply, hv, Ids.fixed]
  | setgroups gs => exact absurd hk hpriv

theorem Confined.after_eq {u g : ℕ} (h : Confined u g c) (ks : List Call) : c.after ks = c := by
  induction ks with
  | nil => rfl
  | cons k ks ih =>
    have hstep : (if c.Permits k then c.apply k else c) = c := by
      split_ifs with hk
      · exact h.apply_eq hk
      · rfl
    rw [after, List.foldl_cons, hstep]
    exact ih

/-! ## Becoming somebody, for good or for a while -/

theorem apply_setuid (h : c.Privileged) (u : ℕ) :
    c.apply (.setuid u) = { c with uid := .fixed u } := if_pos h

theorem apply_setgid (h : c.Privileged) (g : ℕ) :
    c.apply (.setgid g) = { c with gid := .fixed g } := if_pos h

/-- A process that sets the groups and then the user is privileged, and keeps nothing of what it
was. -/
theorem attempt_become {u g : ℕ} {gs : List ℕ} {c' : Credentials} :
    attempt fails [] [.setgid g, .setgroups gs, .setuid u] c = (true, c') ↔
      c.Privileged ∧ fails [.setgid g] = false ∧ fails [.setgid g, .setgroups gs] = false ∧
        fails [.setgid g, .setgroups gs, .setuid u] = false ∧
        c' = ⟨.fixed u, .fixed g, gs⟩ := by
  simp only [attempt_cons_eq_true, attempt_nil_eq_true, List.nil_append, List.cons_append]
  have hresult : c.Privileged →
      ((c.apply (.setgid g)).apply (.setgroups gs)).apply (.setuid u) =
        ⟨.fixed u, .fixed g, gs⟩ := by
    intro hpriv
    rw [apply_setgid hpriv]
    exact apply_setuid (c := { c with gid := .fixed g, groups := gs }) hpriv u
  -- the user id is still the old one when the groups are set
  have hkept : (c.apply (.setgid g)).uid = c.uid := by
    unfold apply
    split_ifs <;> rfl
  constructor
  · rintro ⟨-, h₁, hgroups, h₂, -, h₃, rfl⟩
    have hpriv : c.Privileged := by rwa [Permits, Privileged, hkept] at hgroups
    exact ⟨hpriv, h₁, h₂, h₃, hresult hpriv⟩
  · rintro ⟨hpriv, h₁, h₂, h₃, rfl⟩
    have hpriv' : (c.apply (.setgid g)).Privileged := by rwa [Privileged, hkept]
    exact ⟨.inl hpriv, h₁, hpriv', h₂, .inl hpriv', h₃, hresult hpriv⟩

/-- The saved ids are the effective ones, as `exec` leaves them. -/
structure Fresh (c : Credentials) : Prop where
  uid : c.uid.saved = c.uid.effective
  gid : c.gid.saved = c.gid.effective

/-- Who has taken other effective ids can always take back the own ones. -/
theorem Fresh.attempt_back (h : c.Fresh) (u g : ℕ) (done : List Call)
    (hfails : ∀ ks, fails ks = false) :
    attempt fails done [.setegid c.gid.effective, .seteuid c.uid.effective]
      { c with uid := { c.uid with effective := u }, gid := { c.gid with effective := g } } =
      (true, c) := by
  rw [attempt_cons_eq_true]
  refine ⟨.inr (.inr (.inr h.gid.symm)), hfails _, ?_⟩
  rw [attempt_cons_eq_true]
  exact ⟨.inr (.inr (.inr h.uid.symm)), hfails _, rfl⟩

end Credentials
