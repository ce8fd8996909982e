import Incron.Daemon.Sound

/-! What `OnEvent` does with an event: the four ways through it, and when it reloads the
table. -/
namespace Incron.Daemon
open Hoare UserTable

variable {κ : Type} {t : UserTable} {fd : ℕ} {s : DaemonState κ}

/-- The command of an entry for an event, with the path of the watch of the event. -/
def commandOf (s : DaemonState κ) (pE : ℕ) (e : InotifyEvent) : Str :=
  render (s.watchHeap.cell e.watch).path e.name (template e.mask (s.entryHeap.cell pE).cmd)

/-- The kernel, the poll array and the faults do not matter. -/
theorem Loaded.of_frame {s' : DaemonState κ} (h : Loaded t fd s)
    (hs' : s' = { s with kernel := s'.kernel, poll := s'.poll, faults := s'.faults }) :
    Loaded t fd s' := by
  rw [hs']
  exact ⟨⟨h.opened, h.indexed, h.owned, h.watches, h.entry, h.tab, h.tabNodup, h.entries,
    h.nodes⟩, h.node⟩

theorem Loaded.kernel (h : Loaded t fd s) (k : κ) : Loaded t fd { s with kernel := k } :=
  h.of_frame rfl

def access [System κ] (t : UserTable) (s : DaemonState κ) (e : InotifyEvent) : κ × Bool :=
  mayAccess t (s.watchHeap.cell e.watch).path e.mask s.kernel

/-! ## Expansion -/

private theorem render_nil_path {items : List Item} (h : .path ∉ items) (path name : Str) :
    render [] name items = render path name items := by
  induction items with
  | nil => rfl
  | cons i items ih =>
    simp only [List.mem_cons, not_or] at h
    rw [render_cons, render_cons, ih h.2]
    cases i with
    | path => exact absurd rfl h.1
    | char c => rfl
    | name => rfl

/-- The handles that the expansion reads. -/
private theorem post_expandEntry (pE : ℕ) (e : InotifyEvent) :
    Post (expandEntry pE e) s
      (fun cmd s' => cmd = commandOf s pE e ∧
        (s' = touch s (s.entryHeap.live pE) (.entry pE) ∨
          s' = touch (touch s (s.entryHeap.live pE) (.entry pE)) (s.watchHeap.live e.watch)
            (.watch e.watch)))
      fun _ _ => False := by
  unfold expandEntry watchPath
  simp only [post_bind, post_entryAt, post_ite, post_watchAt, post_pure, expandCmd_eq]
  split_ifs with hpath
  · exact ⟨rfl, Or.inr rfl⟩
  · exact ⟨render_nil_path hpath _ _, Or.inl trivial⟩

/-! ## The ways through OnEvent -/

private theorem Sound.live_of_bound (h : Sound fd s) {p pE : ℕ}
    (hbound : s.map.lookup p = some pE) :
    s.watchHeap.live p = true ∧ pE ∈ s.tab ∧ s.entryHeap.live pE = true := by
  have hmem : p ∈ s.map := FinMap.mem_of_lookup hbound
  have htab := h.entry _ _ hbound
  exact ⟨h.indexed.live _ hmem, htab, h.tab _ htab⟩

variable [System κ]

theorem post_onEvent_unbound {e : InotifyEvent} (hbound : s.map.lookup e.watch = none) :
    Post (onEvent t e) s (fun c s' => c = none ∧ s' = s) fun _ _ => False := by
  unfold onEvent
  simp only [post_bind, post_get, hbound, post_pure]
  exact ⟨trivial, trivial⟩

section
variable {e : InotifyEvent} {pE : ℕ}

theorem post_onEvent_denied (h : Sound fd s) (hbound : s.map.lookup e.watch = some pE)
    (haccess : (access t s e).2 = false) :
    Post (onEvent t e) s (fun c s' => c = none ∧ s' = { s with kernel := (access t s e).1 })
      fun _ _ => False := by
  obtain ⟨hwatch, -⟩ := h.live_of_bound hbound
  unfold access at haccess
  unfold onEvent watchPath
  simp only [post_bind, post_get, hbound, post_watchAt, hwatch, touch_live, post_call, post_ite,
    haccess, post_pure]
  exact ⟨trivial, rfl⟩

/-- Without a new directory the bound command is run. -/
theorem post_onEvent_plain (h : Sound fd s) (hbound : s.map.lookup e.watch = some pE)
    (haccess : (access t s e).2 = true) (hdir : isNewDir e.mask = false) :
    Post (onEvent t e) s
      (fun c s' => (c = if (System.fork (access t s e).1).2 then some (commandOf s pE e)
        else none) ∧ s' = { s with kernel := (System.fork (access t s e).1).1 })
      fun _ _ => False := by
  obtain ⟨hwatch, -, hentry⟩ := h.live_of_bound hbound
  unfold access at haccess ⊢
  unfold onEvent watchPath
  simp only [post_bind, post_get, hbound, post_watchAt, hwatch, touch_live, post_call, post_ite,
    haccess, post_pure, hdir]
  refine (post_expandEntry pE e).imp fun cmd s' hs' => ?_
  simp only [hentry, hwatch, touch_live, or_self] at hs'
  obtain ⟨rfl, rfl⟩ := hs'
  exact ⟨rfl, rfl⟩

/-- A new directory reloads the table; the entry is read after it has been destroyed. -/
theorem post_onEvent_newDir (h : Loaded t fd s) (hbound : s.map.lookup e.watch = some pE)
    (haccess : (access t s e).2 = true) (hdir : isNewDir e.mask = true) :
    Post (onEvent t e) s
      (fun c s' => CanReload t fd { s with kernel := (access t s e).1 } ∧
        ∃ s₁ f, reload t { s with kernel := (access t s e).1 } = .ok () s₁ ∧
          Reloaded t fd { s with kernel := (access t s e).1 } s₁ ∧
          c.isSome = (System.fork s₁.kernel).2 ∧
          s' = { s₁ with
            kernel := (System.fork s₁.kernel).1
            faults := s.faults ++ .entry pE :: f })
      (fun _ s' => ¬ CanReload t fd { s with kernel := (access t s e).1 } ∧
        s'.faults = s.faults) := by
  obtain ⟨hwatch, htab, -⟩ := h.live_of_bound hbound
  unfold access at haccess ⊢
  unfold onEvent watchPath
  simp only [post_bind, post_get, hbound, post_watchAt, hwatch, touch_live, post_call, post_ite,
    haccess, post_pure, hdir]
  refine ((post_reload (h.kernel _)).and Post.self).mono (fun _ s₁ h₁ => ?_) fun _ _ he => he.1
  obtain ⟨⟨hcan, h₁⟩, hrun⟩ := h₁
  refine (post_expandEntry pE e).imp_of_total fun cmd s₂ h₂ => ?_
  have hdead : s₁.entryHeap.live pE = false := h₁.entryLive pE htab
  have hfaults : s₁.faults = s.faults := h₁.faults
  obtain ⟨-, hs₂⟩ := h₂
  have : ∃ f, s₂ = { s₁ with faults := s.faults ++ .entry pE :: f } := by
    rcases hs₂ with rfl | rfl
    · exact ⟨[], by simp [touch, hdead, hfaults]⟩
    · cases hlive : s₁.watchHeap.live e.watch with
      | true => exact ⟨[], by simp [touch, hdead, hfaults]⟩
      | false => exact ⟨[.watch e.watch], by simp [touch, hdead, hfaults]⟩
  obtain ⟨f, rfl⟩ := this
  refine ⟨hcan, s₁, f, hrun, h₁, ?_, rfl⟩
  cases (System.fork s₁.kernel).2 <;> rfl

end

/-! ## All ways at once -/

def Reloads (t : UserTable) (s : DaemonState κ) (e : InotifyEvent) : Prop :=
  e.watch ∈ s.map ∧ (access t s e).2 = true ∧ isNewDir e.mask = true

/-- `OnEvent` without a reload: only the kernel is asked, and a command is run for the entry of
the watch. -/
structure Answered (t : UserTable) (s : DaemonState κ) (e : InotifyEvent) (c : Option Str)
    (s' : DaemonState κ) : Prop where
  state : ∃ k, (k = s.kernel ∨ k = (access t s e).1 ∨ k = (System.fork (access t s e).1).1) ∧
    s' = { s with kernel := k }
  command : ∀ cmd, c = some cmd → ∃ pE, s.map.lookup e.watch = some pE ∧
    cmd = commandOf s pE e ∧ (access t s e).2 = true ∧ (System.fork (access t s e).1).2 = true

theorem post_onEvent_cases (h : Loaded t fd s) (e : InotifyEvent) :
    Post (onEvent t e) s
      (fun c s' => (¬ Reloads t s e ∧ Answered t s e c s') ∨
        (Reloads t s e ∧ CanReload t fd { s with kernel := (access t s e).1 } ∧
          ∃ s₁ f, reload t { s with kernel := (access t s e).1 } = .ok () s₁ ∧
            Reloaded t fd { s with kernel := (access t s e).1 } s₁ ∧
            s' = { s₁ with kernel := (System.fork s₁.kernel).1, faults := f }))
      fun _ s' => s'.faults = s.faults := by
  cases hbound : s.map.lookup e.watch with
  | none =>
    refine (post_onEvent_unbound hbound).imp_of_total fun c s' hs' => .inl ⟨fun hreloads => ?_, ?_⟩
    · exact absurd hreloads.1 (AList.lookup_eq_none.mp hbound)
    · obtain ⟨rfl, rfl⟩ := hs'
      exact ⟨⟨_, .inl rfl, rfl⟩, fun _ hc => absurd hc (by simp)⟩
  | some pE =>
    cases haccess : (access t s e).2 with
    | false =>
      refine (post_onEvent_denied h.toSound hbound haccess).imp_of_total
        fun c s' hs' => .inl ⟨fun hreloads => ?_, ?_⟩
      · exact absurd (haccess.symm.trans hreloads.2.1) (by simp)
      · obtain ⟨rfl, rfl⟩ := hs'
        exact ⟨⟨_, .inr (.inl rfl), rfl⟩, fun _ hc => absurd hc (by simp)⟩
    | true =>
      cases hdir : isNewDir e.mask with
      | false =>
        refine (post_onEvent_plain h.toSound hbound haccess hdir).imp_of_total
          fun c s' hs' => .inl ⟨fun hreloads => ?_, ?_⟩
        · exact absurd (hdir.symm.trans hreloads.2.2) (by simp)
        · obtain ⟨rfl, rfl⟩ := hs'
          refine ⟨⟨_, .inr (.inr rfl), rfl⟩, fun cmd hc => ?_⟩
          split_ifs at hc with hfork
          exact ⟨pE, hbound, (Option.some.inj hc).symm, haccess, hfork⟩
      | true =>
        refine (post_onEvent_newDir h hbound haccess hdir).mono (fun c s' hs' => .inr ?_)
          fun _ s' he => he.2
        obtain ⟨hcan, s₁, f, hrun, hr, -, rfl⟩ := hs'
        exact ⟨⟨FinMap.mem_of_lookup hbound, haccess, hdir⟩, hcan, s₁, _, hrun, hr, rfl⟩

end Incron.Daemon
