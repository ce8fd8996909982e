import Incron.Daemon.Runs

/-! The handles that the draining loop reads, and the commands that it runs: both are as they
should be until an event reloads the table. -/
namespace Incron.Daemon
open Hoare

variable {κ : Type} [System κ] {t : UserTable} {fd it : ℕ} {s : DaemonState κ}

/-- The command is the one of the entry and the watch that the event is bound to. -/
def Bound (s : DaemonState κ) (e : InotifyEvent) (cmd : Str) : Prop :=
  ∃ pE, s.map.lookup e.watch = some pE ∧ cmd = commandOf s pE e

/-- The round reads only live handles, and runs only the command that its event is bound to
at its start. -/
def SafeRound (it : ℕ) (s : DaemonState κ) : Prop :=
  Post (round it) s
    (fun r s' => s'.faults = s.faults ∧ ∀ e cmd, r = some (e, some cmd) → Bound s e cmd)
    fun _ s' => s'.faults = s.faults

/-- The next event reports a new directory to a watch of the table, and the reload that it
causes does not throw. -/
def ReloadsNext (t : UserTable) (fd : ℕ) (s : DaemonState κ) : Prop :=
  ∃ e q, s.inotify.events = e :: q ∧ e.watch ∈ s.map ∧ (access t s e).2 = true ∧
    isNewDir e.mask = true ∧ CanReload t fd { s with kernel := (access t s e).1 }

def drainStep (it : ℕ) (s : DaemonState κ) (_ : Unit) : Option (DaemonState κ) :=
  match round it s with
  | .ok (some _) s' => some s'
  | _ => none

/-! ## One round -/

/-- Inside the draining loop, before a reload. -/
structure Draining (t : UserTable) (fd it : ℕ) (s : DaemonState κ) : Prop where
  loaded : Loaded t fd s
  live : s.nodeHeap.live it = true
  node : s.nodeHeap.cell it = t

/-- The outcome of a round that does not reload. -/
theorem post_round_quiet (h : Draining t fd it s) (hquiet : ¬ ReloadsNext t fd s) :
    Post (round it) s
      (fun r s' => (s'.faults = s.faults ∧ ∀ e cmd, r = some (e, some cmd) → Bound s e cmd) ∧
        Draining t fd it s')
      fun _ s' => s'.faults = s.faults := by
  refine post_round_cases h.node (fun _ => ?_) fun e q hq => ?_
  · exact ⟨⟨rfl, fun _ _ hr => absurd hr (by simp)⟩, h⟩
  · have hfaults : (popped it q s).faults = s.faults := by simp [popped, touch, h.live]
    have hpopped := h.loaded.popped it q
    refine (post_onEvent_cases hpopped e).mono (fun c s' hs' => ?_) fun _ s' he => he.trans hfaults
    rcases hs' with ⟨-, hs'⟩ | ⟨⟨hmem, haccess, hdir⟩, hcan, -⟩
    · obtain ⟨k, -, rfl⟩ := hs'.state
      refine ⟨⟨hfaults, fun e' cmd hr => ?_⟩, hpopped.kernel k, h.live, h.node⟩
      obtain ⟨rfl, hcmd⟩ := Prod.mk.inj (Option.some.inj hr)
      obtain ⟨pE, hbound, hcmd, -⟩ := hs'.command cmd hcmd
      exact ⟨pE, hbound, hcmd⟩
    · exact absurd ⟨e, q, hq, hmem, haccess, hdir, hcan⟩ hquiet

/-- After a reload the entry is read that the reload has destroyed. -/
theorem not_safeRound (h : Draining t fd it s) (hreload : ReloadsNext t fd s) :
    ¬ SafeRound it s := by
  obtain ⟨e, q, hq, hmem, haccess, hdir, hcan⟩ := hreload
  obtain ⟨pE, hbound⟩ := FinMap.exists_lookup hmem
  have hfaults : (popped it q s).faults = s.faults := by simp [popped, touch, h.live]
  have hround : Post (round it) s (fun _ s' => s'.faults ≠ s.faults) fun _ _ => False := by
    refine post_round hq h.node ?_
    refine (post_onEvent_newDir (h.loaded.popped it q) hbound haccess hdir).mono
      (fun c s' hs' => ?_) fun _ s' he => he.1 hcan
    obtain ⟨-, s₁, f, -, -, -, rfl⟩ := hs'
    simp [hfaults]
  intro hsafe
  obtain ⟨r, s', hx, hne⟩ := hround.exists_ok
  exact hne (hsafe.ok hx).1

theorem safeRound_iff (h : Draining t fd it s) : SafeRound it s ↔ ¬ ReloadsNext t fd s :=
  ⟨fun hsafe hreload => not_safeRound h hreload hsafe, fun hquiet =>
    (post_round_quiet h hquiet).imp (fun _ _ hs' => hs'.1)⟩

theorem Draining.drainStep (h : Draining t fd it s) (hquiet : ¬ ReloadsNext t fd s)
    {s' : DaemonState κ} (hstep : drainStep it s () = some s') : Draining t fd it s' := by
  unfold Daemon.drainStep at hstep
  split at hstep
  · next hx =>
    obtain rfl := Option.some.inj hstep
    exact ((post_round_quiet h hquiet).ok hx).2
  · exact absurd hstep (by simp)

/-! ## The draining loop -/

theorem meets_safeRound_iff (h : Draining t fd it s) (as : List Unit) :
    Transition.Meets (drainStep it) (fun s _ => SafeRound it s) s as ↔
      Transition.Meets (drainStep it) (fun s _ => ¬ ReloadsNext t fd s) s as :=
  Transition.meets_congr (I := Draining t fd it) (fun _ _ h => safeRound_iff h)
    (fun _ _ _ h hquiet hstep => h.drainStep hquiet hstep) h as

theorem post_startEvents_draining (h : Loaded t fd s) :
    Post (startEvents fd) s
      (fun it s' => ∀ n, it = some n → Draining t fd n s' ∧ Waited s.map.keys s s')
      fun _ s' => s'.faults = s.faults := by
  obtain ⟨m, hm, hlive, hcell⟩ := h.node
  refine (post_startEvents h).imp fun it s' hs' n hit => ?_
  obtain ⟨hrunning, n', hit', hn, hw⟩ := hs'
  obtain rfl := Option.some.inj (hit.symm.trans hit')
  obtain rfl := Option.some.inj (hn.symm.trans hm)
  exact ⟨⟨hrunning.loaded, by rw [hw.nodeHeap]; exact hlive, by rw [hw.nodeHeap]; exact hcell⟩, hw⟩

/-- From the reading of the events on, the draining loop reads only live handles and runs only
bound commands, exactly when no event reloads the table. -/
theorem safe_drain_iff {s₀ s₁ : DaemonState κ} (as : List (Action κ)) (hs₀ : Started t fd s₀)
    (hrun : Transition.run (step t fd) (s₀, none) as = some (s, none))
    (hstart : startEvents fd s = .ok (some it) s₁) :
    (s₁.faults = s.faults ∧ ∀ n, Transition.Meets (drainStep it) (fun s _ => SafeRound it s) s₁
        (List.replicate n ())) ↔
      ∀ n, Transition.Meets (drainStep it) (fun s _ => ¬ ReloadsNext t fd s) s₁
        (List.replicate n ()) := by
  have hloaded : Loaded t fd s := (running_of_run hs₀ hrun).loaded
  obtain ⟨hdraining, hw⟩ := (post_startEvents_draining hloaded).ok hstart it rfl
  simp only [hw.faults, meets_safeRound_iff hdraining, true_and]

theorem safe_drain_file : ∃ s₀ it s₁, reading [(inCreate, "f".toList)] = some (s₀, it, s₁) ∧
    ((s₁.faults = s₀.faults ∧ ∀ n, Transition.Meets (drainStep it) (fun s _ => SafeRound it s) s₁
        (List.replicate n ())) ↔
      ∀ n, Transition.Meets (drainStep it) (fun s _ => ¬ ReloadsNext systemTable 3 s) s₁
        (List.replicate n ())) := by
  obtain ⟨⟨s₀, it, s₁⟩, h⟩ : ∃ r, reading [(inCreate, "f".toList)] = some r :=
    Option.isSome_iff_exists.mp (by decide +kernel)
  obtain ⟨hstarted, s, hrun, hread⟩ := reading_eq_some h
  have hfaults : s.faults = s₀.faults := by
    rw [Transition.run_cons] at hrun
    obtain rfl := (Prod.mk.inj (Option.some.inj hrun)).1
    rfl
  refine ⟨s₀, it, s₁, h, ?_⟩
  rw [← hfaults]
  exact safe_drain_iff _ hstarted hrun hread

def roundFaults (it : ℕ) (s : DaemonState κ) : List Handle :=
  match round it s with
  | .ok _ s' | .error _ s' => s'.faults

theorem SafeRound.roundFaults (h : SafeRound it s) : roundFaults it s = s.faults := by
  unfold SafeRound Post at h
  unfold Daemon.roundFaults
  cases hx : round it s with
  | ok r s' =>
    rw [hx] at h
    exact h.1
  | error e s' =>
    rw [hx] at h
    exact h

/-- A directory is created: the table is reloaded, and the entry is read afterwards. -/
theorem not_safe_drain_newDir : ∃ s₀ it s₁,
    reading [(inIsdir ||| inCreate, "n".toList)] = some (s₀, it, s₁) ∧
      ¬ (s₁.faults = s₀.faults ∧ ∀ n, Transition.Meets (drainStep it)
        (fun s _ => SafeRound it s) s₁ (List.replicate n ())) := by
  obtain ⟨⟨s₀, it, s₁⟩, h⟩ : ∃ r, reading [(inIsdir ||| inCreate, "n".toList)] = some r :=
    Option.isSome_iff_exists.mp (by decide +kernel)
  have hround : (reading [(inIsdir ||| inCreate, "n".toList)]).map
      (fun r => (roundFaults r.2.1 r.2.2, r.2.2.faults)) = some ([.entry 0], []) := by
    decide +kernel
  rw [h] at hround
  obtain ⟨hround, hstart⟩ := Prod.mk.inj (Option.some.inj hround)
  refine ⟨s₀, it, s₁, h, fun hsafe => ?_⟩
  have hfirst : SafeRound it s₁ := (hsafe.2 1).1
  rw [hfirst.roundFaults, hstart] at hround
  exact absurd hround (by simp)

end Incron.Daemon
