import Incron.Daemon.Handles
import Incron.Daemon.Queue
import Incron.Daemon.SecondLoop

/-! Which events run a command: those that the mask of its entry selects, and those that the
kernel delivers unasked. -/
namespace Incron.Daemon
open Hoare InotifyEvent Transition

variable {κ : Type}

def Asked (mask evt : Mask) : Prop := evt &&& mask &&& inAllEvents ≠ 0

/-- `IN_IGNORED` and `IN_UNMOUNT`, which the kernel delivers whatever the mask is. -/
def Unasked (evt : Mask) : Prop :=
  evt &&& inAllEvents = 0 ∧ (isType evt inIgnored = true ∨ isType evt inUnmount = true)

instance (mask evt : Mask) : Decidable (Asked mask evt) :=
  inferInstanceAs (Decidable (_ ≠ _))

instance (evt : Mask) : Decidable (Unasked evt) :=
  inferInstanceAs (Decidable (_ ∧ _))

theorem Unasked.not_asked {mask evt : Mask} (h : Unasked evt) : ¬ Asked mask evt := by
  intro hasked
  apply hasked
  have hswap : evt &&& mask &&& inAllEvents = evt &&& inAllEvents &&& mask := by
    rw [BitVec.and_assoc, BitVec.and_comm mask, ← BitVec.and_assoc]
  rw [hswap, h.1]
  exact BitVec.zero_and

theorem Unasked.isNewDir_eq {evt : Mask} (h : Unasked evt) : isNewDir evt = false := by
  have hbit : ∀ bit : Mask, bit &&& inAllEvents = bit → isType evt bit = false := by
    intro bit hbit
    have hzero : evt &&& bit = 0 := by
      rw [← hbit, BitVec.and_comm bit, ← BitVec.and_assoc, h.1]
      exact BitVec.zero_and
    simp [isType, hzero]
  have hcreate := hbit inCreate (by decide)
  have hmoved := hbit inMovedTo (by decide)
  simp [isNewDir, hcreate, hmoved]

/-! ## The steps of a run -/

section
variable [System κ]

/-- The kernel delivers on a watch the events that its mask selects, and the unasked ones. -/
def Delivers (fd : ℕ) (σ : Phase κ) : Action κ → Prop
  | .startEvents => ∀ evts, (System.readEvents σ.1.kernel fd).2 = .ok evts → ∀ e ∈ evts,
      ∀ p, tracked σ.1.inotify.watches e = some p →
        Asked (σ.1.watchHeap.cell p).mask e.mask ∨ Unasked e.mask
  | _ => True

/-- The round reads only live handles, and it runs a command only for an entry that has asked for
the event: that of the event's watch, whose command it is. -/
def AskedRound (it : ℕ) (s : DaemonState κ) : Prop :=
  Post (round it) s
    (fun r s' => s'.faults = s.faults ∧ ∀ e cmd, r = some (e, some cmd) →
      ∃ pE, s.map.lookup e.watch = some pE ∧ cmd = commandOf s pE e ∧
        Asked (s.entryHeap.cell pE).mask e.mask)
    fun _ s' => s'.faults = s.faults

def RunsAsked (σ : Phase κ) : Action κ → Prop
  | .round => ∀ it, σ.2 = some it → AskedRound it σ.1
  | _ => True

/-- The next event is an unasked one of a watch in `m_map`; its access is allowed, and the
process for its command can be created. -/
def UnaskedNext (t : UserTable) (s : DaemonState κ) : Prop :=
  ∃ e q, s.inotify.events = e :: q ∧ Unasked e.mask ∧ e.watch ∈ s.map ∧
    (access t s e).2 = true ∧ (System.fork (access t s e).1).2 = true

/-- No round of the draining loop comes to an unasked event that would run a command, or to an event
that reloads the table. -/
def Settled (t : UserTable) (fd : ℕ) (σ : Phase κ) : Action κ → Prop
  | .round => ∀ it, σ.2 = some it → ¬ UnaskedNext t σ.1 ∧ ¬ ReloadsNext t fd σ.1
  | _ => True

end

/-! ## The invariant -/

/-- The watches in `m_map` have the masks of their entries, and the queue holds events that
have been asked for, and unasked ones. -/
structure Asking (s : DaemonState κ) : Prop where
  mask : ∀ p pE, s.map.lookup p = some pE →
    (s.watchHeap.cell p).mask = (s.entryHeap.cell pE).mask
  queue : ∀ e ∈ s.inotify.events, ∀ pE, s.map.lookup e.watch = some pE →
    Asked (s.entryHeap.cell pE).mask e.mask ∨ Unasked e.mask

/-- Between the actions, as long as no event reloads the table. -/
structure Serving (t : UserTable) (fd : ℕ) (σ : Phase κ) : Prop where
  running : Running t fd σ
  asking : Asking σ.1
  draining : ∀ it, σ.2 = some it → Draining t fd it σ.1

section
variable [System κ] {t : UserTable} {fd it : ℕ} {s : DaemonState κ}

omit [System κ] in
theorem Matched.asking (h : Matched s) (hevents : s.inotify.events = []) : Asking s := by
  refine ⟨fun p pE hp => (h.entry p pE hp).2, fun e he => ?_⟩
  rw [hevents] at he
  exact absurd he (by simp)

theorem post_reload_matched (h : Loaded t fd s) :
    Post (reload t) s (fun _ s' => Matched s') fun _ _ => True := by
  unfold reload
  rw [post_bind]
  refine (post_dispose h).imp_any fun _ s₁ h₁ => ?_
  exact post_load_matched t h₁.2.sound h₁.2.map h₁.2.maps

theorem Started.asking (h : Started t fd s) : Asking s := by
  have hidle := h.running.idle rfl
  obtain ⟨s₀, hfresh, hload⟩ := h
  exact ((post_load_matched t hfresh.sound hfresh.map hfresh.maps).ok hload).asking hidle

omit [System κ] in
theorem Asking.queued (h : Asking s) (hloaded : Loaded t fd s)
    (evts : List RawEvent) (hevts : ∀ e ∈ evts, ∀ p, tracked s.inotify.watches e = some p →
      Asked (s.watchHeap.cell p).mask e.mask ∨ Unasked e.mask) :
    Asking (evts.foldl queued s) := by
  obtain ⟨-, hw, hevents, -⟩ := forM_queueEvent hloaded.indexed evts
  have hmask : ∀ p, ((evts.foldl Daemon.queued s).watchHeap.cell p).mask =
      (s.watchHeap.cell p).mask := by
    intro p
    exact congrFun (masks_foldl_queued evts s) p
  constructor
  · intro p pE hp
    rw [hw.map] at hp
    rw [hmask, hw.entryHeap]
    exact h.mask p pE hp
  · intro e he pE hpE
    rw [hw.map] at hpE
    rw [hw.entryHeap]
    rw [hevents, List.mem_append] at he
    rcases he with he | he
    · exact h.queue e he pE hpE
    · obtain ⟨evt, hevt, p, hp, rfl⟩ := mem_kept he
      have hdelivered := hevts evt hevt p hp
      rw [h.mask p pE hpE] at hdelivered
      exact hdelivered

theorem Asking.post_startEvents {it : Option ℕ} (h : Asking s) (hloaded : Loaded t fd s)
    (hA : Delivers fd (s, it) .startEvents) :
    Post (startEvents fd) s (fun _ s' => Asking s') fun _ _ => True := by
  refine (hloaded.post_startEvents (post_waitForEvents_queued hloaded.opened
    hloaded.indexed)).imp_any fun _ s' hs' => ?_
  rcases hs'.2 with ⟨evts, hevts, rfl⟩ | ⟨-, rfl⟩
  · exact Asking.queued (s := { s with kernel := (System.readEvents s.kernel fd).1 })
      ⟨h.mask, h.queue⟩ (hloaded.kernel _) evts (hA evts hevts)
  · exact ⟨h.mask, h.queue⟩

/-! ## Rounds -/

theorem UnaskedNext.post_round (h : UnaskedNext t s) (hdraining : Draining t fd it s) :
    Post (round it) s
      (fun r _ => ∃ e c, r = some (e, some c) ∧ Unasked e.mask) fun _ _ => False := by
  obtain ⟨e, q, hq, hunasked, hmem, haccess, hfork⟩ := h
  obtain ⟨pE, hbound⟩ := FinMap.exists_lookup hmem
  refine Daemon.post_round hq hdraining.node ?_
  refine (post_onEvent_plain (hdraining.loaded.popped it q).toSound hbound haccess
    hunasked.isNewDir_eq).imp fun c s' hs' => ?_
  have hfork' : (System.fork (access t (popped it q s) e).1).2 = true := hfork
  rw [hfork', if_pos rfl] at hs'
  exact ⟨e, _, by rw [hs'.1], hunasked⟩

/-- A round without a reload runs no command for an event that has not been asked for, unless the
next event is an unasked one. -/
theorem Asking.post_round (h : Asking s) (hdraining : Draining t fd it s)
    (hquiet : ¬ ReloadsNext t fd s) :
    Post (round it) s
      (fun r s' => (¬ UnaskedNext t s → ∀ e cmd, r = some (e, some cmd) →
        ∃ pE, s.map.lookup e.watch = some pE ∧ cmd = commandOf s pE e ∧
          Asked (s.entryHeap.cell pE).mask e.mask) ∧ Asking s')
      fun _ _ => True := by
  refine post_round_cases hdraining.node (fun _ => ⟨fun _ _ _ hrun => ?_, h⟩) fun e q hq => ?_
  · exact absurd hrun (by simp)
  · refine (post_onEvent_cases (hdraining.loaded.popped it q) e).imp_any fun c s' hs' => ?_
    rcases hs' with ⟨-, hs'⟩ | ⟨⟨hmem, haccess, hdir⟩, hcan, -⟩
    · refine ⟨fun hskips e' cmd hrun => ?_, ?_⟩
      · obtain ⟨rfl, rfl⟩ := Prod.mk.inj (Option.some.inj hrun)
        obtain ⟨pE, hbound, hcmd, haccess, hfork⟩ := hs'.command cmd rfl
        have hqueue := h.queue e (by simp [hq]) pE hbound
        refine ⟨pE, hbound, hcmd, hqueue.resolve_right fun hunasked => hskips ?_⟩
        exact ⟨e, q, hq, hunasked, FinMap.mem_of_lookup hbound, haccess, hfork⟩
      · obtain ⟨k, -, rfl⟩ := hs'.state
        exact ⟨h.mask, fun e' he' => h.queue e' (by rw [hq]; exact List.mem_cons_of_mem e he')⟩
    · exact absurd ⟨e, q, hq, hmem, haccess, hdir, hcan⟩ hquiet

theorem askedRound_iff (h : Asking s) (hdraining : Draining t fd it s) :
    AskedRound it s ↔ ¬ UnaskedNext t s ∧ ¬ ReloadsNext t fd s := by
  constructor
  · intro hround
    refine ⟨fun hnext => ?_, (safeRound_iff hdraining).mp ?_⟩
    · obtain ⟨r, s', hx, e, c, rfl, hunasked⟩ := (hnext.post_round hdraining).exists_ok
      obtain ⟨-, hasked⟩ := hround.ok hx
      obtain ⟨pE, -, -, hasked⟩ := hasked e c rfl
      exact hunasked.not_asked hasked
    · refine hround.imp fun r s' hs' => ⟨hs'.1, fun e cmd hr => ?_⟩
      obtain ⟨pE, hbound, hcmd, -⟩ := hs'.2 e cmd hr
      exact ⟨pE, hbound, hcmd⟩
  · rintro ⟨hskips, hquiet⟩
    exact ((post_round_quiet hdraining hquiet).and (h.post_round hdraining hquiet)).mono
      (fun _ _ hs' => ⟨hs'.1.1.1, hs'.2.1 hskips⟩) fun _ _ he => he.1

/-! ## Runs -/

theorem serving_step (σ : Phase κ) (a : Action κ) (σ' : Phase κ) (h : Serving t fd σ)
    (hA : Delivers fd σ a) (hsettled : Settled t fd σ a) (hstep : step t fd σ a = some σ') :
    Serving t fd σ' := by
  have hrunning' := running_step σ a σ' h.running hstep
  obtain ⟨hrunning, hasking, hdraining⟩ := h
  obtain ⟨s, it⟩ := σ
  obtain ⟨s', it'⟩ := σ'
  rcases step_cases hstep with ⟨k, -, hs'⟩ | ⟨rfl, -, hx⟩ | ⟨rfl, n, r, rfl, hx, rfl⟩ |
    ⟨-, rfl, hx, rfl⟩
  · obtain ⟨rfl, rfl⟩ := Prod.mk.inj hs'
    refine ⟨hrunning', ⟨hasking.mask, hasking.queue⟩, fun n hn => ?_⟩
    obtain ⟨hloaded, hlive, hcell⟩ := hdraining n hn
    exact ⟨hloaded.kernel k, hlive, hcell⟩
  · refine ⟨hrunning', (hasking.post_startEvents hrunning.loaded hA).ok hx, fun n hn => ?_⟩
    exact ((post_startEvents_draining hrunning.loaded).ok hx n hn).1
  · have hdraining := hdraining n rfl
    have hquiet := (hsettled n rfl).2
    have hasking' := ((hasking.post_round hdraining hquiet).ok hx).2
    refine ⟨hrunning', hasking', fun m hm => ?_⟩
    obtain ⟨-, -, rfl⟩ := Option.map_eq_some_iff.mp hm
    exact ((post_round_quiet hdraining hquiet).ok hx).2
  · have hM := (post_reload_matched hrunning.loaded).ok hx
    have hr := ((post_reload hrunning.loaded).ok hx).2
    exact ⟨hrunning', hM.asking (hr.events.trans (hrunning.idle rfl)),
      fun n hn => absurd hn (by simp)⟩

theorem runsAsked_iff_settled (σ : Phase κ) (a : Action κ) (h : Serving t fd σ) :
    RunsAsked σ a ↔ Settled t fd σ a := by
  cases a with
  | world k => exact Iff.rfl
  | startEvents => exact Iff.rfl
  | reload => exact Iff.rfl
  | round => exact forall₂_congr fun it hit => askedRound_iff h.asking (h.draining it hit)

/-- In every run, a command is that of an entry which has asked for the event, exactly if no round
comes to an unasked event of a watch in `m_map` or to an event that reloads the table. -/
theorem runsAsked_iff {s₀ : DaemonState κ} (hs₀ : Started t fd s₀) {as : List (Action κ)}
    (hA : Meets (step t fd) (Delivers fd) (s₀, none) as) :
    Meets (step t fd) RunsAsked (s₀, none) as ↔ Meets (step t fd) (Settled t fd) (s₀, none) as :=
  meets_congr_of_meets runsAsked_iff_settled serving_step
    ⟨hs₀.running, hs₀.asking, fun _ hit => absurd hit (by simp)⟩ hA

end

/-! ## A watched directory -/

def oneEvent (k : SmallSystem) (mask : Mask) : List (Action SmallSystem) :=
  [.world { k with pending := [{ wd := some 0, mask := mask, name := [] }] }, .startEvents, .round]

theorem meets_delivers_oneEvent {s₀ : DaemonState SmallSystem} {mask : Mask}
    (h : ∀ p, s₀.inotify.watches.lookup 0 = some p →
      Asked (s₀.watchHeap.cell p).mask mask ∨ Unasked mask) :
    Meets (step systemTable 3) (Delivers 3) (s₀, none) (oneEvent s₀.kernel mask) := by
  refine ⟨trivial, fun σ hσ => ⟨fun evts hevts e he p hp => ?_, fun _ _ => ⟨trivial, fun _ _ =>
    trivial⟩⟩⟩
  obtain rfl := Option.some.inj hσ
  obtain rfl := Except.ok.inj hevts
  obtain rfl := List.mem_singleton.mp he
  exact h p hp

/-- A file is created: its event has been asked for, and the command is run. -/
theorem runsAsked_fileCreated : ∃ s₀ : DaemonState SmallSystem, Started systemTable 3 s₀ ∧
    Meets (step systemTable 3) RunsAsked (s₀, none) (oneEvent s₀.kernel inCreate) := by
  obtain ⟨⟨s₀, it, s₁⟩, hreading⟩ : ∃ x, reading [(inCreate, [])] = some x :=
    Option.isSome_iff_exists.mp (by decide +kernel)
  have hobserved : (reading [(inCreate, [])]).map (fun x =>
      ((x.1.inotify.watches.lookup 0).map fun p => (x.1.watchHeap.cell p).mask,
        x.2.2.inotify.events)) =
      some (some inCreate, [{ mask := inCreate, name := [], watch := 0 }]) := by decide +kernel
  rw [hreading] at hobserved
  obtain ⟨hmask, hevents⟩ := Prod.mk.inj (Option.some.inj hobserved)
  obtain ⟨hs₀, s, hworld, hstart⟩ := reading_eq_some hreading
  obtain rfl := (Prod.mk.inj (Option.some.inj hworld)).1
  have hdelivers : Meets (step systemTable 3) (Delivers 3) (s₀, none)
      (oneEvent s₀.kernel inCreate) := by
    refine meets_delivers_oneEvent fun p hp => ?_
    have hcell : (s₀.watchHeap.cell p).mask = inCreate := by simpa [hp] using hmask
    rw [hcell]
    exact .inl (by decide)
  have hnext : ∀ e q, s₁.inotify.events = e :: q → e.mask = inCreate := by
    intro e q hq
    obtain ⟨rfl, -⟩ := List.cons.inj (hevents.symm.trans hq)
    rfl
  refine ⟨s₀, hs₀, (runsAsked_iff hs₀ hdelivers).mpr ?_⟩
  refine ⟨trivial, fun σ hσ => ⟨trivial, fun σ₁ hσ₁ => ⟨fun n hn => ?_, fun _ _ => trivial⟩⟩⟩
  obtain rfl := Option.some.inj hσ
  obtain ⟨-, hx⟩ := step_startEvents hσ₁
  obtain ⟨-, hs₁⟩ := EStateM.Result.ok.inj (hstart.symm.trans hx)
  rw [← hs₁]
  constructor
  · rintro ⟨e, q, hq, hunasked, -⟩
    rw [hnext e q hq] at hunasked
    exact absurd hunasked (by decide)
  · rintro ⟨e, q, hq, -, -, hdir, -⟩
    rw [hnext e q hq] at hdir
    exact absurd hdir (by decide)

def runsUnasked (it : ℕ) (s : DaemonState SmallSystem) : Bool :=
  match round it s with
  | .ok (some (e, some _)) _ => decide (Unasked e.mask)
  | _ => false

/-- The watched directory is deleted: `IN_IGNORED` runs the command of an entry that has asked
for `IN_CREATE` only. -/
theorem not_runsAsked_deleted : ∃ (s₀ : DaemonState SmallSystem) (as : _),
    Started systemTable 3 s₀ ∧
    Meets (step systemTable 3) (Delivers 3) (s₀, none) as ∧
      ¬ Meets (step systemTable 3) RunsAsked (s₀, none) as := by
  obtain ⟨⟨s₀, it, s₁⟩, hreading⟩ : ∃ x, reading [(inIgnored, [])] = some x :=
    Option.isSome_iff_exists.mp (by decide +kernel)
  obtain ⟨hs₀, s, hworld, hstart⟩ := reading_eq_some hreading
  have hround : (reading [(inIgnored, [])]).map (fun x => runsUnasked x.2.1 x.2.2) =
      some true := by decide +kernel
  rw [hreading] at hround
  have hround := Option.some.inj hround
  simp only [runsUnasked] at hround
  split at hround
  · next e c s' hx =>
    refine ⟨s₀, oneEvent s₀.kernel inIgnored, hs₀,
      meets_delivers_oneEvent fun _ _ => .inr (by decide), fun hmeets => ?_⟩
    obtain ⟨-, hmeets⟩ := hmeets
    have hstep : step systemTable 3 (s, none) .startEvents = some (s₁, some it) := by
      simp only [step, hstart]
    obtain rfl := (Prod.mk.inj (Option.some.inj hworld)).1
    obtain ⟨hruns, -⟩ := (hmeets _ rfl).2 _ hstep
    obtain ⟨-, hasked⟩ := Post.ok (hruns it rfl) hx
    obtain ⟨pE, -, -, hasked⟩ := hasked e c rfl
    exact (of_decide_eq_true hround).not_asked hasked
  · exact absurd hround (by simp)

end Incron.Daemon
