import Incron.Daemon.Events
import Incron.Lib.Transition

/-! The daemon around one table as a transition system: reading events, rounds of the draining
loop, reloads for a changed table file, and arbitrary changes of the system in between. -/
namespace Incron.Daemon
open Hoare

variable {κ : Type}

/-- The state with the node that the draining loop holds, `none` outside the loop. -/
abbrev Phase (κ : Type) := DaemonState κ × Option ℕ

inductive Action (κ : Type) where
  | world (k : κ)
  | startEvents
  | round
  | reload

/-- An exception ends the daemon, so the action is not possible. -/
def step [System κ] (t : UserTable) (fd : ℕ) (σ : Phase κ) (a : Action κ) : Option (Phase κ) :=
  match a, σ with
  | .world k, (s, it) => some ({ s with kernel := k }, it)
  | .startEvents, (s, none) =>
    match startEvents fd s with
    | .ok it s' => some (s', it)
    | .error _ _ => none
  | .round, (s, some it) =>
    match round it s with
    | .ok none s' => some (s', none)
    | .ok (some _) s' => some (s', some it)
    | .error _ _ => none
  | .reload, (s, none) =>
    match reload t s with
    | .ok () s' => some (s', none)
    | .error _ _ => none
  | _, _ => none

structure Fresh (fd : ℕ) (s : DaemonState κ) : Prop where
  opened : s.inotify.fd = some fd
  watches : s.inotify.watches = ∅
  paths : s.inotify.paths = ∅
  events : s.inotify.events = []
  watchHeap : s.watchHeap = default
  entryHeap : s.entryHeap = default
  tab : s.tab = []
  map : s.map = ∅
  maps : s.maps.lookup fd = none
  nodes : s.nodeHeap.Valid
  faults : s.faults = []

def Started [System κ] (t : UserTable) (fd : ℕ) (s : DaemonState κ) : Prop :=
  ∃ s₀, Fresh fd s₀ ∧ load t s₀ = .ok () s

theorem Fresh.sound {fd : ℕ} {s : DaemonState κ} (h : Fresh fd s) : Sound fd s := by
  refine ⟨h.opened, ?_, fun p hp => ?_, ?_, fun p pE hp => ?_, fun p hp => ?_, ?_, ?_, h.nodes⟩
  · rw [h.map]
    exact Indexed.empty h.watches h.paths
  · rw [h.watchHeap] at hp
    exact absurd hp (by simp [Inhabited.default])
  · rw [h.watchHeap]
    exact Heap.Valid.default
  · rw [h.map] at hp
    exact absurd hp (by simp)
  · rw [h.tab] at hp
    exact absurd hp (by simp)
  · rw [h.tab]
    exact List.nodup_nil
  · rw [h.entryHeap]
    exact Heap.Valid.default

/-! ## The invariant -/

section
variable {t : UserTable} {fd : ℕ} {s s' : DaemonState κ}

structure Running (t : UserTable) (fd : ℕ) (σ : Phase κ) : Prop where
  loaded : Loaded t fd σ.1
  node : ∀ it, σ.2 = some it → it < σ.1.nodeHeap.next ∧ σ.1.nodeHeap.cell it = t
  idle : σ.2 = none → σ.1.inotify.events = []

theorem Running.kernel {it : Option ℕ} (h : Running t fd (s, it)) (k : κ) :
    Running t fd ({ s with kernel := k }, it) :=
  ⟨h.loaded.kernel k, h.node, h.idle⟩

structure Handled (t : UserTable) (fd : ℕ) (s s' : DaemonState κ) : Prop where
  loaded : Loaded t fd s'
  events : s'.inotify.events = s.inotify.events
  nodeNext : s.nodeHeap.next ≤ s'.nodeHeap.next
  nodeCell : ∀ n < s.nodeHeap.next, s'.nodeHeap.cell n = s.nodeHeap.cell n

theorem Loaded.faults (h : Loaded t fd s) (f : List Handle) : Loaded t fd { s with faults := f } :=
  h.of_frame rfl

theorem Loaded.handled (h : Loaded t fd s) (k : κ) : Handled t fd s { s with kernel := k } :=
  ⟨h.kernel k, rfl, Nat.le_refl _, fun _ _ => rfl⟩

theorem Loaded.waited (h : Loaded t fd s) (hw : Waited s.map.keys s s') : Loaded t fd s' := by
  refine ⟨⟨hw.fd.trans h.opened, ?_, fun p hp => ?_, ⟨fun p => ?_, fun p hp => ?_, ?_⟩, ?_, ?_, ?_,
    ?_, ?_⟩, ?_⟩
  · rw [hw.map]
    exact hw.indexed
  · rw [hw.map]
    exact h.owned p (by rwa [← hw.live])
  · rw [hw.live, hw.next, hw.freed]
    exact h.watches.live_iff p
  · rw [hw.next]
    exact h.watches.freed_lt p (by rwa [← hw.freed])
  · rw [hw.freed]
    exact h.watches.nodup
  · rw [hw.map, hw.tab]
    exact h.entry
  · rw [hw.tab, hw.entryHeap]
    exact h.tab
  · rw [hw.tab]
    exact h.tabNodup
  · rw [hw.entryHeap]
    exact h.entries
  · rw [hw.nodeHeap]
    exact h.nodes
  · rw [hw.maps, hw.nodeHeap]
    exact h.node

theorem Reloaded.handled {s₁ : DaemonState κ} {k : κ}
    (h : Reloaded t fd { s with kernel := k } s₁) (k' : κ) (f : List Handle) :
    Handled t fd s { s₁ with kernel := k', faults := f } :=
  ⟨(h.loaded.faults f).kernel k', h.events, h.nodeNext, h.nodeCell⟩

def popped (it : ℕ) (q : List InotifyEvent) (s : DaemonState κ) : DaemonState κ :=
  touch { s with inotify := { s.inotify with events := q } } (s.nodeHeap.live it) (.node it)

theorem Loaded.popped (h : Loaded t fd s) (it : ℕ) (q : List InotifyEvent) :
    Loaded t fd (popped it q s) :=
  ⟨⟨h.opened, h.indexed.events q, h.owned, h.watches, h.entry, h.tab, h.tabNodup, h.entries,
    h.nodes⟩, h.node⟩

end

section
variable [System κ] {t : UserTable} {fd it : ℕ} {s : DaemonState κ}

theorem Started.running (h : Started t fd s) : Running t fd (s, none) := by
  obtain ⟨s₀, hfresh, hload⟩ := h
  obtain ⟨-, s₁, h₁, rfl⟩ := (post_load hfresh.sound hfresh.map hfresh.maps t).ok hload
  refine ⟨Loaded.registered h₁.sound ?_, fun it hit => absurd hit (by simp), fun _ => ?_⟩
  · rw [h₁.grown.maps]
    exact hfresh.maps
  · exact h₁.grown.events.trans hfresh.events

theorem post_onEvent (h : Loaded t fd s) (e : InotifyEvent) :
    Post (onEvent t e) s (fun _ s' => Handled t fd s s') fun _ _ => True := by
  refine (post_onEvent_cases h e).imp_any fun _ s' hs' => ?_
  rcases hs' with ⟨-, hs'⟩ | ⟨-, -, s₁, f, -, hr, rfl⟩
  · obtain ⟨k, -, rfl⟩ := hs'.state
    exact h.handled k
  · exact hr.handled _ _

theorem post_round {e : InotifyEvent} {q : List InotifyEvent} (hq : s.inotify.events = e :: q)
    (hnode : s.nodeHeap.cell it = t) {Q : Option (InotifyEvent × Option Str) → DaemonState κ → Prop}
    {E : DaemonException → DaemonState κ → Prop}
    (h : Post (onEvent t e) (popped it q s) (fun c s' => Q (some (e, c)) s') E) :
    Post (round it) s Q E := by
  unfold round getEvent
  simp only [post_bind, post_get, hq, post_pure, post_modifyInotify, post_nodeAt, List.tail_cons,
    hnode]
  exact h

/-- A round finds an empty queue, or it handles the event in front. -/
theorem post_round_cases (hnode : s.nodeHeap.cell it = t)
    {Q : Option (InotifyEvent × Option Str) → DaemonState κ → Prop}
    {E : DaemonException → DaemonState κ → Prop} (hnil : s.inotify.events = [] → Q none s)
    (hcons : ∀ e q, s.inotify.events = e :: q →
      Post (onEvent t e) (popped it q s) (fun c s' => Q (some (e, c)) s') E) :
    Post (round it) s Q E := by
  cases hq : s.inotify.events with
  | nil =>
    unfold round getEvent
    simp only [post_bind, post_get, hq, post_pure]
    exact hnil hq
  | cons e q => exact post_round hq hnode (hcons e q hq)

/-- The draining loop is entered with the node of the table, behind `WaitForEvents`. -/
theorem Loaded.post_startEvents (h : Loaded t fd s) {Q : Unit → DaemonState κ → Prop}
    {E : DaemonException → DaemonState κ → Prop} (hwait : Post waitForEvents s Q E) :
    Post (startEvents fd) s
      (fun it s' => (∃ n, it = some n ∧ s.maps.lookup fd = some n) ∧ Q () s') E := by
  obtain ⟨n, hn, hlive, -⟩ := h.node
  unfold startEvents
  simp only [post_bind, post_get, hn, post_nodeAt, hlive, touch_live, post_pure]
  exact hwait.imp fun _ _ hs' => ⟨⟨n, rfl, rfl⟩, hs'⟩

theorem post_startEvents (h : Loaded t fd s) :
    Post (startEvents fd) s
      (fun it s' => Running t fd (s', it) ∧ ∃ n, it = some n ∧ s.maps.lookup fd = some n ∧
        Waited s.map.keys s s')
      fun _ s' => s'.faults = s.faults := by
  obtain ⟨n, hn, hlive, hcell⟩ := h.node
  refine (h.post_startEvents (post_waitForEvents h.opened h.indexed)).mono (fun _ s' hs' => ?_)
    fun _ s' he => ?_
  · obtain ⟨⟨n', rfl, hn'⟩, hw⟩ := hs'
    obtain rfl := Option.some.inj (hn.symm.trans hn')
    refine ⟨⟨h.waited hw, fun it hit => ?_, fun hit => absurd hit (by simp)⟩, n, rfl, hn, hw⟩
    obtain rfl := Option.some.inj hit
    simp only [hw.nodeHeap]
    exact ⟨h.nodes.lt_next hlive, hcell⟩
  · obtain ⟨_, _, k, -, rfl⟩ := he
    rfl

theorem Running.post_round (h : Running t fd (s, some it)) :
    Post (round it) s
      (fun r s' => Running t fd (s', r.map fun _ => it) ∧
        s.inotify.events = (r.map Prod.fst).toList ++ s'.inotify.events)
      fun _ _ => True := by
  obtain ⟨hlt, hcell⟩ := h.node it rfl
  have hloaded : Loaded t fd s := h.loaded
  refine post_round_cases hcell (fun hq => ?_) fun e q hq => ?_
  · exact ⟨⟨hloaded, fun it hit => absurd hit (by simp), fun _ => hq⟩, rfl⟩
  · refine (post_onEvent (hloaded.popped it q) e).imp_any fun _ s' hh => ?_
    refine ⟨⟨hh.loaded, fun it' hit => ?_, fun hit => absurd hit (by simp)⟩, ?_⟩
    · obtain rfl := Option.some.inj hit
      exact ⟨Nat.lt_of_lt_of_le hlt hh.nodeNext, (hh.nodeCell it hlt).trans hcell⟩
    · rw [hq, hh.events]
      rfl

theorem Running.post_reload (h : Running t fd (s, none)) :
    Post (reload t) s (fun _ s' => Running t fd (s', none)) fun _ _ => True :=
  (Daemon.post_reload h.loaded).imp_any fun _ _ hr =>
    ⟨hr.2.loaded, fun _ hit => absurd hit (by simp), fun _ => hr.2.events.trans (h.idle rfl)⟩

theorem step_startEvents {σ σ' : Phase κ} (h : step t fd σ .startEvents = some σ') :
    σ.2 = none ∧ startEvents fd σ.1 = .ok σ'.2 σ'.1 := by
  obtain ⟨s, it⟩ := σ
  unfold step at h
  cases it with
  | some it => exact absurd h (by simp)
  | none =>
    simp only at h
    split at h
    · next hx =>
      obtain rfl := Option.some.inj h
      exact ⟨rfl, hx⟩
    · exact absurd h (by simp)

theorem step_round {σ σ' : Phase κ} (h : step t fd σ .round = some σ') :
    ∃ it r, σ.2 = some it ∧ round it σ.1 = .ok r σ'.1 ∧ σ'.2 = r.map fun _ => it := by
  obtain ⟨s, it⟩ := σ
  unfold step at h
  cases it with
  | none => exact absurd h (by simp)
  | some it =>
    simp only at h
    split at h
    · next hx =>
      obtain rfl := Option.some.inj h
      exact ⟨it, none, rfl, hx, rfl⟩
    · next r _ hx =>
      obtain rfl := Option.some.inj h
      exact ⟨it, some r, rfl, hx, rfl⟩
    · exact absurd h (by simp)

theorem step_reload {σ σ' : Phase κ} (h : step t fd σ .reload = some σ') :
    σ.2 = none ∧ reload t σ.1 = .ok () σ'.1 ∧ σ'.2 = none := by
  obtain ⟨s, it⟩ := σ
  unfold step at h
  cases it with
  | some it => exact absurd h (by simp)
  | none =>
    simp only at h
    split at h
    · next hx =>
      obtain rfl := Option.some.inj h
      exact ⟨rfl, hx, rfl⟩
    · exact absurd h (by simp)

theorem step_cases {σ σ' : Phase κ} {a : Action κ} (h : step t fd σ a = some σ') :
    (∃ k, a = .world k ∧ σ' = ({ σ.1 with kernel := k }, σ.2)) ∨
      (a = .startEvents ∧ σ.2 = none ∧ startEvents fd σ.1 = .ok σ'.2 σ'.1) ∨
      (a = .round ∧ ∃ it r, σ.2 = some it ∧ round it σ.1 = .ok r σ'.1 ∧
        σ'.2 = r.map fun _ => it) ∨
      (a = .reload ∧ σ.2 = none ∧ reload t σ.1 = .ok () σ'.1 ∧ σ'.2 = none) := by
  cases a with
  | world k => exact .inl ⟨k, rfl, (Option.some.inj h).symm⟩
  | startEvents => exact .inr (.inl ⟨rfl, step_startEvents h⟩)
  | round => exact .inr (.inr (.inl ⟨rfl, step_round h⟩))
  | reload => exact .inr (.inr (.inr ⟨rfl, step_reload h⟩))

theorem running_step (σ : Phase κ) (a : Action κ) (σ' : Phase κ) (h : Running t fd σ)
    (hstep : step t fd σ a = some σ') : Running t fd σ' := by
  obtain ⟨s, it⟩ := σ
  obtain ⟨s', it'⟩ := σ'
  rcases step_cases hstep with ⟨k, -, hs'⟩ | ⟨-, -, hx⟩ | ⟨-, n, r, rfl, hx, hit⟩ |
    ⟨-, rfl, hx, rfl⟩
  · obtain ⟨rfl, rfl⟩ := Prod.mk.inj hs'
    exact h.kernel k
  · exact ((post_startEvents h.loaded).ok hx).1
  · obtain rfl := hit
    exact (h.post_round.ok hx).1
  · exact h.post_reload.ok hx

theorem running_of_run {s₀ : DaemonState κ} {as : List (Action κ)} {σ : Phase κ}
    (hs₀ : Started t fd s₀) (hrun : Transition.run (step t fd) (s₀, none) as = some σ) :
    Running t fd σ :=
  Transition.run_invariant running_step hs₀.running hrun

end

/-! ## A small system -/

/-- A system in which all calls succeed: its watch descriptors, the events that it will
report, and the table file. -/
structure SmallSystem where
  file : Str
  wds : List ℕ := []
  pending : List RawEvent := []

instance : System SmallSystem where
  addWatch k _ _ _ := ({ k with wds := k.wds ++ [k.wds.length] }, .ok k.wds.length)
  hasWatch k _ wd := wd ∈ k.wds
  rmWatch k _ wd := { k with wds := k.wds.erase wd }
  readEvents k _ := ({ k with pending := [] }, .ok k.pending)
  mayAccess k _ _ _ := (k, true)
  readFile k _ := (k, some k.file)
  popen k _ := (k, some [])
  fork k := (k, true)
  order l := l
  order_perm l := List.Perm.refl l

def constructed (k : SmallSystem) : DaemonState SmallSystem where
  kernel := k
  watchHeap := default
  entryHeap := default
  nodeHeap := default
  inotify := { this := 0, fd := some 3, watches := ∅, paths := ∅, events := [] }
  tab := []
  map := ∅
  maps := ∅
  faults := []

def start (t : UserTable) (k : SmallSystem) : Option (DaemonState SmallSystem) :=
  match load t (constructed k) with
  | .ok () s => some s
  | .error _ _ => none

theorem started_of_start {t : UserTable} {k : SmallSystem} {s : DaemonState SmallSystem}
    (h : start t k = some s) : Started t 3 s := by
  refine ⟨constructed k, ⟨rfl, rfl, rfl, rfl, rfl, rfl, rfl, rfl, rfl, Heap.Valid.default, rfl⟩,
    ?_⟩
  unfold start at h
  split at h
  · next hx => rw [hx, Option.some.inj h]
  · exact absurd h (by simp)

def systemTable : UserTable :=
  { user := "t".toList, fSysTable := true, sysBase := "/etc/incron.d".toList,
    userBase := "/var/spool/incron".toList }

def oneEntry : SmallSystem := { file := "/d 256 ls\n".toList }

/-- The table of `oneEntry` is loaded and reads events of its watch: the loaded state, the node
and the state in which the draining loop starts. -/
def reading (evts : List (Mask × Str)) :
    Option (DaemonState SmallSystem × ℕ × DaemonState SmallSystem) :=
  match start systemTable oneEntry with
  | none => none
  | some s₀ =>
    match startEvents 3 { s₀ with kernel := { s₀.kernel with
        pending := evts.map fun e => { wd := some 0, mask := e.1, name := e.2 } } } with
    | .ok (some it) s₁ => some (s₀, it, s₁)
    | _ => none

theorem reading_eq_some {evts : List (Mask × Str)} {s₀ s₁ : DaemonState SmallSystem} {it : ℕ}
    (h : reading evts = some (s₀, it, s₁)) : Started systemTable 3 s₀ ∧ ∃ s,
      Transition.run (step systemTable 3) (s₀, none) [.world { s₀.kernel with
        pending := evts.map fun e => { wd := some 0, mask := e.1, name := e.2 } }] =
          some (s, none) ∧
      startEvents 3 s = .ok (some it) s₁ := by
  unfold reading at h
  split at h
  · exact absurd h (by simp)
  · next s hs =>
    split at h
    · next hx =>
      obtain ⟨rfl, hrest⟩ := Prod.mk.inj (Option.some.inj h)
      obtain ⟨rfl, rfl⟩ := Prod.mk.inj hrest
      exact ⟨started_of_start hs, _, rfl, hx⟩
    · exact absurd h (by simp)

end Incron.Daemon
