import Incron.Daemon.Watches

/-! The event queue of an `Inotify` object: what the loop of `WaitForEvents` appends, as a
function of the tracked watches, and what `GetEvent` takes away. -/
namespace Incron.Daemon
open Hoare

variable {κ : Type}

/-- An event after which its watch is not tracked any more: the watch is a one-shot watch, or
the kernel has dropped it. -/
def endsTracking (mask : Mask) (e : RawEvent) : Bool :=
  InotifyEvent.isType mask inOneshot || InotifyEvent.isType e.mask inIgnored

def tracked (watches : FinMap ℕ ℕ) (e : RawEvent) : Option ℕ := e.wd.bind watches.lookup

/-- The tracked watches after an event; `mask` are the masks of the watches. -/
def trackedAfter (mask : ℕ → Mask) (watches : FinMap ℕ ℕ) (e : RawEvent) : FinMap ℕ ℕ :=
  match e.wd, tracked watches e with
  | some wd, some p => if endsTracking (mask p) e then watches.erase wd else watches
  | _, _ => watches

def queuedEvent (e : RawEvent) (p : ℕ) : InotifyEvent :=
  { mask := e.mask, cookie := e.cookie, name := e.name, watch := p }

/-- The events that are queued: those whose descriptor is still tracked when they are
reached. -/
def kept (mask : ℕ → Mask) : FinMap ℕ ℕ → List RawEvent → List InotifyEvent
  | _, [] => []
  | watches, e :: es =>
    ((tracked watches e).map (queuedEvent e)).toList ++ kept mask (trackedAfter mask watches e) es

def masks (h : Heap InotifyWatch) (p : ℕ) : Mask := (h.cell p).mask

/-- The state after one event. -/
def queued (s : DaemonState κ) (e : RawEvent) : DaemonState κ :=
  match tracked s.inotify.watches e with
  | none => s
  | some p =>
    { s with
      inotify := { s.inotify with
        watches := trackedAfter (masks s.watchHeap) s.inotify.watches e
        events := s.inotify.events ++ [queuedEvent e p] }
      watchHeap :=
        if endsTracking (s.watchHeap.cell p).mask e then
          s.watchHeap.set p { s.watchHeap.cell p with wd := none, enabled := false }
        else s.watchHeap }

section
variable {s : DaemonState κ} {l : List ℕ}

/-- `__Disable` is called for tracked watches only, which are enabled. -/
theorem queueEvent_eq (H : Indexed s.inotify s.watchHeap l) (e : RawEvent) :
    queueEvent e s = .ok () (queued s e) := by
  suffices h : Post (queueEvent e) s (fun _ s' => s' = queued s e) fun _ _ => False by
    obtain ⟨a, s', hs', rfl⟩ := h.exists_ok
    exact hs'
  unfold queueEvent queued
  simp only [post_bind, post_get]
  change Post (match tracked s.inotify.watches e with | none => _ | some p => _) s _ _
  cases hfind : tracked s.inotify.watches e with
  | none => rfl
  | some p =>
    obtain ⟨wd, hwd, hlook⟩ := Option.bind_eq_some_iff.mp hfind
    obtain ⟨hp, hpwd⟩ := (H.watches wd p).mp hlook
    change (s.watchHeap.cell p).wd = some wd at hpwd
    have henabled : (s.watchHeap.cell p).enabled = true := by
      rw [H.enabled p hp, hpwd]
      rfl
    simp only [post_bind, post_watchAt, H.live p hp, touch_live, post_ite, post_modifyInotify]
    have hends : (InotifyEvent.isType (s.watchHeap.cell p).mask inOneshot ||
        InotifyEvent.isType e.mask inIgnored) = endsTracking (s.watchHeap.cell p).mask e := rfl
    simp only [hends]
    have htracked : trackedAfter (masks s.watchHeap) s.inotify.watches e =
        if endsTracking (s.watchHeap.cell p).mask e then s.inotify.watches.erase wd
        else s.inotify.watches := by
      rw [trackedAfter, hwd, hfind]
      rfl
    rw [htracked]
    split_ifs with hoff
    · unfold disable
      simp only [post_bind, post_watchAt, H.live p hp, touch_live, henabled, if_true,
        H.pInotify p hp, hpwd, post_modifyInotify, post_modifyWatch]
      rfl
    · rfl

/-! ## All events of a buffer -/

theorem waited_queued (H : Indexed s.inotify s.watchHeap l) (e : RawEvent) :
    Waited l s (queued s e) :=
  (post_queueEvent H e).ok (queueEvent_eq H e)

private theorem queued_cell (s : DaemonState κ) (e : RawEvent) (q : ℕ) :
    (queued s e).watchHeap.cell q = s.watchHeap.cell q ∨
      tracked s.inotify.watches e = some q ∧ (queued s e).watchHeap.cell q =
        { s.watchHeap.cell q with wd := none, enabled := false } := by
  unfold queued
  cases tracked s.inotify.watches e with
  | none => exact .inl rfl
  | some p =>
    by_cases hoff : endsTracking (s.watchHeap.cell p).mask e = true
    · simp only [if_pos hoff]
      by_cases hq : q = p
      · subst hq
        exact .inr ⟨rfl, Heap.set_cell_self _ _ _⟩
      · exact .inl (Heap.set_cell_of_ne _ hq _)
    · simp only [if_neg hoff]
      exact .inl trivial

private theorem masks_queued (s : DaemonState κ) (e : RawEvent) :
    masks (queued s e).watchHeap = masks s.watchHeap := by
  funext q
  rcases queued_cell s e q with h | ⟨-, h⟩ <;> simp only [masks, h]

private theorem queued_events (s : DaemonState κ) (e : RawEvent) :
    (queued s e).inotify.events = s.inotify.events ++
      ((tracked s.inotify.watches e).map (queuedEvent e)).toList := by
  unfold queued
  cases tracked s.inotify.watches e <;> simp

private theorem queued_watches (s : DaemonState κ) (e : RawEvent) :
    (queued s e).inotify.watches = trackedAfter (masks s.watchHeap) s.inotify.watches e := by
  unfold queued
  cases h : tracked s.inotify.watches e with
  | none =>
    unfold trackedAfter
    rw [h]
    cases e.wd <;> rfl
  | some p => rfl

theorem forM_queueEvent (H : Indexed s.inotify s.watchHeap l) (es : List RawEvent) :
    es.forM queueEvent s = .ok () (es.foldl queued s) ∧ Waited l s (es.foldl queued s) ∧
      (es.foldl queued s).inotify.events =
        s.inotify.events ++ kept (masks s.watchHeap) s.inotify.watches es ∧
      (es.foldl queued s).inotify.watches =
        es.foldl (trackedAfter (masks s.watchHeap)) s.inotify.watches := by
  induction es generalizing s with
  | nil => exact ⟨rfl, Waited.refl H, (List.append_nil _).symm, rfl⟩
  | cons e es ih =>
    have hw := waited_queued H e
    obtain ⟨hrun, hwaited, hevents, hwatches⟩ := ih hw.indexed
    refine ⟨?_, hw.trans hwaited, ?_, ?_⟩
    · rw [List.forM, bind_eq_ok]
      exact ⟨(), queued s e, queueEvent_eq H e, hrun⟩
    · rw [List.foldl_cons, hevents, queued_events, masks_queued, queued_watches, kept,
        List.append_assoc]
    · rw [List.foldl_cons, hwatches, masks_queued, queued_watches, List.foldl_cons]

theorem post_forM_queueEvent (H : Indexed s.inotify s.watchHeap l) (es : List RawEvent) :
    Post (es.forM queueEvent) s (fun _ s' => s' = es.foldl queued s) fun _ _ => False := by
  rw [Post, (forM_queueEvent H es).1]

theorem foldl_queued_this (es : List RawEvent) (s : DaemonState κ) :
    (es.foldl queued s).inotify.this = s.inotify.this := by
  induction es generalizing s with
  | nil => rfl
  | cons e es ih =>
    rw [List.foldl_cons, ih, queued]
    cases tracked s.inotify.watches e <;> rfl

theorem foldl_queued_kernel (es : List RawEvent) (s : DaemonState κ) :
    (es.foldl queued s).kernel = s.kernel := by
  induction es generalizing s with
  | nil => rfl
  | cons e es ih =>
    rw [List.foldl_cons, ih, queued]
    cases tracked s.inotify.watches e <;> rfl

theorem lookup_of_trackedAfter {mask : ℕ → Mask} {watches : FinMap ℕ ℕ} {e : RawEvent} {wd p : ℕ}
    (h : (trackedAfter mask watches e).lookup wd = some p) : watches.lookup wd = some p := by
  unfold trackedAfter at h
  split at h
  · split_ifs at h
    · rw [FinMap.lookup_erase] at h
      split_ifs at h
      exact h
    · exact h
  · exact h

theorem masks_foldl_queued (es : List RawEvent) (s : DaemonState κ) :
    masks (es.foldl queued s).watchHeap = masks s.watchHeap := by
  induction es generalizing s with
  | nil => rfl
  | cons e es ih => rw [List.foldl_cons, ih, masks_queued]

theorem lookup_of_foldl_trackedAfter {mask : ℕ → Mask} {watches : FinMap ℕ ℕ}
    {es : List RawEvent} {wd p : ℕ}
    (h : (es.foldl (trackedAfter mask) watches).lookup wd = some p) :
    watches.lookup wd = some p := by
  induction es generalizing watches with
  | nil => exact h
  | cons e es ih => exact lookup_of_trackedAfter (ih h)

theorem lookup_trackedAfter_of_ne {mask : ℕ → Mask} {watches : FinMap ℕ ℕ} {e : RawEvent}
    {wd : ℕ} (h : e.wd ≠ some wd) :
    (trackedAfter mask watches e).lookup wd = watches.lookup wd := by
  unfold trackedAfter
  split
  · next wd' p hwd _ =>
    split_ifs
    · have hne : wd ≠ wd' := by
        rintro rfl
        exact h hwd
      rw [FinMap.lookup_erase, if_neg hne]
    · rfl
  · rfl

theorem lookup_foldl_trackedAfter_of_ne {mask : ℕ → Mask} {watches : FinMap ℕ ℕ}
    {es : List RawEvent} {wd : ℕ} (h : ∀ e ∈ es, e.wd ≠ some wd) :
    (es.foldl (trackedAfter mask) watches).lookup wd = watches.lookup wd := by
  induction es generalizing watches with
  | nil => rfl
  | cons e es ih =>
    rw [List.foldl_cons, ih fun e' he' => h e' (by simp [he']),
      lookup_trackedAfter_of_ne (h e (by simp))]

theorem kept_append (mask : ℕ → Mask) (watches : FinMap ℕ ℕ) (es es' : List RawEvent) :
    kept mask watches (es ++ es') =
      kept mask watches es ++ kept mask (es.foldl (trackedAfter mask) watches) es' := by
  induction es generalizing watches with
  | nil => rfl
  | cons e es ih => rw [List.cons_append, kept, kept, ih, List.foldl_cons, List.append_assoc]

/-- What a buffer may do to a watch: nothing, or it switches an indexed watch off. -/
theorem foldl_queued_cell (H : Indexed s.inotify s.watchHeap l) (es : List RawEvent) (q : ℕ) :
    (es.foldl queued s).watchHeap.cell q = s.watchHeap.cell q ∨
      q ∈ l ∧ (es.foldl queued s).watchHeap.cell q =
        { s.watchHeap.cell q with wd := none, enabled := false } := by
  induction es generalizing s with
  | nil => exact .inl rfl
  | cons e es ih =>
    have hcell := queued_cell s e q
    have hmem : tracked s.inotify.watches e = some q → q ∈ l := by
      intro h
      obtain ⟨wd, -, hlook⟩ := Option.bind_eq_some_iff.mp h
      exact ((H.watches wd q).mp hlook).1
    rw [List.foldl_cons]
    rcases ih (waited_queued H e).indexed with h | ⟨hq, h⟩
    · rw [h]
      exact hcell.imp id fun h => ⟨hmem h.1, h.2⟩
    · right
      rw [h]
      rcases hcell with h' | ⟨-, h'⟩ <;> exact ⟨hq, by rw [h']⟩

theorem mem_kept {mask : ℕ → Mask} {watches : FinMap ℕ ℕ} {es : List RawEvent} {x : InotifyEvent}
    (hx : x ∈ kept mask watches es) :
    ∃ e ∈ es, ∃ p, tracked watches e = some p ∧ x = queuedEvent e p := by
  induction es generalizing watches with
  | nil => exact absurd hx (by simp [kept])
  | cons e es ih =>
    rw [kept, List.mem_append] at hx
    rcases hx with hx | hx
    · obtain ⟨p, hp, rfl⟩ := Option.map_eq_some_iff.mp (Option.mem_toList.mp hx)
      exact ⟨e, by simp, p, hp, rfl⟩
    · obtain ⟨e', he', p, hp, rfl⟩ := ih hx
      obtain ⟨wd, hwd, hlook⟩ := Option.bind_eq_some_iff.mp hp
      exact ⟨e', by simp [he'], p,
        Option.bind_eq_some_iff.mpr ⟨wd, hwd, lookup_of_trackedAfter hlook⟩, rfl⟩

theorem post_waitForEvents_queued [System κ] {fd : ℕ} (hfd : s.inotify.fd = some fd)
    (H : Indexed s.inotify s.watchHeap l) :
    let answer := System.readEvents s.kernel fd
    Post waitForEvents s
      (fun _ s' => (∃ evts, answer.2 = .ok evts ∧
          s' = evts.foldl queued { s with kernel := answer.1 }) ∨
        answer.2 = .error ewouldblock ∧ s' = { s with kernel := answer.1 })
      fun e s' => (∃ errno, e = .inotify "reading events failed" errno) ∧
        s' = { s with kernel := answer.1 } := by
  intro answer
  unfold waitForEvents
  simp only [post_bind, post_get, hfd, post_call]
  cases hanswer : (System.readEvents s.kernel fd).2 with
  | error errno =>
    simp only [post_ite, post_pure, post_throw]
    split_ifs with herrno
    · exact .inr ⟨by rw [herrno], rfl⟩
    · exact ⟨⟨errno, rfl⟩, rfl⟩
  | ok evts =>
    exact (post_forM_queueEvent (s := { s with kernel := answer.1 }) H evts).imp_of_total
      fun _ s' hs' => .inl ⟨evts, rfl, hs'⟩

end

/-! ## Taking events -/

/-- `n` calls of `GetEvent`; `none` is the answer `false`. -/
def getEvents : ℕ → Daemon κ (List (Option InotifyEvent))
  | 0 => return []
  | n + 1 => do
    let evt ← getEvent
    return evt :: (← getEvents n)

theorem getEvent_eq (s : DaemonState κ) :
    getEvent s = .ok s.inotify.events.head?
      { s with inotify := { s.inotify with events := s.inotify.events.tail } } := by
  obtain ⟨kernel, watchHeap, entryHeap, nodeHeap, ⟨this, fd, watches, paths, events⟩, tab, map,
    maps, poll, faults⟩ := s
  cases events <;> rfl

/-- The calls give the events of the queue in order, and nothing after them. -/
theorem getEvents_eq (n : ℕ) (s : DaemonState κ) :
    getEvents n s = .ok ((List.range n).map fun i => s.inotify.events[i]?)
      { s with inotify := { s.inotify with events := s.inotify.events.drop n } } := by
  induction n generalizing s with
  | zero => rfl
  | succ n ih =>
    have hrange : (List.range (n + 1)).map (fun i => s.inotify.events[i]?) =
        s.inotify.events.head? :: (List.range n).map fun i => s.inotify.events.tail[i]? := by
      rw [List.range_succ_eq_map, List.map_cons, List.map_map]
      simp [Function.comp_def, List.head?_eq_getElem?]
    rw [getEvents, bind_eq_ok]
    refine ⟨_, _, getEvent_eq s, ?_⟩
    rw [bind_eq_ok]
    refine ⟨_, _, ih _, ?_⟩
    rw [hrange, ← List.drop_tail]
    rfl

end Incron.Daemon
