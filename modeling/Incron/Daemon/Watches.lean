import Incron.Daemon.State

/-! The operations of the `Inotify` object (inotify-cxx.cpp), and its two indexes: `m_watches`
and `m_paths` hold the same watches. -/
namespace Incron.Daemon
open Hoare

variable {κ : Type}

section Operations
variable [System κ]

def add (pWatch : ℕ) : Daemon κ Unit := do
  match (← get).inotify.fd with
  | none => throw (.inotify "invalid file descriptor" ebusy)
  | some fd =>
    let w ← watchAt pWatch
    match (← get).inotify.paths.lookup w.path with
    | some _ => throw (.inotify "path already watched" ebusy)
    | none =>
      if w.enabled then
        match ← call (System.addWatch · fd w.path w.mask) with
        | .error errno => throw (.inotify "adding watch failed" errno)
        | .ok wd =>
          match (← get).inotify.watches.lookup wd with
          | some pW =>
            let w' ← watchAt pW
            match ← call (System.addWatch · fd w'.path w'.mask) with
            | .error errno =>
              throw (.inotify "watch collision detected and recovery failed" errno)
            | .ok _ =>
              throw (.inotify "path already watched (but defined another way)" ebusy)
          | none =>
            modifyWatch pWatch fun w => { w with wd := some wd }
            modifyInotify fun i => { i with watches := i.watches.insertNew wd pWatch }
            link pWatch w.path
      else
        link pWatch w.path
where
  /-- The last two statements. -/
  link (pWatch : ℕ) (path : Str) : Daemon κ Unit := do
    modifyInotify fun i => { i with paths := i.paths.insertNew path pWatch }
    let this := (← get).inotify.this
    modifyWatch pWatch fun w => { w with pInotify := some this }

def remove (pWatch : ℕ) : Daemon κ Unit := do
  match (← get).inotify.fd with
  | none => throw (.inotify "invalid file descriptor" ebusy)
  | some fd =>
    let w ← watchAt pWatch
    match w.wd with
    | none => unlink pWatch w.path
    | some wd =>
      match ← call (inotifyRmWatch · fd wd) with
      | .error errno => throw (.inotify "removing watch failed" errno)
      | .ok () =>
        modifyInotify fun i => { i with watches := i.watches.erase wd }
        modifyWatch pWatch fun w => { w with wd := none }
        unlink pWatch w.path
where
  /-- The last two statements. -/
  unlink (pWatch : ℕ) (path : Str) : Daemon κ Unit := do
    modifyInotify fun i => { i with paths := i.paths.erase path }
    modifyWatch pWatch fun w => { w with pInotify := none }

/-- The body of the loop of `RemoveAll`; the answer of the kernel is ignored. -/
def release (fd pW : ℕ) : Daemon κ Unit := do
  match (← watchAt pW).wd with
  | none => pure ()
  | some wd =>
    let _ ← call (inotifyRmWatch · fd wd)
    modifyWatch pW fun w => { w with wd := none }
  modifyWatch pW fun w => { w with pInotify := none }

/-- The body of the loop of `RemoveAll` for any descriptor of the object; the calls for -1
only fail. -/
def forget (fd : Option ℕ) (pW : ℕ) : Daemon κ Unit :=
  match fd with
  | some fd => release fd pW
  | none => do
    let _ ← watchAt pW
    modifyWatch pW fun w => { w with wd := none }
    modifyWatch pW fun w => { w with pInotify := none }

/-- `Inotify::RemoveAll`; the watches are visited in the order of their paths. -/
def removeAll : Daemon κ Unit := do
  let i := (← get).inotify
  let paths := i.paths.entries.mergeSort fun a b => decide (¬ b.1 < a.1)
  (paths.map Sigma.snd).forM (forget i.fd)
  modifyInotify fun i => { i with watches := ∅, paths := ∅ }

/-- `Inotify::Close`, which calls `RemoveAll`; the watches are visited in the order of their
paths. -/
def close : Daemon κ Unit := do
  match (← get).inotify.fd with
  | none => pure ()
  | some fd =>
    let paths := (← get).inotify.paths.entries.mergeSort fun a b => decide (¬ b.1 < a.1)
    (paths.map Sigma.snd).forM (release fd)
    modifyInotify fun i => { i with watches := ∅, paths := ∅, fd := none }

def disable (pWatch : ℕ) : Daemon κ Unit := do
  let w ← watchAt pWatch
  if w.enabled then
    match w.pInotify, w.wd with
    | some _, some wd =>
      modifyInotify fun i => { i with watches := i.watches.erase wd }
      modifyWatch pWatch fun w => { w with wd := none, enabled := false }
    | _, _ => modifyWatch pWatch fun w => { w with enabled := false }
  else throw (.inotify "event cannot occur on disabled watch" einval)

/-- The body of the loop of `WaitForEvents`. -/
def queueEvent (pEvt : RawEvent) : Daemon κ Unit := do
  match pEvt.wd.bind (← get).inotify.watches.lookup with
  | none => pure ()
  | some pW =>
    let w ← watchAt pW
    if InotifyEvent.isType w.mask inOneshot || InotifyEvent.isType pEvt.mask inIgnored then
      disable pW
    let evt := { mask := pEvt.mask, cookie := pEvt.cookie, name := pEvt.name, watch := pW }
    modifyInotify fun i => { i with events := i.events ++ [evt] }

/-- `Inotify::WaitForEvents(true)`. -/
def waitForEvents : Daemon κ Unit := do
  match (← get).inotify.fd with
  | none => throw (.inotify "reading events failed" ebadf)
  | some fd =>
    match ← call (System.readEvents · fd) with
    | .error errno =>
      if errno = ewouldblock then pure ()
      else throw (.inotify "reading events failed" errno)
    | .ok evts => evts.forM queueEvent

/-- `Inotify::GetEvent`; `none` is the answer `false`. -/
def getEvent : Daemon κ (Option InotifyEvent) := do
  match (← get).inotify.events with
  | [] => pure none
  | e :: _ =>
    modifyInotify fun i => { i with events := i.events.tail }
    pure (some e)

end Operations

/-! ## The indexes -/

/-- The two indexes hold exactly the watches of the list. -/
structure Indexed (i : Inotify) (h : Heap InotifyWatch) (l : List ℕ) : Prop where
  live : ∀ p ∈ l, h.live p = true
  watches : FinMap.Indexes i.watches l fun p => (h.cell p).wd
  paths : FinMap.Indexes i.paths l fun p => some (h.cell p).path
  enabled : ∀ p ∈ l, (h.cell p).enabled = (h.cell p).wd.isSome
  pInotify : ∀ p ∈ l, (h.cell p).pInotify = some i.this

namespace Indexed
variable {i : Inotify} {h h' : Heap InotifyWatch} {l l' : List ℕ} {p : ℕ}

theorem of_heap (H : Indexed i h l) (hcell : ∀ p ∈ l, h'.cell p = h.cell p)
    (hlive : ∀ p ∈ l, h'.live p = true) : Indexed i h' l := by
  refine ⟨hlive, H.watches.congr fun p hp => by rw [hcell p hp],
    H.paths.congr fun p hp => by rw [hcell p hp], fun p hp => ?_, fun p hp => ?_⟩
  · rw [hcell p hp]
    exact H.enabled p hp
  · rw [hcell p hp]
    exact H.pInotify p hp

theorem of_mem_iff (H : Indexed i h l) (hl : ∀ p, p ∈ l' ↔ p ∈ l) : Indexed i h l' :=
  ⟨fun p hp => H.live p ((hl p).mp hp), H.watches.of_mem_iff hl, H.paths.of_mem_iff hl,
    fun p hp => H.enabled p ((hl p).mp hp), fun p hp => H.pInotify p ((hl p).mp hp)⟩

theorem events (H : Indexed i h l) (q : List InotifyEvent) : Indexed { i with events := q } h l :=
  ⟨H.live, H.watches, H.paths, H.enabled, H.pInotify⟩

theorem empty (hwatches : i.watches = ∅) (hpaths : i.paths = ∅) : Indexed i h [] :=
  ⟨fun p hp => absurd hp (by simp), hwatches ▸ FinMap.Indexes.empty,
    hpaths ▸ FinMap.Indexes.empty, fun p hp => absurd hp (by simp),
    fun p hp => absurd hp (by simp)⟩

end Indexed

/-! ## Add and Remove -/

section
variable {s : DaemonState κ} {p : ℕ} {l : List ℕ}

def added (s : DaemonState κ) (p wd : ℕ) (k : κ) : DaemonState κ :=
  { s with
    kernel := k
    inotify := { s.inotify with
      watches := s.inotify.watches.insertNew wd p
      paths := s.inotify.paths.insertNew (s.watchHeap.cell p).path p }
    watchHeap := s.watchHeap.set p
      { s.watchHeap.cell p with wd := some wd, pInotify := some s.inotify.this } }

theorem indexed_added (H : Indexed s.inotify s.watchHeap l) (hp : p ∉ l)
    (hlive : s.watchHeap.live p = true) (henabled : (s.watchHeap.cell p).enabled = true)
    (hpath : s.inotify.paths.lookup (s.watchHeap.cell p).path = none) {wd : ℕ}
    (hwd : s.inotify.watches.lookup wd = none) (k : κ) :
    Indexed (added s p wd k).inotify (added s p wd k).watchHeap (p :: l) := by
  have hself : (added s p wd k).watchHeap.cell p =
      { s.watchHeap.cell p with wd := some wd, pInotify := some s.inotify.this } :=
    Heap.set_cell_self _ _ _
  have hother : ∀ q ∈ l, (added s p wd k).watchHeap.cell q = s.watchHeap.cell q :=
    fun q hq => Heap.set_cell_of_ne _ (by rintro rfl; exact hp hq) _
  refine ⟨fun q hq => ?_, ?_, ?_, fun q hq => ?_, fun q hq => ?_⟩
  · rcases List.mem_cons.mp hq with rfl | hq
    · exact hlive
    · exact H.live q hq
  · exact H.watches.insertNew hp hwd (by rw [hself]) fun q hq => by rw [hother q hq]
  · exact H.paths.insertNew hp hpath (by rw [hself]) fun q hq => by rw [hother q hq]
  · rcases List.mem_cons.mp hq with rfl | hq
    · rw [hself]
      exact henabled
    · rw [hother q hq]
      exact H.enabled q hq
  · rcases List.mem_cons.mp hq with rfl | hq
    · rw [hself]
      rfl
    · rw [hother q hq]
      exact H.pInotify q hq

def removed (s : DaemonState κ) (p : ℕ) (k : κ) : DaemonState κ :=
  { s with
    kernel := k
    inotify := { s.inotify with
      watches := match (s.watchHeap.cell p).wd with
        | none => s.inotify.watches
        | some wd => s.inotify.watches.erase wd
      paths := s.inotify.paths.erase (s.watchHeap.cell p).path }
    watchHeap := s.watchHeap.set p { s.watchHeap.cell p with wd := none, pInotify := none } }

theorem indexed_removed (H : Indexed s.inotify s.watchHeap (p :: l)) (hp : p ∉ l) (k : κ) :
    Indexed (removed s p k).inotify (removed s p k).watchHeap l := by
  have hother : ∀ q ∈ l, (removed s p k).watchHeap.cell q = s.watchHeap.cell q := fun q hq =>
    Heap.set_cell_of_ne _ (by rintro rfl; exact hp hq) _
  have hmem : ∀ q, q ≠ p → (q ∈ l ↔ q ∈ p :: l) := fun q hq => by simp [hq]
  refine ⟨fun q hq => H.live q (by simp [hq]), ?_, ?_, fun q hq => ?_, fun q hq => ?_⟩
  · cases hwd : (s.watchHeap.cell p).wd with
    | none =>
      simp only [removed, hwd]
      exact (H.watches.skip hwd hmem hp).congr fun q hq => by rw [← hother q hq]; rfl
    | some wd =>
      simp only [removed, hwd]
      exact H.watches.erase (by simp) hwd hmem (fun q hq _ => by rw [← hother q hq]; rfl)
        (Or.inl hp)
  · exact H.paths.erase (by simp) rfl hmem (fun q hq _ => by rw [hother q hq]) (Or.inl hp)
  · rw [hother q hq]
    exact H.enabled q (by simp [hq])
  · rw [hother q hq]
    exact H.pInotify q (by simp [hq])

end

section
variable [System κ]

/-- The kernel has the watch, if it is an active one. -/
def KernelHas (k : κ) (fd : ℕ) : Option ℕ → Prop
  | none => True
  | some wd => System.hasWatch k fd wd = true

def kernelRm (k : κ) (fd : ℕ) : Option ℕ → κ
  | none => k
  | some wd => System.rmWatch k fd wd

variable {s : DaemonState κ} {fd p : ℕ} {l : List ℕ}

/-- What `Add` makes of an enabled watch: both indexes get it, if its path is free and the
kernel gives a descriptor that is not tracked; else it throws and only the kernel has
changed. -/
theorem post_add_cases (hfd : s.inotify.fd = some fd) (H : Indexed s.inotify s.watchHeap l)
    (hlive : s.watchHeap.live p = true) (henabled : (s.watchHeap.cell p).enabled = true) :
    let w := s.watchHeap.cell p
    let answer := System.addWatch s.kernel fd w.path w.mask
    Post (add p) s
      (fun _ s' => s.inotify.paths.lookup w.path = none ∧ ∃ wd, answer.2 = .ok wd ∧
        s.inotify.watches.lookup wd = none ∧ s' = added s p wd answer.1)
      (fun e s' => (∃ msg errno, e = .inotify msg errno) ∧
        ((∃ q, s.inotify.paths.lookup w.path = some q ∧ s' = s) ∨
          (s.inotify.paths.lookup w.path = none ∧ ∃ errno, answer.2 = .error errno ∧
            s' = { s with kernel := answer.1 }) ∨
          (s.inotify.paths.lookup w.path = none ∧ ∃ wd q, answer.2 = .ok wd ∧
            s.inotify.watches.lookup wd = some q ∧
            s' = { s with kernel := (System.addWatch answer.1 fd (s.watchHeap.cell q).path
              (s.watchHeap.cell q).mask).1 }))) := by
  intro w answer
  unfold add
  simp only [post_bind, post_get, hfd, post_watchAt, hlive, touch_live]
  cases hpath : s.inotify.paths.lookup (s.watchHeap.cell p).path with
  | some q => exact ⟨⟨_, _, rfl⟩, .inl ⟨q, rfl, rfl⟩⟩
  | none =>
    simp only [henabled, if_true, post_bind, post_call]
    cases hadd : (System.addWatch s.kernel fd (s.watchHeap.cell p).path
      (s.watchHeap.cell p).mask).2 with
    | error errno => exact ⟨⟨_, _, rfl⟩, .inr (.inl ⟨trivial, errno, rfl, rfl⟩)⟩
    | ok wd =>
      simp only [post_bind, post_get]
      cases hwd : s.inotify.watches.lookup wd with
      | some q =>
        have hq := H.live q ((H.watches wd q).mp hwd).1
        simp only [post_bind, post_watchAt, hq, touch_live, post_call]
        split
        · exact ⟨⟨_, _, rfl⟩, .inr (.inr ⟨trivial, wd, q, rfl, hwd, rfl⟩)⟩
        · exact ⟨⟨_, _, rfl⟩, .inr (.inr ⟨trivial, wd, q, rfl, hwd, rfl⟩)⟩
      | none =>
        simp only [add.link, post_bind, post_modifyWatch, post_modifyInotify, post_get]
        simp only [Heap.set_set, Heap.set_cell_self]
        exact ⟨trivial, wd, rfl, hwd, rfl⟩

/-- `Add` of a new watch: both indexes get it, or it throws and only the kernel has
changed. -/
theorem post_add (hfd : s.inotify.fd = some fd) (H : Indexed s.inotify s.watchHeap l)
    (hp : p ∉ l) (hlive : s.watchHeap.live p = true)
    (henabled : (s.watchHeap.cell p).enabled = true) :
    Post (add p) s
      (fun _ s' => ∃ wd k, s' = added s p wd k ∧ Indexed s'.inotify s'.watchHeap (p :: l))
      (fun e s' => ∃ msg errno k, e = .inotify msg errno ∧ s' = { s with kernel := k }) := by
  refine (post_add_cases hfd H hlive henabled).mono (fun _ s' h => ?_) fun e s' h => ?_
  · obtain ⟨hpath, wd, -, hwd, rfl⟩ := h
    exact ⟨wd, _, rfl, indexed_added H hp hlive henabled hpath hwd _⟩
  · obtain ⟨⟨msg, errno, rfl⟩, ⟨-, -, rfl⟩ | ⟨-, -, -, rfl⟩ | ⟨-, -, -, -, -, rfl⟩⟩ := h
    · exact ⟨msg, errno, s'.kernel, rfl, rfl⟩
    · exact ⟨msg, errno, _, rfl, rfl⟩
    · exact ⟨msg, errno, _, rfl, rfl⟩

/-- `Remove` of an indexed watch: it throws exactly when the kernel does not have the watch
any more. -/
theorem post_remove (hfd : s.inotify.fd = some fd) (H : Indexed s.inotify s.watchHeap (p :: l)) :
    Post (remove p) s
      (fun _ s' => KernelHas s.kernel fd (s.watchHeap.cell p).wd ∧
        s' = removed s p (kernelRm s.kernel fd (s.watchHeap.cell p).wd))
      (fun e s' => ¬ KernelHas s.kernel fd (s.watchHeap.cell p).wd ∧
        e = .inotify "removing watch failed" einval ∧ ∃ k, s' = { s with kernel := k }) := by
  unfold remove
  have hlive := H.live p (by simp)
  simp only [post_bind, post_get, hfd, post_watchAt, hlive, touch_live]
  cases hwd : (s.watchHeap.cell p).wd with
  | none =>
    simp only [remove.unlink, post_bind, post_modifyInotify, post_modifyWatch]
    refine ⟨trivial, ?_⟩
    simp only [removed, kernelRm, hwd]
  | some wd =>
    simp only [post_bind, post_call, inotifyRmWatch]
    cases hhas : System.hasWatch s.kernel fd wd with
    | false => exact ⟨by simp [KernelHas, hhas], rfl, _, rfl⟩
    | true =>
      simp only [if_true, remove.unlink, post_bind, post_modifyInotify, post_modifyWatch,
        Heap.set_set, Heap.set_cell_self]
      refine ⟨hhas, ?_⟩
      simp only [removed, kernelRm, hwd]

end

/-! ## Reading events -/

/-- What `WaitForEvents` may change: it may switch watches off, and it queues events of
indexed watches. -/
structure Waited (l : List ℕ) (s s' : DaemonState κ) : Prop where
  frame : s' = { s with
    kernel := s'.kernel, inotify := s'.inotify, watchHeap := s'.watchHeap }
  fd : s'.inotify.fd = s.inotify.fd
  indexed : Indexed s'.inotify s'.watchHeap l
  events : ∃ q, s'.inotify.events = s.inotify.events ++ q ∧ ∀ e ∈ q, e.watch ∈ l
  live : s'.watchHeap.live = s.watchHeap.live
  next : s'.watchHeap.next = s.watchHeap.next
  freed : s'.watchHeap.freed = s.watchHeap.freed
  path : ∀ p, (s'.watchHeap.cell p).path = (s.watchHeap.cell p).path

namespace Waited
variable {l : List ℕ} {s s' s'' : DaemonState κ}

theorem map (h : Waited l s s') : s'.map = s.map := by rw [h.frame]

theorem tab (h : Waited l s s') : s'.tab = s.tab := by rw [h.frame]

theorem entryHeap (h : Waited l s s') : s'.entryHeap = s.entryHeap := by rw [h.frame]

theorem nodeHeap (h : Waited l s s') : s'.nodeHeap = s.nodeHeap := by rw [h.frame]

theorem maps (h : Waited l s s') : s'.maps = s.maps := by rw [h.frame]

theorem faults (h : Waited l s s') : s'.faults = s.faults := by rw [h.frame]

theorem refl (H : Indexed s.inotify s.watchHeap l) : Waited l s s :=
  ⟨rfl, rfl, H, ⟨[], by simp⟩, rfl, rfl, rfl, fun _ => rfl⟩

theorem trans (h : Waited l s s') (h' : Waited l s' s'') : Waited l s s'' := by
  obtain ⟨q, hq, hmem⟩ := h.events
  obtain ⟨q', hq', hmem'⟩ := h'.events
  refine ⟨?_, h'.fd.trans h.fd, h'.indexed, ⟨q ++ q', ?_, ?_⟩, h'.live.trans h.live,
    h'.next.trans h.next, h'.freed.trans h.freed, fun p => (h'.path p).trans (h.path p)⟩
  · rw [h'.frame, h.frame]
  · rw [hq', hq, List.append_assoc]
  · intro e he
    exact (List.mem_append.mp he).elim (hmem e) (hmem' e)

theorem push (h : Waited l s s') {e : InotifyEvent} (he : e.watch ∈ l) :
    Waited l s { s' with
      inotify := { s'.inotify with events := s'.inotify.events ++ [e] } } := by
  obtain ⟨q, hq, hmem⟩ := h.events
  refine ⟨?_, h.fd, h.indexed.events _, ⟨q ++ [e], ?_, ?_⟩, h.live, h.next, h.freed, h.path⟩
  · rw [h.frame]
  · rw [hq, List.append_assoc]
  · intro e' he'
    rcases List.mem_append.mp he' with he' | he'
    · exact hmem e' he'
    · rwa [List.mem_singleton.mp he']

end Waited

section
variable {s : DaemonState κ} {p : ℕ} {l : List ℕ}

theorem post_disable (H : Indexed s.inotify s.watchHeap l) {wd : ℕ}
    (hwd : s.inotify.watches.lookup wd = some p) :
    Post (disable p) s (fun _ s' => Waited l s s')
      fun _ _ => False := by
  obtain ⟨hp, hpwd⟩ := (H.watches wd p).mp hwd
  change (s.watchHeap.cell p).wd = some wd at hpwd
  have henabled : (s.watchHeap.cell p).enabled = true := by
    rw [H.enabled p hp, hpwd]
    rfl
  unfold disable
  simp only [post_bind, post_watchAt, H.live p hp, touch_live, henabled, if_true,
    H.pInotify p hp, hpwd, post_modifyInotify, post_modifyWatch]
  refine ⟨rfl, rfl, ?_, ⟨[], by simp⟩, rfl, rfl, rfl, fun q => ?_⟩
  · refine ⟨fun q hq => H.live q hq, ?_, ?_, fun q hq => ?_, fun q hq => ?_⟩
    · refine H.watches.erase hp hpwd (fun _ _ => Iff.rfl) (fun q _ hq => ?_) (Or.inr ?_)
      · simp only [Heap.set_cell_of_ne _ hq]
      · simp only [Heap.set_cell_self]
    · refine H.paths.congr fun q _ => ?_
      by_cases hq : q = p <;> simp [Heap.set_cell, hq]
    · by_cases hqp : q = p
      · simp [hqp]
      · simp only [Heap.set_cell_of_ne _ hqp]
        exact H.enabled q hq
    · by_cases hqp : q = p
      · simp [hqp]
      · simp only [Heap.set_cell_of_ne _ hqp]
        exact H.pInotify q hq
  · by_cases hq : q = p <;> simp [Heap.set_cell, hq]

theorem post_queueEvent (H : Indexed s.inotify s.watchHeap l) (pEvt : RawEvent) :
    Post (queueEvent pEvt) s (fun _ s' => Waited l s s') fun _ _ => False := by
  unfold queueEvent
  simp only [post_bind, post_get]
  cases hfind : pEvt.wd.bind s.inotify.watches.lookup with
  | none => exact Waited.refl H
  | some p =>
    obtain ⟨wd, -, hwd⟩ := Option.bind_eq_some_iff.mp hfind
    have hp := ((H.watches wd p).mp hwd).1
    simp only [post_bind, post_watchAt, H.live p hp, touch_live, post_ite, post_modifyInotify]
    split_ifs
    · exact (post_disable H hwd).imp fun _ _ h => h.push hp
    · exact (Waited.refl H).push hp

end

section
variable [System κ] {s : DaemonState κ} {fd : ℕ} {l : List ℕ}

/-- `WaitForEvents` changes the indexed watches as they allow it; it throws only when the
descriptor cannot be read. -/
theorem post_waitForEvents (hfd : s.inotify.fd = some fd)
    (H : Indexed s.inotify s.watchHeap l) :
    Post waitForEvents s (fun _ s' => Waited l s s')
      fun e s' => ∃ msg errno k, e = .inotify msg errno ∧ s' = { s with kernel := k } := by
  unfold waitForEvents
  simp only [post_bind, post_get, hfd, post_call]
  generalize (System.readEvents s.kernel fd).1 = k
  have hk : Waited l s { s with kernel := k } :=
    ⟨rfl, rfl, H, ⟨[], by simp⟩, rfl, rfl, rfl, fun _ => rfl⟩
  cases (System.readEvents s.kernel fd).2 with
  | error errno =>
    simp only [post_ite, post_pure, post_throw]
    split_ifs
    · exact hk
    · exact ⟨_, _, k, rfl, rfl⟩
  | ok evts =>
    refine Post.forM_invariant (fun evt _ s' h => ?_) hk
    exact (post_queueEvent h.indexed evt).imp_of_total fun _ _ h' => h.trans h'

end

end Incron.Daemon
