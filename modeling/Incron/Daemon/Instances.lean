import Incron.Daemon.Queue
import Incron.Daemon.Runs

/-! Several `Inotify` objects over one set of watches: after any operations the two indexes of
each object describe the same watches, and `__Disable` never throws. -/
namespace Incron.Daemon
open Hoare

variable {κ : Type}

/-- The objects by their addresses, the watches and the kernel. -/
structure Instances (κ : Type) where
  kernel : κ
  watchHeap : Heap InotifyWatch
  inotify : ℕ → Inotify

namespace Instances

def state (w : Instances κ) (a : ℕ) : DaemonState κ where
  kernel := w.kernel
  watchHeap := w.watchHeap
  entryHeap := default
  nodeHeap := default
  inotify := w.inotify a
  tab := []
  map := ∅
  maps := ∅
  faults := []

/-- The objects after an operation of `a`, also when it has thrown. -/
def exec {α : Type} (a : ℕ) (x : Daemon κ α) (w : Instances κ) : Instances κ :=
  match x (w.state a) with
  | .ok _ s | .error _ s => ⟨s.kernel, s.watchHeap, Function.update w.inotify a s.inotify⟩

end Instances

/-- The operations; `world` is what other processes do to the kernel. -/
inductive Operation (κ : Type) where
  | world (k : κ)
  | newWatch (path : Str) (mask : Mask) (enabled : Bool)
  | add (a p : ℕ)
  | remove (a p : ℕ)
  | removeAll (a : ℕ)
  | close (a : ℕ)
  | waitForEvents (a : ℕ)
  | getEvent (a : ℕ)

/-- `Add` is called for watches of no object, `Remove` for watches of the object. -/
def operate [System κ] (w : Instances κ) : Operation κ → Option (Instances κ)
  | .world k => some { w with kernel := k }
  | .newWatch path mask enabled => some { w with
      watchHeap := w.watchHeap.alloc { path := path, mask := mask, enabled := enabled } }
  | .add a p =>
    if w.watchHeap.live p ∧ (w.watchHeap.cell p).pInotify = none then
      some (w.exec a (Daemon.add p))
    else none
  | .remove a p =>
    if (w.watchHeap.cell p).pInotify = some a then some (w.exec a (Daemon.remove p)) else none
  | .removeAll a => some (w.exec a Daemon.removeAll)
  | .close a => some (w.exec a Daemon.close)
  | .waitForEvents a => some (w.exec a Daemon.waitForEvents)
  | .getEvent a => some (w.exec a Daemon.getEvent)

structure Constructed (w : Instances κ) : Prop where
  this : ∀ a, (w.inotify a).this = a
  watches : ∀ a, (w.inotify a).watches = ∅
  paths : ∀ a, (w.inotify a).paths = ∅
  watchHeap : w.watchHeap = default

/-- `m_watches` and `m_paths` describe the same watches. The keys of `m_watches` are never -1,
which is `none` as a descriptor of a watch. -/
structure InStep (i : Inotify) (h : Heap InotifyWatch) : Prop where
  watches : ∀ d p, i.watches.lookup d = some p → (h.cell p).wd = some d ∧
    (h.cell p).enabled = true ∧ i.paths.lookup (h.cell p).path = some p
  paths : ∀ path p, i.paths.lookup path = some p → (h.cell p).path = path ∧
    (h.cell p).pInotify = some i.this ∧ ((h.cell p).wd ≠ none ↔ (h.cell p).enabled = true) ∧
    ∀ d, (h.cell p).wd = some d → i.watches.lookup d = some p

theorem Indexed.inStep {i : Inotify} {h : Heap InotifyWatch} {l : List ℕ} (H : Indexed i h l) :
    InStep i h := by
  constructor
  · intro d p hlook
    obtain ⟨hp, hwd⟩ := (H.watches d p).mp hlook
    change (h.cell p).wd = some d at hwd
    have henabled := H.enabled p hp
    rw [hwd] at henabled
    exact ⟨hwd, henabled, (H.paths _ p).mpr ⟨hp, rfl⟩⟩
  · intro path p hlook
    obtain ⟨hp, hpath⟩ := (H.paths path p).mp hlook
    refine ⟨Option.some.inj hpath, H.pInotify p hp, ?_, fun d hd => (H.watches d p).mpr ⟨hp, hd⟩⟩
    rw [H.enabled p hp, Option.isSome_iff_ne_none]

/-! ## The invariant -/

/-- The watches that belong to the object `a` or to none. -/
def Free (a : ℕ) (w : InotifyWatch) : Prop := w.pInotify = none ∨ w.pInotify = some a

structure Consistent (w : Instances κ) : Prop where
  this : ∀ a, (w.inotify a).this = a
  indexed : ∀ a, ∃ l, Indexed (w.inotify a) w.watchHeap l ∧
    ∀ p, p ∈ l ↔ (w.watchHeap.cell p).pInotify = some a
  /-- A watch of no object has no descriptor. -/
  idle : ∀ p, (w.watchHeap.cell p).pInotify = none → (w.watchHeap.cell p).wd = none
  watchHeap : w.watchHeap.Valid

/-- What an operation of the object `a` has made of its state. -/
structure Operated (a : ℕ) (s s' : DaemonState κ) : Prop where
  this : s'.inotify.this = a
  indexed : ∃ l, Indexed s'.inotify s'.watchHeap l ∧
    ∀ p, p ∈ l ↔ (s'.watchHeap.cell p).pInotify = some a
  cell : ∀ p, s'.watchHeap.cell p = s.watchHeap.cell p ∨
    Free a (s.watchHeap.cell p) ∧ Free a (s'.watchHeap.cell p) ∧
      ((s'.watchHeap.cell p).pInotify = none → (s'.watchHeap.cell p).wd = none)
  live : s'.watchHeap.live = s.watchHeap.live
  next : s'.watchHeap.next = s.watchHeap.next
  freed : s'.watchHeap.freed = s.watchHeap.freed

namespace Operated
variable {a p : ℕ} {s s' : DaemonState κ} {l : List ℕ}

/-- Nothing but the kernel, the queue and the faults has changed. -/
theorem of_same (hthis : s.inotify.this = a) (H : Indexed s.inotify s.watchHeap l)
    (hl : ∀ p, p ∈ l ↔ (s.watchHeap.cell p).pInotify = some a)
    (hi : s'.inotify = { s.inotify with events := s'.inotify.events })
    (hh : s'.watchHeap = s.watchHeap) : Operated a s s' := by
  refine ⟨by rw [hi]; exact hthis, ⟨l, ?_, ?_⟩, fun p => .inl (by rw [hh]), by rw [hh],
    by rw [hh], by rw [hh]⟩
  · rw [hi, hh]
    exact H.events _
  · rw [hh]
    exact hl

end Operated

section
variable {a p : ℕ} {s : DaemonState κ} {l : List ℕ}

/-- A watch without a descriptor gets into the index of the paths only. -/
def linked (s : DaemonState κ) (p : ℕ) : DaemonState κ :=
  { s with
    inotify := { s.inotify with
      paths := s.inotify.paths.insertNew (s.watchHeap.cell p).path p }
    watchHeap := s.watchHeap.set p
      { s.watchHeap.cell p with pInotify := some s.inotify.this } }

private theorem indexed_linked (H : Indexed s.inotify s.watchHeap l) (hp : p ∉ l)
    (hlive : s.watchHeap.live p = true) (henabled : (s.watchHeap.cell p).enabled = false)
    (hwd : (s.watchHeap.cell p).wd = none)
    (hpath : s.inotify.paths.lookup (s.watchHeap.cell p).path = none) :
    Indexed (linked s p).inotify (linked s p).watchHeap (p :: l) := by
  have hself : (linked s p).watchHeap.cell p =
      { s.watchHeap.cell p with pInotify := some s.inotify.this } := Heap.set_cell_self _ _ _
  have hother : ∀ q ∈ l, (linked s p).watchHeap.cell q = s.watchHeap.cell q :=
    fun q hq => Heap.set_cell_of_ne _ (by rintro rfl; exact hp hq) _
  constructor
  · intro q hq
    rcases List.mem_cons.mp hq with rfl | hq
    · exact hlive
    · exact H.live q hq
  · exact H.watches.unkeyed (by rw [hself]; exact hwd) fun q hq => by rw [hother q hq]
  · exact H.paths.insertNew hp hpath (by rw [hself]) fun q hq => by rw [hother q hq]
  · intro q hq
    rcases List.mem_cons.mp hq with rfl | hq
    · rw [hself]
      simp [henabled, hwd]
    · rw [hother q hq]
      exact H.enabled q hq
  · intro q hq
    rcases List.mem_cons.mp hq with rfl | hq
    · rw [hself]
      rfl
    · rw [hother q hq]
      exact H.pInotify q hq

private theorem operated_set {s' : DaemonState κ} (hthis : s.inotify.this = a)
    (hl : ∀ q, q ∈ l ↔ (s.watchHeap.cell q).pInotify = some a)
    (hnone : (s.watchHeap.cell p).pInotify = none) (wd : Option ℕ)
    (hi : s'.inotify.this = s.inotify.this)
    (hh : s'.watchHeap = s.watchHeap.set p
      { s.watchHeap.cell p with wd := wd, pInotify := some s.inotify.this })
    (H : Indexed s'.inotify s'.watchHeap (p :: l)) : Operated a s s' := by
  have hself : s'.watchHeap.cell p =
      { s.watchHeap.cell p with wd := wd, pInotify := some s.inotify.this } := by
    rw [hh, Heap.set_cell_self]
  have hother : ∀ q, q ≠ p → s'.watchHeap.cell q = s.watchHeap.cell q := by
    intro q hq
    rw [hh, Heap.set_cell_of_ne _ hq]
  refine ⟨hi.trans hthis, ⟨p :: l, H, ?_⟩, ?_, by rw [hh]; rfl, by rw [hh]; rfl,
    by rw [hh]; rfl⟩
  · intro q
    by_cases hq : q = p
    · subst hq
      simp [hself, hthis]
    · rw [List.mem_cons, or_iff_right hq, hl, hother q hq]
  · intro q
    by_cases hq : q = p
    · subst hq
      right
      simp [Free, hself, hnone, hthis]
    · exact .inl (hother q hq)

variable [System κ]

theorem operated_add (hthis : s.inotify.this = a) (H : Indexed s.inotify s.watchHeap l)
    (hl : ∀ q, q ∈ l ↔ (s.watchHeap.cell q).pInotify = some a)
    (hlive : s.watchHeap.live p = true) (hnone : (s.watchHeap.cell p).pInotify = none)
    (hwd : (s.watchHeap.cell p).wd = none) :
    Post (add p) s (fun _ => Operated a s) fun _ => Operated a s := by
  have hp : p ∉ l := by
    rw [hl, hnone]
    simp
  have hsame : ∀ k, Operated a s { s with kernel := k } := fun k =>
    Operated.of_same hthis H hl rfl rfl
  cases hfd : s.inotify.fd with
  | none =>
    unfold add
    simp only [post_bind, post_get, hfd, post_throw]
    exact hsame s.kernel
  | some fd =>
    cases henabled : (s.watchHeap.cell p).enabled with
    | true =>
      refine (post_add hfd H hp hlive henabled).mono (fun _ s' h => ?_) fun e s' h => ?_
      · obtain ⟨wd, k, rfl, hindexed⟩ := h
        exact operated_set hthis hl hnone (some wd) rfl rfl hindexed
      · obtain ⟨_, _, k, -, rfl⟩ := h
        exact hsame k
    | false =>
      unfold add
      simp only [post_bind, post_get, hfd, post_watchAt, hlive, touch_live]
      cases hpath : s.inotify.paths.lookup (s.watchHeap.cell p).path with
      | some q => exact hsame s.kernel
      | none =>
        have hoff : ¬ (s.watchHeap.cell p).enabled = true := by simp [henabled]
        simp only [if_neg hoff, add.link, post_bind, post_modifyInotify, post_get,
          post_modifyWatch]
        have hindexed := indexed_linked H hp hlive henabled hwd hpath
        have hlinked : Operated a s (linked s p) :=
          operated_set hthis hl hnone (s.watchHeap.cell p).wd rfl rfl hindexed
        exact hlinked

theorem operated_remove (hthis : s.inotify.this = a) (H : Indexed s.inotify s.watchHeap l)
    (hl : ∀ q, q ∈ l ↔ (s.watchHeap.cell q).pInotify = some a)
    (hp : (s.watchHeap.cell p).pInotify = some a) :
    Post (remove p) s (fun _ => Operated a s) fun _ => Operated a s := by
  have hsame : ∀ k, Operated a s { s with kernel := k } := fun k =>
    Operated.of_same hthis H hl rfl rfl
  cases hfd : s.inotify.fd with
  | none =>
    unfold remove
    simp only [post_bind, post_get, hfd, post_throw]
    exact hsame s.kernel
  | some fd =>
    have hmem : ∀ q, q ∈ p :: l.filter (· ≠ p) ↔ q ∈ l := by
      intro q
      by_cases hq : q = p
      · subst hq
        simp [(hl q).mpr hp]
      · simp [hq]
    have hnot : p ∉ l.filter (· ≠ p) := by simp
    have H' := H.of_mem_iff hmem
    refine (post_remove hfd H').mono (fun _ s' h => ?_) fun e s' h => ?_
    · obtain ⟨-, rfl⟩ := h
      have hother : ∀ q, q ≠ p → ∀ k, (removed s p k).watchHeap.cell q = s.watchHeap.cell q :=
        fun q hq k => Heap.set_cell_of_ne _ hq _
      refine ⟨hthis, ⟨l.filter (· ≠ p), indexed_removed H' hnot _, ?_⟩, ?_, rfl, rfl, rfl⟩
      · intro q
        by_cases hq : q = p
        · subst hq
          simp [removed]
        · rw [hother q hq, ← hl]
          simp [hq]
      · intro q
        by_cases hq : q = p
        · subst hq
          right
          simp [Free, removed, hp]
        · exact .inl (hother q hq _)
    · obtain ⟨-, -, k, rfl⟩ := h
      exact hsame k

/-! ### RemoveAll and Close -/

structure Released (l : List ℕ) (s s' : DaemonState κ) : Prop where
  inotify : s'.inotify = s.inotify
  cell : ∀ p, s'.watchHeap.cell p =
    if p ∈ l then { s.watchHeap.cell p with wd := none, pInotify := none } else s.watchHeap.cell p
  live : s'.watchHeap.live = s.watchHeap.live
  next : s'.watchHeap.next = s.watchHeap.next
  freed : s'.watchHeap.freed = s.watchHeap.freed

omit [System κ] in
theorem Released.cons {s₁ s₂ : DaemonState κ} (h : Released [p] s s₁) (h' : Released l s₁ s₂) :
    Released (p :: l) s s₂ := by
  refine ⟨h'.inotify.trans h.inotify, fun q => ?_, h'.live.trans h.live, h'.next.trans h.next,
    h'.freed.trans h.freed⟩
  rw [h'.cell, h.cell]
  by_cases hq : q = p
  · subst hq
    by_cases hl : q ∈ l <;> simp [hl]
  · simp [hq]

private theorem post_forget (fd : Option ℕ) (p : ℕ) :
    Post (forget fd p) s (fun _ s' => Released [p] s s') fun _ _ => False := by
  have hcell : ∀ w, w = { s.watchHeap.cell p with wd := none, pInotify := none } →
      ∀ q, (s.watchHeap.set p w).cell q = if q ∈ [p] then
        { s.watchHeap.cell q with wd := none, pInotify := none } else s.watchHeap.cell q := by
    rintro w rfl q
    by_cases hq : q = p
    · simp [hq]
    · simp [Heap.set_cell, hq]
  unfold forget
  cases fd with
  | none =>
    simp only [post_bind, post_watchAt, post_modifyWatch]
    refine ⟨rfl, ?_, rfl, rfl, rfl⟩
    simp only [touch, Heap.set_set, Heap.set_cell_self]
    exact hcell _ rfl
  | some fd =>
    unfold release
    simp only [post_bind, post_watchAt]
    cases hwd : (s.watchHeap.cell p).wd with
    | none =>
      simp only [post_modifyWatch]
      refine ⟨rfl, ?_, rfl, rfl, rfl⟩
      exact hcell _ (by simp only [touch, hwd])
    | some wd =>
      simp only [post_bind, post_call, post_modifyWatch]
      refine ⟨rfl, ?_, rfl, rfl, rfl⟩
      simp only [touch, Heap.set_set, Heap.set_cell_self]
      exact hcell _ rfl

private theorem post_forgetAll (fd : Option ℕ) (l : List ℕ) :
    Post (l.forM (forget fd)) s (fun _ s' => Released l s s') fun _ _ => False := by
  induction l generalizing s with
  | nil => exact ⟨rfl, fun p => by simp, rfl, rfl, rfl⟩
  | cons p l ih =>
    rw [List.forM, post_bind]
    exact (post_forget fd p).imp fun _ _ h => ih.imp fun _ _ h' => h.cons h'

omit [System κ] in
/-- The watches of the index, as the loop of `RemoveAll` visits them. -/
private theorem mem_paths_iff (H : Indexed s.inotify s.watchHeap l)
    (le : (Σ _ : Str, ℕ) → (Σ _ : Str, ℕ) → Bool) :
    p ∈ (s.inotify.paths.entries.mergeSort le).map Sigma.snd ↔ p ∈ l := by
  rw [List.mem_map]
  constructor
  · rintro ⟨⟨path, q⟩, he, rfl⟩
    rw [List.mem_mergeSort] at he
    exact ((H.paths path q).mp (AList.mem_lookup_iff.mpr he)).1
  · intro hp
    refine ⟨⟨(s.watchHeap.cell p).path, p⟩, ?_, rfl⟩
    rw [List.mem_mergeSort]
    exact AList.mem_lookup_iff.mp ((H.paths _ p).mpr ⟨hp, rfl⟩)

omit [System κ] in
private theorem Released.operated {l' : List ℕ} {s₁ s' : DaemonState κ} (h : Released l' s s₁)
    (hthis : s.inotify.this = a) (hl : ∀ q, q ∈ l' ↔ (s.watchHeap.cell q).pInotify = some a)
    (hi : s'.inotify.this = s₁.inotify.this) (hwatches : s'.inotify.watches = ∅)
    (hpaths : s'.inotify.paths = ∅) (hh : s'.watchHeap = s₁.watchHeap) : Operated a s s' := by
  refine ⟨by rw [hi, h.inotify, hthis], ⟨[], Indexed.empty hwatches hpaths, ?_⟩, ?_,
    by rw [hh, h.live], by rw [hh, h.next], by rw [hh, h.freed]⟩
  · intro q
    rw [hh, h.cell]
    by_cases hq : q ∈ l'
    · simp [hq]
    · rw [if_neg hq, ← hl]
      simp [hq]
  · intro q
    rw [hh, h.cell]
    by_cases hq : q ∈ l'
    · right
      rw [if_pos hq]
      exact ⟨.inr ((hl q).mp hq), .inl rfl, fun _ => rfl⟩
    · exact .inl (if_neg hq)

theorem operated_removeAll (hthis : s.inotify.this = a) (H : Indexed s.inotify s.watchHeap l)
    (hl : ∀ q, q ∈ l ↔ (s.watchHeap.cell q).pInotify = some a) :
    Post removeAll s (fun _ => Operated a s) fun _ => Operated a s := by
  unfold removeAll
  simp only [post_bind, post_get, post_modifyInotify]
  refine (post_forgetAll s.inotify.fd _).imp_of_total fun _ s₁ h => ?_
  exact h.operated hthis (fun q => (mem_paths_iff H _).trans (hl q)) rfl rfl rfl rfl

theorem operated_close (hthis : s.inotify.this = a) (H : Indexed s.inotify s.watchHeap l)
    (hl : ∀ q, q ∈ l ↔ (s.watchHeap.cell q).pInotify = some a) :
    Post close s (fun _ => Operated a s) fun _ => Operated a s := by
  unfold close
  simp only [post_bind, post_get]
  cases hfd : s.inotify.fd with
  | none => exact Operated.of_same hthis H hl rfl rfl
  | some fd =>
    simp only [post_bind, post_get, post_modifyInotify]
    refine (post_forgetAll (some fd) _).imp_of_total fun _ s₁ h => ?_
    exact h.operated hthis (fun q => (mem_paths_iff H _).trans (hl q)) rfl rfl rfl rfl

/-! ### Events -/

omit [System κ] in
private theorem operated_queued (hthis : s.inotify.this = a)
    (H : Indexed s.inotify s.watchHeap l)
    (hl : ∀ q, q ∈ l ↔ (s.watchHeap.cell q).pInotify = some a) (evts : List RawEvent) :
    Operated a s (evts.foldl queued s) := by
  have hw := (forM_queueEvent H evts).2.1
  have hcell := foldl_queued_cell H evts
  have hpInotify : ∀ q, ((evts.foldl queued s).watchHeap.cell q).pInotify =
      (s.watchHeap.cell q).pInotify := by
    intro q
    rcases hcell q with h | ⟨-, h⟩ <;> rw [h]
  refine ⟨(foldl_queued_this evts s).trans hthis, ⟨l, hw.indexed, fun q => by rw [hpInotify, hl]⟩,
    fun q => ?_, hw.live, hw.next, hw.freed⟩
  rcases hcell q with h | ⟨hq, h⟩
  · exact .inl h
  · right
    rw [Free, Free, hpInotify, h]
    exact ⟨.inr ((hl q).mp hq), .inr ((hl q).mp hq), fun _ => rfl⟩

/-- The loop over the buffer does not throw: `__Disable` meets enabled watches only. -/
theorem operated_waitForEvents (hthis : s.inotify.this = a)
    (H : Indexed s.inotify s.watchHeap l)
    (hl : ∀ q, q ∈ l ↔ (s.watchHeap.cell q).pInotify = some a) :
    Post waitForEvents s (fun _ => Operated a s) fun e s' => Operated a s s' ∧
      ∃ errno, e = .inotify "reading events failed" errno := by
  cases hfd : s.inotify.fd with
  | none =>
    unfold waitForEvents
    simp only [post_bind, post_get, hfd, post_throw]
    exact ⟨Operated.of_same hthis H hl rfl rfl, _, rfl⟩
  | some fd =>
    refine (post_waitForEvents_queued hfd H).mono (fun _ s' hs' => ?_) fun e s' hs' => ?_
    · rcases hs' with ⟨evts, -, rfl⟩ | ⟨-, rfl⟩
      · -- only the kernel has changed before the loop
        have h := operated_queued (s := { s with kernel := (System.readEvents s.kernel fd).1 })
          hthis H hl evts
        exact ⟨h.this, h.indexed, h.cell, h.live, h.next, h.freed⟩
      · exact Operated.of_same hthis H hl rfl rfl
    · obtain ⟨herr, rfl⟩ := hs'
      exact ⟨Operated.of_same hthis H hl rfl rfl, herr⟩

end

/-! ## Runs -/

section
variable {w w' : Instances κ}

theorem Constructed.consistent (h : Constructed w) : Consistent w := by
  refine ⟨h.this, fun a => ⟨[], Indexed.empty (h.watches a) (h.paths a), fun p => ?_⟩,
    fun p _ => ?_, ?_⟩
  · have hnone : ((default : Heap InotifyWatch).cell p).pInotify = none := rfl
    simp [h.watchHeap, hnone]
  · rw [h.watchHeap]
    rfl
  · rw [h.watchHeap]
    exact Heap.Valid.default

theorem Consistent.put (h : Consistent w) {a : ℕ} {s : DaemonState κ}
    (hs : Operated a (w.state a) s) :
    Consistent ⟨s.kernel, s.watchHeap, Function.update w.inotify a s.inotify⟩ := by
  refine ⟨fun b => ?_, fun b => ?_, fun p hp => ?_, ?_⟩
  · by_cases hb : b = a
    · subst hb
      simp [hs.this]
    · simp [hb, h.this b]
  · by_cases hb : b = a
    · subst hb
      simpa using hs.indexed
    · obtain ⟨l, H, hl⟩ := h.indexed b
      have hsame : ∀ p, (w.watchHeap.cell p).pInotify = some b ∨
          (s.watchHeap.cell p).pInotify = some b → s.watchHeap.cell p = w.watchHeap.cell p := by
        intro p hp
        rcases hs.cell p with hc | ⟨hfree, hfree', -⟩
        · exact hc
        · rcases hp with hp | hp
          · change (w.watchHeap.cell p).pInotify = none ∨
              (w.watchHeap.cell p).pInotify = some a at hfree
            simp [hp, hb] at hfree
          · rw [Free, hp] at hfree'
            simp [hb] at hfree'
      refine ⟨l, ?_, fun p => ?_⟩
      · simp only [Function.update_of_ne hb]
        refine H.of_heap (fun p hp => hsame p (.inl ((hl p).mp hp))) fun p hp => ?_
        rw [hs.live]
        exact H.live p hp
      · rw [hl]
        constructor
        · intro hp
          simpa [hsame p (.inl hp)] using hp
        · intro hp
          rw [← hsame p (.inr hp)]
          exact hp
  · rcases hs.cell p with hc | ⟨-, -, hwd⟩
    · simp only [hc] at hp ⊢
      exact h.idle p hp
    · exact hwd hp
  · have hv := h.watchHeap
    constructor
    · intro p
      simp only [hs.live, hs.next, hs.freed]
      exact hv.live_iff p
    · intro p hp
      rw [show s.watchHeap.freed = w.watchHeap.freed from hs.freed] at hp
      simp only [hs.next]
      exact hv.freed_lt p hp
    · simp only [hs.freed]
      exact hv.nodup

theorem Consistent.exec {α : Type} (h : Consistent w) {a : ℕ} {x : Daemon κ α}
    (hx : Post x (w.state a) (fun _ => Operated a (w.state a)) fun _ => Operated a (w.state a)) :
    Consistent (w.exec a x) := by
  unfold Instances.exec
  cases hr : x (w.state a) with
  | ok _ s => exact h.put (hx.ok hr)
  | error _ s => exact h.put (hx.error hr)

theorem Consistent.newWatch (h : Consistent w) (path : Str) (mask : Mask) (enabled : Bool) :
    Consistent { w with
      watchHeap := w.watchHeap.alloc { path := path, mask := mask, enabled := enabled } } := by
  have hdead := h.watchHeap.next_dead
  refine ⟨h.this, fun a => ?_, fun p hp => ?_, h.watchHeap.alloc _⟩
  · obtain ⟨l, H, hl⟩ := h.indexed a
    have hne : ∀ p ∈ l, p ≠ w.watchHeap.next := by
      rintro p hp rfl
      rw [H.live _ hp] at hdead
      exact Bool.noConfusion hdead
    refine ⟨l, H.of_heap (fun p hp => ?_) fun p hp => ?_, fun p => ?_⟩
    · rw [Heap.alloc_cell, if_neg (hne p hp)]
    · rw [Heap.alloc_live, if_neg (hne p hp)]
      exact H.live p hp
    · simp only [Heap.alloc_cell]
      split_ifs with hp
      · simpa using fun hmem => hne p hmem hp
      · exact hl p
  · simp only [Heap.alloc_cell] at hp ⊢
    split_ifs at hp ⊢
    · rfl
    · exact h.idle p hp

variable [System κ]

theorem consistent_operate (w : Instances κ) (op : Operation κ) (w' : Instances κ)
    (h : Consistent w) (hstep : operate w op = some w') : Consistent w' := by
  cases op with
  | world k =>
    obtain rfl := Option.some.inj hstep
    exact ⟨h.this, h.indexed, h.idle, h.watchHeap⟩
  | newWatch path mask enabled =>
    obtain rfl := Option.some.inj hstep
    exact h.newWatch path mask enabled
  | add a p =>
    obtain ⟨l, H, hl⟩ := h.indexed a
    simp only [operate] at hstep
    split_ifs at hstep with hp
    obtain rfl := Option.some.inj hstep
    exact h.exec (operated_add (h.this a) H hl hp.1 hp.2 (h.idle p hp.2))
  | remove a p =>
    obtain ⟨l, H, hl⟩ := h.indexed a
    simp only [operate] at hstep
    split_ifs at hstep with hp
    obtain rfl := Option.some.inj hstep
    exact h.exec (operated_remove (h.this a) H hl hp)
  | removeAll a =>
    obtain ⟨l, H, hl⟩ := h.indexed a
    obtain rfl := Option.some.inj hstep
    exact h.exec (operated_removeAll (h.this a) H hl)
  | close a =>
    obtain ⟨l, H, hl⟩ := h.indexed a
    obtain rfl := Option.some.inj hstep
    exact h.exec (operated_close (h.this a) H hl)
  | waitForEvents a =>
    obtain ⟨l, H, hl⟩ := h.indexed a
    obtain rfl := Option.some.inj hstep
    exact h.exec ((operated_waitForEvents (h.this a) H hl).mono (fun _ _ h' => h')
      fun _ _ h' => h'.1)
  | getEvent a =>
    obtain ⟨l, H, hl⟩ := h.indexed a
    obtain rfl := Option.some.inj hstep
    refine h.exec (Post.of (fun _ s hs => ?_) fun _ s hs => ?_)
    · rw [getEvent_eq] at hs
      cases hs
      exact Operated.of_same (h.this a) H hl rfl rfl
    · rw [getEvent_eq] at hs
      cases hs

theorem consistent_of_run {w₀ : Instances κ} (hw₀ : Constructed w₀) {ops : List (Operation κ)}
    (hrun : Transition.run operate w₀ ops = some w) : Consistent w :=
  Transition.run_invariant consistent_operate hw₀.consistent hrun

/-- In every state that is reached, the indexes of each object describe the same watches, and
`WaitForEvents` throws for the read only. -/
theorem inStep_of_run {w₀ : Instances κ} (hw₀ : Constructed w₀) {ops : List (Operation κ)}
    (hrun : Transition.run operate w₀ ops = some w) (a : ℕ) :
    InStep (w.inotify a) w.watchHeap ∧ (w.inotify a).this = a ∧
      ∀ e s, waitForEvents (w.state a) = .error e s →
        e ≠ .inotify "event cannot occur on disabled watch" einval := by
  have h := consistent_of_run hw₀ hrun
  obtain ⟨l, H, hl⟩ := h.indexed a
  refine ⟨H.inStep, h.this a, fun e s hs => ?_⟩
  obtain ⟨-, errno, rfl⟩ := (operated_waitForEvents (h.this a) H hl).error hs
  simp

end

def twoObjects : Instances SmallSystem where
  kernel := { file := [], pending := [{ wd := some 0, mask := inIgnored, name := [] }] }
  watchHeap := default
  inotify a := { this := a, fd := some (3 + a), watches := ∅, paths := ∅, events := [] }

/-- A watch is dropped by the kernel, removed from its object and added to the other one. -/
theorem inStep_twoObjects : ∃ w, Transition.run operate twoObjects
      [.newWatch "/d".toList inCreate true, .add 0 0, .waitForEvents 0, .remove 0 0, .add 1 0] =
        some w ∧
    InStep (w.inotify 1) w.watchHeap ∧ (w.inotify 1).this = 1 ∧
      ∀ e s, waitForEvents (w.state 1) = .error e s →
        e ≠ .inotify "event cannot occur on disabled watch" einval := by
  obtain ⟨w, hw⟩ : ∃ w, Transition.run operate twoObjects
      [.newWatch "/d".toList inCreate true, .add 0 0, .waitForEvents 0, .remove 0 0, .add 1 0] =
        some w := Option.isSome_iff_exists.mp (by decide +kernel)
  exact ⟨w, hw, inStep_of_run ⟨fun _ => rfl, fun _ => rfl, fun _ => rfl, rfl⟩ hw 1⟩

end Incron.Daemon
