import Incron.Daemon.Asked

/-! A kernel over a directory tree: each inotify descriptor has a group of marks on inodes, and
a queue of the events that the marks have selected. -/
namespace Incron.Daemon
open InotifyEvent

structure Mark where
  inode : ℕ
  wd : ℕ
  mask : Mask
  deriving DecidableEq, Repr

/-- Something that happens to an inode; with `IN_IGNORED` the inode is gone. -/
structure FsEvent where
  inode : ℕ
  mask : Mask
  cookie : BitVec 32 := 0
  name : Str

/-- What the kernel keeps for an inotify descriptor. -/
structure NotifyGroup where
  marks : List Mark := []
  nextWd : ℕ := 1
  queue : List RawEvent := []
  deriving Repr

/-- An event that repeats the last one of the queue is not queued. -/
def push (queue : List RawEvent) (e : RawEvent) : List RawEvent :=
  if queue.getLast? = some e then queue else queue ++ [e]

def ignoredEvent (wd : ℕ) : RawEvent := { wd := some wd, mask := inIgnored, name := [] }

namespace NotifyGroup
variable (G : NotifyGroup)

def find (inode : ℕ) : Option Mark := G.marks.find? (·.inode = inode)

/-- `inotify_add_watch` for an inode: an existing mark keeps its descriptor. -/
def add (inode : ℕ) (mask : Mask) : NotifyGroup × ℕ :=
  match G.find inode with
  | some m =>
    let m' : Mark := { m with mask := if isType mask inMaskAdd then m.mask ||| mask else mask }
    ({ G with marks := G.marks.map fun x => if x.inode = inode then m' else x }, m.wd)
  | none =>
    ({ G with
      marks := G.marks ++ [{ inode := inode, wd := G.nextWd, mask := mask }]
      nextWd := G.nextWd + 1 }, G.nextWd)

def drop (wd : ℕ) : NotifyGroup :=
  { G with marks := G.marks.filter (·.wd ≠ wd), queue := push G.queue (ignoredEvent wd) }

def rm (wd : ℕ) : NotifyGroup := if G.marks.any (·.wd = wd) then G.drop wd else G

def Selects (m : Mark) (e : FsEvent) : Prop :=
  Asked m.mask e.mask ∨ isType e.mask inUnmount = true

instance (m : Mark) (e : FsEvent) : Decidable (Selects m e) :=
  inferInstanceAs (Decidable (_ ∨ _))

def rawEvent (m : Mark) (e : FsEvent) : RawEvent :=
  { wd := some m.wd, mask := e.mask, cookie := e.cookie, name := e.name }

/-- A one-shot mark is dropped behind its event. -/
def deliver (e : FsEvent) : NotifyGroup :=
  match G.find e.inode with
  | none => G
  | some m =>
    if isType e.mask inIgnored then G.drop m.wd
    else if Selects m e then
      let G' := { G with queue := push G.queue (rawEvent m e) }
      if isType m.mask inOneshot then G'.drop m.wd else G'
    else G

end NotifyGroup

/-! ## The events in the queue -/

section
variable {mask : ℕ → Mask} {watches : FinMap ℕ ℕ} {q : List RawEvent} {e : RawEvent} {wd wd' p : ℕ}

theorem push_cases (q : List RawEvent) (e : RawEvent) :
    (∃ q', q = q' ++ [e] ∧ push q e = q) ∨ push q e = q ++ [e] := by
  unfold push
  split_ifs with hlast
  · obtain ⟨q', hq'⟩ := List.getLast?_eq_some_iff.mp hlast
    exact .inl ⟨q', hq', rfl⟩
  · exact .inr rfl

theorem mem_of_mem_push {x : RawEvent} (hx : x ∈ push q e) : x ∈ q ∨ x = e := by
  rcases push_cases q e with ⟨-, -, hq⟩ | hq
  · rw [hq] at hx
    exact .inl hx
  · rw [hq, List.mem_append, List.mem_singleton] at hx
    exact hx

theorem lookup_push_of_ne (he : e.wd = some wd) (hne : wd' ≠ wd) :
    ((push q e).foldl (trackedAfter mask) watches).lookup wd' =
      (q.foldl (trackedAfter mask) watches).lookup wd' := by
  rcases push_cases q e with ⟨-, -, hq⟩ | hq
  · rw [hq]
  · have hwd : e.wd ≠ some wd' := by
      rw [he]
      exact fun h => hne (Option.some.inj h).symm
    rw [hq, List.foldl_append, List.foldl_cons, List.foldl_nil, lookup_trackedAfter_of_ne hwd]

theorem exists_push (q : List RawEvent) (e : RawEvent) : ∃ q', push q e = q' ++ [e] := by
  rcases push_cases q e with ⟨q', hq', hq⟩ | hq
  · exact ⟨q', hq.trans hq'⟩
  · exact ⟨q, hq⟩

theorem lookup_trackedAfter_ignored :
    (trackedAfter mask watches (ignoredEvent wd)).lookup wd = none := by
  have htracked : tracked watches (ignoredEvent wd) = watches.lookup wd := rfl
  have hwd : (ignoredEvent wd).wd = some wd := rfl
  have hends : ∀ m, endsTracking m (ignoredEvent wd) = true := by
    intro m
    have hignored : isType inIgnored inIgnored = true := by decide
    exact Bool.or_eq_true_iff.mpr (.inr hignored)
  unfold trackedAfter
  rw [htracked, hwd]
  cases hlook : watches.lookup wd with
  | none => exact hlook
  | some p =>
    simp only [hends, if_true]
    rw [FinMap.lookup_erase, if_pos rfl]

theorem lookup_push_ignored :
    ((push q (ignoredEvent wd)).foldl (trackedAfter mask) watches).lookup wd = none := by
  obtain ⟨q', hq'⟩ := exists_push q (ignoredEvent wd)
  rw [hq', List.foldl_append, List.foldl_cons, List.foldl_nil, lookup_trackedAfter_ignored]

theorem trackedAfter_eq (he : e.wd = some wd) (hwd : watches.lookup wd = some p)
    (hends : endsTracking (mask p) e = false) : trackedAfter mask watches e = watches := by
  have htracked : tracked watches e = some p := by rw [tracked, he, Option.bind_some, hwd]
  unfold trackedAfter
  rw [he, htracked]
  simp only [hends, Bool.false_eq_true, if_false]

theorem foldl_push_eq (he : e.wd = some wd)
    (hwd : (q.foldl (trackedAfter mask) watches).lookup wd = some p)
    (hends : endsTracking (mask p) e = false) :
    (push q e).foldl (trackedAfter mask) watches = q.foldl (trackedAfter mask) watches := by
  rcases push_cases q e with ⟨-, -, hq⟩ | hq
  · rw [hq]
  · rw [hq, List.foldl_append, List.foldl_cons, List.foldl_nil, trackedAfter_eq he hwd hends]

/-- What is kept of a queue stays when an event comes to it. -/
theorem mem_kept_push {x : InotifyEvent} (hx : x ∈ kept mask watches q) :
    x ∈ kept mask watches (push q e) := by
  rcases push_cases q e with ⟨-, -, hq⟩ | hq
  · rwa [hq]
  · rw [hq, kept_append]
    exact List.mem_append_left _ hx

/-- The event of a watch that is tracked behind the queue is kept. -/
theorem queuedEvent_mem_kept_push (he : e.wd = some wd)
    (hwd : (q.foldl (trackedAfter mask) watches).lookup wd = some p) :
    queuedEvent e p ∈ kept mask watches (push q e) := by
  have hlast : ∀ q', (q'.foldl (trackedAfter mask) watches).lookup wd = some p →
      queuedEvent e p ∈ kept mask watches (q' ++ [e]) := by
    intro q' hq'
    have htracked : tracked (q'.foldl (trackedAfter mask) watches) e = some p := by
      rw [tracked, he, Option.bind_some, hq']
    rw [kept_append, List.mem_append]
    right
    simp [kept, htracked]
  rcases push_cases q e with ⟨q', hq', hq⟩ | hq
  · rw [hq, hq']
    rw [hq', List.foldl_append, List.foldl_cons, List.foldl_nil] at hwd
    exact hlast q' (lookup_of_trackedAfter hwd)
  · rw [hq]
    exact hlast q hwd

end

/-! ## Marks and tracked watches -/

namespace NotifyGroup

/-- The tracked watches behind the queue. -/
def lastTracked (G : NotifyGroup) (mask : ℕ → Mask) (watches : FinMap ℕ ℕ) : FinMap ℕ ℕ :=
  G.queue.foldl (trackedAfter mask) watches

/-- The marks are those of the watches that are tracked behind the queue. -/
structure Linked (mask : ℕ → Mask) (watches : FinMap ℕ ℕ) (G : NotifyGroup) : Prop where
  mark : ∀ m ∈ G.marks, ∃ p, (G.lastTracked mask watches).lookup m.wd = some p ∧
    (isType (mask p) inOneshot = true → isType m.mask inOneshot = true)
  tracked : ∀ wd p, (G.lastTracked mask watches).lookup wd = some p → ∃ m ∈ G.marks, m.wd = wd
  markWd : ∀ m ∈ G.marks, m.wd < G.nextWd
  queueWd : ∀ e ∈ G.queue, ∃ wd < G.nextWd, e.wd = some wd

section
variable {mask : ℕ → Mask} {watches : FinMap ℕ ℕ} {G : NotifyGroup}

theorem mem_of_find {inode : ℕ} {m : Mark} (h : G.find inode = some m) :
    m ∈ G.marks ∧ m.inode = inode := by
  refine ⟨List.mem_of_find?_eq_some h, ?_⟩
  have := List.find?_some h
  simpa using this

/-- The mark of a descriptor is dropped, and its events end the tracking of its watch. -/
theorem Linked.dropped (h : G.Linked mask watches) {wd : ℕ} {q : List RawEvent}
    (hne : ∀ wd' ≠ wd, (q.foldl (trackedAfter mask) watches).lookup wd' =
      (G.lastTracked mask watches).lookup wd')
    (hself : (q.foldl (trackedAfter mask) watches).lookup wd = none)
    (hq : ∀ e ∈ q, ∃ wd < G.nextWd, e.wd = some wd) :
    Linked mask watches { G with marks := G.marks.filter (·.wd ≠ wd), queue := q } := by
  constructor
  · intro m hm
    obtain ⟨hm, hwd⟩ := List.mem_filter.mp hm
    obtain ⟨p, hp, hone⟩ := h.mark m hm
    refine ⟨p, ?_, hone⟩
    rw [lastTracked, hne m.wd (by simpa using hwd)]
    exact hp
  · intro wd' p hp
    have hwd : wd' ≠ wd := by
      rintro rfl
      rw [lastTracked, hself] at hp
      exact absurd hp (by simp)
    rw [lastTracked, hne wd' hwd] at hp
    obtain ⟨m, hm, rfl⟩ := h.tracked wd' p hp
    exact ⟨m, List.mem_filter.mpr ⟨hm, by simpa using hwd⟩, rfl⟩
  · intro m hm
    exact h.markWd m (List.mem_filter.mp hm).1
  · exact hq

theorem Linked.drop (h : G.Linked mask watches) {wd : ℕ} (hwd : wd < G.nextWd) :
    (G.drop wd).Linked mask watches := by
  refine h.dropped (fun wd' hne => lookup_push_of_ne rfl hne) lookup_push_ignored fun e he => ?_
  rcases mem_of_mem_push he with he | rfl
  · exact h.queueWd e he
  · exact ⟨wd, hwd, rfl⟩

theorem Linked.rm (h : G.Linked mask watches) (wd : ℕ) : (G.rm wd).Linked mask watches := by
  unfold NotifyGroup.rm
  split_ifs with hany
  · obtain ⟨m, hm, hwd⟩ := List.any_eq_true.mp hany
    have hwd : m.wd = wd := by simpa using hwd
    exact h.drop (hwd ▸ h.markWd m hm)
  · exact h

/-- The watch of a mark that is not one-shot is still tracked behind an event. -/
theorem Linked.lastTracked_push (h : G.Linked mask watches) {m : Mark} (hm : m ∈ G.marks)
    (hone : isType m.mask inOneshot = false) {e : RawEvent} (hwd : e.wd = some m.wd)
    (hignored : isType e.mask inIgnored = false) :
    (push G.queue e).foldl (trackedAfter mask) watches = G.lastTracked mask watches := by
  obtain ⟨p, hp, himp⟩ := h.mark m hm
  have hends : endsTracking (mask p) e = false := by
    have hmask : isType (mask p) inOneshot = false := by
      by_contra hyes
      rw [himp (by simpa using hyes)] at hone
      exact absurd hone (by simp)
    rw [endsTracking, hmask, hignored]
    rfl
  exact foldl_push_eq hwd hp hends

theorem Linked.deliver (h : G.Linked mask watches) (e : FsEvent) :
    (G.deliver e).Linked mask watches := by
  unfold NotifyGroup.deliver
  cases hfind : G.find e.inode with
  | none => exact h
  | some m =>
    obtain ⟨hm, -⟩ := mem_of_find hfind
    have hwd := h.markWd m hm
    have hqueue : ∀ x ∈ push G.queue (rawEvent m e), ∃ wd < G.nextWd, x.wd = some wd := by
      intro x hx
      rcases mem_of_mem_push hx with hx | rfl
      · exact h.queueWd x hx
      · exact ⟨m.wd, hwd, rfl⟩
    simp only
    split_ifs with hignored hselects hone
    · exact h.drop hwd
    · refine h.dropped (fun wd' hne => ?_) lookup_push_ignored fun x hx => ?_
      · rw [lookup_push_of_ne rfl hne, lookup_push_of_ne rfl hne]
        rfl
      · rcases mem_of_mem_push hx with hx | rfl
        · exact hqueue x hx
        · exact ⟨m.wd, hwd, rfl⟩
    · have hlast := h.lastTracked_push hm (eq_false_of_ne_true hone) (e := rawEvent m e) rfl
        (eq_false_of_ne_true hignored)
      constructor
      · intro m' hm'
        rw [lastTracked, hlast]
        exact h.mark m' hm'
      · intro wd p hp
        rw [lastTracked, hlast] at hp
        exact h.tracked wd p hp
      · exact h.markWd
      · exact hqueue
    · exact h

theorem lastTracked_read (G : NotifyGroup) (mask : ℕ → Mask) (watches : FinMap ℕ ℕ) (n : ℕ) :
    lastTracked { G with queue := G.queue.drop n } mask
      ((G.queue.take n).foldl (trackedAfter mask) watches) = G.lastTracked mask watches := by
  rw [lastTracked, ← List.foldl_append, List.take_append_drop]
  rfl

theorem Linked.read (h : G.Linked mask watches) (n : ℕ) :
    Linked mask ((G.queue.take n).foldl (trackedAfter mask) watches)
      { G with queue := G.queue.drop n } := by
  have hlast := lastTracked_read G mask watches n
  constructor
  · rw [hlast]
    exact h.mark
  · rw [hlast]
    exact h.tracked
  · exact h.markWd
  · exact fun e he => h.queueWd e (List.mem_of_mem_drop he)

theorem kept_read (G : NotifyGroup) (mask : ℕ → Mask) (watches : FinMap ℕ ℕ) (n : ℕ) :
    kept mask watches (G.queue.take n) ++
      kept mask ((G.queue.take n).foldl (trackedAfter mask) watches) (G.queue.drop n) =
        kept mask watches G.queue := by
  rw [← kept_append, List.take_append_drop]

/-! ## What a delivery does to the queue -/

theorem mem_kept_deliver {x : InotifyEvent} (hx : x ∈ kept mask watches G.queue) (e : FsEvent) :
    x ∈ kept mask watches (G.deliver e).queue := by
  unfold NotifyGroup.deliver
  cases G.find e.inode with
  | none => exact hx
  | some m =>
    simp only
    split_ifs
    · exact mem_kept_push hx
    · exact mem_kept_push (mem_kept_push hx)
    · exact mem_kept_push hx
    · exact hx

/-- An event that the mask of a mark selects will come to its watch. -/
theorem Linked.kept_deliver (h : G.Linked mask watches) {e : FsEvent} {m : Mark}
    (hfind : G.find e.inode = some m) (hselects : Selects m e)
    (hignored : isType e.mask inIgnored = false) :
    ∃ p, watches.lookup m.wd = some p ∧
      queuedEvent (rawEvent m e) p ∈ kept mask watches (G.deliver e).queue := by
  obtain ⟨p, hp, -⟩ := h.mark m (mem_of_find hfind).1
  have hmem := queuedEvent_mem_kept_push (e := rawEvent m e) rfl hp
  refine ⟨p, lookup_of_foldl_trackedAfter hp, ?_⟩
  unfold NotifyGroup.deliver
  simp only [hfind, hignored, Bool.false_eq_true, if_false, if_pos hselects]
  split_ifs
  · exact mem_kept_push hmem
  · exact hmem

theorem marks_deliver (G : NotifyGroup) (e : FsEvent) :
    (G.deliver e).marks.Sublist G.marks := by
  unfold NotifyGroup.deliver
  cases G.find e.inode with
  | none => exact List.Sublist.refl _
  | some m =>
    simp only
    split_ifs
    · exact List.filter_sublist
    · exact List.filter_sublist
    · exact List.Sublist.refl _
    · exact List.Sublist.refl _

theorem Linked.lastTracked_deliver (h : G.Linked mask watches) {e : FsEvent}
    (hmarks : (G.deliver e).marks = G.marks) :
    (G.deliver e).lastTracked mask watches = G.lastTracked mask watches := by
  have hkeeps : ∀ m ∈ G.marks, G.marks.filter (·.wd ≠ m.wd) ≠ G.marks := by
    intro m hm heq
    have := (List.filter_eq_self.mp heq) m hm
    simp at this
  unfold NotifyGroup.deliver at hmarks ⊢
  cases hfind : G.find e.inode with
  | none => rfl
  | some m =>
    obtain ⟨hm, -⟩ := mem_of_find hfind
    simp only [hfind] at hmarks ⊢
    split_ifs at hmarks ⊢ with hignored hselects hone
    · exact absurd hmarks (hkeeps m hm)
    · exact absurd hmarks (hkeeps m hm)
    · exact h.lastTracked_push hm (eq_false_of_ne_true hone) (e := rawEvent m e) rfl
        (eq_false_of_ne_true hignored)
    · rfl

/-! ## Several deliveries -/

def deliverAll (G : NotifyGroup) (es : List FsEvent) : NotifyGroup := es.foldl deliver G

theorem Linked.deliverAll (h : G.Linked mask watches) (es : List FsEvent) :
    (G.deliverAll es).Linked mask watches := by
  induction es generalizing G with
  | nil => exact h
  | cons e es ih => exact ih (h.deliver e)

theorem mem_kept_deliverAll {x : InotifyEvent} (hx : x ∈ kept mask watches G.queue)
    (es : List FsEvent) : x ∈ kept mask watches (G.deliverAll es).queue := by
  induction es generalizing G with
  | nil => exact hx
  | cons e es ih => exact ih (mem_kept_deliver hx e)

theorem marks_deliverAll (G : NotifyGroup) (es : List FsEvent) :
    (G.deliverAll es).marks.Sublist G.marks := by
  induction es generalizing G with
  | nil => exact List.Sublist.refl _
  | cons e es ih => exact (ih (G.deliver e)).trans (marks_deliver G e)

theorem Linked.lastTracked_deliverAll (h : G.Linked mask watches) {es : List FsEvent}
    (hmarks : (G.deliverAll es).marks = G.marks) :
    (G.deliverAll es).lastTracked mask watches = G.lastTracked mask watches := by
  induction es generalizing G with
  | nil => rfl
  | cons e es ih =>
    have hfirst : (G.deliver e).marks = G.marks := by
      refine (marks_deliver G e).antisymm ?_
      have hrest := marks_deliverAll (G.deliver e) es
      rwa [show ((G.deliver e).deliverAll es).marks = G.marks from hmarks] at hrest
    have hrest : ((G.deliver e).deliverAll es).marks = (G.deliver e).marks := by
      rw [hfirst]
      exact hmarks
    exact (ih (h.deliver e) hrest).trans (h.lastTracked_deliver hfirst)

end

end NotifyGroup

end Incron.Daemon
