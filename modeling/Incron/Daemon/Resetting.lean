import Incron.Daemon.Refusals

/-! `InotifyWatch::SetMask` and `SetEnabled`, which set a watch again in the kernel by its path:
what becomes of the watches when the path names another inode, or the inode of another watch. -/
namespace Incron.Daemon
open Hoare InotifyEvent

section Operations
variable {κ : Type} [System κ]

/-- `inotify_add_watch` for the descriptor of an object, which may be -1. -/
def inotifyAddWatch (fd : Option ℕ) (path : Str) (mask : Mask) : Daemon κ (Except ℕ ℕ) :=
  match fd with
  | none => pure (.error ebadf)
  | some fd => call (System.addWatch · fd path mask)

/-- `InotifyWatch::SetMask`; a watch with a descriptor belongs to the `Inotify` object. -/
def setMask (pWatch : ℕ) (uMask : Mask) : Daemon κ Unit := do
  let w ← watchAt pWatch
  match w.wd with
  | none => modifyWatch pWatch fun w => { w with mask := uMask }
  | some m_wd =>
    match ← inotifyAddWatch (← get).inotify.fd w.path uMask with
    | .error errno => throw (.inotify "changing mask failed" errno)
    | .ok wd =>
      if wd ≠ m_wd then throw (.inotify "changing mask failed" einval)
      else modifyWatch pWatch fun w => { w with mask := uMask }

def setEnabled (pWatch : ℕ) (fEnabled : Bool) : Daemon κ Unit := do
  let w ← watchAt pWatch
  if fEnabled = w.enabled then return
  match w.pInotify with
  | none => modifyWatch pWatch fun w => { w with enabled := fEnabled }
  | some _ =>
    if fEnabled then
      match ← inotifyAddWatch (← get).inotify.fd w.path w.mask with
      | .error errno =>
        modifyWatch pWatch fun w => { w with wd := none }
        throw (.inotify "enabling watch failed" errno)
      | .ok wd =>
        modifyInotify fun i => { i with watches := i.watches.insertNew wd pWatch }
        modifyWatch pWatch fun w => { w with wd := some wd, enabled := fEnabled }
    else
      match (← get).inotify.fd, w.wd with
      | none, _ => throw (.inotify "disabling watch failed" ebadf)
      | some _, none => throw (.inotify "disabling watch failed" einval)
      | some fd, some wd =>
        match ← call (inotifyRmWatch · fd wd) with
        | .error errno => throw (.inotify "disabling watch failed" errno)
        | .ok () =>
          modifyInotify fun i => { i with watches := i.watches.erase wd }
          modifyWatch pWatch fun w => { w with wd := none, enabled := fEnabled }

end Operations

/-! ## The masks of descriptors -/

namespace NotifyGroup
variable (G : NotifyGroup)

def maskOfWd (wd : ℕ) : Option Mask := (G.marks.find? (·.wd = wd)).map Mark.mask

def OneMark : Prop := ∀ m ∈ G.marks, G.find m.inode = some m

instance : Decidable G.OneMark := inferInstanceAs (Decidable (∀ m ∈ G.marks, _))

variable {G} {inode wd wd' : ℕ} {mask : Mask}

private theorem find?_map_eq {α : Type} {l : List α} {f : α → α} {p : α → Bool}
    (h : ∀ x ∈ l, f x = x ∨ p x = false ∧ p (f x) = false) : (l.map f).find? p = l.find? p := by
  induction l with
  | nil => rfl
  | cons x l ih =>
    have hrest := ih fun y hy => h y (by simp [hy])
    rw [List.map_cons, List.find?_cons, List.find?_cons, hrest]
    rcases h x (by simp) with hx | ⟨hx, hfx⟩
    · rw [hx]
    · rw [hx, hfx]

/-- Only the watch whose descriptor is returned may get another mask. -/
theorem maskOfWd_add (h : G.OneMark) (hwd : wd ≠ G.givenWd inode) :
    (G.add inode mask).1.maskOfWd wd = G.maskOfWd wd := by
  unfold maskOfWd add
  unfold givenWd at hwd
  cases hfind : G.find inode with
  | none =>
    have hno : ¬ G.nextWd = wd := by
      rw [hfind] at hwd
      exact fun h => hwd h.symm
    simp [List.find?_append, hno]
  | some m =>
    rw [hfind] at hwd
    refine congrArg (Option.map Mark.mask) (find?_map_eq fun x hx => ?_)
    by_cases hinode : x.inode = inode
    · rw [if_pos hinode]
      have hm := h x hx
      rw [hinode, hfind] at hm
      obtain rfl := Option.some.inj hm
      have hno : ¬ m.wd = wd := fun h => hwd h.symm
      exact .inr ⟨by simpa using hno, by simpa using hno⟩
    · exact .inl (if_neg hinode)

theorem maskOfWd_rm (hwd : wd ≠ wd') : (G.rm wd').maskOfWd wd = G.maskOfWd wd := by
  unfold rm
  split_ifs
  · unfold drop maskOfWd
    simp only [List.find?_filter]
    congr 2
    funext m
    by_cases hm : m.wd = wd
    · simp [hm, hwd]
    · simp [hm]
  · rfl

/-- The call changes nothing exactly for a watched inode whose mask comes out again. -/
theorem find_add_eq_iff : (G.add inode mask).1.find = G.find ↔
    ∃ m, G.find inode = some m ∧ remask m.mask mask = m.mask := by
  constructor
  · intro heq
    have hinode := G.find_add inode mask inode
    rw [heq, if_pos rfl] at hinode
    cases hfind : G.find inode with
    | none =>
      rw [hfind] at hinode
      exact absurd hinode (by simp)
    | some m =>
      rw [hfind, Option.map_some, Option.elim_some] at hinode
      exact ⟨m, rfl, (congrArg Mark.mask (Option.some.inj hinode)).symm⟩
  · rintro ⟨m, hfind, hmask⟩
    funext j
    rw [find_add]
    split_ifs with hj
    · rw [hj, hfind, Option.map_some, Option.elim_some, hmask, givenWd, hfind]
      obtain ⟨-, rfl⟩ := mem_of_find hfind
      rfl
    · rfl

end NotifyGroup

/-! ## Setting a watch again -/

section
variable {τ : Type}

/-- Each active watch is the one its descriptor maps to. -/
def ActiveTracked (s : DaemonState (TreeKernel τ)) : Prop :=
  ∀ p wd, (s.watchHeap.cell p).pInotify = some s.inotify.this →
    (s.watchHeap.cell p).wd = some wd → s.inotify.watches.lookup wd = some p

/-- The other watches keep their descriptors and their masks in the kernel. -/
structure OthersKept (p : ℕ) (s s' : DaemonState (TreeKernel τ)) : Prop where
  wd : ∀ q ≠ p, (s'.watchHeap.cell q).wd = (s.watchHeap.cell q).wd
  mask : ∀ q ≠ p, ∀ wd fd, (s.watchHeap.cell q).pInotify = some s.inotify.this →
    (s.watchHeap.cell q).wd = some wd → s.inotify.fd = some fd →
      (s'.kernel.groups fd).maskOfWd wd = (s.kernel.groups fd).maskOfWd wd

/-- The index, the watch at `p` and the watches of the kernel are as they were. -/
structure Untouched (p : ℕ) (s s' : DaemonState (TreeKernel τ)) : Prop where
  watches : s'.inotify.watches = s.inotify.watches
  cell : s'.watchHeap.cell p = s.watchHeap.cell p
  marks : ∀ fd, (s'.kernel.groups fd).find = (s.kernel.groups fd).find

/-- An operation on the watch at `p` succeeds and does no harm to the other watches, or it
throws and does nothing. -/
def Safely (x : Daemon (TreeKernel τ) Unit) (p : ℕ) (s : DaemonState (TreeKernel τ)) : Prop :=
  Post x s (fun _ s' => ActiveTracked s' ∧ OthersKept p s s') fun _ s' => Untouched p s s'

variable {s s' : DaemonState (TreeKernel τ)} {p : ℕ}

theorem ActiveTracked.ne {q wd wd' : ℕ} (h : ActiveTracked s)
    (hq : (s.watchHeap.cell q).pInotify = some s.inotify.this)
    (hwd : (s.watchHeap.cell q).wd = some wd)
    (hwd' : ∀ r, s.inotify.watches.lookup wd' = some r → r = p) (hne : q ≠ p) : wd ≠ wd' := by
  rintro rfl
  exact hne (hwd' q (h q wd hq hwd))

variable [DirTree τ]

def offeredWd (s : DaemonState (TreeKernel τ)) (path : Str) (mask : Mask) : Option ℕ :=
  s.inotify.fd.bind fun fd =>
    (DirTree.inode s.kernel.tree path mask).map (s.kernel.groups fd).givenWd

/-- An active watch can get a mask: its path still names its inode, or the mask changes nothing
at the inode that the path names. -/
def MaskSettable (s : DaemonState (TreeKernel τ)) (p : ℕ) (mask : Mask) : Prop :=
  ∀ wd fd inode, (s.watchHeap.cell p).wd = some wd → s.inotify.fd = some fd →
    DirTree.inode s.kernel.tree (s.watchHeap.cell p).path mask = some inode →
      (s.kernel.groups fd).givenWd inode = wd ∨
        ∃ m, (s.kernel.groups fd).find inode = some m ∧ remask m.mask mask = m.mask

/-- A disabled watch can be enabled: no other watch has the descriptor that the kernel gives for
it, or the kernel gives none and the watch had none. -/
def Enablable (s : DaemonState (TreeKernel τ)) (p : ℕ) : Prop :=
  match offeredWd s (s.watchHeap.cell p).path (s.watchHeap.cell p).mask with
  | some wd => ∀ q, s.inotify.watches.lookup wd = some q → q = p
  | none => (s.watchHeap.cell p).wd = none

def OneMarkEach (s : DaemonState (TreeKernel τ)) : Prop :=
  ∀ fd, s.inotify.fd = some fd → (s.kernel.groups fd).OneMark

theorem find_addWatch_eq_iff {k : TreeKernel τ} (fd : ℕ) {inode : ℕ} {path : Str} {mask : Mask}
    (h : DirTree.inode k.tree path mask = some inode) :
    (∀ fd', ((System.addWatch k fd path mask).1.groups fd').find = (k.groups fd').find) ↔
      ∃ m, (k.groups fd).find inode = some m ∧ remask m.mask mask = m.mask := by
  rw [addWatch_of_inode h, ← NotifyGroup.find_add_eq_iff]
  constructor
  · intro heq
    rw [← heq fd, TreeKernel.setGroup_groups]
  · intro heq fd'
    by_cases hfd : fd' = fd
    · rw [hfd, TreeKernel.setGroup_groups, heq]
    · exact congrArg NotifyGroup.find (Function.update_of_ne hfd ..)

theorem rmWatch_absent {k : TreeKernel τ} {fd wd : ℕ} (h : System.hasWatch k fd wd = false) :
    System.rmWatch k fd wd = k := by
  have hany : ¬ (k.groups fd).marks.any (·.wd = wd) = true := Bool.eq_false_iff.mp h
  change k.setGroup fd ((k.groups fd).rm wd) = k
  rw [NotifyGroup.rm, if_neg hany, TreeKernel.setGroup, Function.update_eq_self]

theorem maskOfWd_addWatch {k : TreeKernel τ} {fd inode wd : ℕ} {path : Str} {mask : Mask}
    (h : DirTree.inode k.tree path mask = some inode) (hmarks : (k.groups fd).OneMark)
    (hwd : wd ≠ (k.groups fd).givenWd inode) :
    ((System.addWatch k fd path mask).1.groups fd).maskOfWd wd = (k.groups fd).maskOfWd wd := by
  rw [addWatch_of_inode h, TreeKernel.setGroup_groups, NotifyGroup.maskOfWd_add hmarks hwd]

omit [DirTree τ] in
theorem ActiveTracked.same (h : ActiveTracked s) (hinotify : s'.inotify = s.inotify)
    (hcell : ∀ q, (s'.watchHeap.cell q).wd = (s.watchHeap.cell q).wd ∧
      (s'.watchHeap.cell q).pInotify = (s.watchHeap.cell q).pInotify)
    (hmask : ∀ q ≠ p, ∀ wd fd, (s.watchHeap.cell q).pInotify = some s.inotify.this →
      (s.watchHeap.cell q).wd = some wd → s.inotify.fd = some fd →
        (s'.kernel.groups fd).maskOfWd wd = (s.kernel.groups fd).maskOfWd wd) :
    ActiveTracked s' ∧ OthersKept p s s' := by
  refine ⟨fun q wd hq hwd => ?_, fun q _ => (hcell q).1, hmask⟩
  rw [(hcell q).1] at hwd
  rw [(hcell q).2, hinotify] at hq
  rw [hinotify]
  exact h q wd hq hwd

theorem safely_setMask_iff (hactive : ActiveTracked s)
    (hadded : (s.watchHeap.cell p).pInotify = some s.inotify.this) (hmarks : OneMarkEach s)
    (mask : Mask) : Safely (setMask p mask) p s ↔ MaskSettable s p mask := by
  have hcell : ∀ q, ((s.watchHeap.set p { s.watchHeap.cell p with mask := mask }).cell q).wd =
      (s.watchHeap.cell q).wd ∧
        ((s.watchHeap.set p { s.watchHeap.cell p with mask := mask }).cell q).pInotify =
          (s.watchHeap.cell q).pInotify := by
    intro q
    rw [Heap.set_cell]
    split_ifs with hq
    · rw [hq]
      exact ⟨rfl, rfl⟩
    · exact ⟨rfl, rfl⟩
  unfold Safely setMask MaskSettable
  simp only [post_bind, post_watchAt]
  cases hwd : (s.watchHeap.cell p).wd with
  | none =>
    simp only [post_modifyWatch, touch]
    refine iff_of_true ?_ fun _ _ _ h => absurd h (by simp)
    exact hactive.same rfl hcell fun _ _ _ _ _ _ _ => rfl
  | some m_wd =>
    simp only [post_bind, post_get, touch]
    cases hfd : s.inotify.fd with
    | none =>
      simp only [inotifyAddWatch, post_pure, post_throw]
      exact iff_of_true ⟨rfl, rfl, fun _ => rfl⟩ fun _ _ _ _ h => absurd h (by simp)
    | some fd =>
      simp only [inotifyAddWatch, post_call]
      cases hinode : DirTree.inode s.kernel.tree (s.watchHeap.cell p).path mask with
      | none =>
        simp only [addWatch_none hinode, post_throw]
        exact iff_of_true ⟨rfl, rfl, fun _ => rfl⟩ fun _ _ _ _ _ h => absurd h (by simp)
      | some inode =>
        simp only [addWatch_ok hinode fd, post_ite, post_throw, post_modifyWatch, Option.some.injEq]
        by_cases hsame : (s.kernel.groups fd).givenWd inode = m_wd
        · simp only [hsame, ne_eq, not_true_eq_false, if_false]
          refine iff_of_true ?_ ?_
          · refine hactive.same rfl hcell fun q hq wd fd' hadded' hwd' hfd' => ?_
            rw [hfd, Option.some.injEq] at hfd'
            subst hfd'
            refine maskOfWd_addWatch hinode (hmarks fd hfd) ?_
            rw [hsame]
            refine hactive.ne hadded' hwd' (fun r hr => ?_) hq
            rw [hactive p m_wd hadded hwd] at hr
            exact (Option.some.inj hr).symm
          · rintro wd _ _ rfl rfl rfl
            exact .inl hsame
        · simp only [hsame, ne_eq, not_false_eq_true, if_true]
          have hiff := find_addWatch_eq_iff fd hinode
          constructor
          · rintro ⟨-, -, hkept⟩ wd _ _ rfl rfl rfl
            exact .inr (hiff.mp hkept)
          · intro h
            exact ⟨rfl, rfl, hiff.mpr ((h _ _ _ rfl rfl rfl).resolve_left hsame)⟩

omit [DirTree τ] in
/-- After a failure the watch has lost its descriptor. -/
theorem untouched_unset_iff (l : List Handle) : Untouched p s { s with
      watchHeap := s.watchHeap.set p { s.watchHeap.cell p with wd := none }
      faults := l } ↔ (s.watchHeap.cell p).wd = none := by
  constructor
  · intro h
    have hcell := h.cell
    rw [Heap.set_cell_self] at hcell
    rw [← hcell]
  · intro hwd
    refine ⟨rfl, ?_, fun _ => rfl⟩
    rw [Heap.set_cell_self, ← hwd]

omit [DirTree τ] in
/-- A watch has got a descriptor: it is mapped to it exactly if no other watch was. -/
theorem enabled_iff (hactive : ActiveTracked s)
    (hadded : (s.watchHeap.cell p).pInotify = some s.inotify.this) {wd : ℕ}
    (hinotify : s'.inotify = { s.inotify with watches := s.inotify.watches.insertNew wd p })
    (hheap : s'.watchHeap =
      s.watchHeap.set p { s.watchHeap.cell p with wd := some wd, enabled := true })
    (hmask : ∀ wd' ≠ wd, ∀ fd, s.inotify.fd = some fd →
      (s'.kernel.groups fd).maskOfWd wd' = (s.kernel.groups fd).maskOfWd wd') :
    (ActiveTracked s' ∧ OthersKept p s s') ↔
      ∀ q, s.inotify.watches.lookup wd = some q → q = p := by
  have hself : s'.watchHeap.cell p =
      { s.watchHeap.cell p with wd := some wd, enabled := true } := by
    rw [hheap, Heap.set_cell_self]
  have hother : ∀ q ≠ p, s'.watchHeap.cell q = s.watchHeap.cell q := fun q hq => by
    rw [hheap, Heap.set_cell_of_ne _ hq]
  have hlook : ∀ wd', s'.inotify.watches.lookup wd' =
      if wd' = wd then some ((s.inotify.watches.lookup wd).getD p)
      else s.inotify.watches.lookup wd' := fun wd' => by
    rw [hinotify, FinMap.lookup_insertNew]
  constructor
  · rintro ⟨hactive', -⟩ q hq
    have hp := hactive' p wd (by rw [hself, hinotify]; exact hadded) (by rw [hself])
    rw [hlook, if_pos rfl, hq] at hp
    exact Option.some.inj hp
  · intro hfree
    constructor
    · intro q wd' hq hwd'
      rw [hlook]
      rw [hinotify] at hq
      by_cases hqp : q = p
      · subst hqp
        rw [hself, Option.some.injEq] at hwd'
        rw [if_pos hwd'.symm]
        cases hold : s.inotify.watches.lookup wd with
        | none => rfl
        | some r => rw [hfree r hold, Option.getD_some]
      · rw [hother q hqp] at hq hwd'
        rw [if_neg (hactive.ne hq hwd' hfree hqp)]
        exact hactive q wd' hq hwd'
    · constructor
      · intro q hq
        rw [hother q hq]
      · intro q hq wd' fd hadded' hwd' hfd
        exact hmask wd' (hactive.ne hadded' hwd' hfree hq) fd hfd

omit [DirTree τ] in
theorem ActiveTracked.disabled (hactive : ActiveTracked s) {wd : ℕ}
    (htracked : s.inotify.watches.lookup wd = some p)
    (hinotify : s'.inotify = { s.inotify with watches := s.inotify.watches.erase wd })
    (hheap : s'.watchHeap =
      s.watchHeap.set p { s.watchHeap.cell p with wd := none, enabled := false })
    (hmask : ∀ wd' ≠ wd, ∀ fd, s.inotify.fd = some fd →
      (s'.kernel.groups fd).maskOfWd wd' = (s.kernel.groups fd).maskOfWd wd') :
    ActiveTracked s' ∧ OthersKept p s s' := by
  have hother : ∀ q ≠ p, s'.watchHeap.cell q = s.watchHeap.cell q := fun q hq => by
    rw [hheap, Heap.set_cell_of_ne _ hq]
  have hne : ∀ q ≠ p, ∀ wd', (s.watchHeap.cell q).pInotify = some s.inotify.this →
      (s.watchHeap.cell q).wd = some wd' → wd' ≠ wd := by
    intro q hq wd' hadded hwd'
    refine hactive.ne hadded hwd' (fun r hr => ?_) hq
    rw [htracked] at hr
    exact (Option.some.inj hr).symm
  constructor
  · intro q wd' hq hwd'
    rw [hinotify] at hq ⊢
    by_cases hqp : q = p
    · rw [hqp, hheap, Heap.set_cell_self] at hwd'
      exact absurd hwd' (by simp)
    · rw [hother q hqp] at hq hwd'
      rw [FinMap.lookup_erase, if_neg (hne q hqp wd' hq hwd')]
      exact hactive q wd' hq hwd'
  · constructor
    · intro q hq
      rw [hother q hq]
    · intro q hq wd' fd hadded hwd' hfd
      exact hmask wd' (hne q hq wd' hadded hwd') fd hfd

theorem safely_setEnabled_iff (hactive : ActiveTracked s)
    (hadded : (s.watchHeap.cell p).pInotify = some s.inotify.this) (hmarks : OneMarkEach s)
    (fEnabled : Bool) : Safely (setEnabled p fEnabled) p s ↔
      (fEnabled = true → (s.watchHeap.cell p).enabled = false → Enablable s p) := by
  unfold Safely setEnabled
  simp only [post_bind, post_watchAt]
  by_cases hsame : fEnabled = (s.watchHeap.cell p).enabled
  · simp only [hsame, if_true, touch, post_pure]
    refine iff_of_true ?_ fun h h' => absurd (h.symm.trans h') (by simp)
    exact hactive.same rfl (fun _ => ⟨rfl, rfl⟩) fun _ _ _ _ _ _ _ => rfl
  · simp only [hsame, if_false, hadded, touch]
    cases fEnabled with
    | true =>
      have hdisabled : (s.watchHeap.cell p).enabled = false := by simpa using hsame
      simp only [post_bind, post_get, if_true, hdisabled, true_implies]
      unfold Enablable offeredWd
      cases hfd : s.inotify.fd with
      | none =>
        simp only [inotifyAddWatch, post_pure, post_bind, post_modifyWatch, post_throw]
        exact untouched_unset_iff _
      | some fd =>
        simp only [inotifyAddWatch, post_call]
        cases hinode : DirTree.inode s.kernel.tree (s.watchHeap.cell p).path
            (s.watchHeap.cell p).mask with
        | none =>
          simp only [addWatch_none hinode, post_bind, post_modifyWatch, post_throw]
          exact untouched_unset_iff _
        | some inode =>
          simp only [addWatch_ok hinode fd, post_bind, post_modifyWatch, post_modifyInotify]
          refine enabled_iff hactive hadded rfl rfl fun wd' hwd' fd' hfd' => ?_
          rw [hfd, Option.some.injEq] at hfd'
          subst hfd'
          exact maskOfWd_addWatch hinode (hmarks fd hfd) hwd'
    | false =>
      simp only [post_bind, post_get, Bool.false_eq_true, if_false]
      refine iff_of_true ?_ fun h => absurd h (by simp)
      cases hfd : s.inotify.fd with
      | none => exact ⟨rfl, rfl, fun _ => rfl⟩
      | some fd =>
        cases hwd : (s.watchHeap.cell p).wd with
        | none => exact ⟨rfl, rfl, fun _ => rfl⟩
        | some wd =>
          simp only [post_bind, post_call, inotifyRmWatch]
          cases hhas : System.hasWatch s.kernel fd wd with
          | false =>
            simp only [Bool.false_eq_true, if_false, post_throw]
            refine ⟨rfl, rfl, fun fd' => ?_⟩
            rw [rmWatch_absent hhas]
          | true =>
            simp only [if_true, post_bind, post_modifyInotify, post_modifyWatch]
            refine hactive.disabled (hactive p wd hadded hwd) rfl rfl fun wd' hwd' fd' hfd' => ?_
            rw [hfd, Option.some.injEq] at hfd'
            subst hfd'
            change ((s.kernel.setGroup fd ((s.kernel.groups fd).rm wd)).groups fd).maskOfWd wd' = _
            rw [TreeKernel.setGroup_groups, NotifyGroup.maskOfWd_rm hwd']

/-- `SetMask` and `SetEnabled` are safe exactly if the path of the watch leads to its own inode, or
to one where the call does no harm. -/
theorem setMask_setEnabled_safely_iff (hactive : ActiveTracked s)
    (hadded : (s.watchHeap.cell p).pInotify = some s.inotify.this) (hmarks : OneMarkEach s)
    (mask : Mask) (fEnabled : Bool) :
    (Safely (setMask p mask) p s ↔ MaskSettable s p mask) ∧
      (Safely (setEnabled p fEnabled) p s ↔
        (fEnabled = true → (s.watchHeap.cell p).enabled = false → Enablable s p)) :=
  ⟨safely_setMask_iff hactive hadded hmarks mask,
    safely_setEnabled_iff hactive hadded hmarks fEnabled⟩

end

/-! ## One directory with two names -/

theorem post_add_cell {κ : Type} [System κ] (s : DaemonState κ) {p q : ℕ} (hq : q ≠ p) :
    Post (add p) s (fun _ s' => s'.watchHeap.cell q = s.watchHeap.cell q)
      fun _ s' => s'.watchHeap.cell q = s.watchHeap.cell q := by
  unfold add add.link
  simp only [post_bind, post_get]
  cases s.inotify.fd with
  | none => rfl
  | some fd =>
    simp only [post_bind, post_get, post_watchAt, touch]
    cases hpath : s.inotify.paths.lookup (s.watchHeap.cell p).path with
    | some q => rfl
    | none =>
      cases henabled : (s.watchHeap.cell p).enabled with
      | false =>
        simp only [Bool.false_eq_true, if_false, post_bind, post_modifyInotify,
          post_modifyWatch, post_get]
        exact Heap.set_cell_of_ne _ hq _
      | true =>
        simp only [if_true, post_bind, post_call]
        split
        · rfl
        · next wd _ =>
          simp only [post_bind, post_get]
          cases s.inotify.watches.lookup wd with
          | some pW =>
            simp only [post_bind, post_watchAt, touch, post_call]
            split <;> rfl
          | none =>
            simp only [post_bind, post_modifyInotify, post_modifyWatch, post_get, Heap.set_set]
            exact Heap.set_cell_of_ne _ hq _

theorem cell_behind_add (s : DaemonState (TreeKernel Links)) {p q : ℕ} (hq : q ≠ p) :
    (behind (add p) s).watchHeap.cell q = s.watchHeap.cell q := by
  have h := post_add_cell s hq
  unfold behind
  split
  · next hx => exact h.ok hx
  · next hx => exact h.error hx

def twoNames : DaemonState (TreeKernel Links) :=
  behind (add 1) (behind (add 0) (twoWatches [("/a".toList, 0), ("/b".toList, 0)]
    { path := "/a".toList, mask := inCreate }
    { path := "/b".toList, mask := inModify, enabled := false }))

theorem activeTracked_twoNames : ActiveTracked twoNames := by
  have hfirst : (twoNames.watchHeap.cell 0).wd = some 1 ∧
      twoNames.inotify.watches.lookup 1 = some 0 := by decide +kernel
  have hsecond : (twoNames.watchHeap.cell 1).wd = none := by decide +kernel
  intro q wd hq hwd
  by_cases h1 : q = 1
  · rw [h1, hsecond] at hwd
    exact absurd hwd (by simp)
  · by_cases h0 : q = 0
    · rw [h0, hfirst.1, Option.some.injEq] at hwd
      rw [h0, ← hwd]
      exact hfirst.2
    · have hcell : twoNames.watchHeap.cell q = default := by
        rw [twoNames, cell_behind_add _ h1, cell_behind_add _ h0, twoWatches]
        refine (Heap.alloc_cell _ _ _).trans ?_
        exact (if_neg h1).trans ((Heap.alloc_cell _ _ _).trans (if_neg h0))
      have hnone : (default : InotifyWatch).pInotify = none := rfl
      rw [hcell, hnone] at hq
      exact absurd hq (by simp)

theorem oneMarkEach_twoNames : OneMarkEach twoNames := by
  have hfd : twoNames.inotify.fd = some 3 := by decide +kernel
  have hmarks : (twoNames.kernel.groups 3).OneMark := by decide +kernel
  intro fd h
  rw [hfd, Option.some.injEq] at h
  exact h ▸ hmarks

theorem setMask_setEnabled_safely_twoNames :
    (Safely (setMask 0 inDelete) 0 twoNames ↔ MaskSettable twoNames 0 inDelete) ∧
      (Safely (setEnabled 0 false) 0 twoNames ↔
        (false = true → (twoNames.watchHeap.cell 0).enabled = false → Enablable twoNames 0)) :=
  setMask_setEnabled_safely_iff activeTracked_twoNames (by decide +kernel) oneMarkEach_twoNames
    inDelete false

/-- `/b` is enabled: its watch gets the descriptor that the watch of `/a` has. -/
theorem not_safely_enable_twoNames : ActiveTracked twoNames ∧
    (twoNames.watchHeap.cell 1).pInotify = some twoNames.inotify.this ∧ OneMarkEach twoNames ∧
      ¬ Safely (setEnabled 1 true) 1 twoNames := by
  refine ⟨activeTracked_twoNames, by decide +kernel, oneMarkEach_twoNames, fun hsafe => ?_⟩
  have hpost : Post (setEnabled 1 true) twoNames
      (fun _ s' => (s'.watchHeap.cell 1).pInotify = some s'.inotify.this ∧
        (s'.watchHeap.cell 1).wd = some 1 ∧ s'.inotify.watches.lookup 1 = some 0)
      fun _ _ => False := by decide +kernel
  obtain ⟨a, s', hx, hadded, hwd, hlook⟩ := hpost.exists_ok
  have htracked := (hsafe.ok hx).1 1 1 hadded hwd
  rw [hlook] at htracked
  exact absurd htracked (by simp)

end Incron.Daemon
