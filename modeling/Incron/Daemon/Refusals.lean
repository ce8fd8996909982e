import Incron.Daemon.TreeLoad

/-! Watches that `Inotify::Add` refuses: what a refused call leaves behind in the indexes and in
the kernel, whose tree may have changed since the earlier calls. -/
namespace Incron.Daemon
open Hoare InotifyEvent

/-! ## The masks of the kernel -/

def remask (old given : Mask) : Mask := if isType given inMaskAdd then old ||| given else given

theorem elim_eq_self_iff {o : Option Mask} {mask : Mask} {f : Mask → Mask} :
    some (o.elim mask f) = o ↔ ∃ m, o = some m ∧ f m = m := by
  cases o with
  | none => simp
  | some m => simp

namespace NotifyGroup
variable (G : NotifyGroup) (inode : ℕ) (mask : Mask)

def givenWd : ℕ :=
  match G.find inode with
  | some m => m.wd
  | none => G.nextWd

theorem add_snd : (G.add inode mask).2 = G.givenWd inode := by
  unfold add givenWd
  cases G.find inode with
  | none => rfl
  | some m => rfl

theorem find_add (j : ℕ) : (G.add inode mask).1.find j =
    if j = inode then some
      { inode := inode
        wd := G.givenWd inode
        mask := ((G.find inode).map Mark.mask).elim mask (remask · mask) }
    else G.find j := by
  unfold add givenWd
  cases hfind : G.find inode with
  | none =>
    have hnone : G.marks.find? (fun x => decide (x.inode = inode)) = none := hfind
    simp only [find, List.find?_append, List.find?_singleton]
    by_cases hj : j = inode
    · rw [hj, hnone]
      simp
    · have hno : ¬ inode = j := fun h => hj h.symm
      simp [hj, hno]
  | some m =>
    obtain ⟨-, hinode⟩ := mem_of_find hfind
    let f : Mark → Mark := fun x =>
      if x.inode = inode then { m with mask := remask m.mask mask } else x
    have hkeeps : ∀ x, (f x).inode = x.inode := by
      intro x
      by_cases hx : x.inode = inode
      · simp only [f, if_pos hx, hinode, hx]
      · simp only [f, if_neg hx]
    have hmap : (G.marks.map f).find? (fun x => decide (x.inode = j)) = (G.find j).map f := by
      rw [List.find?_map]
      simp only [Function.comp_def, hkeeps]
      rfl
    refine hmap.trans ?_
    by_cases hj : j = inode
    · rw [hj, hfind, if_pos rfl, Option.map_some]
      simp only [f, if_pos hinode, hinode]
      rfl
    · rw [if_neg hj]
      cases hother : G.find j with
      | none => rfl
      | some x =>
        have hx : ¬ x.inode = inode := fun h => hj ((mem_of_find hother).2.symm.trans h)
        simp only [Option.map_some, f, if_neg hx]

end NotifyGroup

section
variable {τ : Type}

def TreeKernel.maskOf (k : TreeKernel τ) (fd inode : ℕ) : Option Mask :=
  ((k.groups fd).find inode).map Mark.mask

variable [DirTree τ]

theorem maskOf_addWatch {k : TreeKernel τ} (fd : ℕ) {inode : ℕ} {path : Str} {mask : Mask}
    (h : DirTree.inode k.tree path mask = some inode) (fd' j : ℕ) :
    (System.addWatch k fd path mask).1.maskOf fd' j =
      if fd' = fd ∧ j = inode then some ((k.maskOf fd inode).elim mask (remask · mask))
      else k.maskOf fd' j := by
  rw [addWatch_of_inode h]
  unfold TreeKernel.maskOf
  by_cases hfd : fd' = fd
  · subst hfd
    rw [TreeKernel.setGroup_groups, NotifyGroup.find_add]
    by_cases hj : j = inode
    · rw [if_pos hj, if_pos ⟨rfl, hj⟩]
      rfl
    · rw [if_neg hj, if_neg fun h => hj h.2]
  · have hother : (k.setGroup fd ((k.groups fd).add inode mask).1).groups fd' = k.groups fd' :=
      Function.update_of_ne hfd ..
    rw [hother, if_neg fun h => hfd h.1]

theorem addWatch_none {k : TreeKernel τ} {fd : ℕ} {path : Str} {mask : Mask}
    (h : DirTree.inode k.tree path mask = none) :
    System.addWatch k fd path mask = (k, .error enoent) := by
  change TreeKernel.addWatch k fd path mask = _
  rw [TreeKernel.addWatch, h]

theorem addWatch_ok {k : TreeKernel τ} {inode : ℕ} {path : Str} {mask : Mask}
    (h : DirTree.inode k.tree path mask = some inode) (fd : ℕ) :
    (System.addWatch k fd path mask).2 = .ok ((k.groups fd).givenWd inode) := by
  rw [addWatch_of_inode h, NotifyGroup.add_snd]

theorem addWatch_tree (k : TreeKernel τ) (fd : ℕ) (path : Str) (mask : Mask) :
    (System.addWatch k fd path mask).1.tree = k.tree := by
  cases h : DirTree.inode k.tree path mask with
  | none => rw [addWatch_none h]
  | some inode => rw [addWatch_of_inode h]; rfl

end

/-! ## Refused watches -/

/-- The exception of `Add` that tells that the old watch may have been changed. -/
def recoveryFailed (errno : ℕ) : DaemonException :=
  .inotify "watch collision detected and recovery failed" errno

section
variable {τ : Type}

/-- The indexes, the watch at `p` and the masks of the kernel are as they were. -/
structure NoTrace (p : ℕ) (s s' : DaemonState (TreeKernel τ)) : Prop where
  watches : s'.inotify.watches = s.inotify.watches
  paths : s'.inotify.paths = s.inotify.paths
  cell : s'.watchHeap.cell p = s.watchHeap.cell p
  masks : s'.kernel.maskOf = s.kernel.maskOf

variable [DirTree τ]

/-- When `Add` refuses a watch, it leaves no trace, or it says that the recovery failed. -/
def RefusesCleanly (p : ℕ) (s : DaemonState (TreeKernel τ)) : Prop :=
  ∀ e s', add p s = .error e s' → (∀ errno, e ≠ recoveryFailed errno) → NoTrace p s s'

/-- The descriptor that the kernel gives for a new watch is the one of `pW`. -/
structure Collides (s : DaemonState (TreeKernel τ)) (p fd inode pW : ℕ) : Prop where
  opened : s.inotify.fd = some fd
  path : s.inotify.paths.lookup (s.watchHeap.cell p).path = none
  enabled : (s.watchHeap.cell p).enabled = true
  named : DirTree.inode s.kernel.tree (s.watchHeap.cell p).path (s.watchHeap.cell p).mask =
    some inode
  tracked : s.inotify.watches.lookup ((s.kernel.groups fd).givenWd inode) = some pW

/-- Giving the old watch its path and mask again restores the masks: the path still names the
inode and its mask comes back, or the path names another watched inode and neither call changes
a mask. -/
def Restores (s : DaemonState (TreeKernel τ)) (p fd inode pW : ℕ) : Prop :=
  ∀ old, DirTree.inode s.kernel.tree (s.watchHeap.cell pW).path (s.watchHeap.cell pW).mask =
      some old →
    ∃ m, s.kernel.maskOf fd inode = some m ∧
      if old = inode then
        remask (remask m (s.watchHeap.cell p).mask) (s.watchHeap.cell pW).mask = m
      else remask m (s.watchHeap.cell p).mask = m ∧
        ∃ m', s.kernel.maskOf fd old = some m' ∧ remask m' (s.watchHeap.cell pW).mask = m'

variable {s : DaemonState (TreeKernel τ)} {p fd inode pW : ℕ}

/-- The kernel after the two calls of a collision. -/
def recovered (s : DaemonState (TreeKernel τ)) (p fd pW : ℕ) : TreeKernel τ :=
  (System.addWatch (System.addWatch s.kernel fd (s.watchHeap.cell p).path
    (s.watchHeap.cell p).mask).1 fd (s.watchHeap.cell pW).path (s.watchHeap.cell pW).mask).1

theorem post_add_collision (h : Collides s p fd inode pW) :
    Post (add p) s (fun _ _ => False) fun e s' =>
      if (DirTree.inode s.kernel.tree (s.watchHeap.cell pW).path
        (s.watchHeap.cell pW).mask).isSome then
        e = .inotify "path already watched (but defined another way)" ebusy ∧
          s'.inotify = s.inotify ∧ s'.watchHeap = s.watchHeap ∧ s'.kernel = recovered s p fd pW
      else e = recoveryFailed enoent := by
  have htree := addWatch_tree s.kernel fd (s.watchHeap.cell p).path (s.watchHeap.cell p).mask
  have hwd := addWatch_ok h.named fd
  unfold add
  simp only [post_bind, post_get, h.opened, post_watchAt, touch, h.path, h.enabled, if_true,
    post_call, hwd, h.tracked]
  cases hold : DirTree.inode s.kernel.tree (s.watchHeap.cell pW).path
      (s.watchHeap.cell pW).mask with
  | none =>
    rw [← htree] at hold
    simp only [addWatch_none hold, post_throw]
    rfl
  | some old =>
    rw [← htree] at hold
    simp only [addWatch_ok hold fd, post_throw]
    exact ⟨trivial, trivial, trivial, rfl⟩

/-- Without a collision a refused watch has not got into the kernel. -/
theorem post_add_apart (h : ∀ fd inode pW, ¬ Collides s p fd inode pW) :
    Post (add p) s (fun _ _ => True) fun _ s' => NoTrace p s s' := by
  have hsame : NoTrace p s s := ⟨rfl, rfl, rfl, rfl⟩
  unfold add
  simp only [post_bind, post_get]
  cases hfd : s.inotify.fd with
  | none => exact hsame
  | some fd =>
    simp only [post_bind, post_watchAt, post_get]
    cases hpath : s.inotify.paths.lookup (s.watchHeap.cell p).path with
    | some q =>
      simp only [touch, hpath, post_throw]
      exact ⟨rfl, rfl, rfl, rfl⟩
    | none =>
      cases henabled : (s.watchHeap.cell p).enabled with
      | false =>
        simp only [touch, hpath, Bool.false_eq_true, if_false]
        trivial
      | true =>
        simp only [touch, hpath, if_true, post_bind, post_call]
        cases hinode : DirTree.inode s.kernel.tree (s.watchHeap.cell p).path
            (s.watchHeap.cell p).mask with
        | none =>
          simp only [addWatch_none hinode, post_throw]
          exact ⟨rfl, rfl, rfl, rfl⟩
        | some inode =>
          simp only [addWatch_ok hinode fd, post_bind, post_get]
          cases htracked : s.inotify.watches.lookup ((s.kernel.groups fd).givenWd inode) with
          | none => trivial
          | some pW => exact absurd ⟨hfd, hpath, henabled, hinode, htracked⟩ (h fd inode pW)

/-- The masks after a collision are the old ones exactly if the second call restores them. -/
theorem maskOf_recovered_iff (h : Collides s p fd inode pW) {old : ℕ}
    (hold : DirTree.inode s.kernel.tree (s.watchHeap.cell pW).path (s.watchHeap.cell pW).mask =
      some old) :
    (recovered s p fd pW).maskOf = s.kernel.maskOf ↔ ∃ m, s.kernel.maskOf fd inode = some m ∧
      if old = inode then
        remask (remask m (s.watchHeap.cell p).mask) (s.watchHeap.cell pW).mask = m
      else remask m (s.watchHeap.cell p).mask = m ∧
        ∃ m', s.kernel.maskOf fd old = some m' ∧ remask m' (s.watchHeap.cell pW).mask = m' := by
  have hfirst := maskOf_addWatch fd h.named
  have htree := addWatch_tree s.kernel fd (s.watchHeap.cell p).path (s.watchHeap.cell p).mask
  have hsecond : ∀ fd' j, (recovered s p fd pW).maskOf fd' j = _ :=
    maskOf_addWatch fd (htree.symm ▸ hold)
  -- the masks of the two inodes decide
  have hpoints : (recovered s p fd pW).maskOf = s.kernel.maskOf ↔
      (recovered s p fd pW).maskOf fd inode = s.kernel.maskOf fd inode ∧
        (recovered s p fd pW).maskOf fd old = s.kernel.maskOf fd old := by
    refine ⟨fun heq => by rw [heq]; exact ⟨rfl, rfl⟩, fun ⟨hinode, hold⟩ => ?_⟩
    funext fd' j
    by_cases hin : fd' = fd ∧ j = inode
    · rw [hin.1, hin.2, hinode]
    · by_cases ho : fd' = fd ∧ j = old
      · rw [ho.1, ho.2, hold]
      · rw [hsecond, if_neg ho, hfirst, if_neg hin]
  rw [hpoints, hsecond, hsecond]
  by_cases hsame : old = inode
  · subst hsame
    simp only [hfirst, if_true, and_self, Option.elim_some]
    cases s.kernel.maskOf fd old with
    | none => simp
    | some m => simp
  · have hne : ¬ inode = old := fun h => hsame h.symm
    simp only [hfirst, hsame, hne, true_and, and_false, if_true, if_false]
    rw [elim_eq_self_iff, elim_eq_self_iff]
    constructor
    · rintro ⟨⟨m, hm, hkeeps⟩, hold⟩
      exact ⟨m, hm, hkeeps, hold⟩
    · rintro ⟨m, hm, hkeeps, hold⟩
      exact ⟨⟨m, hm, hkeeps⟩, hold⟩

/-- A refused call leaves no trace exactly if in a collision the recovery restores the masks. -/
theorem refusesCleanly_iff (p : ℕ) (s : DaemonState (TreeKernel τ)) : RefusesCleanly p s ↔
    ∀ fd inode pW, Collides s p fd inode pW → Restores s p fd inode pW := by
  constructor
  · intro hclean fd inode pW h old hold
    have hpost := post_add_collision h
    simp only [hold, Option.isSome_some, if_true] at hpost
    obtain ⟨e, s', hx⟩ : ∃ e s', add p s = .error e s' := by
      cases hx : add p s with
      | ok a s' => exact (hpost.ok hx).elim
      | error e s' => exact ⟨e, s', rfl⟩
    obtain ⟨rfl, -, -, hkernel⟩ := hpost.error hx
    have hno := hclean _ _ hx fun errno => by simp [recoveryFailed]
    rw [← maskOf_recovered_iff h hold, ← hkernel]
    exact hno.masks
  · intro hrestores e s' hx hfailed
    by_cases hC : ∃ fd inode pW, Collides s p fd inode pW
    · obtain ⟨fd, inode, pW, h⟩ := hC
      have hpost := (post_add_collision h).error hx
      cases hold : DirTree.inode s.kernel.tree (s.watchHeap.cell pW).path
          (s.watchHeap.cell pW).mask with
      | none =>
        simp only [hold, Option.isSome_none, Bool.false_eq_true, if_false] at hpost
        exact absurd hpost (hfailed _)
      | some old =>
        rw [hold, Option.isSome_some, if_pos rfl] at hpost
        obtain ⟨-, hinotify, hheap, hkernel⟩ := hpost
        refine ⟨by rw [hinotify], by rw [hinotify], by rw [hheap], ?_⟩
        rw [hkernel, maskOf_recovered_iff h hold]
        exact hrestores fd inode pW h old hold
    · simp only [not_exists] at hC
      exact (post_add_apart hC).error hx

end

/-! ## A renamed directory -/

structure Links where
  links : List (Str × ℕ)

instance : DirTree Links where
  inode T path _ := T.links.lookup path
  find _ _ := none
  readFile _ _ := none
  mayAccess _ _ _ _ := true
  order l := l
  order_perm l := List.Perm.refl l

def twoWatches (links : List (Str × ℕ)) (w w' : InotifyWatch) : DaemonState (TreeKernel Links) where
  kernel := { tree := ⟨links⟩ }
  watchHeap := ((default : Heap InotifyWatch).alloc w).alloc w'
  entryHeap := default
  nodeHeap := default
  inotify := { this := 0, fd := some 3, watches := ∅, paths := ∅, events := [] }
  tab := []
  map := ∅
  maps := ∅
  faults := []

def behind (x : Daemon (TreeKernel Links) Unit) (s : DaemonState (TreeKernel Links)) :
    DaemonState (TreeKernel Links) :=
  match x s with
  | .ok _ s' => s'
  | .error _ s' => s'

def relinked (s : DaemonState (TreeKernel Links)) (links : List (Str × ℕ)) :
    DaemonState (TreeKernel Links) :=
  { s with kernel := { s.kernel with tree := ⟨links⟩ } }

/-- `/a` is watched, renamed to `/b` and made again. -/
def renamed : DaemonState (TreeKernel Links) :=
  relinked (behind (add 0) (twoWatches [("/a".toList, 0)]
    { path := "/a".toList, mask := inCreate } { path := "/b".toList, mask := inModify }))
    [("/b".toList, 0), ("/a".toList, 1)]

/-- The new mask stays on the old directory, and the new directory gets a watch. -/
theorem not_refusesCleanly_renamed : ¬ RefusesCleanly 1 renamed := by
  have hmasks : renamed.kernel.maskOf 3 0 = some inCreate ∧ renamed.kernel.maskOf 3 1 = none := by
    decide +kernel
  have hpost : Post (add 1) renamed (fun _ _ => False) fun e s' =>
      e = .inotify "path already watched (but defined another way)" ebusy ∧
        s'.kernel.maskOf 3 0 = some inModify ∧ s'.kernel.maskOf 3 1 = some inCreate := by
    decide +kernel
  intro hclean
  cases hx : add 1 renamed with
  | ok a s' => exact hpost.ok hx
  | error e s' =>
    obtain ⟨rfl, -, hnew⟩ := hpost.error hx
    have hno := hclean _ _ hx fun errno => by simp [recoveryFailed]
    rw [hno.masks, hmasks.2] at hnew
    exact absurd hnew (by simp)

end Incron.Daemon
