import Incron.Daemon.TreeKernel

/-! `Load` over a directory tree: the watched paths are a function of what it sees of the tree,
and the marks of the kernel are those of the watches. -/
namespace Incron.Daemon
open Hoare FirstFit InotifyEvent

/-- What the daemon reads of a directory tree, and the order of its pointers. -/
class DirTree (τ : Type) where
  /-- The inode that is watched for a path and a mask, `none` when `inotify_add_watch` fails. -/
  inode : τ → Str → Mask → Option ℕ
  /-- The output of a `find` command. -/
  find : τ → Str → Option Str
  readFile : τ → Str → Option Str
  mayAccess : τ → Str → Str → Bool → Bool
  order : List ℕ → List ℕ
  order_perm : ∀ l, (order l).Perm l

structure TreeKernel (τ : Type) where
  tree : τ
  /-- The groups of the inotify descriptors. -/
  groups : ℕ → NotifyGroup := fun _ => {}
  /-- The number of events that fit into the buffer of the next `read`. -/
  readLen : ℕ := 1
  /-- What the tree becomes before the table file is read, while `OnEvent` sleeps. -/
  meanwhile : Option τ := none

def enoent : ℕ := 2

namespace TreeKernel
variable {τ : Type} (k : TreeKernel τ) (fd : ℕ)

def setGroup (G : NotifyGroup) : TreeKernel τ :=
  { k with groups := Function.update k.groups fd G }

def woken : TreeKernel τ := { k with tree := k.meanwhile.getD k.tree, meanwhile := none }

@[simp] theorem setGroup_groups (G : NotifyGroup) : (k.setGroup fd G).groups fd = G :=
  Function.update_self ..

@[simp] theorem woken_groups : k.woken.groups = k.groups := rfl

def addWatch [DirTree τ] (path : Str) (mask : Mask) : TreeKernel τ × Except ℕ ℕ :=
  match DirTree.inode k.tree path mask with
  | none => (k, .error enoent)
  | some i => (k.setGroup fd ((k.groups fd).add i mask).1, .ok ((k.groups fd).add i mask).2)

end TreeKernel

instance {τ : Type} [DirTree τ] : System (TreeKernel τ) where
  addWatch k fd path mask := k.addWatch fd path mask
  hasWatch k fd wd := (k.groups fd).marks.any (·.wd = wd)
  rmWatch k fd wd := k.setGroup fd ((k.groups fd).rm wd)
  readEvents k fd :=
    let G := k.groups fd
    let n := max 1 k.readLen
    if G.queue = [] then (k, .error ewouldblock)
    else (k.setGroup fd { G with queue := G.queue.drop n }, .ok (G.queue.take n))
  mayAccess k user path b := (k, DirTree.mayAccess k.tree user path b)
  readFile k path := (k.woken, DirTree.readFile k.woken.tree path)
  popen k cmd := (k, DirTree.find k.tree cmd)
  fork k := (k, true)
  order := DirTree.order τ
  order_perm := DirTree.order_perm

section
variable {τ : Type} [DirTree τ]

/-! ## What Load sees of the tree -/

def bare (T : τ) : TreeKernel τ := { tree := T }

def entriesOf (t : UserTable) (T : τ) : List IncronTabEntry := (tableEntries t (bare T)).2

/-- The table file, and the entries with the inodes of their paths. -/
def seen (t : UserTable) (T : τ) : Option Str × List (IncronTabEntry × Option ℕ) :=
  (DirTree.readFile T t.path, (entriesOf t T).map fun e => (e, DirTree.inode T e.path e.mask))

/-- The paths that are watched for entries with their inodes: a path and an inode are given
once only. -/
def watchedPaths (l : List (IncronTabEntry × Option ℕ)) (path : Str) : Prop :=
  ∃ x ∈ firstFit (fun e : IncronTabEntry × Option ℕ => e.1.path) Prod.snd
    (l.filter fun e => '*' ∉ e.1.path), x.1.1.path = path

def Parses (file : Option Str) : Prop :=
  ∀ content, file = some content → ∀ s ∈ Stdio.readAll 1000 content, s.head? ≠ some '\x00'

theorem fileLoads_iff {t : UserTable} {k : TreeKernel τ} :
    FileLoads t k ↔ Parses (seen t k.woken.tree).1 := Iff.rfl

theorem derived_eq (rE : IncronTabEntry) (k : TreeKernel τ) :
    derived rE k = (k, (derived rE (bare k.tree)).2) := by
  unfold derived subDirs
  split_ifs
  · rfl
  · rfl
  · rfl

theorem derivedAll_eq (lines : List IncronTabEntry) (k : TreeKernel τ) :
    derivedAll lines k = (k, (derivedAll lines (bare k.tree)).2) := by
  induction lines with
  | nil => rfl
  | cons rE lines ih =>
    have hbare : (derived rE (bare k.tree)).1 = bare k.tree := by rw [derived_eq]
    rw [derivedAll, derivedAll, hbare, derived_eq, ih]

theorem tableEntries_eq (t : UserTable) (k : TreeKernel τ) :
    tableEntries t k = (k.woken, entriesOf t k.woken.tree) := by
  have hlines := derivedAll_eq (lineEntries (DirTree.readFile k.woken.tree t.path)) k.woken
  change ((derivedAll (lineEntries (DirTree.readFile k.woken.tree t.path)) k.woken).1, _ ++
    (derivedAll (lineEntries (DirTree.readFile k.woken.tree t.path)) k.woken).2) = _
  rw [hlines]
  rfl

end

/-! ## Adding marks -/

namespace NotifyGroup
variable {G : NotifyGroup} {h : ℕ → Option (ℕ × Mask)} {inode : ℕ}

/-- `h` tells the descriptor and the mask of each inode that has a mark. -/
def Holds (G : NotifyGroup) (h : ℕ → Option (ℕ × Mask)) : Prop :=
  ∀ r wd m, h r = some (wd, m) ↔ { inode := r, wd := wd, mask := m } ∈ G.marks

theorem Holds.find_eq_none (H : G.Holds h) (hr : h inode = none) : G.find inode = none := by
  cases hfind : G.find inode with
  | none => rfl
  | some m =>
    obtain ⟨hm, rfl⟩ := mem_of_find hfind
    rw [(H m.inode m.wd m.mask).mpr hm] at hr
    exact absurd hr (by simp)

theorem Holds.find_eq_some (H : G.Holds h) {wd : ℕ} {m : Mask} (hr : h inode = some (wd, m)) :
    G.find inode = some { inode := inode, wd := wd, mask := m } := by
  have hmem := (H inode wd m).mp hr
  cases hfind : G.find inode with
  | none =>
    have hno := (List.find?_eq_none.mp hfind) _ hmem
    simp at hno
  | some m' =>
    obtain ⟨hm', rfl⟩ := mem_of_find hfind
    have hheld := (H m'.inode m'.wd m'.mask).mpr hm'
    rw [hr] at hheld
    obtain ⟨rfl, rfl⟩ := Prod.mk.inj (Option.some.inj hheld)
    rfl

theorem Holds.add_again (H : G.Holds h) (mask : Mask) {wd : ℕ} {m : Mask}
    (hr : h inode = some (wd, m)) :
    (G.add inode mask).2 = wd ∧ (G.add inode mask).1.queue = G.queue ∧
      (G.add inode mask).1.nextWd = G.nextWd ∧
      (∀ x ∈ (G.add inode mask).1.marks, ∃ y ∈ G.marks, x.wd = y.wd) ∧ ∃ m', Covers m' mask ∧
        (G.add inode mask).1.Holds (Function.update h inode (some (wd, m'))) := by
  have hmem := (H inode wd m).mp hr
  let m' : Mask := if isType mask inMaskAdd then m ||| mask else mask
  have hadd : G.add inode mask = ({ G with
      marks := G.marks.map fun x =>
        if x.inode = inode then { inode := inode, wd := wd, mask := m' } else x }, wd) := by
    rw [add, H.find_eq_some hr]
  rw [hadd]
  refine ⟨rfl, rfl, rfl, fun x hx => ?_, m', ?_, fun r wd' mask' => ?_⟩
  · obtain ⟨y, hy, rfl⟩ := List.mem_map.mp hx
    split_ifs
    · exact ⟨_, hmem, rfl⟩
    · exact ⟨y, hy, rfl⟩
  · simp only [m']
    split_ifs
    · ext i hi
      simp only [BitVec.getElem_and, BitVec.getElem_or]
      cases mask[i] <;> simp
    · exact BitVec.and_self
  · rw [Function.update_apply]
    simp only [List.mem_map]
    split_ifs with heq
    · constructor
      · intro hsome
        obtain ⟨rfl, rfl⟩ := Prod.mk.inj (Option.some.inj hsome)
        exact ⟨_, hmem, by rw [if_pos rfl, heq]⟩
      · rintro ⟨y, -, hy⟩
        split_ifs at hy with hinode
        · obtain ⟨-, rfl, rfl⟩ := Mark.mk.inj hy
          rfl
        · rw [hy] at hinode
          exact absurd heq hinode
    · rw [H r wd' mask']
      constructor
      · exact fun hmem' => ⟨_, hmem', if_neg heq⟩
      · rintro ⟨y, hy, heq'⟩
        split_ifs at heq' with hinode
        · exact absurd (Mark.mk.inj heq').1.symm heq
        · exact heq' ▸ hy

theorem Holds.add_fresh (H : G.Holds h) (mask : Mask) (hr : h inode = none) :
    G.add inode mask = ({ G with
      marks := G.marks ++ [{ inode := inode, wd := G.nextWd, mask := mask }]
      nextWd := G.nextWd + 1 }, G.nextWd) ∧
      (G.add inode mask).1.Holds (Function.update h inode (some (G.nextWd, mask))) := by
  have hadd : G.add inode mask = ({ G with
      marks := G.marks ++ [{ inode := inode, wd := G.nextWd, mask := mask }]
      nextWd := G.nextWd + 1 }, G.nextWd) := by
    rw [add, H.find_eq_none hr]
  refine ⟨hadd, fun r wd m => ?_⟩
  rw [hadd, Function.update_apply]
  simp only [List.mem_append, List.mem_singleton, Mark.mk.injEq]
  split_ifs with heq
  · constructor
    · intro hsome
      obtain ⟨rfl, rfl⟩ := Prod.mk.inj (Option.some.inj hsome)
      exact .inr ⟨heq, rfl, rfl⟩
    · rintro (hmem | ⟨-, rfl, rfl⟩)
      · rw [heq, ← H inode wd m, hr] at hmem
        exact absurd hmem (by simp)
      · rfl
  · rw [H r wd m]
    constructor
    · exact .inl
    · rintro (hmem | ⟨hinode, -⟩)
      · exact hmem
      · exact absurd hinode heq

end NotifyGroup

/-! ## The kernel while a table is loaded -/

section
variable {τ : Type} [DirTree τ] {t : UserTable} {fd : ℕ} {T : τ} {q : List RawEvent} {N : ℕ}

/-- The kernel states while a table is loaded in the tree `T`: the marks are those of `h`, and
their descriptors are not smaller than `N`. -/
structure Offering (fd : ℕ) (T : τ) (q : List RawEvent) (N : ℕ) (k : TreeKernel τ)
    (h : ℕ → Option (ℕ × Mask)) : Prop where
  tree : k.tree = T
  meanwhile : k.meanwhile = none
  queue : (k.groups fd).queue = q
  next : N ≤ (k.groups fd).nextWd
  holds : (k.groups fd).Holds h
  wds : ∀ m ∈ (k.groups fd).marks, N ≤ m.wd ∧ m.wd < (k.groups fd).nextWd

theorem addWatch_of_inode {k : TreeKernel τ} {path : Str} {mask : Mask} {r : ℕ}
    (hr : DirTree.inode k.tree path mask = some r) : System.addWatch k fd path mask =
      (k.setGroup fd ((k.groups fd).add r mask).1, .ok ((k.groups fd).add r mask).2) := by
  change TreeKernel.addWatch k fd path mask = _
  rw [TreeKernel.addWatch, hr]

theorem Offering.offers : Offers fd (DirTree.inode T) (Offering fd T q N) := by
  constructor
  · exact fun _ _ _ hk => hk
  · intro k h path mask hk hr
    have hadd : System.addWatch k fd path mask = (k, .error enoent) := by
      change TreeKernel.addWatch k fd path mask = _
      rw [TreeKernel.addWatch, hk.tree, hr]
    rw [hadd]
    exact ⟨⟨enoent, rfl⟩, hk⟩
  · intro k h path mask r wd m hk hr hheld
    rw [addWatch_of_inode (hk.tree ▸ hr)]
    obtain ⟨hwd, hqueue, hnext, hmarks, m', hcovers, hholds⟩ := hk.holds.add_again mask hheld
    refine ⟨by rw [hwd], m', hcovers, hk.tree, hk.meanwhile, ?_, ?_, ?_, ?_⟩
    · rw [TreeKernel.setGroup_groups, hqueue, hk.queue]
    · rw [TreeKernel.setGroup_groups, hnext]
      exact hk.next
    · rw [TreeKernel.setGroup_groups]
      exact hholds
    · rw [TreeKernel.setGroup_groups, hnext]
      intro x hx
      obtain ⟨y, hy, hwd⟩ := hmarks x hx
      rw [hwd]
      exact hk.wds y hy
  · intro k h path mask r hk hr hfree
    rw [addWatch_of_inode (hk.tree ▸ hr)]
    obtain ⟨hadd, hholds⟩ := hk.holds.add_fresh mask hfree
    refine ⟨(k.groups fd).nextWd, by rw [hadd], fun r' m hr' => ?_, mask, BitVec.and_self, hk.tree,
      hk.meanwhile, ?_, ?_, ?_, ?_⟩
    · have hlt := (hk.wds _ ((hk.holds r' _ m).mp hr')).2
      exact absurd hlt (Nat.lt_irrefl _)
    · rw [TreeKernel.setGroup_groups, hadd]
      exact hk.queue
    · rw [TreeKernel.setGroup_groups, hadd]
      exact Nat.le_succ_of_le hk.next
    · rw [TreeKernel.setGroup_groups]
      exact hholds
    · rw [TreeKernel.setGroup_groups, hadd]
      intro x hx
      rcases List.mem_append.mp hx with hx | hx
      · obtain ⟨hle, hlt⟩ := hk.wds x hx
        exact ⟨hle, Nat.lt_succ_of_lt hlt⟩
      · rw [List.mem_singleton.mp hx]
        exact ⟨hk.next, Nat.lt_succ_self _⟩

/-! ## What Load leaves behind -/

def Watched (fd : ℕ) (s : DaemonState (TreeKernel τ)) (path : Str) : Prop :=
  ∃ p ∈ s.map, (s.watchHeap.cell p).path = path ∧
    ∃ wd, (s.watchHeap.cell p).wd = some wd ∧ System.hasWatch s.kernel fd wd = true

instance (fd : ℕ) (s : DaemonState (TreeKernel τ)) (path : Str) :
    Decidable (Watched fd s path) :=
  decidable_of_iff (∃ p ∈ s.map.keys, (s.watchHeap.cell p).path = path ∧
    (s.watchHeap.cell p).wd.any (System.hasWatch s.kernel fd) = true) (by
      simp only [Watched, Option.any_eq_true]
      rfl)

/-- The marks of the table's descriptor are those of its watches. -/
def Linked (fd : ℕ) (s : DaemonState (TreeKernel τ)) : Prop :=
  (s.kernel.groups fd).Linked (masks s.watchHeap) s.inotify.watches

/-- The table has the watches that `Load` makes in the tree, and none of them will end. -/
structure Synced (t : UserTable) (fd : ℕ) (s : DaemonState (TreeKernel τ)) : Prop where
  active : ∀ p ∈ s.map, ∃ wd, ((s.kernel.groups fd).lastTracked (masks s.watchHeap)
    s.inotify.watches).lookup wd = some p
  paths : ∀ path, (∃ p ∈ s.map, (s.watchHeap.cell p).path = path) ↔
    watchedPaths (seen t s.kernel.tree).2 path
  file : Parses (seen t s.kernel.tree).1

section
variable {s : DaemonState (TreeKernel τ)}

theorem Synced.watched_iff (h : Synced t fd s) (hsound : Sound fd s) (hlinked : Linked fd s)
    (path : Str) : Watched fd s path ↔ watchedPaths (seen t s.kernel.tree).2 path := by
  rw [← h.paths path]
  constructor
  · rintro ⟨p, hp, hpath, -⟩
    exact ⟨p, hp, hpath⟩
  · rintro ⟨p, hp, hpath⟩
    obtain ⟨wd, hwd⟩ := h.active p hp
    obtain ⟨m, hm, hmwd⟩ := hlinked.tracked wd p hwd
    have hcell := ((hsound.indexed.watches wd p).mp (lookup_of_foldl_trackedAfter hwd)).2
    exact ⟨p, hp, hpath, wd, hcell, List.any_eq_true.mpr ⟨m, hm, by simpa using hmwd⟩⟩

theorem Covers.isType {m mask bit : Mask} (h : Covers m mask) (hbit : isType mask bit = true) :
    isType m bit = true := by
  unfold InotifyEvent.isType at hbit ⊢
  simp only [Bool.and_eq_true, bne_iff_ne, ne_eq, beq_iff_eq] at hbit ⊢
  obtain ⟨hsome, hall⟩ := hbit
  have hsub : mask &&& m = mask := h
  constructor
  · intro hnone
    apply hsome
    rw [← hsub, BitVec.and_assoc, hnone]
    exact BitVec.and_zero
  · apply BitVec.eq_of_getLsbD_eq
    intro i hi
    have hsub' := congrArg (fun x => x.getLsbD i) hsub
    have hall' := congrArg (fun x => x.getLsbD i) hall
    simp [hi] at hsub' hall' ⊢
    intro hm
    cases hmask : mask.getLsbD i with
    | false => exact hall' hmask
    | true => exact absurd (hsub' hmask) (by simp [hm])

omit [DirTree τ] in
/-- The watches that `Load` has added are tracked behind the queue, whose events are older. -/
theorem Offering.lastTracked {h : ℕ → Option (ℕ × Mask)} (hk : Offering fd T q N s.kernel h)
    (hq : ∀ e ∈ q, ∃ wd < N, e.wd = some wd) {wd : ℕ} (hwd : N ≤ wd) (mask : ℕ → Mask)
    (watches : FinMap ℕ ℕ) :
    ((s.kernel.groups fd).lastTracked mask watches).lookup wd = watches.lookup wd := by
  rw [NotifyGroup.lastTracked, hk.queue]
  refine lookup_foldl_trackedAfter_of_ne fun e he heq => ?_
  obtain ⟨wd', hlt, hwd'⟩ := hq e he
  rw [heq, Option.some.injEq] at hwd'
  omega

section
variable {s₀ : DaemonState (TreeKernel τ)} {l : List ℕ}

theorem Fitted.mark_of_bound {h : ℕ → Option (ℕ × Mask)}
    (F : Fitted fd (DirTree.inode T) (Offering fd T q N) s₀ l s)
    (hk : Offering fd T q N s.kernel h) (hheld : Held (DirTree.inode T) s h) {p wd : ℕ}
    (hp : s.inotify.watches.lookup wd = some p) :
    ∃ m ∈ (s.kernel.groups fd).marks, m.wd = wd := by
  obtain ⟨r, m, hr⟩ := F.watched hheld hp
  exact ⟨_, (hk.holds r wd m).mp hr, rfl⟩

theorem Fitted.linked (F : Fitted fd (DirTree.inode T) (Offering fd T q N) s₀ l s)
    (hq : ∀ e ∈ q, ∃ wd < N, e.wd = some wd) : Linked fd s := by
  obtain ⟨h, hk, hheld⟩ := F.kernel
  constructor
  · intro m hm
    obtain ⟨p, pE, hp, hwd, hcovers, -⟩ :=
      hheld.owner m.inode m.wd m.mask ((hk.holds m.inode m.wd m.mask).mpr hm)
    refine ⟨p, ?_, hcovers.isType⟩
    rw [hk.lastTracked hq (hk.wds m hm).1]
    exact (F.sound.indexed.watches m.wd p).mpr ⟨FinMap.mem_of_lookup hp, hwd⟩
  · exact fun wd p hp => F.mark_of_bound hk hheld (lookup_of_foldl_trackedAfter hp)
  · exact fun m hm => (hk.wds m hm).2
  · intro e he
    rw [hk.queue] at he
    obtain ⟨wd, hlt, hwd⟩ := hq e he
    exact ⟨wd, Nat.lt_of_lt_of_le hlt hk.next, hwd⟩

theorem Fitted.active (F : Fitted fd (DirTree.inode T) (Offering fd T q N) s₀ l s)
    (hq : ∀ e ∈ q, ∃ wd < N, e.wd = some wd) {p : ℕ} (hp : p ∈ s.map) :
    ∃ wd, ((s.kernel.groups fd).lastTracked (masks s.watchHeap)
      s.inotify.watches).lookup wd = some p := by
  obtain ⟨h, hk, hheld⟩ := F.kernel
  obtain ⟨wd, hwd⟩ := Option.ne_none_iff_exists'.mp (F.matched.active p hp)
  have hlook := (F.sound.indexed.watches wd p).mpr ⟨hp, hwd⟩
  obtain ⟨m, hm, rfl⟩ := F.mark_of_bound hk hheld hlook
  exact ⟨m.wd, by rw [hk.lastTracked hq (hk.wds m hm).1, hlook]⟩

theorem Fitted.paths (F : Fitted fd (DirTree.inode T) (Offering fd T q N) s₀ (plainTab s) s)
    (htab : s.tab.map s.entryHeap.cell = entriesOf t T) (path : Str) :
    (∃ p ∈ s.map, (s.watchHeap.cell p).path = path) ↔ watchedPaths (seen t T).2 path := by
  let look : ℕ → IncronTabEntry × Option ℕ := fun pE =>
    (s.entryHeap.cell pE, DirTree.inode T (s.entryHeap.cell pE).path (s.entryHeap.cell pE).mask)
  have hseen : (seen t T).2.filter (fun e => '*' ∉ e.1.path) = (plainTab s).map look := by
    rw [seen, ← htab, List.map_map, List.filter_map]
    rfl
  have hbound : (∃ p ∈ s.map, (s.watchHeap.cell p).path = path) ↔
      ∃ pE, (∃ p, s.map.lookup p = some pE) ∧ pathOf s pE = path := by
    constructor
    · rintro ⟨p, hp, hpath⟩
      obtain ⟨pE, hpE⟩ := FinMap.exists_lookup hp
      exact ⟨pE, ⟨p, hpE⟩, (F.matched.entry p pE hpE).1.symm.trans hpath⟩
    · rintro ⟨pE, ⟨p, hp⟩, hpath⟩
      exact ⟨p, FinMap.mem_of_lookup hp, (F.matched.entry p pE hp).1.trans hpath⟩
  rw [hbound, watchedPaths, hseen, firstFit_map]
  simp only [List.mem_map, exists_exists_and_eq_and, ← F.given]
  constructor
  · rintro ⟨pE, ⟨r, hr⟩, hpath⟩
    exact ⟨(pE, r), hr, hpath⟩
  · rintro ⟨⟨pE, r⟩, hr, hpath⟩
    exact ⟨pE, ⟨r, hr⟩, hpath⟩

end

theorem post_load_synced (t : UserTable) (h : Sound fd s) (hmap : s.map = ∅)
    (hmaps : s.maps.lookup fd = none) (hmarks : (s.kernel.groups fd).marks = [])
    (hq : ∀ e ∈ (s.kernel.groups fd).queue, ∃ wd < (s.kernel.groups fd).nextWd, e.wd = some wd) :
    Post (load t) s
      (fun _ s' => Linked fd s' ∧ Synced t fd s' ∧ s'.kernel.tree = s.kernel.woken.tree)
      fun _ _ => ¬ Parses (seen t s.kernel.woken.tree).1 := by
  let T := s.kernel.woken.tree
  have hK : Offering fd T (s.kernel.groups fd).queue (s.kernel.groups fd).nextWd
      (tableEntries t s.kernel).1 fun _ => none := by
    rw [tableEntries_eq]
    refine ⟨rfl, rfl, rfl, Nat.le_refl _, fun r wd m => ?_, fun m hm => ?_⟩
    · rw [TreeKernel.woken_groups, hmarks]
      simp
    · rw [TreeKernel.woken_groups, hmarks] at hm
      exact absurd hm (by simp)
  refine (post_load_fitted Offering.offers t h hmap hmaps hK).mono (fun _ s' hs' => ?_)
    fun _ _ he hparses => he (fileLoads_iff.mpr hparses)
  obtain ⟨hfile, s₁, s₂, F, htab, rfl⟩ := hs'
  rw [tableEntries_eq] at htab
  have htree : s₂.kernel.tree = T := by
    obtain ⟨_, hk, -⟩ := F.kernel
    exact hk.tree
  refine ⟨F.linked hq, ⟨fun p hp => F.active hq hp, fun path => ?_, ?_⟩, htree⟩
  · change _ ↔ watchedPaths (seen t s₂.kernel.tree).2 path
    rw [htree]
    exact F.paths htab path
  · change Parses (seen t s₂.kernel.tree).1
    rw [htree]
    exact fileLoads_iff.mp hfile

/-! ## Reloads -/

theorem rmAll_tree (k : TreeKernel τ) (fd : ℕ) (wds : List (Option ℕ)) :
    (∀ mask watches, (k.groups fd).Linked mask watches →
      ((rmAll k fd wds).groups fd).Linked mask watches) ∧
    ∀ m ∈ ((rmAll k fd wds).groups fd).marks, m ∈ (k.groups fd).marks ∧ some m.wd ∉ wds := by
  induction wds generalizing k with
  | nil => exact ⟨fun _ _ h => h, fun m hm => ⟨hm, by simp⟩⟩
  | cons wd wds ih =>
    obtain ⟨hlinked, hmarks⟩ := ih (kernelRm k fd wd)
    change (∀ mask watches, _ → ((rmAll (kernelRm k fd wd) fd wds).groups fd).Linked mask watches) ∧
      ∀ m ∈ ((rmAll (kernelRm k fd wd) fd wds).groups fd).marks, _
    cases wd with
    | none =>
      refine ⟨hlinked, fun m hm => ?_⟩
      obtain ⟨hm, hwd⟩ := hmarks m hm
      exact ⟨hm, by simp [hwd]⟩
    | some wd =>
      have hgroup : (kernelRm k fd (some wd)).groups fd = (k.groups fd).rm wd :=
        TreeKernel.setGroup_groups ..
      rw [hgroup] at hlinked hmarks
      refine ⟨fun mask watches h => hlinked mask watches (h.rm wd), fun m hm => ?_⟩
      obtain ⟨hm, hwds⟩ := hmarks m hm
      have hrm : m ∈ (k.groups fd).marks ∧ m.wd ≠ wd := by
        unfold NotifyGroup.rm at hm
        split_ifs at hm with hany
        · obtain ⟨hm, hne⟩ := List.mem_filter.mp hm
          exact ⟨hm, by simpa using hne⟩
        · refine ⟨hm, fun heq => hany ?_⟩
          exact List.any_eq_true.mpr ⟨m, hm, by simpa using heq⟩
      refine ⟨hrm.1, fun hmem => ?_⟩
      rcases List.mem_cons.mp hmem with heq | hmem
      · exact hrm.2 (Option.some.inj heq)
      · exact hwds hmem

/-- A reload brings the table in step with the tree. -/
theorem post_reload_synced (h : Loaded t fd s) (hlinked : Linked fd s) :
    Post (reload t) s (fun _ s' => Linked fd s' ∧ Synced t fd s') fun _ _ => True := by
  unfold reload
  rw [post_bind]
  refine (post_dispose h).imp_any fun _ s₁ h₁ => ?_
  obtain ⟨-, h₁⟩ := h₁
  obtain ⟨hstill, hmarks⟩ := rmAll_tree s.kernel fd (descriptors s)
  have hstill := hstill _ _ hlinked
  rw [← h₁.kernel] at hstill hmarks
  have hnone : (s₁.kernel.groups fd).marks = [] := by
    refine List.eq_nil_iff_forall_not_mem.mpr fun m hm => ?_
    obtain ⟨hm, hnot⟩ := hmarks m hm
    obtain ⟨p, hp, -⟩ := hlinked.mark m hm
    obtain ⟨hmem, hwd⟩ := (h.indexed.watches m.wd p).mp (lookup_of_foldl_trackedAfter hp)
    exact hnot (List.mem_map.mpr ⟨p, (System.order_perm _).mem_iff.mpr hmem, hwd⟩)
  exact (post_load_synced t h₁.sound h₁.map h₁.maps hnone hstill.queueWd).imp_any
    fun _ _ h₂ => ⟨h₂.1, h₂.2.1⟩

end

end

end Incron.Daemon
