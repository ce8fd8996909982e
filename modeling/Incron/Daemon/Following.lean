import Incron.Daemon.TreeLoad

/-! Recursive watching: the watched paths follow the directory tree as long as the masks of the
table select the events of new directories. -/
namespace Incron.Daemon
open Hoare InotifyEvent Transition

/-! ## The tree changes -/

/-- Other processes make a new tree of it, and the kernel reports events. -/
structure Change (τ : Type) where
  tree : τ
  events : List FsEvent

def TreeKernel.happen {τ : Type} (k : TreeKernel τ) (c : Change τ) : TreeKernel τ :=
  { k with tree := c.tree, groups := fun fd => (k.groups fd).deliverAll c.events }

inductive TreeAction (τ : Type) where
  | change (c : Change τ)
  /-- The tree changes while the next reload sleeps. -/
  | asleep (T : τ)
  /-- The length of the next `read`. -/
  | buffer (n : ℕ)
  | startEvents
  | round
  | reload

section
variable {τ : Type}

def TreeAction.action (k : TreeKernel τ) : TreeAction τ → Action (TreeKernel τ)
  | .change c => .world (k.happen c)
  | .asleep T => .world { k with meanwhile := some T }
  | .buffer n => .world { k with readLen := n }
  | .startEvents => .startEvents
  | .round => .round
  | .reload => .reload

variable [DirTree τ]

def stepIn (t : UserTable) (fd : ℕ) (σ : Phase (TreeKernel τ)) (a : TreeAction τ) :
    Option (Phase (TreeKernel τ)) :=
  step t fd σ (a.action σ.1.kernel)

/-- A table that has not been loaded, with a new descriptor in a kernel over the tree. -/
structure FreshIn (fd : ℕ) (T : τ) (s : DaemonState (TreeKernel τ)) : Prop extends
    Fresh fd s where
  tree : s.kernel.tree = T
  meanwhile : s.kernel.meanwhile = none
  group : s.kernel.groups fd = {}

def StartedIn (t : UserTable) (fd : ℕ) (s : DaemonState (TreeKernel τ)) : Prop :=
  ∃ T s₀, FreshIn fd T s₀ ∧ load t s₀ = .ok () s

/-- Once all events have been processed, the watched paths are those of a fresh `Load`. -/
def FollowsTree (t : UserTable) (fd : ℕ) (σ : Phase (TreeKernel τ)) : Prop :=
  (σ.1.kernel.groups fd).queue = [] → σ.1.inotify.events = [] →
    ∀ fd' s, FreshIn fd' σ.1.kernel.tree s →
      ∃ s', load t s = .ok () s' ∧ ∀ path, Watched fd' s' path ↔ Watched fd σ.1 path

/-! ## Changes that are noticed -/

/-- An event of a new directory is still to be handled for a watch in `m_map`. -/
def Pending (fd : ℕ) (s : DaemonState (TreeKernel τ)) : Prop :=
  ∃ x ∈ s.inotify.events ++ kept (masks s.watchHeap) s.inotify.watches (s.kernel.groups fd).queue,
    isNewDir x.mask = true ∧ x.watch ∈ s.map

/-- One of the events reports a new directory, and the directory in which it has appeared has a
mark that selects it. -/
def Reported (G : NotifyGroup) (events : List FsEvent) : Prop :=
  ∃ before e after, events = before ++ e :: after ∧ isNewDir e.mask = true ∧
    isType e.mask inIgnored = false ∧
      ∃ m, (G.deliverAll before).find e.inode = some m ∧ NotifyGroup.Selects m e

/-- `Load` sees nothing of the change, and no mark is dropped. -/
def Unseen (t : UserTable) (fd : ℕ) (k : TreeKernel τ) (c : Change τ) : Prop :=
  seen t c.tree = seen t k.tree ∧
    ((k.groups fd).deliverAll c.events).marks = (k.groups fd).marks

/-- The changes are reported, unless a report is pending or there is nothing to report; and no
report is discarded because the access is denied. -/
def Noticed (t : UserTable) (fd : ℕ) (σ : Phase (TreeKernel τ)) : TreeAction τ → Prop
  | .change c => Pending fd σ.1 ∨ Reported (σ.1.kernel.groups fd) c.events ∨
      Unseen t fd σ.1.kernel c
  | .round => ∀ e q, σ.1.inotify.events = e :: q → isNewDir e.mask = true →
      e.watch ∈ σ.1.map → (access t σ.1 e).2 = true
  | _ => True

end

/-! ## The invariant -/

section
variable {τ : Type} [DirTree τ] {t : UserTable} {fd : ℕ} {s : DaemonState (TreeKernel τ)}

/-- The table is in step with the tree, or it will be reloaded. -/
structure Following (t : UserTable) (fd : ℕ) (s : DaemonState (TreeKernel τ)) : Prop where
  linked : Linked fd s
  state : Synced t fd s ∨ Pending fd s

theorem Following.prepare (h : Following t fd s) (n : ℕ) (T : Option τ) :
    Following t fd { s with kernel := { s.kernel with readLen := n, meanwhile := T } } :=
  ⟨h.linked, h.state.imp (fun h => ⟨h.active, h.paths, h.file⟩) id⟩

theorem Following.happen (h : Following t fd s) (hloaded : Loaded t fd s) {c : Change τ}
    (hc : Pending fd s ∨ Reported (s.kernel.groups fd) c.events ∨ Unseen t fd s.kernel c) :
    Following t fd { s with kernel := s.kernel.happen c } := by
  obtain ⟨hlinked, hstate⟩ := h
  have hpending : Pending fd s → Pending fd { s with kernel := s.kernel.happen c } := by
    rintro ⟨x, hx, hx'⟩
    refine ⟨x, ?_, hx'⟩
    rw [List.mem_append] at hx ⊢
    exact hx.imp id fun hx => NotifyGroup.mem_kept_deliverAll hx _
  refine ⟨hlinked.deliverAll c.events, ?_⟩
  rcases hc with hc | ⟨before, e, after, hevents, hdir, hignored, m, hfind, hselects⟩ |
    ⟨hseen, hmarks⟩
  · exact .inr (hpending hc)
  · -- the event comes to the watch of the mark
    obtain ⟨p, hp, hmem⟩ := (hlinked.deliverAll before).kept_deliver hfind hselects hignored
    have hall : (s.kernel.happen c).groups fd =
        (((s.kernel.groups fd).deliverAll before).deliver e).deliverAll after := by
      change (s.kernel.groups fd).deliverAll c.events = _
      rw [hevents, NotifyGroup.deliverAll, List.foldl_append]
      rfl
    have hbound : p ∈ s.map := ((hloaded.indexed.watches m.wd p).mp hp).1
    refine .inr ⟨queuedEvent (NotifyGroup.rawEvent m e) p, List.mem_append_right _ ?_, hdir, hbound⟩
    simp only [hall]
    exact NotifyGroup.mem_kept_deliverAll hmem after
  · rcases hstate with hsynced | hold
    · left
      have hlast : ((s.kernel.happen c).groups fd).lastTracked (masks s.watchHeap)
          s.inotify.watches = (s.kernel.groups fd).lastTracked (masks s.watchHeap)
            s.inotify.watches := hlinked.lastTracked_deliverAll hmarks
      constructor
      · intro p hp
        simp only [hlast]
        exact hsynced.active p hp
      · intro path
        change _ ↔ watchedPaths (seen t c.tree).2 path
        rw [hseen]
        exact hsynced.paths path
      · change Parses (seen t c.tree).1
        rw [hseen]
        exact hsynced.file
    · exact .inr (hpending hold)

theorem Following.read (h : Following t fd s) (hloaded : Loaded t fd s) (n : ℕ) :
    Following t fd (((s.kernel.groups fd).queue.take n).foldl queued { s with
      kernel := s.kernel.setGroup fd { s.kernel.groups fd with
        queue := (s.kernel.groups fd).queue.drop n } }) := by
  obtain ⟨hlinked, hstate⟩ := h
  let G := s.kernel.groups fd
  let s₁ := { s with kernel := s.kernel.setGroup fd { G with queue := G.queue.drop n } }
  let s₂ := (G.queue.take n).foldl queued s₁
  obtain ⟨-, hw, hevents, hwatches⟩ :=
    forM_queueEvent (s := s₁) hloaded.indexed (G.queue.take n)
  have hmasks : masks s₂.watchHeap = masks s.watchHeap := masks_foldl_queued _ s₁
  have hkernel : s₂.kernel = s₁.kernel := foldl_queued_kernel _ s₁
  have hwatches : s₂.inotify.watches =
      (G.queue.take n).foldl (trackedAfter (masks s.watchHeap)) s.inotify.watches := hwatches
  have hgroup : s₂.kernel.groups fd = { G with queue := G.queue.drop n } := by
    rw [hkernel]
    exact TreeKernel.setGroup_groups ..
  have htree : s₂.kernel.tree = s.kernel.tree := by rw [hkernel]; rfl
  change Following t fd s₂
  constructor
  · rw [Linked, hgroup, hmasks, hwatches]
    exact hlinked.read n
  · rcases hstate with hsynced | ⟨x, hx, hdir, hbound⟩
    · left
      constructor
      · intro p hp
        rw [hw.map] at hp
        rw [hgroup, hmasks, hwatches, NotifyGroup.lastTracked_read]
        exact hsynced.active p hp
      · intro path
        have hpath : ∀ p, (s₂.watchHeap.cell p).path = (s.watchHeap.cell p).path := hw.path
        rw [htree, hw.map, ← hsynced.paths path]
        simp only [hpath]
        rfl
      · rw [htree]
        exact hsynced.file
    · right
      refine ⟨x, ?_, hdir, by rw [hw.map]; exact hbound⟩
      have hkept : s₂.inotify.events ++
          kept (masks s₂.watchHeap) s₂.inotify.watches (s₂.kernel.groups fd).queue =
          s.inotify.events ++ kept (masks s.watchHeap) s.inotify.watches G.queue := by
        rw [hgroup, hmasks, hwatches, ← NotifyGroup.kept_read G _ _ n, ← List.append_assoc]
        exact congrArg (· ++ _) hevents
      rw [hkept]
      exact hx

theorem Following.post_startEvents (h : Following t fd s) (hloaded : Loaded t fd s) :
    Post (startEvents fd) s (fun _ s' => Following t fd s') fun _ _ => True := by
  refine (hloaded.post_startEvents (post_waitForEvents_queued hloaded.opened
    hloaded.indexed)).imp_any fun _ s' hs' => ?_
  obtain ⟨-, hs'⟩ := hs'
  let G := s.kernel.groups fd
  let len := max 1 s.kernel.readLen
  by_cases hempty : G.queue = []
  · have hanswer : System.readEvents s.kernel fd = (s.kernel, .error ewouldblock) := if_pos hempty
    rw [hanswer] at hs'
    rcases hs' with ⟨evts, hevts, -⟩ | ⟨-, rfl⟩
    · exact absurd hevts (by simp)
    · exact h
  · have hanswer : System.readEvents s.kernel fd =
        (s.kernel.setGroup fd { G with queue := G.queue.drop len }, .ok (G.queue.take len)) :=
      if_neg hempty
    rw [hanswer] at hs'
    rcases hs' with ⟨evts, hevts, rfl⟩ | ⟨hevts, -⟩
    · obtain rfl := Except.ok.inj hevts
      exact h.read hloaded len
    · exact absurd hevts (by simp)

/-! ## Rounds -/

theorem access_kernel (t : UserTable) (s : DaemonState (TreeKernel τ)) (e : InotifyEvent) :
    (access t s e).1 = s.kernel := by
  unfold access mayAccess
  split_ifs
  · rfl
  · rfl

theorem post_reload_following (h : Loaded t fd s) (hlinked : Linked fd s) :
    Post (reload t) s (fun _ s' => Following t fd s') fun _ _ => True :=
  (post_reload_synced h hlinked).imp_any fun _ _ hs' => ⟨hs'.1, .inl hs'.2⟩

/-- An event of a new directory reloads the table; nothing else matters to it. -/
theorem post_onEvent_following (hloaded : Loaded t fd s) (hlinked : Linked fd s) {e : InotifyEvent}
    (hstate : (isNewDir e.mask = true ∧ e.watch ∈ s.map) ∨ Synced t fd s ∨ Pending fd s)
    (haccess : isNewDir e.mask = true → e.watch ∈ s.map → (access t s e).2 = true) :
    Post (onEvent t e) s (fun _ s' => Following t fd s') fun _ _ => True := by
  refine (post_onEvent_cases hloaded e).imp_any fun c s' hs' => ?_
  rcases hs' with ⟨hquiet, hs'⟩ | ⟨-, -, s₁, f, hrun, -, rfl⟩
  · obtain ⟨k, hk, rfl⟩ := hs'.state
    have hsame : k = s.kernel := by
      rcases hk with rfl | rfl | rfl
      · rfl
      · exact access_kernel t s e
      · exact access_kernel t s e
    rw [hsame]
    refine ⟨hlinked, hstate.resolve_left fun hdir => hquiet ?_⟩
    exact ⟨hdir.2, haccess hdir.1 hdir.2, hdir.1⟩
  · rw [access_kernel] at hrun
    have h₁ := (post_reload_following hloaded hlinked).ok hrun
    exact ⟨h₁.linked, h₁.state.imp (fun h => ⟨h.active, h.paths, h.file⟩) id⟩

theorem Following.post_round (h : Following t fd s) {it : ℕ} (hrunning : Running t fd (s, some it))
    (hnoticed : Noticed t fd (s, some it) .round) :
    Post (round it) s (fun _ s' => Following t fd s') fun _ _ => True := by
  have hcell : s.nodeHeap.cell it = t := (hrunning.node it rfl).2
  have hloaded : Loaded t fd s := hrunning.loaded
  refine post_round_cases hcell (fun _ => h) fun e q hq => ?_
  refine post_onEvent_following (hloaded.popped it q) h.linked ?_ (hnoticed e q hq)
  rcases h.state with hsynced | ⟨x, hx, hdir, hbound⟩
  · exact .inr (.inl ⟨hsynced.active, hsynced.paths, hsynced.file⟩)
  · rw [hq, List.cons_append, List.mem_cons] at hx
    rcases hx with rfl | hx
    · exact .inl ⟨hdir, hbound⟩
    · exact .inr (.inr ⟨x, hx, hdir, hbound⟩)

/-! ## Runs -/

theorem FreshIn.post_load {T : τ} (h : FreshIn fd T s) (t : UserTable) :
    Post (load t) s (fun _ s' => Linked fd s' ∧ Synced t fd s' ∧ s'.kernel.tree = T)
      fun _ _ => ¬ Parses (seen t T).1 := by
  have htree : s.kernel.woken.tree = T := by
    rw [TreeKernel.woken, h.meanwhile]
    exact h.tree
  have hload := post_load_synced t h.sound h.map h.maps (by rw [h.group]) (by
    rw [h.group]
    exact fun e he => absurd he (by simp))
  rwa [htree] at hload

theorem StartedIn.running (h : StartedIn t fd s) : Running t fd (s, none) ∧ Following t fd s := by
  obtain ⟨T, s₀, hfresh, hload⟩ := h
  obtain ⟨hlinked, hsynced, -⟩ := (hfresh.post_load t).ok hload
  exact ⟨Started.running ⟨s₀, hfresh.toFresh, hload⟩, hlinked, .inl hsynced⟩

theorem following_step (σ : Phase (TreeKernel τ)) (a : TreeAction τ) (σ' : Phase (TreeKernel τ))
    (h : Running t fd σ ∧ Following t fd σ.1) (hnoticed : Noticed t fd σ a)
    (hstep : stepIn t fd σ a = some σ') : Running t fd σ' ∧ Following t fd σ'.1 := by
  obtain ⟨hrunning, hfollowing⟩ := h
  refine ⟨running_step σ _ σ' hrunning hstep, ?_⟩
  obtain ⟨s, it⟩ := σ
  obtain ⟨s', it'⟩ := σ'
  have hloaded : Loaded t fd s := hrunning.loaded
  cases a with
  | change c =>
    obtain ⟨rfl, -⟩ := Prod.mk.inj (Option.some.inj hstep)
    exact hfollowing.happen hloaded hnoticed
  | asleep T =>
    obtain ⟨rfl, -⟩ := Prod.mk.inj (Option.some.inj hstep)
    exact hfollowing.prepare _ _
  | buffer n =>
    obtain ⟨rfl, -⟩ := Prod.mk.inj (Option.some.inj hstep)
    exact hfollowing.prepare _ _
  | startEvents =>
    obtain ⟨-, hx⟩ := step_startEvents hstep
    exact (hfollowing.post_startEvents hloaded).ok hx
  | round =>
    obtain ⟨n, r, rfl, hx, -⟩ := step_round hstep
    exact (hfollowing.post_round hrunning hnoticed).ok hx
  | reload =>
    obtain ⟨-, hx, -⟩ := step_reload hstep
    exact (post_reload_following hloaded hfollowing.linked).ok hx

/-- In every run whose changes are noticed, the watched paths follow the tree. -/
theorem followsTree_of_run {s₀ : DaemonState (TreeKernel τ)} (hs₀ : StartedIn t fd s₀)
    {as : List (TreeAction τ)} {σ : Phase (TreeKernel τ)}
    (hnoticed : Meets (stepIn t fd) (Noticed t fd) (s₀, none) as)
    (hrun : Transition.run (stepIn t fd) (s₀, none) as = some σ) : FollowsTree t fd σ := by
  obtain ⟨hrunning, hfollowing⟩ := run_invariant_of_meets following_step hs₀.running hnoticed hrun
  intro hqueue hevents fd' s hfresh
  have hsynced : Synced t fd σ.1 := by
    refine hfollowing.state.resolve_right ?_
    rintro ⟨x, hx, -⟩
    rw [hqueue, hevents] at hx
    exact absurd hx (by simp [kept])
  have hpost := hfresh.post_load t
  have hloads : (∃ a s', load t s = .ok a s') ↔ Parses (seen t σ.1.kernel.tree).1 :=
    hpost.exists_ok_iff (fun _ _ h => h.2.2 ▸ h.2.1.file) fun _ _ h => h
  obtain ⟨_, s', hs'⟩ := hloads.mpr hsynced.file
  obtain ⟨hlinked', hsynced', htree⟩ := hpost.ok hs'
  have hloaded' : Loaded t fd' s' := (Started.running ⟨s, hfresh.toFresh, hs'⟩).loaded
  refine ⟨s', hs', fun path => ?_⟩
  rw [hsynced.watched_iff hrunning.loaded.toSound hfollowing.linked,
    hsynced'.watched_iff hloaded'.toSound hlinked', htree]

end

/-! ## A new sub-directory -/

/-- The table file, and directories without hidden ones; the inode of a path is its place. -/
structure SmallTree where
  file : Str
  dirs : List Str

def SmallTree.listed (T : SmallTree) (cmd : Str) : List Str :=
  T.dirs.filter fun dir => T.dirs.any fun root =>
    cmd = Executor.getSubDirCmd root false && (dir = root || (root ++ ['/']).isPrefixOf dir)

instance : DirTree SmallTree where
  inode T path _ := T.dirs.findIdx? (· = path)
  find T cmd := some ((T.listed cmd).flatMap (· ++ ['\n']))
  readFile T _ := some T.file
  mayAccess _ _ _ _ := true
  order l := l
  order_perm l := List.Perm.refl l

def constructedIn (T : SmallTree) : DaemonState (TreeKernel SmallTree) where
  kernel := { tree := T, readLen := 16 }
  watchHeap := default
  entryHeap := default
  nodeHeap := default
  inotify := { this := 0, fd := some 3, watches := ∅, paths := ∅, events := [] }
  tab := []
  map := ∅
  maps := ∅
  faults := []

theorem freshIn_constructedIn (T : SmallTree) : FreshIn 3 T (constructedIn T) :=
  ⟨⟨rfl, rfl, rfl, rfl, rfl, rfl, rfl, rfl, rfl, Heap.Valid.default, rfl⟩, rfl, rfl, rfl⟩

def startIn (T : SmallTree) : Option (DaemonState (TreeKernel SmallTree)) :=
  match load systemTable (constructedIn T) with
  | .ok () s => some s
  | .error _ _ => none

theorem startedIn_of_startIn {T : SmallTree} {s : DaemonState (TreeKernel SmallTree)}
    (h : startIn T = some s) : StartedIn systemTable 3 s := by
  refine ⟨T, constructedIn T, freshIn_constructedIn T, ?_⟩
  unfold startIn at h
  split at h
  · next hx => rw [hx, Option.some.inj h]
  · exact absurd h (by simp)

def oneDir (mask : String) : SmallTree :=
  { file := "/d ".toList ++ mask.toList ++ " ls\n".toList, dirs := ["/d".toList] }

def makeDir (T : SmallTree) : Change SmallTree where
  tree := { T with dirs := T.dirs ++ ["/d/x".toList] }
  events := [{ inode := 0, mask := inCreate ||| inIsdir, name := "x".toList }]

def dirMade : List (TreeAction SmallTree) :=
  [.change (makeDir (oneDir "IN_CREATE")), .startEvents, .round, .round, .startEvents, .round]

/-- The mask asks for new files and directories: the new directory is watched. -/
theorem followsTree_dirMade : ∃ s₀ σ, StartedIn systemTable 3 s₀ ∧
    Transition.run (stepIn systemTable 3) (s₀, none) dirMade = some σ ∧
    FollowsTree systemTable 3 σ := by
  obtain ⟨s₀, hs₀⟩ : ∃ s₀, startIn (oneDir "IN_CREATE") = some s₀ :=
    Option.isSome_iff_exists.mp (by decide +kernel)
  have hrun : ((startIn (oneDir "IN_CREATE")).bind fun s =>
      Transition.run (stepIn systemTable 3) (s, none) dirMade).isSome = true := by decide +kernel
  have hfind : (startIn (oneDir "IN_CREATE")).map (fun s => (s.kernel.groups 3).find 0) =
      some (some { inode := 0, wd := 1, mask := inCreate }) := by decide +kernel
  rw [hs₀] at hrun hfind
  obtain ⟨σ, hσ⟩ := Option.isSome_iff_exists.mp hrun
  have hreported : Reported (s₀.kernel.groups 3) (makeDir (oneDir "IN_CREATE")).events :=
    ⟨[], _, [], rfl, by decide, by decide, _, Option.some.inj hfind, .inl (by decide)⟩
  -- a system table may access everything
  have hround : ∀ σ, Noticed systemTable 3 σ (.round : TreeAction SmallTree) :=
    fun _ _ _ _ _ _ => rfl
  have hnoticed : Meets (stepIn systemTable 3) (Noticed systemTable 3) (s₀, none) dirMade := by
    refine ⟨.inr (.inl hreported), fun _ _ => ⟨trivial, fun _ _ => ⟨hround _, fun _ _ => ?_⟩⟩⟩
    exact ⟨hround _, fun _ _ => ⟨trivial, fun _ _ => ⟨hround _, fun _ _ => trivial⟩⟩⟩
  have hstarted := startedIn_of_startIn hs₀
  exact ⟨s₀, σ, hstarted, hσ, followsTree_of_run hstarted hnoticed hσ⟩

/-- The mask of the table asks for closed files only: the new directory is never watched. -/
theorem not_followsTree_closeWrite : ∃ (s₀ : DaemonState (TreeKernel SmallTree))
    (σ : Phase (TreeKernel SmallTree)), StartedIn systemTable 3 s₀ ∧ Watched 3 s₀ "/d".toList ∧
    Transition.run (stepIn systemTable 3) (s₀, none)
      [.change (makeDir (oneDir "IN_CLOSE_WRITE"))] = some σ ∧
    ¬ FollowsTree systemTable 3 σ := by
  let c := makeDir (oneDir "IN_CLOSE_WRITE")
  obtain ⟨s₀, hs₀⟩ : ∃ s₀, startIn (oneDir "IN_CLOSE_WRITE") = some s₀ :=
    Option.isSome_iff_exists.mp (by decide +kernel)
  have hquiet : (startIn (oneDir "IN_CLOSE_WRITE")).map (fun s => decide (
      ((s.kernel.happen (makeDir (oneDir "IN_CLOSE_WRITE"))).groups 3).queue = [] ∧
        s.inotify.events = [] ∧ Watched 3 s "/d".toList ∧
          ¬ Watched 3 { s with kernel := s.kernel.happen (makeDir (oneDir "IN_CLOSE_WRITE")) }
            "/d/x".toList)) = some true := by decide +kernel
  have hfresh : (startIn c.tree).map (fun s => decide (Watched 3 s "/d/x".toList)) =
      some true := by decide +kernel
  rw [hs₀] at hquiet
  obtain ⟨hqueue, hevents, hd, hnot⟩ := of_decide_eq_true (Option.some.inj hquiet)
  refine ⟨s₀, ({ s₀ with kernel := s₀.kernel.happen c }, none), startedIn_of_startIn hs₀, hd, rfl,
    fun hfollows => ?_⟩
  obtain ⟨s', hs', hiff⟩ := hfollows hqueue hevents 3 _ (freshIn_constructedIn c.tree)
  have hstart : startIn c.tree = some s' := by rw [startIn, hs']
  rw [hstart] at hfresh
  exact hnot ((hiff _).mp (of_decide_eq_true (Option.some.inj hfresh)))

end Incron.Daemon
