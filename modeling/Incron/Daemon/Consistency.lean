import Incron.Daemon.Disposal
import Incron.Daemon.Dispatcher

/-! Between two polls `g_ut`, `m_maps` and the poll array are in step: each table is registered
under the descriptor of its own `Inotify` object, and nothing else is. -/
namespace Incron.Dispatch
open Hoare Daemon Management

variable {κ : Type}

/-! ## The invariant -/

section
variable {d : DispatcherState κ} {path path' : Str} {p p' fd fd' : ℕ}

/-- The table at `p` belongs to the path and is registered under the descriptor `fd`. -/
structure Owned (d : DispatcherState κ) (path : Str) (p fd : ℕ) : Prop where
  live : d.tables.live p = true
  path : (d.tables.cell p).table.path = path
  this : (d.tables.cell p).table.this = p
  opened : fd ∈ d.fds
  loaded : Loaded (d.tables.cell p).table fd (d.view p)

/-- The tables of `g_ut` are registered, and no others. -/
structure Consistent (d : DispatcherState κ) : Prop where
  tables : d.tables.Valid
  nodes : d.nodeHeap.Valid
  owned : ∀ path p, d.ut.lookup path = some p → ∃ fd, Owned d path p fd
  registered : ∀ fd n, d.maps.lookup fd = some n →
    ∃ path p, d.ut.lookup path = some p ∧ Owned d path p fd

/-- The poll array is up to date. -/
structure Listed (pipeFd mgmtFd : ℕ) (d : DispatcherState κ) : Prop where
  lists : d.poll.Lists d.maps.keys
  pipeFd : d.poll.pipeFd = pipeFd
  mgmtFd : d.poll.mgmtFd = mgmtFd

/-- The node of a descriptor tells whose it is. -/
theorem Owned.node (h : Owned d path p fd) : ∃ n, d.maps.lookup fd = some n ∧
    d.nodeHeap.live n = true ∧ d.nodeHeap.cell n = (d.tables.cell p).table := h.loaded.node

theorem Owned.eq_of_fd (h : Owned d path p fd) (h' : Owned d path' p' fd) : p = p' := by
  obtain ⟨n, hn, -, hcell⟩ := h.node
  obtain ⟨n', hn', -, hcell'⟩ := h'.node
  obtain rfl := Option.some.inj (hn.symm.trans hn')
  rw [← h.this, ← h'.this, ← hcell, ← hcell']

theorem Owned.fd_eq (h : Owned d path p fd) : (d.tables.cell p).inotify.fd = some fd :=
  h.loaded.opened

theorem Owned.fd_unique (h : Owned d path p fd) (h' : Owned d path' p fd') : fd = fd' :=
  Option.some.inj (h.fd_eq.symm.trans h'.fd_eq)

theorem Owned.elsewhere {s' : DaemonState κ} {q fd' : ℕ} (h : Owned d path q fd') (hq : q ≠ p)
    (hfd : fd' ≠ fd) (hA : Apart fd (d.view p) s') (hnodes : s'.nodeHeap.Valid)
    (hother : ∀ n, d.maps.lookup fd = some n → (d.nodeHeap.cell n).this ≠ q) :
    Owned (d.put p s') path q fd' := by
  have hlive : (d.put p s').tables.live q = d.tables.live q := rfl
  refine ⟨hlive.trans h.live, by rw [table_put]; exact h.path, by rw [table_put]; exact h.this,
    h.opened, ?_⟩
  rw [table_put, view_put_of_ne hq]
  have hloaded := h.loaded
  refine ⟨⟨hloaded.opened, hloaded.indexed, hloaded.owned, hloaded.watches, hloaded.entry,
    hloaded.tab, hloaded.tabNodup, hloaded.entries, hnodes⟩, ?_⟩
  obtain ⟨n, hn, hnlive, hcell⟩ := h.node
  have hlt : n < d.nodeHeap.next := h.loaded.nodes.lt_next hnlive
  refine ⟨n, (hA.lookup fd' hfd).trans hn, hA.live n hlt hnlive fun hn' => ?_,
    (hA.cell n hlt).trans hcell⟩
  refine hother n hn' ?_
  rw [hcell, h.this]

theorem Owned.beside {q : ℕ} (h : Owned d path' q fd') (hp : Owned d path p fd) (hne : q ≠ p)
    {s' : DaemonState κ} (hA : Apart fd (d.view p) s') (hnodes : s'.nodeHeap.Valid) :
    fd' ≠ fd ∧ Owned (d.put p s') path' q fd' := by
  have hfd : fd' ≠ fd := by
    rintro rfl
    exact hne (h.eq_of_fd hp)
  refine ⟨hfd, h.elsewhere hne hfd hA hnodes fun n hn hthis => ?_⟩
  obtain ⟨n', hn', -, hcell⟩ := hp.node
  obtain rfl := Option.some.inj (hn.symm.trans hn')
  rw [hcell, hp.this] at hthis
  exact hne hthis.symm

/-- An operation that leaves a table registered keeps everything in step. -/
theorem Consistent.stays (h : Consistent d) (hut : d.ut.lookup path = some p)
    (hp : Owned d path p fd) {s' : DaemonState κ}
    (hs' : Stays (d.tables.cell p).table fd (d.view p) s') : Consistent (d.put p s') := by
  have hself : Owned (d.put p s') path p fd := by
    refine ⟨hp.live, ?_, ?_, hp.opened, ?_⟩
    · rw [table_put]
      exact hp.path
    · rw [table_put]
      exact hp.this
    · rw [table_put, view_put]
      exact hs'.loaded
  have hothers : ∀ {path' q fd'}, Owned d path' q fd' → q ≠ p →
      Owned (d.put p s') path' q fd' := by
    intro path' q fd' hq hne
    exact (hq.beside hp hne hs'.apart hs'.loaded.nodes).2
  refine ⟨h.tables.set _ _, hs'.loaded.nodes, fun path' q hq => ?_, fun fd' n hn => ?_⟩
  · by_cases hqp : q = p
    · subst hqp
      obtain ⟨fd', hq'⟩ := h.owned path' q hq
      have hpath : path' = path := hq'.path.symm.trans hp.path
      exact ⟨fd, hpath ▸ hself⟩
    · obtain ⟨fd', hq'⟩ := h.owned path' q hq
      exact ⟨fd', hothers hq' hqp⟩
  · by_cases hfd : fd' = fd
    · subst hfd
      exact ⟨path, p, hut, hself⟩
    · have hn' : d.maps.lookup fd' = some n := (hs'.apart.lookup fd' hfd).symm.trans hn
      obtain ⟨path', q, hq, hq'⟩ := h.registered fd' n hn'
      refine ⟨path', q, hq, hothers hq' fun hqp => ?_⟩
      subst hqp
      exact hfd (hq'.fd_unique hp)

theorem Listed.stays {pipeFd mgmtFd : ℕ} {t : UserTable} (h : Listed pipeFd mgmtFd d)
    {s' : DaemonState κ} (hs' : Stays t fd (d.view p) s') :
    Listed pipeFd mgmtFd (d.put p s') :=
  ⟨hs'.poll h.lists, hs'.apart.pipeFd.trans h.pipeFd, hs'.apart.mgmtFd.trans h.mgmtFd⟩

/-- A change of the kernel, the poll array, the faults and `g_fFinish`. -/
theorem Consistent.of_frame {d' : DispatcherState κ} (h : Consistent d)
    (hd' : d' = { d with
      kernel := d'.kernel, poll := d'.poll, finish := d'.finish, faults := d'.faults }) :
    Consistent d' := by
  have howned : ∀ {path p fd}, Owned d path p fd → Owned d' path p fd := by
    intro path p fd hp
    have hloaded : Loaded (d.tables.cell p).table fd (d'.view p) :=
      Loaded.of_frame hp.loaded (by rw [hd']; rfl)
    rw [hd'] at hloaded ⊢
    exact ⟨hp.live, hp.path, hp.this, hp.opened, hloaded⟩
  rw [hd'] at howned ⊢
  refine ⟨h.tables, h.nodes, fun path p hp => ?_, fun fd n hn => ?_⟩
  · exact (h.owned path p hp).imp fun fd hp => howned hp
  · obtain ⟨path, p, hp, hp'⟩ := h.registered fd n hn
    exact ⟨path, p, hp, howned hp'⟩

end

section
variable [DispatcherSystem κ] {D : TableDirs} {d : DispatcherState κ} {path : Str} {p fd : ℕ}
  {pipeFd mgmtFd : ℕ}

/-! ## Deleting a table -/

theorem post_destroy_apart {t : UserTable} {s : DaemonState κ} (h : Loaded t fd s) :
    Post destroy s
      (fun _ s' => Apart fd s s' ∧ s'.poll.Lists s'.maps.keys ∧ s'.maps.lookup fd = none ∧
        s'.nodeHeap.Valid)
      fun _ _ => True := by
  unfold destroy
  rw [post_bind]
  refine (post_dispose h).imp_any fun _ s₁ h₁ => ?_
  obtain ⟨-, h₁⟩ := h₁
  have hnone : (∅ : FinMap Str ℕ).entries = [] := rfl
  unfold close
  simp only [post_bind, post_get, h₁.sound.opened, h₁.cleanly.paths, hnone, List.mergeSort_nil,
    List.map_nil]
  have hA : Apart fd s₁
      { s₁ with inotify := { s₁.inotify with watches := ∅, paths := ∅, fd := none } } :=
    Apart.of_same rfl rfl rfl
  exact ⟨h₁.apart.1.trans hA, h₁.apart.2, h₁.maps, h₁.sound.nodes⟩

theorem post_deleteTable (h : Consistent d) (hL : Listed pipeFd mgmtFd d)
    (hut : d.ut.lookup path = some p) :
    Post (do deleteTable p; modify fun d => { d with ut := d.ut.erase path }) d
      (fun _ d' => Consistent d' ∧ Listed pipeFd mgmtFd d' ∧ d'.ut = d.ut.erase path)
      fun _ _ => True := by
  obtain ⟨fd, hp⟩ := h.owned path p hut
  unfold deleteTable
  simp only [post_bind, post_get, post_tryCatch, post_throw, post_onTable, post_modify, hp.fd_eq]
  refine (post_destroy_apart hp.loaded).imp_any fun _ s' hs' => ?_
  obtain ⟨hA, hlists, hgone, hnodes⟩ := hs'
  have hothers : ∀ {path' q fd'}, d.ut.lookup path' = some q → path' ≠ path →
      Owned d path' q fd' → Owned { d.put p s' with
        ut := d.ut.erase path, fds := d.fds.erase fd,
        tables := (d.put p s').tables.free p } path' q fd' := by
    intro path' q fd' hq hpath hq'
    have hne : q ≠ p := by
      rintro rfl
      exact hpath (hq'.path.symm.trans hp.path)
    obtain ⟨hfd, hput⟩ := hq'.beside hp hne hA hnodes
    refine ⟨?_, hput.path, hput.this, ?_, hput.loaded⟩
    · simp only [Heap.free_live, if_neg hne]
      exact hput.live
    · exact (List.mem_erase_of_ne hfd).mpr hq'.opened
  have hpath : ∀ {path' q}, (d.ut.erase path).lookup path' = some q →
      path' ≠ path ∧ d.ut.lookup path' = some q := by
    intro path' q hq
    rw [FinMap.lookup_erase] at hq
    split_ifs at hq with heq
    exact ⟨heq, hq⟩
  refine ⟨⟨(h.tables.set _ _).free hp.live, hnodes, fun path' q hq => ?_, fun fd' n hn => ?_⟩,
    ⟨hlists, hA.pipeFd.trans hL.pipeFd, hA.mgmtFd.trans hL.mgmtFd⟩, rfl⟩
  · obtain ⟨hne, hq⟩ := hpath hq
    exact (h.owned path' q hq).imp fun fd' hq' => hothers hq hne hq'
  · have hfd : fd' ≠ fd := by
      rintro rfl
      have hn : s'.maps.lookup fd' = some n := hn
      rw [hgone] at hn
      exact absurd hn (by simp)
    have hn' : d.maps.lookup fd' = some n := (hA.lookup fd' hfd).symm.trans hn
    obtain ⟨path', q, hq, hq'⟩ := h.registered fd' n hn'
    have hne : path' ≠ path := by
      rintro rfl
      obtain rfl := Option.some.inj (hq.symm.trans hut)
      exact hfd (hq'.fd_unique hp)
    refine ⟨path', q, ?_, hothers hq hne hq'⟩
    rw [FinMap.lookup_erase, if_neg hne]
    exact hq

/-! ## Creating a table -/

def freshObject (D : TableDirs) (dir : TableDir) (n : FileName) (p fd : ℕ) : TableObject where
  table :=
    { user := n, fSysTable := dir = .sys, sysBase := D.sysBase, userBase := D.userBase,
      this := p }
  inotify := { this := p, fd := some fd, watches := ∅, paths := ∅, events := [] }

/-- The state in which `Load` of the new table is called. -/
def created (d : DispatcherState κ) (D : TableDirs) (dir : TableDir) (n : FileName) (k : κ)
    (fd : ℕ) : DispatcherState κ :=
  { d with
    kernel := k
    fds := fd :: d.fds
    tables := d.tables.alloc (freshObject D dir n d.tables.next fd)
    ut := d.ut.insertNew (buildPath (D.base dir) n) d.tables.next }

omit [DispatcherSystem κ] in
theorem freshObject_path (dir : TableDir) (n : FileName) (p fd : ℕ) :
    (freshObject D dir n p fd).table.path = buildPath (D.base dir) n := by
  cases dir <;> rfl

omit [DispatcherSystem κ] in
theorem created_cell (dir : TableDir) (n : FileName) (k : κ) (fd : ℕ) :
    (created d D dir n k fd).tables.cell d.tables.next =
      freshObject D dir n d.tables.next fd := by
  simp [created, Heap.alloc_cell]

omit [DispatcherSystem κ] in
theorem Consistent.sound_created (h : Consistent d) (dir : TableDir) (n : FileName) (k : κ)
    (hclosed : fd ∉ d.fds) :
    Sound fd ((created d D dir n k fd).view d.tables.next) ∧ d.maps.lookup fd = none := by
  have hnone : d.maps.lookup fd = none := by
    cases hn : d.maps.lookup fd with
    | none => rfl
    | some n =>
      obtain ⟨path, p, -, hp⟩ := h.registered fd n hn
      exact absurd hp.opened hclosed
  refine ⟨?_, hnone⟩
  let s : DaemonState κ :=
    { (created d D dir n k fd).view d.tables.next with faults := [] }
  have hview : (created d D dir n k fd).tables.cell d.tables.next =
      freshObject D dir n d.tables.next fd := created_cell dir n k fd
  have hfresh : Fresh fd s := by
    refine ⟨?_, ?_, ?_, ?_, ?_, ?_, ?_, ?_, hnone, h.nodes, rfl⟩ <;>
      simp only [s, DispatcherState.view, hview] <;> rfl
  have hsound := hfresh.sound
  exact ⟨hsound.opened, hsound.indexed, hsound.owned, hsound.watches, hsound.entry, hsound.tab,
    hsound.tabNodup, hsound.entries, hsound.nodes⟩

omit [DispatcherSystem κ] in
theorem Owned.created {q fd' : ℕ} (h : Owned d path q fd') (hd : Consistent d) (dir : TableDir)
    (n : FileName) (k : κ) (fd : ℕ) :
    q ≠ d.tables.next ∧ Owned (created d D dir n k fd) path q fd' := by
  have hne : q ≠ d.tables.next := by
    rintro rfl
    have hdead := hd.tables.next_dead
    rw [h.live] at hdead
    exact Bool.noConfusion hdead
  have hcell : (Dispatch.created d D dir n k fd).tables.cell q = d.tables.cell q := by
    simp only [Dispatch.created, Heap.alloc_cell, if_neg hne]
  refine ⟨hne, ?_, by rw [hcell]; exact h.path, by rw [hcell]; exact h.this,
    List.mem_cons_of_mem _ h.opened, ?_⟩
  · simp only [Dispatch.created, Heap.alloc_live, if_neg hne]
    exact h.live
  · rw [hcell]
    refine Loaded.of_frame h.loaded ?_
    simp only [DispatcherState.view, hcell]
    rfl

omit [DispatcherSystem κ] in
theorem Consistent.put_created (h : Consistent d) {dir : TableDir} {n : FileName} {k : κ}
    (hclosed : fd ∉ d.fds) (hnone : d.maps.lookup fd = none)
    (hnew : d.ut.lookup (buildPath (D.base dir) n) = none) {s' : DaemonState κ}
    (hloaded : Loaded (freshObject D dir n d.tables.next fd).table fd s')
    (hA : Apart fd ((created d D dir n k fd).view d.tables.next) s') :
    Consistent ((created d D dir n k fd).put d.tables.next s') := by
  have hcell : (created d D dir n k fd).tables.cell d.tables.next =
      freshObject D dir n d.tables.next fd := created_cell dir n k fd
  have hself : Owned ((created d D dir n k fd).put d.tables.next s')
      (buildPath (D.base dir) n) d.tables.next fd := by
    refine ⟨?_, ?_, ?_, List.mem_cons_self, ?_⟩
    · change (created d D dir n k fd).tables.live d.tables.next = true
      simp [created, Heap.alloc_live]
    · rw [table_put, hcell]
      exact freshObject_path dir n _ fd
    · rw [table_put, hcell]
      rfl
    · rw [table_put, view_put, hcell]
      exact hloaded
  have hothers : ∀ {path' q fd'}, Owned d path' q fd' →
      Owned ((created d D dir n k fd).put d.tables.next s') path' q fd' := by
    intro path' q fd' hq
    obtain ⟨hne, hq₁⟩ := hq.created (D := D) h dir n k fd
    refine hq₁.elsewhere hne (fun hfd => ?_) hA hloaded.nodes fun m hm => ?_
    · subst hfd
      exact hclosed hq.opened
    · have hm : d.maps.lookup fd = some m := hm
      rw [hnone] at hm
      exact absurd hm (by simp)
  have hlook : ∀ path', ((created d D dir n k fd).put d.tables.next s').ut.lookup path' =
      if path' = buildPath (D.base dir) n then some d.tables.next else d.ut.lookup path' :=
    fun path' => FinMap.lookup_insertNew_of_none hnew path' _
  refine ⟨(h.tables.alloc _).set _ _, hloaded.nodes, fun path' q hq => ?_, fun fd' m hm => ?_⟩
  · rw [hlook] at hq
    split_ifs at hq with hpath
    · obtain rfl := Option.some.inj hq
      exact ⟨fd, hpath ▸ hself⟩
    · exact (h.owned path' q hq).imp fun fd' hq' => hothers hq'
  · by_cases hfd : fd' = fd
    · subst hfd
      exact ⟨_, _, by rw [hlook, if_pos rfl], hself⟩
    · have hm' : d.maps.lookup fd' = some m := (hA.lookup fd' hfd).symm.trans hm
      obtain ⟨path', q, hq, hq'⟩ := h.registered fd' m hm'
      refine ⟨path', q, ?_, hothers hq'⟩
      rw [hlook, if_neg, hq]
      rintro rfl
      rw [hnew] at hq
      exact absurd hq (by simp)

theorem post_loadTable (h : Consistent d) (hpipe : d.poll.pipeFd = pipeFd)
    (hmgmt : d.poll.mgmtFd = mgmtFd) {dir : TableDir} {n : FileName}
    (hnew : d.ut.lookup (buildPath (D.base dir) n) = none) :
    Post (loadTable D dir n) d
      (fun _ d' => Consistent d' ∧ Listed pipeFd mgmtFd d' ∧
        ∃ p, d'.ut = d.ut.insertNew (buildPath (D.base dir) n) p)
      fun _ _ => True := by
  unfold loadTable newTable
  simp only [post_bind, post_get, post_call]
  cases hinit : (DispatcherSystem.inotifyInit d.kernel d.fds).2 with
  | error errno => trivial
  | ok fd =>
    have hclosed := DispatcherSystem.init_closed d.kernel d.fds fd hinit
    simp only [post_modifyGet, post_modify, post_onTable]
    let d₁ := created d D dir n (DispatcherSystem.inotifyInit d.kernel d.fds).1 fd
    obtain ⟨hsound, hnone⟩ := h.sound_created (D := D) dir n d₁.kernel hclosed
    have hcell : d₁.tables.cell d.tables.next = freshObject D dir n d.tables.next fd :=
      created_cell dir n _ fd
    change Post (load (d₁.tables.cell d.tables.next).table) (d₁.view d.tables.next) _ _
    have hmap : (d₁.view d.tables.next).map = ∅ := by
      simp only [DispatcherState.view, hcell]
      rfl
    refine (post_load_apart hsound hmap hnone).imp_any fun _ s' hs' => ?_
    obtain ⟨hloaded, hA, hlists, -⟩ := hs'
    rw [hcell] at hloaded
    exact ⟨h.put_created hclosed hnone hnew hloaded hA,
      ⟨hlists, hA.pipeFd.trans hpipe, hA.mgmtFd.trans hmgmt⟩, d.tables.next, rfl⟩

/-! ## The start-up scan -/

/-- The state between two tables of the scan; the poll array need not exist yet. -/
structure Scanning (pipeFd mgmtFd : ℕ) (d : DispatcherState κ) : Prop where
  consistent : Consistent d
  pipeFd : d.poll.pipeFd = pipeFd
  mgmtFd : d.poll.mgmtFd = mgmtFd

omit [DispatcherSystem κ] in
theorem Scanning.kernel (h : Scanning pipeFd mgmtFd d) (k : κ) :
    Scanning pipeFd mgmtFd { d with kernel := k } :=
  ⟨h.consistent.of_frame rfl, h.pipeFd, h.mgmtFd⟩

/-- What the scan does with one name: nothing, or it creates the table of the name. -/
def Scans (D : TableDirs) (pipeFd mgmtFd : ℕ) (dir : TableDir) (n : FileName)
    (d d' : DispatcherState κ) : Prop :=
  Scanning pipeFd mgmtFd d' ∧
    (d'.ut = d.ut ∨ ∃ p, d'.ut = d.ut.insertNew (buildPath (D.base dir) n) p)

theorem post_loadTable_scans (h : Scanning pipeFd mgmtFd d) {dir : TableDir} {n : FileName}
    (hnew : d.ut.lookup (buildPath (D.base dir) n) = none) :
    Post (loadTable D dir n) d (fun _ d' => Scans D pipeFd mgmtFd dir n d d')
      fun _ _ => True := by
  refine (post_loadTable h.consistent h.pipeFd h.mgmtFd hnew).imp_any fun _ d' hd' => ?_
  obtain ⟨hconsistent, hlisted, hut⟩ := hd'
  exact ⟨⟨hconsistent, hlisted.pipeFd, hlisted.mgmtFd⟩, .inr hut⟩

theorem post_loadSystemTable (h : Scanning pipeFd mgmtFd d) {n : FileName}
    (hnew : d.ut.lookup (buildPath (D.base .sys) n) = none) :
    Post (loadSystemTable D n) d (fun _ d' => Scans D pipeFd mgmtFd .sys n d d')
      fun _ _ => True := by
  unfold loadSystemTable
  simp only [post_ite, post_pure]
  split_ifs
  · exact ⟨h, .inl rfl⟩
  · exact post_loadTable_scans h hnew

theorem post_loadUserTable (h : Scanning pipeFd mgmtFd d) {n : FileName}
    (hnew : d.ut.lookup (buildPath (D.base .user) n) = none) :
    Post (loadUserTable D n) d (fun _ d' => Scans D pipeFd mgmtFd .user n d d')
      fun _ _ => True := by
  unfold loadUserTable
  simp only [post_bind, post_call, post_ite, post_pure]
  split_ifs
  · exact post_loadTable_scans (h.kernel _) hnew
  · exact ⟨h.kernel _, .inl rfl⟩

omit [DispatcherSystem κ] in
/-- The loop over the names of a directory; the paths of other directories are not touched. -/
theorem post_scan {dir : TableDir} {f : FileName → Dispatch κ Unit}
    (hf : ∀ (n : FileName) d, Scanning pipeFd mgmtFd d →
      d.ut.lookup (buildPath (D.base dir) n) = none →
      Post (f n) d (fun _ d' => Scans D pipeFd mgmtFd dir n d d') fun _ _ => True)
    {names : List FileName} (hnames : names.Nodup) (h : Scanning pipeFd mgmtFd d)
    (hnew : ∀ n ∈ names, d.ut.lookup (buildPath (D.base dir) n) = none) :
    Post (names.forM f) d
      (fun _ d' => Scanning pipeFd mgmtFd d' ∧ ∀ dir' (n : FileName), dir' ≠ dir →
        d'.ut.lookup (buildPath (D.base dir') n) = d.ut.lookup (buildPath (D.base dir') n))
      fun _ _ => True := by
  induction names generalizing d with
  | nil => exact ⟨h, fun _ _ _ => rfl⟩
  | cons n names ih =>
    obtain ⟨hn, hnames⟩ := List.nodup_cons.mp hnames
    rw [List.forM, post_bind]
    refine (hf n d h (hnew n (by simp))).imp_any fun _ d₁ h₁ => ?_
    obtain ⟨h₁, hut⟩ := h₁
    have hother : ∀ path, path ≠ buildPath (D.base dir) n →
        d₁.ut.lookup path = d.ut.lookup path := by
      intro path hpath
      rcases hut with hut | ⟨p, hut⟩
      · rw [hut]
      · rw [hut, FinMap.lookup_insertNew, if_neg hpath]
    have hnew₁ : ∀ n' ∈ names, d₁.ut.lookup (buildPath (D.base dir) n') = none := by
      intro n' hn'
      rw [hother _ fun hpath => hn ((buildPath_injective D hpath).2 ▸ hn')]
      exact hnew n' (by simp [hn'])
    refine (ih hnames h₁ hnew₁).imp_any fun _ d₂ h₂ => ⟨h₂.1, fun dir' n' hdir => ?_⟩
    rw [h₂.2 dir' n' hdir]
    exact hother _ fun hpath => hdir (buildPath_injective D hpath).1

theorem post_loadUserTables {names : List FileName} (hnames : names.Nodup)
    (h : Scanning pipeFd mgmtFd d)
    (hnew : ∀ n : FileName, d.ut.lookup (buildPath (D.base .user) n) = none) :
    Post (names.forM (loadUserTable D)) d (fun _ d' => Scanning pipeFd mgmtFd d')
      fun _ _ => True := by
  have hscan := post_scan (f := loadUserTable D) (fun _ _ h hnew => post_loadUserTable h hnew)
    hnames h fun n _ => hnew n
  exact hscan.imp_any fun _ _ h₂ => h₂.1

theorem post_loadTables (h : Scanning pipeFd mgmtFd d) (hut : d.ut = ∅) :
    Post (loadTables D) d (fun _ d' => Scanning pipeFd mgmtFd d') fun _ _ => True := by
  have hnew : ∀ path, d.ut.lookup path = none := by
    intro path
    rw [hut, AList.lookup_empty]
  unfold loadTables
  simp only [post_bind, Dispatch.post_call]
  cases hnames : (DispatcherSystem.readDir d.kernel .sys).2 with
  | error errno =>
    simp only [post_bind, Dispatch.post_call]
    split
    · trivial
    · next names huser =>
      exact post_loadUserTables (DispatcherSystem.readDir_nodup _ _ _ huser)
        ((h.kernel _).kernel _) fun n => hnew _
  | ok names =>
    have hscan := post_scan (f := loadSystemTable D)
      (fun _ _ h hnew => post_loadSystemTable h hnew)
      (DispatcherSystem.readDir_nodup _ _ _ hnames)
      (h.kernel (DispatcherSystem.readDir d.kernel .sys).1) fun n _ => hnew _
    simp only [post_bind, Dispatch.post_call]
    refine hscan.imp_any fun _ d₁ h₁ => ?_
    split
    · trivial
    · next names' huser =>
      -- the second scan starts without user tables
      refine post_loadUserTables (DispatcherSystem.readDir_nodup _ _ _ huser) (h₁.1.kernel _)
        fun n => ?_
      have hother := h₁.2 .user n (by simp)
      exact hother.trans (hnew _)

theorem post_startUp (h : Scanning pipeFd mgmtFd d) (hut : d.ut = ∅) :
    Post (startUp D) d (fun _ d' => Consistent d' ∧ Listed pipeFd mgmtFd d')
      fun _ _ => True := by
  unfold startUp rebuild
  rw [post_bind]
  refine (post_loadTables h hut).imp_any fun _ d₁ h₁ => ?_
  simp only [post_modify]
  exact ⟨h₁.consistent.of_frame rfl, Poll.lists_rebuild _ _, h₁.pipeFd, h₁.mgmtFd⟩

/-! ## Between two polls -/

structure Steady (pipeFd mgmtFd : ℕ) (d : DispatcherState κ) : Prop where
  consistent : Consistent d
  listed : Listed pipeFd mgmtFd d

omit [DispatcherSystem κ] in
/-- A change that leaves the descriptors in the poll array alone. -/
theorem Steady.of_frame {d' : DispatcherState κ} (h : Steady pipeFd mgmtFd d)
    (hd' : d' = { d with
      kernel := d'.kernel, poll := d'.poll, finish := d'.finish, faults := d'.faults })
    (hpoll : d'.poll.data.map PollFd.fd = d.poll.data.map PollFd.fd)
    (hsame : d'.poll = { d.poll with data := d'.poll.data }) : Steady pipeFd mgmtFd d' := by
  refine ⟨h.consistent.of_frame hd', ⟨?_, ?_⟩, ?_, ?_⟩
  · have hmaps : d'.maps = d.maps := by rw [hd']
    rw [hsame, hmaps]
    exact h.listed.lists.size
  · have hmaps : d'.maps = d.maps := by rw [hd']
    rw [hpoll, hmaps, h.listed.lists.fds, hsame]
  · rw [hsame]
    exact h.listed.pipeFd
  · rw [hsame]
    exact h.listed.mgmtFd

theorem post_loadTable_steady (h : Steady pipeFd mgmtFd d) {dir : TableDir} {n : FileName}
    (hnew : d.ut.lookup (buildPath (D.base dir) n) = none) :
    Post (loadTable D dir n) d (fun _ d' => Steady pipeFd mgmtFd d') fun _ _ => True :=
  (post_loadTable h.consistent h.listed.pipeFd h.listed.mgmtFd hnew).imp_any
    fun _ _ hd' => ⟨hd'.1, hd'.2.1⟩

theorem post_processMgmtEvent (h : Steady pipeFd mgmtFd d) (e : MgmtEvent) :
    Post (processMgmtEvent D e) d (fun _ d' => Steady pipeFd mgmtFd d') fun _ _ => True := by
  unfold processMgmtEvent
  rw [post_ite]
  split
  · exact h.of_frame rfl rfl rfl
  cases e.name with
  | none => exact h
  | some n =>
    simp only
    rw [post_ite]
    split
    · exact h
    simp only [post_bind, post_get]
    cases hut : d.ut.lookup (buildPath (D.base e.watch) n) with
    | some pUt =>
      obtain ⟨fd, hp⟩ := h.consistent.owned _ _ hut
      simp only [post_ite, post_onTable]
      split_ifs
      · exact (post_reload_stays hp.loaded).imp_any fun _ s' hs' =>
          ⟨h.consistent.stays hut hp hs', h.listed.stays hs'⟩
      · exact (post_deleteTable h.consistent h.listed hut).imp_any
          fun _ _ hd' => ⟨hd'.1, hd'.2.1⟩
      · exact h
    | none =>
      simp only
      rw [post_ite]
      split
      · cases hwatch : e.watch with
        | sys =>
          rw [hwatch] at hut
          exact post_loadTable_steady h hut
        | user =>
          rw [hwatch] at hut
          simp only [post_bind, Dispatch.post_call, post_ite, post_pure]
          have hcall : Steady pipeFd mgmtFd
              { d with kernel := (DispatcherSystem.checkUser d.kernel n).1 } :=
            h.of_frame rfl rfl rfl
          split
          · exact post_loadTable_steady hcall hut
          · exact hcall
      · exact h

theorem post_processMgmtEvents (h : Steady pipeFd mgmtFd d) :
    Post (processMgmtEvents D) d (fun _ d' => Steady pipeFd mgmtFd d') fun _ _ => True := by
  unfold processMgmtEvents
  simp only [post_bind, Dispatch.post_call]
  cases (DispatcherSystem.readMgmt d.kernel).2 with
  | error errno => trivial
  | ok evts =>
    have hstart : Steady pipeFd mgmtFd
        { d with kernel := (DispatcherSystem.readMgmt d.kernel).1 } := h.of_frame rfl rfl rfl
    exact Post.forM_invariant (fun e _ _ h' => post_processMgmtEvent h' e) hstart

theorem post_processTable (h : Steady pipeFd mgmtFd d) (fd : ℕ) :
    Post (processTable fd) d
      (fun _ d' => Steady pipeFd mgmtFd d' ∧ d'.poll.size = d.poll.size) fun _ _ => True := by
  unfold processTable
  simp only [post_bind, post_get]
  cases hn : d.maps.lookup fd with
  | none => exact ⟨h, rfl⟩
  | some n =>
    obtain ⟨path, p, hut, hp⟩ := h.consistent.registered fd n hn
    obtain ⟨n', hn', -, hcell⟩ := hp.node
    obtain rfl := Option.some.inj (hn.symm.trans hn')
    simp only [post_bind, post_get, hcell, hp.this, post_onTable]
    refine (post_startEvents_stays hp.loaded).imp_any fun it s₁ h₁ => ?_
    obtain ⟨h₁, n, rfl, hlt, hcell₁⟩ := h₁
    simp only [post_bind, post_get, post_pure]
    refine (post_drain_stays _ h₁.loaded hlt hcell₁).imp_any fun _ s₂ h₂ => ?_
    have hlisted := h.listed.stays (h₁.trans h₂)
    refine ⟨⟨h.consistent.stays hut hp (h₁.trans h₂), hlisted⟩, ?_⟩
    have hkeys : (d.put p s₂).maps.keys.length = d.maps.keys.length :=
      (h₁.trans h₂).length_keys hp.loaded
    rw [hlisted.lists.size, h.listed.lists.size, hkeys]

omit [DispatcherSystem κ] in
theorem map_fd_modify (data : List PollFd) (i : ℕ) :
    (data.modify i fun pfd => { pfd with revents := 0 }).map PollFd.fd =
      data.map PollFd.fd := by
  induction data generalizing i with
  | nil => simp
  | cons pfd data ih =>
    cases i with
    | zero => rfl
    | succ i => rw [List.modify_succ_cons, List.map_cons, List.map_cons, ih]

omit [DispatcherSystem κ] in
theorem post_clearEvents (h : Steady pipeFd mgmtFd d) (i : ℕ) :
    Post (clearEvents i) d (fun _ d' => Steady pipeFd mgmtFd d') fun _ _ => True := by
  unfold clearEvents
  simp only [post_modify]
  exact h.of_frame rfl (map_fd_modify _ i) rfl

theorem post_processEntry (h : Steady pipeFd mgmtFd d) (i : ℕ) :
    Post (processEntry i) d
      (fun _ d' => Steady pipeFd mgmtFd d' ∧ d'.poll.size = d.poll.size) fun _ _ => True := by
  unfold processEntry
  simp only [post_bind, post_get, post_ite, post_pure]
  split_ifs
  · cases d.poll.data[i]? with
    | none => exact ⟨post_clearEvents h i, rfl⟩
    | some pfd =>
      simp only [post_bind]
      exact (post_processTable h pfd.fd).imp_any
        fun _ _ h₁ => ⟨post_clearEvents h₁.1 i, h₁.2⟩
  · exact ⟨h, trivial⟩

theorem post_processEntries (n i : ℕ) (h : Steady pipeFd mgmtFd d) :
    Post (processEntries n i) d (fun _ d' => Steady pipeFd mgmtFd d') fun _ _ => True := by
  induction n generalizing d i with
  | zero => exact h
  | succ n ih =>
    unfold processEntries
    simp only [post_bind, post_get, post_ite, post_pure]
    split_ifs
    · exact (post_processEntry h i).imp_any fun _ _ h₁ => ih (i + 1) h₁.1
    · exact h

theorem processEntries_succ (n i : ℕ) (d : DispatcherState κ) : processEntries (n + 1) i d =
    if i < d.poll.size then (processEntry i >>= fun _ => processEntries n (i + 1)) d
    else .ok () d := by
  rw [processEntries, get_bind]
  split_ifs
  · rfl
  · rfl

/-- The loop ends because of its condition, not because of the number of passes. -/
theorem processEntries_fuel {n i : ℕ} (h : Steady pipeFd mgmtFd d) (hn : d.poll.size ≤ i + n) :
    processEntries (n + 1) i d = processEntries n i d := by
  induction n generalizing d i with
  | zero =>
    rw [processEntries_succ, if_neg (by omega)]
    rfl
  | succ n ih =>
    rw [processEntries_succ, processEntries_succ n]
    congr 1
    refine Post.bind_congr ((post_processEntry h i).imp (fun _ d₁ h₁ => ?_))
    obtain ⟨h₁, hsize⟩ := h₁
    exact ih h₁ (by omega)

theorem post_processEvents (h : Steady pipeFd mgmtFd d) :
    Post (processEvents D) d (fun _ d' => Steady pipeFd mgmtFd d') fun _ _ => True := by
  have hrest : ∀ d₁ : DispatcherState κ, Steady pipeFd mgmtFd d₁ →
      Post (do
        if readable (← get).poll 1 then
          processMgmtEvents D
          clearEvents 1
        processEntries (← get).poll.size 2
        return readable d.poll 0) d₁ (fun _ d' => Steady pipeFd mgmtFd d') fun _ _ => True := by
    intro d₁ h₁
    simp only [post_bind, post_get, post_ite, post_pure]
    split_ifs
    · refine (post_processMgmtEvents h₁).imp_any fun _ d₂ h₂ => ?_
      refine (post_clearEvents h₂ 1).imp_any fun _ d₃ h₃ => ?_
      exact post_processEntries _ _ h₃
    · exact post_processEntries _ _ h₁
  unfold processEvents
  simp only [post_bind, post_get, post_ite, post_pure] at hrest ⊢
  by_cases hpipe : readable d.poll 0 = true
  · rw [if_pos hpipe]
    exact (post_clearEvents h 0).imp_any fun _ d₁ h₁ => hrest d₁ h₁
  · rw [if_neg hpipe]
    exact hrest d h

/-! ## Runs -/

structure Initial (pipeFd mgmtFd : ℕ) (d : DispatcherState κ) : Prop where
  tables : d.tables = default
  nodes : d.nodeHeap = default
  maps : d.maps = ∅
  ut : d.ut = ∅
  poll : d.poll = { pipeFd := pipeFd, mgmtFd := mgmtFd }

/-- The tables in `m_maps` are those in `g_ut`, each once and under the descriptor of its own
`Inotify` object, and the poll array lists the pipe, the management descriptor and every
registered descriptor once. -/
structure Agrees (pipeFd mgmtFd : ℕ) (d : DispatcherState κ) : Prop where
  registered : ∀ path p, d.ut.lookup path = some p → d.tables.live p = true ∧
    ∃ fd n, (d.tables.cell p).inotify.fd = some fd ∧ d.maps.lookup fd = some n ∧
      d.nodeHeap.live n = true ∧ (d.nodeHeap.cell n).this = p
  held : ∀ fd n, d.maps.lookup fd = some n →
    (d.tables.cell (d.nodeHeap.cell n).this).inotify.fd = some fd ∧
      ∃ path, d.ut.lookup path = some (d.nodeHeap.cell n).this
  heldOnce : ∀ path path' p, d.ut.lookup path = some p → d.ut.lookup path' = some p →
    path = path'
  registeredOnce : ∀ fd fd' n n', d.maps.lookup fd = some n → d.maps.lookup fd' = some n' →
    (d.nodeHeap.cell n).this = (d.nodeHeap.cell n').this → fd = fd'
  size : d.poll.size = d.maps.keys.length + 2 ∧ d.poll.data.length = d.poll.size
  pipe : (d.poll.data.map PollFd.fd)[0]? = some pipeFd
  mgmt : (d.poll.data.map PollFd.fd)[1]? = some mgmtFd
  listed : ((d.poll.data.map PollFd.fd).drop 2).Nodup ∧
    ∀ fd, fd ∈ (d.poll.data.map PollFd.fd).drop 2 ↔ fd ∈ d.maps

omit [DispatcherSystem κ] in
theorem Initial.scanning (h : Initial pipeFd mgmtFd d) : Scanning pipeFd mgmtFd d := by
  refine ⟨⟨?_, ?_, fun path p hp => ?_, fun fd n hn => ?_⟩, ?_, ?_⟩
  · rw [h.tables]
    exact Heap.Valid.default
  · rw [h.nodes]
    exact Heap.Valid.default
  · rw [h.ut] at hp
    exact absurd hp (by simp)
  · rw [h.maps] at hn
    exact absurd hn (by simp)
  · rw [h.poll]
  · rw [h.poll]

omit [DispatcherSystem κ] in
theorem Steady.agrees (h : Steady pipeFd mgmtFd d) : Agrees pipeFd mgmtFd d := by
  have hnode : ∀ {fd n}, d.maps.lookup fd = some n → ∃ path p, d.ut.lookup path = some p ∧
      Owned d path p fd ∧ (d.nodeHeap.cell n).this = p := by
    intro fd n hn
    obtain ⟨path, p, hut, hp⟩ := h.consistent.registered fd n hn
    obtain ⟨n', hn', -, hcell⟩ := hp.node
    obtain rfl := Option.some.inj (hn.symm.trans hn')
    exact ⟨path, p, hut, hp, by rw [hcell, hp.this]⟩
  have hlists := h.listed.lists
  have hpipe := h.listed.pipeFd
  have hmgmt := h.listed.mgmtFd
  have hlen : d.poll.data.length = d.poll.size := by
    rw [← List.length_map PollFd.fd, hlists.fds, hlists.size]
    simp [List.length_insertionSort]
  refine ⟨fun path p hut => ?_, fun fd n hn => ?_, fun path path' p hut hut' => ?_,
    fun fd fd' n n' hn hn' hthis => ?_, ⟨hlists.size, hlen⟩, ?_, ?_, ?_⟩
  · obtain ⟨fd, hp⟩ := h.consistent.owned path p hut
    obtain ⟨n, hn, hlive, hcell⟩ := hp.node
    exact ⟨hp.live, fd, n, hp.fd_eq, hn, hlive, by rw [hcell, hp.this]⟩
  · obtain ⟨path, p, hut, hp, hthis⟩ := hnode hn
    rw [hthis]
    exact ⟨hp.fd_eq, path, hut⟩
  · obtain ⟨fd, hp⟩ := h.consistent.owned path p hut
    obtain ⟨fd', hp'⟩ := h.consistent.owned path' p hut'
    rw [← hp.path, ← hp'.path]
  · obtain ⟨path, p, -, hp, hp'⟩ := hnode hn
    obtain ⟨path', q, -, hq, hq'⟩ := hnode hn'
    have hpq : p = q := by rw [← hp', ← hq', hthis]
    rw [hpq] at hp
    exact Option.some.inj (hp.fd_eq.symm.trans hq.fd_eq)
  · rw [hlists.fds, ← hpipe]
    rfl
  · rw [hlists.fds, ← hmgmt]
    rfl
  · rw [hlists.fds]
    have hperm := List.perm_insertionSort (· ≤ ·) d.maps.keys
    exact ⟨hperm.nodup_iff.mpr d.maps.keys_nodup, fun fd => hperm.mem_iff⟩

omit [DispatcherSystem κ] in
theorem Steady.polled (h : Steady pipeFd mgmtFd d) (r : Report κ) :
    Steady pipeFd mgmtFd (polled d r) := by
  refine h.of_frame rfl ?_ rfl
  exact List.ext_getElem (by simp [Dispatch.polled]) fun i _ _ => by simp [Dispatch.polled]

theorem steady_step (d : DispatcherState κ) (r : Report κ) (d' : DispatcherState κ)
    (h : Steady pipeFd mgmtFd d) (hstep : step D d r = some d') : Steady pipeFd mgmtFd d' := by
  unfold step at hstep
  split at hstep
  · exact absurd hstep (by simp)
  · split at hstep
    · next hx =>
      obtain rfl := Option.some.inj hstep
      exact (post_processEvents (h.polled r)).ok hx
    · exact absurd hstep (by simp)

/-- After the start and any number of polls, whatever has happened to the tables and to the
watched files, the three structures agree. -/
theorem agrees_between_polls {d₀ d₁ : DispatcherState κ} {rs : List (Report κ)}
    (h₀ : Initial pipeFd mgmtFd d₀) (hstart : startUp D d₀ = .ok () d₁)
    (hrun : Transition.run (step D) d₁ rs = some d) : Agrees pipeFd mgmtFd d := by
  have h₁ := (post_startUp h₀.scanning h₀.ut).ok hstart
  exact (Transition.run_invariant steady_step ⟨h₁.1, h₁.2⟩ hrun).agrees

end

/-! ## A small host -/

/-- A host with the calls of a small system, one system table and the given management
events. -/
structure SmallHost where
  system : SmallSystem
  mgmt : List MgmtEvent := []

def fileT : FileName := ⟨"t".toList, by decide⟩

def fileU : FileName := ⟨"u".toList, by decide⟩

def onSystem {α : Type} (k : SmallHost) (r : SmallSystem × α) : SmallHost × α :=
  ({ k with system := r.1 }, r.2)

theorem le_foldr_max {l : List ℕ} {x : ℕ} (hx : x ∈ l) : x ≤ l.foldr max 0 := by
  induction l with
  | nil => exact absurd hx (by simp)
  | cons y l ih =>
    rcases List.mem_cons.mp hx with rfl | hx
    · exact Nat.le_max_left _ _
    · exact Nat.le_trans (ih hx) (Nat.le_max_right _ _)

instance : DispatcherSystem SmallHost where
  addWatch k fd path mask := onSystem k (System.addWatch k.system fd path mask)
  hasWatch k fd wd := System.hasWatch k.system fd wd
  rmWatch k fd wd := { k with system := System.rmWatch k.system fd wd }
  readEvents k fd := onSystem k (System.readEvents k.system fd)
  mayAccess k user path b := onSystem k (System.mayAccess k.system user path b)
  readFile k path := onSystem k (System.readFile k.system path)
  popen k cmd := onSystem k (System.popen k.system cmd)
  fork k := onSystem k (System.fork k.system)
  order l := l
  order_perm l := List.Perm.refl l
  inotifyInit k fds := (k, .ok (fds.foldr max 0 + 1))
  init_closed k fds fd h hmem := by
    have heq : fds.foldr max 0 + 1 = fd := Except.ok.inj h
    have hle := le_foldr_max hmem
    omega
  readDir k dir := (k, .ok (if dir = .sys then [fileT] else []))
  readDir_nodup k dir names h := by
    have heq : (if dir = .sys then [fileT] else []) = names := Except.ok.inj h
    rw [← heq]
    cases dir <;> simp
  checkUser k _ := (k, true)
  readMgmt k := ({ k with mgmt := [] }, .ok k.mgmt)

def smallDirs : TableDirs :=
  { sysBase := "/s".toList, userBase := "/u".toList, distinct := by decide }

/-- The pipe and the management object have the descriptors 3 and 4. -/
def smallInitial : DispatcherState SmallHost where
  kernel := { system := oneEntry }
  nodeHeap := default
  maps := ∅
  poll := { pipeFd := 3, mgmtFd := 4 }
  tables := default
  ut := ∅
  fds := [0, 1, 2, 3, 4]
  faults := []

/-- The table `t` is deleted and a user table `u` is created, which gets its descriptor; the
management descriptor is readable. -/
def tableReplaced : Report SmallHost where
  kernel := { system := { oneEntry with wds := [0] }, mgmt :=
    [{ watch := .sys, mask := inDelete, name := some fileT },
      { watch := .user, mask := inCloseWrite, name := some fileU }] }
  revents i := if i = 1 then pollin else 0

theorem exists_tableReplaced : ∃ d₁ d, startUp smallDirs smallInitial = .ok () d₁ ∧
    Transition.run (step smallDirs) d₁ [tableReplaced] = some d := by
  have hrun : (match startUp smallDirs smallInitial with
      | .ok () d₁ => Transition.run (step smallDirs) d₁ [tableReplaced]
      | .error _ _ => none).isSome = true := by decide +kernel
  split at hrun
  · next d₁ hstart =>
    obtain ⟨d, hd⟩ := Option.isSome_iff_exists.mp hrun
    exact ⟨d₁, d, hstart, hd⟩
  · exact absurd hrun (by simp)

theorem agrees_tableReplaced : ∃ d₁ d, startUp smallDirs smallInitial = .ok () d₁ ∧
    Transition.run (step smallDirs) d₁ [tableReplaced] = some d ∧ Agrees 3 4 d := by
  have hrun : (match startUp smallDirs smallInitial with
      | .ok () d₁ => Transition.run (step smallDirs) d₁ [tableReplaced]
      | .error _ _ => none).isSome = true := by decide +kernel
  split at hrun
  · next d₁ hstart =>
    obtain ⟨d, hd⟩ := Option.isSome_iff_exists.mp hrun
    exact ⟨d₁, d, hstart, hd, agrees_between_polls ⟨rfl, rfl, rfl, rfl, rfl⟩ hstart hd⟩
  · exact absurd hrun (by simp)

end Incron.Dispatch
