import Incron.Daemon.Rules

/-! The end of the daemon: `free_tables` gives back all that the tables have taken since the start,
whatever has been loaded, reloaded and deleted in between. -/
namespace Incron.Daemon
open Hoare

variable {κ : Type} [System κ] {t : UserTable} {fd : ℕ} {s : DaemonState κ}

/-- The last call was to remove a watch that the kernel did not have. -/
def Gone (k : κ) : Prop :=
  ∃ (k₀ : κ) (fd wd : ℕ), System.hasWatch k₀ fd wd = false ∧ k = System.rmWatch k₀ fd wd

/-- When the kernel does not have a watch, this is the last that is heard of it. -/
theorem post_disposeWatch_gone (p : ℕ) :
    Post (disposeWatch p) s (fun _ _ => True) fun e s' =>
      e = .inotify "removing watch failed" einval → Gone s'.kernel := by
  unfold disposeWatch deleteWatch remove
  simp only [post_bind, post_get, post_modify]
  cases s.inotify.fd with
  | none =>
    rw [post_throw]
    exact fun he => absurd he (by simp)
  | some fd =>
    simp only [post_bind, post_watchAt]
    cases hwd : (s.watchHeap.cell p).wd with
    | none => trivial
    | some wd =>
      simp only [post_bind, post_call, inotifyRmWatch]
      cases hhas : System.hasWatch (touch s (s.watchHeap.live p) (.watch p)).kernel fd wd with
      | true => trivial
      | false => exact fun _ => ⟨_, fd, wd, hhas, rfl⟩

theorem post_disposeWatches_gone (l : List ℕ) :
    Post (l.forM disposeWatch) s (fun _ _ => True) fun e s' =>
      e = .inotify "removing watch failed" einval → Gone s'.kernel :=
  Post.forM_invariant (I := fun _ => True) (fun p _ _ _ => post_disposeWatch_gone p) trivial

theorem post_dispose_gone :
    Post dispose s (fun _ _ => True) fun e s' =>
      e = .inotify "removing watch failed" einval → Gone s'.kernel := by
  have hloop : ∀ s : DaemonState κ,
      Post (do
        (System.order κ (← get).map.keys).forM disposeWatch
        modify fun s => { s with map := ∅ }) s (fun _ _ => True) fun e s' =>
          e = .inotify "removing watch failed" einval → Gone s'.kernel := by
    intro s
    simp only [post_bind, post_get, post_modify]
    exact post_disposeWatches_gone _
  unfold dispose unregister rebuild
  simp only [post_bind, post_get] at hloop ⊢
  cases s.inotify.fd with
  | none => exact hloop s
  | some fd =>
    simp only [post_bind, post_get]
    cases s.maps.lookup fd with
    | none => exact hloop s
    | some n => exact hloop _

/-- The destructor of a loaded table leaves no watch behind. -/
theorem post_destroy_cleanly (h : Loaded t fd s) :
    Post destroy s (fun _ s' => CleanlyDisposed s') fun _ _ => True := by
  unfold destroy
  rw [post_bind]
  refine (post_dispose h).imp_any fun _ s₁ h₁ => ?_
  have hcleanly := h₁.2.cleanly
  have hnone : (∅ : FinMap Str ℕ).entries = [] := rfl
  unfold close
  simp only [post_bind, post_get, h₁.2.sound.opened, hcleanly.paths, hnone, List.mergeSort_nil,
    List.map_nil]
  exact ⟨hcleanly.map, rfl, rfl, hcleanly.destroyed⟩

omit [System κ] in
theorem Disposing.cleanly {s₁ : DaemonState κ} (h : Disposing fd s [] s₁) :
    CleanlyDisposed { s₁ with map := ∅ } := by
  refine ⟨rfl, h.indexed.watches.eq_empty, h.indexed.paths.eq_empty, fun p hp => ?_⟩
  refine h.watches.count_freed (fun q => Bool.eq_false_iff.mpr fun hq => ?_) hp
  exact absurd (h.owned q hq) (by simp)

theorem post_destroy_unregistered (h : Sound fd s) (hmaps : s.maps.lookup fd = none) :
    Post destroy s
      (fun _ s' => KeepsWatches fd s ∧ CleanlyDisposed s' ∧
        s'.kernel = rmAll s.kernel fd (descriptors s) ∧ s' = { s with
          kernel := s'.kernel, inotify := s'.inotify, watchHeap := s'.watchHeap, map := s'.map })
      (fun _ s' => ¬ KeepsWatches fd s ∧ Gone s'.kernel) := by
  have hmem : ∀ p, p ∈ System.order κ s.map.keys ↔ p ∈ s.map.keys := fun p =>
    (System.order_perm _).mem_iff
  unfold destroy dispose unregister
  simp only [post_bind, post_get, h.opened, hmaps, post_pure, post_modify]
  refine ((post_disposeAll ⟨rfl, h.opened, rfl, h.indexed.of_mem_iff hmem, ?_, fun p hp => ?_,
    h.watches, rfl, fun _ => rfl, fun _ _ => rfl⟩).and (post_disposeWatches_gone _)).mono
      (fun _ s₁ h₁ => ?_) fun _ _ he => ?_
  · exact (System.order_perm _).nodup_iff.mpr s.map.keys_nodup
  · exact (hmem p).mpr (h.owned p hp)
  · obtain ⟨⟨hhas, h₁, hk⟩, -⟩ := h₁
    have hcleanly := h₁.cleanly
    have hnone : (∅ : FinMap Str ℕ).entries = [] := rfl
    have hpaths : s₁.inotify.paths = ∅ := hcleanly.paths
    unfold close
    simp only [post_bind, post_get, h₁.fd, hpaths, hnone, List.mergeSort_nil, List.map_nil]
    refine ⟨hhas, ⟨rfl, rfl, rfl, hcleanly.destroyed⟩, hk, ?_⟩
    rw [h₁.frame]
  · exact ⟨he.1.1, he.2 he.1.2.1⟩

end Incron.Daemon

namespace Incron.Dispatch
open Hoare Daemon Management

variable {κ : Type}

/-! ## What is held between two polls -/

/-- The open descriptors are those that were open at the start, `fds₀`, and those of the tables in
`g_ut`; a table object is in `g_ut`, or it has been destroyed and its watches with it. -/
structure Held (fds₀ : List ℕ) (d : DispatcherState κ) : Prop where
  nodup : d.fds.Nodup
  base : ∀ fd ∈ fds₀, fd ∈ d.fds
  fds : ∀ fd ∈ d.fds, fd ∈ fds₀ ∨
    ∃ path p, d.ut.lookup path = some p ∧ (d.tables.cell p).inotify.fd = some fd
  own : ∀ path p fd, d.ut.lookup path = some p → (d.tables.cell p).inotify.fd = some fd →
    fd ∉ fds₀
  tables : ∀ p, d.tables.live p = true → ∃ path, d.ut.lookup path = some p
  dead : ∀ p < d.tables.next, d.tables.live p = false → CleanlyDisposed (d.view p)

section
variable {d : DispatcherState κ} {path : Str} {p fd : ℕ} {fds₀ : List ℕ}

theorem cleanlyDisposed_of_cell {d d' : DispatcherState κ} {p : ℕ}
    (h : CleanlyDisposed (d.view p)) (hcell : d'.tables.cell p = d.tables.cell p) :
    CleanlyDisposed (d'.view p) := by
  obtain ⟨hmap, hwatches, hpaths, hdestroyed⟩ := h
  simp only [DispatcherState.view] at hmap hwatches hpaths hdestroyed
  rw [← hcell] at hmap hwatches hpaths hdestroyed
  exact ⟨hmap, hwatches, hpaths, hdestroyed⟩

theorem Held.of_same {d' : DispatcherState κ} (h : Held fds₀ d) (htables : d'.tables = d.tables)
    (hut : d'.ut = d.ut) (hfds : d'.fds = d.fds) : Held fds₀ d' := by
  refine ⟨?_, ?_, ?_, ?_, ?_, fun p hp hlive => ?_⟩
  · rw [hfds]
    exact h.nodup
  · rw [hfds]
    exact h.base
  · rw [hfds, hut, htables]
    exact h.fds
  · rw [hut, htables]
    exact h.own
  · rw [hut, htables]
    exact h.tables
  · rw [htables] at hp hlive
    exact cleanlyDisposed_of_cell (h.dead p hp hlive) (by rw [htables])

theorem Held.put (h : Held fds₀ d) (hp : d.tables.live p = true) {s' : DaemonState κ}
    (hfd : s'.inotify.fd = (d.tables.cell p).inotify.fd) : Held fds₀ (d.put p s') := by
  have hopen : ∀ q, ((d.put p s').tables.cell q).inotify.fd = (d.tables.cell q).inotify.fd := by
    intro q
    by_cases hq : q = p
    · subst hq
      simp [DispatcherState.put, hfd]
    · simp [DispatcherState.put, Heap.set_cell_of_ne _ hq]
  refine ⟨h.nodup, h.base, fun fd hmem => ?_, fun path q fd hq hfd => ?_, h.tables,
    fun q hq hlive => ?_⟩
  · refine (h.fds fd hmem).imp_right ?_
    rintro ⟨path, q, hq, hfd⟩
    exact ⟨path, q, hq, by rw [hopen]; exact hfd⟩
  · rw [hopen] at hfd
    exact h.own path q fd hq hfd
  · have hne : q ≠ p := by
      rintro rfl
      exact Bool.noConfusion (hp.symm.trans hlive)
    exact cleanlyDisposed_of_cell (h.dead q hq hlive)
      (by simp [DispatcherState.put, Heap.set_cell_of_ne _ hne])

theorem Held.created {D : TableDirs} {dir : TableDir} {n : FileName} {k : κ} (h : Held fds₀ d)
    (hd : Consistent d) (hclosed : fd ∉ d.fds)
    (hnew : d.ut.lookup (buildPath (D.base dir) n) = none) :
    Held fds₀ (Dispatch.created d D dir n k fd) := by
  have hlook : ∀ path, (Dispatch.created d D dir n k fd).ut.lookup path =
      if path = buildPath (D.base dir) n then some d.tables.next else d.ut.lookup path :=
    fun path => FinMap.lookup_insertNew_of_none hnew path _
  have hold : ∀ q, q ≠ d.tables.next →
      (Dispatch.created d D dir n k fd).tables.cell q = d.tables.cell q := by
    intro q hq
    simp only [Dispatch.created, Heap.alloc_cell, if_neg hq]
  have hne : ∀ {path q}, d.ut.lookup path = some q → q ≠ d.tables.next := by
    rintro path q hq rfl
    obtain ⟨fd', hq'⟩ := hd.owned path _ hq
    have hdead := hd.tables.next_dead
    rw [hq'.live] at hdead
    exact Bool.noConfusion hdead
  have hsome : ∀ {path q}, d.ut.lookup path = some q → path ≠ buildPath (D.base dir) n := by
    rintro path q hq rfl
    rw [hnew] at hq
    exact absurd hq (by simp)
  refine ⟨List.nodup_cons.mpr ⟨hclosed, h.nodup⟩, fun fd' hfd' => ?_, fun fd' hfd' => ?_,
    fun path q fd' hq hfd' => ?_, fun q hq => ?_, fun q hq hlive => ?_⟩
  · exact List.mem_cons_of_mem _ (h.base fd' hfd')
  · rcases List.mem_cons.mp hfd' with rfl | hfd'
    · refine .inr ⟨buildPath (D.base dir) n, d.tables.next, by rw [hlook, if_pos rfl], ?_⟩
      rw [created_cell]
      rfl
    · refine (h.fds fd' hfd').imp_right ?_
      rintro ⟨path, q, hq, hopen⟩
      refine ⟨path, q, ?_, ?_⟩
      · rw [hlook, if_neg (hsome hq), hq]
      · rw [hold q (hne hq)]
        exact hopen
  · rw [hlook] at hq
    split_ifs at hq with hpath
    · obtain rfl := Option.some.inj hq
      rw [created_cell] at hfd'
      obtain rfl := Option.some.inj hfd'
      exact fun hbase => hclosed (h.base _ hbase)
    · rw [hold q (hne hq)] at hfd'
      exact h.own path q fd' hq hfd'
  · simp only [Dispatch.created, Heap.alloc_live] at hq
    split_ifs at hq with hqn
    · exact ⟨buildPath (D.base dir) n, by rw [hlook, if_pos rfl, hqn]⟩
    · obtain ⟨path, hpath⟩ := h.tables q hq
      exact ⟨path, by rw [hlook, if_neg (hsome hpath), hpath]⟩
  · simp only [Dispatch.created, Heap.alloc_live, Heap.alloc_next] at hq hlive
    split_ifs at hlive with hqn
    exact cleanlyDisposed_of_cell (h.dead q (by omega) hlive) (hold q hqn)

theorem Held.deleted (h : Held fds₀ d) (hd : Consistent d) (hut : d.ut.lookup path = some p)
    (hp : Owned d path p fd) {s' : DaemonState κ} (hs' : CleanlyDisposed s') :
    Held fds₀ { d.put p s' with
      ut := d.ut.erase path, fds := d.fds.erase fd, tables := (d.put p s').tables.free p } := by
  have hpath : ∀ {path' q}, (d.ut.erase path).lookup path' = some q ↔
      path' ≠ path ∧ d.ut.lookup path' = some q := by
    intro path' q
    rw [FinMap.lookup_erase]
    split_ifs with heq <;> simp [heq]
  have hne : ∀ {path' q}, d.ut.lookup path' = some q → path' ≠ path → q ≠ p := by
    rintro path' q hq hpath rfl
    obtain ⟨fd', hq'⟩ := hd.owned path' q hq
    exact hpath (hq'.path.symm.trans hp.path)
  have hcell : ∀ {q}, q ≠ p → ((d.put p s').tables.free p).cell q = d.tables.cell q := by
    intro q hq
    simp [DispatcherState.put, Heap.set_cell_of_ne _ hq]
  refine ⟨h.nodup.erase fd, fun fd' hfd' => ?_, fun fd' hfd' => ?_,
    fun path' q fd' hq hfd' => ?_, fun q hq => ?_, fun q hq hlive => ?_⟩
  · refine (List.mem_erase_of_ne ?_).mpr (h.base fd' hfd')
    rintro rfl
    exact h.own path p fd' hut hp.fd_eq hfd'
  · obtain ⟨hfd, hmem⟩ := (h.nodup.mem_erase_iff).mp hfd'
    refine (h.fds fd' hmem).imp_right ?_
    rintro ⟨path', q, hq, hopen⟩
    have hpath' : path' ≠ path := by
      rintro rfl
      obtain rfl := Option.some.inj (hq.symm.trans hut)
      exact hfd (Option.some.inj (hopen.symm.trans hp.fd_eq))
    exact ⟨path', q, hpath.mpr ⟨hpath', hq⟩, by rw [hcell (hne hq hpath')]; exact hopen⟩
  · obtain ⟨hpath', hq⟩ := hpath.mp hq
    rw [hcell (hne hq hpath')] at hfd'
    exact h.own path' q fd' hq hfd'
  · simp only [Heap.free_live] at hq
    split_ifs at hq with hqp
    obtain ⟨path', hq'⟩ := h.tables q hq
    refine ⟨path', hpath.mpr ⟨?_, hq'⟩⟩
    rintro rfl
    exact hqp (Option.some.inj (hq'.symm.trans hut))
  · by_cases hqp : q = p
    · subst hqp
      obtain ⟨hmap, hwatches, hpaths, hdestroyed⟩ := hs'
      refine ⟨?_, ?_, ?_, ?_⟩ <;>
        simp only [DispatcherState.view, DispatcherState.put, Heap.free_cell,
          Heap.set_cell_self] <;>
        assumption
    · simp only [Heap.free_live, if_neg hqp] at hlive
      exact cleanlyDisposed_of_cell (h.dead q hq hlive) (hcell hqp)

end

section
variable [DispatcherSystem κ] {D : TableDirs} {d : DispatcherState κ} {path : Str} {p fd : ℕ}
  {pipeFd mgmtFd : ℕ} {fds₀ : List ℕ}

/-! ## What the operations on tables keep -/

theorem post_loadTable_held (h : Consistent d) (hheld : Held fds₀ d) {dir : TableDir}
    {n : FileName} (hnew : d.ut.lookup (buildPath (D.base dir) n) = none) :
    Post (loadTable D dir n) d (fun _ d' => Held fds₀ d') fun _ _ => True := by
  unfold loadTable newTable
  simp only [post_bind, post_get, post_call]
  cases hinit : (DispatcherSystem.inotifyInit d.kernel d.fds).2 with
  | error errno => trivial
  | ok fd =>
    have hclosed := DispatcherSystem.init_closed d.kernel d.fds fd hinit
    simp only [post_modifyGet, post_modify, post_onTable]
    let d₁ := created d D dir n (DispatcherSystem.inotifyInit d.kernel d.fds).1 fd
    obtain ⟨hsound, hnone⟩ := h.sound_created (D := D) dir n d₁.kernel hclosed
    have hcell : d₁.tables.cell d.tables.next = freshObject D dir n d.tables.next fd :=
      created_cell dir n _ fd
    have hmap : (d₁.view d.tables.next).map = ∅ := by
      simp only [DispatcherState.view, hcell]
      rfl
    have hheld₁ : Held fds₀ d₁ := hheld.created h hclosed hnew
    have hlive : d₁.tables.live d.tables.next = true := by
      simp only [d₁, created, Heap.alloc_live, if_true]
    change Post (load (d₁.tables.cell d.tables.next).table) (d₁.view d.tables.next) _ _
    exact (post_load_apart hsound hmap hnone).imp_any fun _ s' hs' => hheld₁.put hlive hs'.2.2.2

theorem post_deleteTable_held (h : Consistent d) (hheld : Held fds₀ d)
    (hut : d.ut.lookup path = some p) :
    Post (do deleteTable p; modify fun d => { d with ut := d.ut.erase path }) d
      (fun _ d' => Held fds₀ d') fun _ _ => True := by
  obtain ⟨fd, hp⟩ := h.owned path p hut
  unfold deleteTable
  simp only [post_bind, post_get, post_tryCatch, post_throw, post_onTable, post_modify, hp.fd_eq]
  exact (post_destroy_cleanly hp.loaded).imp_any fun _ s' hs' => hheld.deleted h hut hp hs'

theorem post_serveTable_held (hheld : Held fds₀ d) (hp : Owned d path p fd) :
    Post (onTable p fun _ => serveTable fd) d (fun _ d' => Held fds₀ d') fun _ _ => True := by
  rw [post_onTable]
  unfold serveTable
  rw [post_bind]
  refine (post_startEvents_stays hp.loaded).imp_any fun it s₁ h₁ => ?_
  obtain ⟨h₁, n, rfl, hlt, hcell₁⟩ := h₁
  simp only [post_bind, post_get, post_pure]
  refine (post_drain_stays _ h₁.loaded hlt hcell₁).imp_any fun _ s₂ h₂ => ?_
  exact hheld.put hp.live (h₂.loaded.opened.trans hp.fd_eq.symm)

theorem keeps_held : Keeps D (Held (κ := κ) fds₀) fun _ _ => True where
  frame _ _ _ _ h := h.of_same rfl rfl rfl
  load _ _ _ h hheld hnew := post_loadTable_held h hheld hnew
  delete _ _ _ h hheld hut := post_deleteTable_held h hheld hut
  reload _ _ _ _ hheld _ hp := by
    rw [post_onTable]
    exact (post_reload_stays hp.loaded).imp_any fun _ _ hs' =>
      hheld.put hp.live (hs'.loaded.opened.trans hp.fd_eq.symm)
  serve _ _ _ _ hheld _ hp := post_serveTable_held hheld hp
  readMgmt _ _ _ := trivial

omit [DispatcherSystem κ] in
theorem Initial.held (h : Initial pipeFd mgmtFd d) (hfds : d.fds.Nodup) : Held d.fds d := by
  refine ⟨hfds, fun _ hfd => hfd, fun _ hfd => .inl hfd, fun path p fd hp => ?_, fun p hp => ?_,
    fun p hp => ?_⟩
  · rw [h.ut] at hp
    exact absurd hp (by simp)
  · rw [h.tables] at hp
    exact absurd hp (by simp [Inhabited.default])
  · rw [h.tables] at hp
    exact absurd hp (Nat.not_lt_zero _)

/-! ## The end -/

def clear : Dispatch κ Unit :=
  modify fun d => { d with
    nodeHeap := d.nodeHeap.freeAll (d.maps.entries.map Sigma.snd)
    maps := ∅ }

def tablesInOrder (d : DispatcherState κ) : List ℕ :=
  (d.ut.entries.mergeSort fun a b => decide (¬ b.1 < a.1)).map Sigma.snd

def freeTables : Dispatch κ Unit := do
  clear
  (tablesInOrder (← get)).forM deleteTable
  modify fun d => { d with ut := ∅ }

/-- The kernel has every active watch of the tables when it is removed, one table after the
other. -/
def KeepsAll (d : DispatcherState κ) : κ → List ℕ → Prop
  | _, [] => True
  | k, p :: l => ∀ fd, (d.tables.cell p).inotify.fd = some fd →
      HasAll k fd (descriptors (d.view p)) ∧ KeepsAll d (rmAll k fd (descriptors (d.view p))) l

/-- Nothing is left of the tables: each object has been destroyed exactly once, its watches before
it, and the open descriptors are the old ones. -/
structure Released (fds₀ : List ℕ) (d : DispatcherState κ) : Prop where
  ut : d.ut = ∅
  maps : d.maps = ∅
  destroyed : ∀ p < d.tables.next, d.tables.live p = false ∧ d.tables.freed.count p = 1 ∧
    CleanlyDisposed (d.view p)
  fds : d.fds.Nodup ∧ ∀ fd, fd ∈ d.fds ↔ fd ∈ fds₀

/-- The state `d` inside the loop of `free_tables` with the tables `l` left; `d₀` is the state in
which the loop has been started. -/
structure Freeing (fds₀ : List ℕ) (d₀ : DispatcherState κ) (l : List ℕ) (d : DispatcherState κ) :
    Prop where
  maps : d.maps = ∅
  valid : d.tables.Valid
  nodup : l.Nodup
  live : ∀ p, d.tables.live p = true ↔ p ∈ l
  sound : ∀ p ∈ l, ∃ fd, Sound fd (d.view p)
  same : ∀ p ∈ l, d.tables.cell p = d₀.tables.cell p
  dead : ∀ p < d.tables.next, d.tables.live p = false → CleanlyDisposed (d.view p)
  fdsNodup : d.fds.Nodup
  fds : ∀ fd, fd ∈ d.fds ↔ fd ∈ fds₀ ∨ ∃ p ∈ l, (d₀.tables.cell p).inotify.fd = some fd
  own : ∀ p ∈ l, ∀ fd, (d₀.tables.cell p).inotify.fd = some fd → fd ∉ fds₀
  distinct : ∀ p ∈ l, ∀ q ∈ l,
    (d₀.tables.cell p).inotify.fd = (d₀.tables.cell q).inotify.fd → p = q
  faults : d.faults = d₀.faults

omit [DispatcherSystem κ] in
theorem Freeing.deleted {d₀ : DispatcherState κ} {l : List ℕ} (h : Freeing fds₀ d₀ (p :: l) d)
    (hfd : (d.tables.cell p).inotify.fd = some fd) {s' : DaemonState κ}
    (hcleanly : CleanlyDisposed s') (hs' : s' = { d.view p with
      kernel := s'.kernel, inotify := s'.inotify, watchHeap := s'.watchHeap, map := s'.map }) :
    Freeing fds₀ d₀ l
      { d.put p s' with fds := d.fds.erase fd, tables := (d.put p s').tables.free p } := by
  obtain ⟨hp, hl⟩ := List.nodup_cons.mp h.nodup
  have hne : ∀ q ∈ l, q ≠ p := fun q hq => by
    rintro rfl
    exact hp hq
  have hfd₀ : (d₀.tables.cell p).inotify.fd = some fd := by
    rw [← h.same p (by simp)]
    exact hfd
  have hcell : ∀ {q}, q ≠ p → ((d.put p s').tables.free p).cell q = d.tables.cell q := by
    intro q hq
    simp [DispatcherState.put, Heap.set_cell_of_ne _ hq]
  refine ⟨?_, (h.valid.set _ _).free ((h.live p).mpr (by simp)), hl, fun q => ?_, fun q hq => ?_,
    fun q hq => ?_, fun q hq hlive => ?_, h.fdsNodup.erase fd, fun fd' => ?_,
    fun q hq => h.own q (by simp [hq]),
    fun q hq r hr => h.distinct q (by simp [hq]) r (by simp [hr]), ?_⟩
  · change s'.maps = ∅
    rw [hs']
    exact h.maps
  · rw [Heap.free_live]
    split_ifs with hqp
    · subst hqp
      simp [hp]
    · refine (h.live q).trans ?_
      simp [hqp]
  · obtain ⟨fd', hsound⟩ := h.sound q (by simp [hq])
    refine ⟨fd', ?_⟩
    have hview : ({ d.put p s' with
        fds := d.fds.erase fd, tables := (d.put p s').tables.free p } : DispatcherState κ).view q =
          { d.view q with kernel := s'.kernel } := by
      simp only [DispatcherState.view, hcell (hne q hq)]
      simp only [DispatcherState.put]
      rw [hs']
      rfl
    rw [hview]
    exact hsound.kernel _
  · exact (hcell (hne q hq)).trans (h.same q (by simp [hq]))
  · by_cases hqp : q = p
    · subst hqp
      obtain ⟨hmap, hwatches, hpaths, hdestroyed⟩ := hcleanly
      refine ⟨?_, ?_, ?_, ?_⟩ <;>
        simp only [DispatcherState.view, DispatcherState.put, Heap.free_cell,
          Heap.set_cell_self] <;>
        assumption
    · simp only [Heap.free_live, if_neg hqp] at hlive
      exact cleanlyDisposed_of_cell (h.dead q hq hlive) (hcell hqp)
  · rw [h.fdsNodup.mem_erase_iff, h.fds]
    constructor
    · rintro ⟨hfd', hbase | ⟨q, hq, hopen⟩⟩
      · exact .inl hbase
      · rcases List.mem_cons.mp hq with rfl | hq
        · exact absurd (Option.some.inj (hopen.symm.trans hfd₀)) hfd'
        · exact .inr ⟨q, hq, hopen⟩
    · rintro (hbase | ⟨q, hq, hopen⟩)
      · refine ⟨?_, .inl hbase⟩
        rintro rfl
        exact h.own p (by simp) _ hfd₀ hbase
      · refine ⟨?_, .inr ⟨q, by simp [hq], hopen⟩⟩
        rintro rfl
        exact hne q hq (h.distinct q (by simp [hq]) p (by simp) (hopen.trans hfd₀.symm))
  · change s'.faults = _
    rw [hs']
    exact h.faults

theorem post_deleteTable_freeing {d₀ : DispatcherState κ} {l : List ℕ}
    (h : Freeing fds₀ d₀ (p :: l) d) (hfd : (d₀.tables.cell p).inotify.fd = some fd) :
    Post (deleteTable p) d
      (fun _ d' => Freeing fds₀ d₀ l d' ∧ HasAll d.kernel fd (descriptors (d₀.view p)) ∧
        d'.kernel = rmAll d.kernel fd (descriptors (d₀.view p)))
      (fun e d' => ¬ HasAll d.kernel fd (descriptors (d₀.view p)) ∧ e = .terminate ∧
        Gone d'.kernel) := by
  obtain ⟨fd', hsound⟩ := h.sound p (by simp)
  have hcell := h.same p (by simp)
  have hopen : (d.tables.cell p).inotify.fd = some fd := by
    rw [hcell]
    exact hfd
  obtain rfl : fd' = fd := Option.some.inj (hsound.opened.symm.trans hopen)
  have hdescriptors : descriptors (d.view p) = descriptors (d₀.view p) := by
    simp only [descriptors, DispatcherState.view, hcell]
  have hmaps : (d.view p).maps.lookup fd' = none := by
    change d.maps.lookup fd' = none
    rw [h.maps, AList.lookup_empty]
  unfold deleteTable
  simp only [post_bind, post_get, post_tryCatch, post_throw, post_onTable, post_modify, hopen]
  refine (post_destroy_unregistered hsound hmaps).mono (fun _ s' hs' => ?_) fun e s' he => ?_
  · obtain ⟨hkeeps, hcleanly, hkernel, hframe⟩ := hs'
    rw [KeepsWatches, hdescriptors] at hkeeps
    rw [hdescriptors] at hkernel
    exact ⟨h.deleted hopen hcleanly hframe, hkeeps, hkernel⟩
  · rw [KeepsWatches, hdescriptors] at he
    exact ⟨he.1, trivial, he.2⟩

theorem post_deleteAll {d₀ : DispatcherState κ} {l : List ℕ} (h : Freeing fds₀ d₀ l d) :
    Post (l.forM deleteTable) d
      (fun _ d' => KeepsAll d₀ d.kernel l ∧ Freeing fds₀ d₀ [] d')
      (fun e d' => ¬ KeepsAll d₀ d.kernel l ∧ e = .terminate ∧ Gone d'.kernel) := by
  induction l generalizing d with
  | nil => exact ⟨trivial, h⟩
  | cons p l ih =>
    obtain ⟨fd, hsound⟩ := h.sound p (by simp)
    have hfd : (d₀.tables.cell p).inotify.fd = some fd := by
      rw [← h.same p (by simp)]
      exact hsound.opened
    rw [List.forM, post_bind]
    refine (post_deleteTable_freeing h hfd).mono (fun _ d₁ h₁ => ?_) fun e _ he => ?_
    · obtain ⟨h₁, hhas, hkernel⟩ := h₁
      refine (ih h₁).mono (fun _ d₂ h₂ => ⟨fun fd' hfd' => ?_, h₂.2⟩) fun e _ he => ?_
      · obtain rfl := Option.some.inj (hfd.symm.trans hfd')
        exact ⟨hhas, hkernel ▸ h₂.1⟩
      · exact ⟨fun hall => he.1 (hkernel ▸ (hall fd hfd).2), he.2⟩
    · exact ⟨fun hall => he.1 (hall fd hfd).1, he.2⟩

omit [DispatcherSystem κ] in
theorem mem_tablesInOrder : p ∈ tablesInOrder d ↔ ∃ path, d.ut.lookup path = some p := by
  simp only [tablesInOrder, List.mem_map, List.mem_mergeSort]
  constructor
  · rintro ⟨⟨path, q⟩, he, rfl⟩
    exact ⟨path, AList.mem_lookup_iff.mpr he⟩
  · rintro ⟨path, hpath⟩
    exact ⟨⟨path, p⟩, AList.mem_lookup_iff.mp hpath, rfl⟩

omit [DispatcherSystem κ] in
theorem Consistent.tablesInOrder_nodup (h : Consistent d) : (tablesInOrder d).Nodup := by
  have hentries : d.ut.entries.Nodup := d.ut.nodupKeys.nodup
  refine List.Nodup.map_on ?_ ((List.mergeSort_perm _ _).nodup_iff.mpr hentries)
  rintro ⟨path, p⟩ he ⟨path', p'⟩ he' hp
  obtain rfl : p = p' := hp
  have hmem : ∀ {e}, e ∈ d.ut.entries.mergeSort (fun a b => decide (¬ b.1 < a.1)) →
      d.ut.lookup e.1 = some e.2 := fun he => AList.mem_lookup_iff.mpr (List.mem_mergeSort.mp he)
  obtain ⟨fd, hp⟩ := h.owned path p (hmem he)
  obtain ⟨fd', hp'⟩ := h.owned path' p (hmem he')
  obtain rfl : path = path' := hp.path.symm.trans hp'.path
  rfl

omit [DispatcherSystem κ] in
theorem Consistent.nodes_freeAll (h : Consistent d) :
    (d.nodeHeap.freeAll (d.maps.entries.map Sigma.snd)).Valid := by
  have hnode : ∀ e ∈ d.maps.entries, ∃ path p, Owned d path p e.1 ∧
      d.nodeHeap.live e.2 = true ∧ d.nodeHeap.cell e.2 = (d.tables.cell p).table := by
    intro e he
    have hlook : d.maps.lookup e.1 = some e.2 := AList.mem_lookup_iff.mpr he
    obtain ⟨path, p, -, hp⟩ := h.registered e.1 e.2 hlook
    obtain ⟨n, hn, hlive, hcell⟩ := hp.node
    obtain rfl := Option.some.inj (hlook.symm.trans hn)
    exact ⟨path, p, hp, hlive, hcell⟩
  refine h.nodes.freeAll (List.Nodup.map_on ?_ d.maps.nodupKeys.nodup) fun n hn => ?_
  · rintro ⟨fd, n⟩ he ⟨fd', n'⟩ he' hn
    obtain rfl : n = n' := hn
    obtain ⟨path, p, hp, -, hcell⟩ := hnode _ he
    obtain ⟨path', p', hp', -, hcell'⟩ := hnode _ he'
    obtain rfl : p = p' := by rw [← hp.this, ← hp'.this, ← hcell, ← hcell']
    obtain rfl : fd = fd' := hp.fd_unique hp'
    rfl
  · obtain ⟨e, he, rfl⟩ := List.mem_map.mp hn
    obtain ⟨path, p, -, hlive, -⟩ := hnode e he
    exact hlive

omit [DispatcherSystem κ] in
theorem Held.freeing (h : Held fds₀ d) (hd : Consistent d) :
    Freeing fds₀ d (tablesInOrder d) { d with
      nodeHeap := d.nodeHeap.freeAll (d.maps.entries.map Sigma.snd), maps := ∅ } := by
  have howned : ∀ p ∈ tablesInOrder d,
      ∃ path fd, d.ut.lookup path = some p ∧ Owned d path p fd := by
    intro p hp
    obtain ⟨path, hpath⟩ := mem_tablesInOrder.mp hp
    obtain ⟨fd, hp⟩ := hd.owned path p hpath
    exact ⟨path, fd, hpath, hp⟩
  refine ⟨rfl, hd.tables, hd.tablesInOrder_nodup, fun p => ⟨fun hp => ?_, fun hp => ?_⟩,
    fun p hp => ?_, fun _ _ => rfl,
    fun p hp hlive => cleanlyDisposed_of_cell (h.dead p hp hlive) rfl, h.nodup,
    fun fd => ⟨fun hfd => ?_, fun hfd => ?_⟩, fun p hp fd hfd => ?_, fun p hp q hq hfd => ?_, rfl⟩
  · exact mem_tablesInOrder.mpr (h.tables p hp)
  · obtain ⟨path, fd, -, hp⟩ := howned p hp
    exact hp.live
  · obtain ⟨path, fd, -, hp⟩ := howned p hp
    have hsound := hp.loaded.toSound
    exact ⟨fd, hsound.opened, hsound.indexed, hsound.owned, hsound.watches, hsound.entry,
      hsound.tab, hsound.tabNodup, hsound.entries, hd.nodes_freeAll⟩
  · refine (h.fds fd hfd).imp_right fun ⟨path, p, hp, hopen⟩ => ⟨p, ?_, hopen⟩
    exact mem_tablesInOrder.mpr ⟨path, hp⟩
  · rcases hfd with hbase | ⟨p, hp, hopen⟩
    · exact h.base fd hbase
    · obtain ⟨path, fd', -, hp⟩ := howned p hp
      obtain rfl := Option.some.inj (hp.fd_eq.symm.trans hopen)
      exact hp.opened
  · obtain ⟨path, hpath⟩ := mem_tablesInOrder.mp hp
    exact h.own path p fd hpath hfd
  · obtain ⟨path, fd, -, hp⟩ := howned p hp
    obtain ⟨path', fd', -, hq⟩ := howned q hq
    rw [hp.fd_eq, hq.fd_eq] at hfd
    obtain rfl := Option.some.inj hfd
    exact hp.eq_of_fd hq

theorem post_freeTables (hd : Consistent d) (h : Held fds₀ d) :
    Post freeTables d
      (fun _ d' => KeepsAll d d.kernel (tablesInOrder d) ∧ Released fds₀ d' ∧ d'.faults = d.faults)
      (fun e d' => ¬ KeepsAll d d.kernel (tablesInOrder d) ∧ e = .terminate ∧
        Gone d'.kernel) := by
  unfold freeTables clear
  simp only [post_bind, post_get, post_modify]
  refine (post_deleteAll (h.freeing hd)).mono (fun _ d₁ h₁ => ?_) fun e _ he => he
  obtain ⟨hkeeps, h₁⟩ := h₁
  have hdead : ∀ p, d₁.tables.live p = false := fun p =>
    Bool.eq_false_iff.mpr fun hp => absurd ((h₁.live p).mp hp) (by simp)
  refine ⟨hkeeps, ⟨rfl, h₁.maps, fun p hp => ⟨hdead p, ?_, ?_⟩, h₁.fdsNodup, fun fd => ?_⟩,
    h₁.faults⟩
  · exact h₁.valid.count_freed hdead hp
  · exact cleanlyDisposed_of_cell (h₁.dead p hp (hdead p)) rfl
  · refine (h₁.fds fd).trans ?_
    simp

/-- Whatever has happened to the tables, `free_tables` completes exactly when the kernel still has
each active watch at its removal, and then nothing is left of the tables; otherwise the daemon is
terminated. -/
theorem freeTables_releases {d₀ d₁ : DispatcherState κ} {rs : List (Report κ)}
    (h₀ : Initial pipeFd mgmtFd d₀) (hfds : d₀.fds.Nodup) (hstart : startUp D d₀ = .ok () d₁)
    (hrun : Transition.run (step D) d₁ rs = some d) (k : κ) :
    ((∃ d', freeTables { d with kernel := k } = .ok () d') ↔
      KeepsAll { d with kernel := k } k (tablesInOrder d)) ∧
    (∀ d', freeTables { d with kernel := k } = .ok () d' →
      Released d₀.fds d' ∧ d'.faults = d.faults) ∧
    ∀ e d', freeTables { d with kernel := k } = .error e d' → e = .terminate := by
  obtain ⟨hsteady, hheld⟩ := keeps_held.of_run h₀ (h₀.held hfds) hstart hrun
  have hpost := post_freeTables (d := { d with kernel := k }) (hsteady.consistent.of_frame rfl)
    (hheld.of_same rfl rfl rfl)
  refine ⟨⟨fun ⟨d', hd'⟩ => (hpost.ok hd').1, fun hkeeps => ?_⟩,
    fun d' hd' => (hpost.ok hd').2, fun e d' hd' => (hpost.error hd').2.1⟩
  cases hrun' : freeTables { d with kernel := k } with
  | ok u d' => exact ⟨d', rfl⟩
  | error e d' => exact absurd hkeeps (hpost.error hrun').1

theorem freeTables_releases_tableReplaced : ∃ d₁ d d', startUp smallDirs smallInitial = .ok () d₁ ∧
    Transition.run (step smallDirs) d₁ [tableReplaced] = some d ∧ freeTables d = .ok () d' ∧
    Released smallInitial.fds d' := by
  have hfrees : (match startUp smallDirs smallInitial with
      | .ok () d₁ => (Transition.run (step smallDirs) d₁ [tableReplaced]).map fun d =>
        match freeTables d with
        | .ok () _ => true
        | .error _ _ => false
      | .error _ _ => none) = some true := by decide +kernel
  split at hfrees
  · next d₁ hstart =>
    obtain ⟨d, hd, hfrees⟩ := Option.map_eq_some_iff.mp hfrees
    split at hfrees
    · next d' hd' =>
      obtain ⟨-, hreleased, -⟩ :=
        freeTables_releases ⟨rfl, rfl, rfl, rfl, rfl⟩ (by decide) hstart hd d.kernel
      exact ⟨d₁, d, d', hstart, hd, hd', (hreleased d' hd').1⟩
    · exact absurd hfrees (by simp)
  · exact absurd hfrees (by simp)

end
end Incron.Dispatch
