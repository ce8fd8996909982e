import Incron.Daemon.Table
import Incron.Table.Loading

/-! The invariant of the state around a table, and what each part of the daemon makes of it. -/
namespace Incron.Daemon
open Hoare

variable {κ : Type}

/-- The keys of `m_map` are the living watches and the watches in both indexes, and its
values are entries of `m_tab`. -/
structure Sound (fd : ℕ) (s : DaemonState κ) : Prop where
  opened : s.inotify.fd = some fd
  indexed : Indexed s.inotify s.watchHeap s.map.keys
  owned : ∀ p, s.watchHeap.live p = true → p ∈ s.map
  watches : s.watchHeap.Valid
  entry : ∀ p pE, s.map.lookup p = some pE → pE ∈ s.tab
  tab : ∀ p ∈ s.tab, s.entryHeap.live p = true
  tabNodup : s.tab.Nodup
  entries : s.entryHeap.Valid
  nodes : s.nodeHeap.Valid

/-- What `Load` may change: it creates objects and leaves the old ones alone. -/
structure Grown (s s' : DaemonState κ) : Prop where
  fd : s'.inotify.fd = s.inotify.fd
  events : s'.inotify.events = s.inotify.events
  nodeHeap : s'.nodeHeap = s.nodeHeap
  maps : s'.maps = s.maps
  poll : s'.poll = s.poll
  faults : s'.faults = s.faults
  watchNext : s.watchHeap.next ≤ s'.watchHeap.next
  watchCell : ∀ p < s.watchHeap.next, s'.watchHeap.cell p = s.watchHeap.cell p
  entryNext : s.entryHeap.next ≤ s'.entryHeap.next
  entryCell : ∀ p < s.entryHeap.next, s'.entryHeap.cell p = s.entryHeap.cell p
  entryLive : ∀ p < s.entryHeap.next, s'.entryHeap.live p = s.entryHeap.live p
  keys : ∀ p ∈ s'.map, p ∈ s.map ∨ s.watchHeap.next ≤ p

namespace Grown
variable {s s' s'' : DaemonState κ}

theorem refl (s : DaemonState κ) : Grown s s :=
  ⟨rfl, rfl, rfl, rfl, rfl, rfl, Nat.le_refl _, fun _ _ => rfl, Nat.le_refl _, fun _ _ => rfl,
    fun _ _ => rfl, fun _ hp => Or.inl hp⟩

theorem trans (h : Grown s s') (h' : Grown s' s'') : Grown s s'' := by
  refine ⟨h'.fd.trans h.fd, h'.events.trans h.events, h'.nodeHeap.trans h.nodeHeap,
    h'.maps.trans h.maps, h'.poll.trans h.poll, h'.faults.trans h.faults,
    Nat.le_trans h.watchNext h'.watchNext, fun p hp => ?_,
    Nat.le_trans h.entryNext h'.entryNext, fun p hp => ?_, fun p hp => ?_, fun p hp => ?_⟩
  · rw [h'.watchCell p (Nat.lt_of_lt_of_le hp h.watchNext), h.watchCell p hp]
  · rw [h'.entryCell p (Nat.lt_of_lt_of_le hp h.entryNext), h.entryCell p hp]
  · rw [h'.entryLive p (Nat.lt_of_lt_of_le hp h.entryNext), h.entryLive p hp]
  · rcases h'.keys p hp with hp | hp
    · exact h.keys p hp
    · exact Or.inr (Nat.le_trans h.watchNext hp)

theorem kernel (s : DaemonState κ) (k : κ) : Grown s { s with kernel := k } :=
  ⟨rfl, rfl, rfl, rfl, rfl, rfl, Nat.le_refl _, fun _ _ => rfl, Nat.le_refl _, fun _ _ => rfl,
    fun _ _ => rfl, fun _ hp => Or.inl hp⟩

end Grown

namespace Sound
variable {fd : ℕ} {s : DaemonState κ}

theorem kernel (h : Sound fd s) (k : κ) : Sound fd { s with kernel := k } :=
  ⟨h.opened, h.indexed, h.owned, h.watches, h.entry, h.tab, h.tabNodup, h.entries, h.nodes⟩

theorem pushed (h : Sound fd s) (e : IncronTabEntry) :
    Sound fd { s with
      entryHeap := s.entryHeap.alloc e, tab := s.tab ++ [s.entryHeap.next] } := by
  have hold : ∀ p ∈ s.tab, p ≠ s.entryHeap.next := fun p hp hnext => by
    have := h.entries.next_dead
    rw [← hnext, h.tab p hp] at this
    exact Bool.noConfusion this
  refine ⟨h.opened, h.indexed, h.owned, h.watches, fun p pE hp => ?_, fun p hp => ?_, ?_,
    h.entries.alloc e, h.nodes⟩
  · exact List.mem_append_left _ (h.entry p pE hp)
  · rw [Heap.alloc_live]
    split_ifs with hnext
    · rfl
    · exact h.tab p ((List.mem_append.mp hp).resolve_right (by simpa using hnext))
  · rw [List.nodup_append]
    refine ⟨h.tabNodup, List.nodup_singleton _, fun p hp q hq => ?_⟩
    rw [List.mem_singleton.mp hq]
    exact hold p hp

end Sound

theorem grown_pushed (s : DaemonState κ) (e : IncronTabEntry) :
    Grown s { s with
      entryHeap := s.entryHeap.alloc e, tab := s.tab ++ [s.entryHeap.next] } := by
  refine ⟨rfl, rfl, rfl, rfl, rfl, rfl, Nat.le_refl _, fun _ _ => rfl, Nat.le_succ _,
    fun p hp => ?_, fun p hp => ?_, fun _ hp => Or.inl hp⟩
  · rw [Heap.alloc_cell, if_neg (Nat.ne_of_lt hp)]
  · rw [Heap.alloc_live, if_neg (Nat.ne_of_lt hp)]

/-! ## Load -/

structure Progress (fd : ℕ) (s₀ s : DaemonState κ) : Prop where
  sound : Sound fd s
  grown : Grown s₀ s
  tab : ∀ p ∈ s₀.tab, p ∈ s.tab

section
variable {fd : ℕ} {s₀ s : DaemonState κ}

theorem Sound.progress (h : Sound fd s) : Progress fd s s := ⟨h, Grown.refl s, fun _ hp => hp⟩

theorem Progress.trans {s' : DaemonState κ} (h : Progress fd s₀ s) (h' : Progress fd s s') :
    Progress fd s₀ s' :=
  ⟨h'.sound, h.grown.trans h'.grown, fun p hp => h'.tab p (h.tab p hp)⟩

theorem Progress.kernel (h : Progress fd s₀ s) (k : κ) :
    Progress fd s₀ { s with kernel := k } :=
  ⟨h.sound.kernel k, h.grown.trans (Grown.kernel s k), h.tab⟩

theorem post_pushEntry (h : Progress fd s₀ s) (e : IncronTabEntry) :
    Post (pushEntry e) s (fun _ s' => Progress fd s₀ s') fun _ _ => False :=
  h.trans ⟨h.sound.pushed e, grown_pushed s e, fun _ hp => List.mem_append_left _ hp⟩

/-! ### A new watch -/

theorem Sound.next_not_mem (h : Sound fd s) : s.watchHeap.next ∉ s.map.keys := fun hmem => by
  have := h.watches.next_dead
  rw [h.indexed.live _ hmem] at this
  exact Bool.noConfusion this

theorem Sound.ne_next (h : Sound fd s) {p : ℕ} (hp : p ∈ s.map.keys) : p ≠ s.watchHeap.next := by
  rintro rfl
  exact h.next_not_mem hp

theorem Sound.indexed_alloc (h : Sound fd s) (w : InotifyWatch) :
    Indexed s.inotify (s.watchHeap.alloc w) s.map.keys := by
  refine h.indexed.of_heap (fun p hp => ?_) fun p hp => ?_
  · rw [Heap.alloc_cell, if_neg (h.ne_next hp)]
  · rw [Heap.alloc_live, if_neg (h.ne_next hp)]
    exact h.indexed.live p hp

theorem Sound.progress_refused (h : Sound fd s) (w : InotifyWatch) (k : κ) :
    Progress fd s { s with
      kernel := k, watchHeap := (s.watchHeap.alloc w).free s.watchHeap.next } := by
  have hcell : ∀ p < s.watchHeap.next,
      ((s.watchHeap.alloc w).free s.watchHeap.next).cell p = s.watchHeap.cell p := fun p hp => by
    rw [Heap.free_cell, Heap.alloc_cell, if_neg (Nat.ne_of_lt hp)]
  have hlive : ∀ p, p ≠ s.watchHeap.next →
      ((s.watchHeap.alloc w).free s.watchHeap.next).live p = s.watchHeap.live p := fun p hp => by
    rw [Heap.free_live, if_neg hp, Heap.alloc_live, if_neg hp]
  refine ⟨⟨h.opened, ?_, fun p hp => ?_, (h.watches.alloc w).free (by simp [Heap.alloc_live]),
    h.entry, h.tab, h.tabNodup, h.entries, h.nodes⟩, ⟨rfl, rfl, rfl, rfl, rfl, rfl, Nat.le_succ _,
    hcell, Nat.le_refl _, fun _ _ => rfl, fun _ _ => rfl, fun _ hp => Or.inl hp⟩,
    fun _ hp => hp⟩
  · refine h.indexed.of_heap (fun p hp => ?_) fun p hp => ?_
    · exact hcell p (h.watches.lt_next (h.indexed.live p hp))
    · rw [hlive p (h.ne_next hp)]
      exact h.indexed.live p hp
  · by_cases hnext : p = s.watchHeap.next
    · rw [hnext, Heap.free_live, if_pos rfl] at hp
      exact Bool.noConfusion hp
    · exact h.owned p (by rwa [hlive p hnext] at hp)

theorem Sound.progress_added (h : Sound fd s) {w : InotifyWatch} {pE wd : ℕ} {k k' : κ}
    (hpE : pE ∈ s.tab)
    (H : Indexed
      (added { s with kernel := k, watchHeap := s.watchHeap.alloc w } s.watchHeap.next wd
        k').inotify
      (added { s with kernel := k, watchHeap := s.watchHeap.alloc w } s.watchHeap.next wd
        k').watchHeap
      (s.watchHeap.next :: s.map.keys)) :
    Progress fd s
      { added { s with kernel := k, watchHeap := s.watchHeap.alloc w } s.watchHeap.next wd k' with
        map := s.map.insertNew s.watchHeap.next pE } := by
  have hnone : s.map.lookup s.watchHeap.next = none := AList.lookup_eq_none.mpr h.next_not_mem
  have hkeys : ∀ p, p ∈ (s.map.insertNew s.watchHeap.next pE).keys ↔
      p ∈ s.watchHeap.next :: s.map.keys := fun p => by
    rw [← AList.mem_keys, FinMap.mem_insertNew, List.mem_cons, AList.mem_keys]
  refine ⟨⟨h.opened, H.of_mem_iff hkeys, fun p hp => ?_, (h.watches.alloc w).set _ _,
    fun p q hp => ?_, h.tab, h.tabNodup, h.entries, h.nodes⟩, ⟨rfl, rfl, rfl, rfl, rfl,
    rfl, Nat.le_succ _, fun p hp => ?_, Nat.le_refl _, fun _ _ => rfl, fun _ _ => rfl,
    fun p hp => ?_⟩, fun _ hp => hp⟩
  · rw [FinMap.mem_insertNew]
    by_cases hnext : p = s.watchHeap.next
    · exact Or.inl hnext
    · refine Or.inr (h.owned p ?_)
      have : (s.watchHeap.alloc w).live p = true := hp
      rwa [Heap.alloc_live, if_neg hnext] at this
  · rw [FinMap.lookup_insertNew_of_none hnone] at hp
    split_ifs at hp
    · rwa [← Option.some.inj hp]
    · exact h.entry p q hp
  · have hne := Nat.ne_of_lt hp
    simp only [added, Heap.set_cell_of_ne _ hne, Heap.alloc_cell, if_neg hne]
  · rcases FinMap.mem_insertNew.mp hp with rfl | hp
    · exact Or.inr (Nat.le_refl _)
    · exact Or.inl hp

/-! ### The stages -/

def cleared (s : DaemonState κ) : DaemonState κ :=
  { s with entryHeap := s.entryHeap.freeAll s.tab, tab := [] }

theorem Sound.cleared (h : Sound fd s) (hmap : s.map = ∅) : Sound fd (cleared s) := by
  refine ⟨h.opened, h.indexed, h.owned, h.watches, fun p pE hp => ?_, fun p hp => absurd hp (by
    simp [Daemon.cleared]), List.nodup_nil, h.entries.freeAll h.tabNodup h.tab, h.nodes⟩
  rw [show (Daemon.cleared s).map = ∅ from hmap] at hp
  exact absurd hp (by simp)

def registered (t : UserTable) (fd : ℕ) (s : DaemonState κ) : DaemonState κ :=
  let maps := s.maps.insertNew fd s.nodeHeap.next
  { s with
    nodeHeap := s.nodeHeap.alloc t
    maps := maps
    poll := s.poll.rebuild maps.keys }

theorem Sound.registered (h : Sound fd s) (t : UserTable) : Sound fd (registered t fd s) :=
  ⟨h.opened, h.indexed, h.owned, h.watches, h.entry, h.tab, h.tabNodup, h.entries,
    h.nodes.alloc t⟩

variable [System κ]

theorem post_subDirVec (h : Progress fd s₀ s) (rE : IncronTabEntry) :
    Post (subDirVec rE) s (fun _ s' => Progress fd s₀ s') fun _ _ => False := by
  unfold subDirVec
  simp only [post_bind, post_call, post_ite, post_pure]
  split_ifs
  · exact (h.kernel _).kernel _
  · exact h.kernel _

theorem post_addSubDirs (h : Progress fd s₀ s) {p : ℕ} (hp : p ∈ s₀.tab) :
    Post (addSubDirs p) s (fun _ s' => Progress fd s₀ s') fun _ _ => False := by
  unfold addSubDirs
  simp only [post_bind, post_entryAt, h.sound.tab p (h.tab p hp), touch_live, post_ite,
    post_pure]
  split_ifs
  · exact h
  · refine (post_subDirVec h _).imp_of_total fun l s' h' => ?_
    exact Post.forM_invariant (fun d _ s'' h'' => post_pushEntry h'' _) h'

/-- The new watch is added, or it is destroyed again. -/
theorem post_addTabEntry (t : UserTable) (h : Progress fd s₀ s) {p : ℕ} (hp : p ∈ s₀.tab) :
    Post (addTabEntry t p) s (fun _ s' => Progress fd s₀ s') fun _ _ => False := by
  have hsound := h.sound
  unfold addTabEntry newWatch
  simp only [post_bind, post_entryAt, hsound.tab p (h.tab p hp), touch_live, post_modifyGet,
    post_call]
  generalize (mayAccess t (s.entryHeap.cell p).path (s.entryHeap.cell p).mask s.kernel).1 = k
  have hnew : s.watchHeap.next ∉ s.map.keys := hsound.next_not_mem
  simp only [post_tryCatch, post_bind, post_modify]
  refine Post.mono (post_add hsound.opened (hsound.indexed_alloc _) hnew
    (by simp [Heap.alloc_live]) (by simp [Heap.alloc_cell])) (fun _ s' hs' => ?_)
    fun e s' hs' => ?_
  · obtain ⟨wd, k', rfl, hindexed⟩ := hs'
    exact h.trans (hsound.progress_added (h.tab p hp) hindexed)
  · obtain ⟨msg, errno, k', rfl, rfl⟩ := hs'
    exact h.trans (hsound.progress_refused _ k')

theorem post_addPlainEntry (t : UserTable) (h : Progress fd s₀ s) {p : ℕ} (hp : p ∈ s₀.tab) :
    Post (addPlainEntry t p) s (fun _ s' => Progress fd s₀ s') fun _ _ => False := by
  unfold addPlainEntry
  simp only [post_bind, post_entryAt, h.sound.tab p (h.tab p hp), touch_live, post_ite,
    post_pure]
  split_ifs
  · exact h
  · exact post_addTabEntry t h hp

/-- No line of the table file starts with a NUL byte, for which `Parse` throws. -/
def FileLoads (t : UserTable) (k : κ) : Prop :=
  ∀ content, (System.readFile k t.path).2 = some content →
    ∀ s ∈ Stdio.readAll 1000 content, s.head? ≠ some '\x00'

theorem post_loadTab (h : Sound fd s) (hmap : s.map = ∅) (t : UserTable) :
    Post (loadTab t.path) s
      (fun _ s' => Progress fd (cleared s) s' ∧ FileLoads t s.kernel)
      (fun e s' => e = .outOfRange ∧ ¬ FileLoads t s.kernel ∧ s'.faults = s.faults) := by
  unfold loadTab clearTab
  simp only [post_bind, post_modify, post_call]
  cases hload : IncronTab.load (System.readFile s.kernel t.path).2 with
  | error e =>
    refine ⟨rfl, fun hfile => ?_, rfl⟩
    obtain ⟨r, hr⟩ := (IncronTab.exists_load_iff _).mpr hfile
    rw [hload] at hr
    exact absurd hr (by simp)
  | ok r =>
    have hstart := (h.cleared hmap).progress.kernel (System.readFile s.kernel t.path).1
    exact (Post.forM_invariant (fun e _ s' h' => post_pushEntry h' e) hstart).imp_of_total
      fun _ _ h' => ⟨h', (IncronTab.exists_load_iff _).mp ⟨r, hload⟩⟩

/-- `Load` up to its second loop. -/
def expandTab (t : UserTable) : Daemon κ Unit := do
  loadTab t.path
  (← get).tab.forM addSubDirs

theorem load_eq_expandTab (t : UserTable) : (load t : Daemon κ Unit) =
    expandTab t >>= fun _ => get >>= fun s => s.tab.forM (addPlainEntry t) >>= fun _ =>
      register t := by
  simp only [load, expandTab, bind_assoc]

theorem post_expanded (h : Sound fd s) (hmap : s.map = ∅) (t : UserTable) :
    Post (expandTab t) s
      (fun _ s' => Progress fd (cleared s) s' ∧ FileLoads t s.kernel)
      (fun e s' => e = .outOfRange ∧ ¬ FileLoads t s.kernel ∧ s'.faults = s.faults) := by
  unfold expandTab
  simp only [post_bind, post_get]
  refine (post_loadTab h hmap t).imp fun _ s₁ h₁ => ?_
  exact (Post.forM_invariant (fun p hp s' h' => post_addSubDirs h' hp)
    h₁.1.sound.progress).imp_of_total fun _ _ h₂ => ⟨h₁.1.trans h₂, h₁.2⟩

omit [System κ] in
theorem post_register (hfd : s.inotify.fd = some fd) (hmaps : s.maps.lookup fd = none)
    (t : UserTable) :
    Post (register t) s (fun _ s' => s' = registered t fd s) fun _ _ => False := by
  unfold register rebuild
  simp only [post_bind, post_get, hfd, hmaps, post_modify]
  rfl

/-- `Load` of a disposed table ends with a registered table, unless the table file throws. -/
theorem post_load (h : Sound fd s) (hmap : s.map = ∅) (hmaps : s.maps.lookup fd = none)
    (t : UserTable) :
    Post (load t) s
      (fun _ s' => FileLoads t s.kernel ∧
        ∃ s'', Progress fd (cleared s) s'' ∧ s' = registered t fd s'')
      (fun e s' => e = .outOfRange ∧ ¬ FileLoads t s.kernel ∧ s'.faults = s.faults) := by
  rw [load_eq_expandTab]
  simp only [post_bind, post_get]
  refine (post_expanded h hmap t).imp fun _ s₂ h₂ => ?_
  obtain ⟨h₂, hfile⟩ := h₂
  refine (Post.forM_invariant (fun p hp s' h' => post_addPlainEntry t h' hp)
    h₂.sound.progress).imp_of_total fun _ s₃ h₃ => ?_
  have h₃ := h₂.trans h₃
  have hnone : s₃.maps.lookup fd = none := by rw [h₃.grown.maps]; exact hmaps
  exact (post_register h₃.sound.opened hnone t).imp_of_total fun _ _ h₄ => ⟨hfile, s₃, h₃, h₄⟩

end

/-! ## Dispose -/

section
variable [System κ] {fd : ℕ} {s : DaemonState κ}

/-- The kernel has each of the active watches when it is removed. -/
def HasAll (k : κ) (fd : ℕ) : List (Option ℕ) → Prop
  | [] => True
  | wd :: wds => KernelHas k fd wd ∧ HasAll (kernelRm k fd wd) fd wds

def rmAll (k : κ) (fd : ℕ) (wds : List (Option ℕ)) : κ :=
  wds.foldl (fun k wd => kernelRm k fd wd) k

/-- The descriptors of the watches, in the order in which `Dispose` visits them. -/
def descriptors (s : DaemonState κ) : List (Option ℕ) :=
  (System.order κ s.map.keys).map fun p => (s.watchHeap.cell p).wd

/-- The state `s₁` inside the loop of `Dispose` with the watches `l` left. -/
structure Disposing (fd : ℕ) (s : DaemonState κ) (l : List ℕ) (s₁ : DaemonState κ) :
    Prop where
  frame : s₁ = { s with
    kernel := s₁.kernel, inotify := s₁.inotify, watchHeap := s₁.watchHeap }
  fd : s₁.inotify.fd = some fd
  events : s₁.inotify.events = s.inotify.events
  indexed : Indexed s₁.inotify s₁.watchHeap l
  nodup : l.Nodup
  owned : ∀ p, s₁.watchHeap.live p = true → p ∈ l
  watches : s₁.watchHeap.Valid
  next : s₁.watchHeap.next = s.watchHeap.next
  path : ∀ p, (s₁.watchHeap.cell p).path = (s.watchHeap.cell p).path
  wds : ∀ p ∈ l, (s₁.watchHeap.cell p).wd = (s.watchHeap.cell p).wd

theorem post_disposeWatch {p : ℕ} {l : List ℕ} {s₁ : DaemonState κ}
    (h : Disposing fd s (p :: l) s₁) :
    Post (disposeWatch p) s₁
      (fun _ s₂ => Disposing fd s l s₂ ∧ KernelHas s₁.kernel fd (s.watchHeap.cell p).wd ∧
        s₂.kernel = kernelRm s₁.kernel fd (s.watchHeap.cell p).wd)
      (fun e s₂ => ¬ KernelHas s₁.kernel fd (s.watchHeap.cell p).wd ∧
        e = .inotify "removing watch failed" einval ∧ s₂.faults = s₁.faults) := by
  obtain ⟨hp, hl⟩ := List.nodup_cons.mp h.nodup
  have hwd := h.wds p (by simp)
  unfold disposeWatch deleteWatch
  simp only [post_bind, post_modify]
  refine (post_remove h.fd h.indexed).mono (fun _ s₂ h₂ => ?_) fun e s₂ he => ?_
  · obtain ⟨hhas, rfl⟩ := h₂
    rw [hwd] at hhas ⊢
    generalize kernelRm s₁.kernel fd (s.watchHeap.cell p).wd = k
    have hne : ∀ q ∈ l, q ≠ p := fun q hq => by
      rintro rfl
      exact hp hq
    have hlive : ∀ q, q ≠ p →
        ((removed s₁ p k).watchHeap.free p).live q = s₁.watchHeap.live q := fun q hq => by
      rw [Heap.free_live, if_neg hq]
      rfl
    refine ⟨⟨?_, h.fd, h.events, ?_, hl, fun q hq => ?_, ?_, h.next, fun q => ?_, fun q hq => ?_⟩,
      hhas, rfl⟩
    · simp only [removed]
      rw [h.frame]
    · refine (indexed_removed h.indexed hp k).of_heap (fun _ _ => rfl) fun q hq => ?_
      rw [hlive q (hne q hq)]
      exact h.indexed.live q (by simp [hq])
    · by_cases hqp : q = p
      · subst hqp
        simp only [Heap.free_live, if_true] at hq
        exact Bool.noConfusion hq
      · rw [hlive q hqp] at hq
        exact (List.mem_cons.mp (h.owned q hq)).resolve_left hqp
    · exact (h.watches.set _ _).free (h.indexed.live p (by simp))
    · rw [← h.path q]
      by_cases hqp : q = p <;> simp [removed, Heap.set_cell, hqp]
    · rw [← h.wds q (by simp [hq])]
      simp only [Heap.free_cell, removed, Heap.set_cell_of_ne _ (hne q hq)]
  · obtain ⟨hhas, rfl, k, rfl⟩ := he
    exact ⟨by rwa [hwd] at hhas, rfl, rfl⟩

theorem post_disposeAll {l : List ℕ} (h : Disposing fd s l s) :
    Post (l.forM disposeWatch) s
      (fun _ s₁ => HasAll s.kernel fd (l.map fun p => (s.watchHeap.cell p).wd) ∧
        Disposing fd s [] s₁ ∧
        s₁.kernel = rmAll s.kernel fd (l.map fun p => (s.watchHeap.cell p).wd))
      (fun e s₁ => ¬ HasAll s.kernel fd (l.map fun p => (s.watchHeap.cell p).wd) ∧
        e = .inotify "removing watch failed" einval ∧ s₁.faults = s.faults) := by
  -- the condition and the final kernel stay the same while the list gets shorter
  let wd := fun p => (s.watchHeap.cell p).wd
  have hloop : Post (l.forM disposeWatch) s
      (fun _ s₁ => Disposing fd s [] s₁ ∧
        (HasAll s₁.kernel fd [] ↔ HasAll s.kernel fd (l.map wd)) ∧
        rmAll s₁.kernel fd [] = rmAll s.kernel fd (l.map wd))
      (fun e s₁ => ¬ HasAll s.kernel fd (l.map wd) ∧
        e = .inotify "removing watch failed" einval ∧ s₁.faults = s.faults) := by
    refine Post.forM (I := fun l' s₁ => Disposing fd s l' s₁ ∧
      (HasAll s₁.kernel fd (l'.map wd) ↔ HasAll s.kernel fd (l.map wd)) ∧
      rmAll s₁.kernel fd (l'.map wd) = rmAll s.kernel fd (l.map wd)) ?_ ⟨h, Iff.rfl, rfl⟩
    rintro p l' s₁ ⟨h₁, hhas, hrm⟩
    refine (post_disposeWatch h₁).mono (fun _ s₂ h₂ => ?_) fun e _ he => ?_
    · obtain ⟨h₂, hp, hk⟩ := h₂
      refine ⟨h₂, ?_, ?_⟩
      · rw [← hhas, hk]
        exact ⟨fun hrest => ⟨hp, hrest⟩, fun hall => hall.2⟩
      · rw [← hrm, hk]
        rfl
    · exact ⟨fun hall => he.1 (hhas.mpr hall).1, he.2.1, he.2.2.trans (by rw [h₁.frame])⟩
  exact hloop.imp fun _ s₁ h₁ => ⟨h₁.2.1.mp trivial, h₁.1, h₁.2.2⟩

end

/-! ## Loaded tables -/

/-- The table is registered under its descriptor. -/
structure Loaded (t : UserTable) (fd : ℕ) (s : DaemonState κ) : Prop extends Sound fd s where
  node : ∃ n, s.maps.lookup fd = some n ∧ s.nodeHeap.live n = true ∧ s.nodeHeap.cell n = t

def KeepsWatches [System κ] (fd : ℕ) (s : DaemonState κ) : Prop :=
  HasAll s.kernel fd (descriptors s)

def CanReload [System κ] (t : UserTable) (fd : ℕ) (s : DaemonState κ) : Prop :=
  KeepsWatches fd s ∧ FileLoads t (rmAll s.kernel fd (descriptors s))

structure Disposed [System κ] (fd : ℕ) (s s' : DaemonState κ) : Prop where
  sound : Sound fd s'
  kernel : s'.kernel = rmAll s.kernel fd (descriptors s)
  map : s'.map = ∅
  maps : s'.maps.lookup fd = none
  nodeNext : s'.nodeHeap.next = s.nodeHeap.next
  nodeCell : s'.nodeHeap.cell = s.nodeHeap.cell
  nodeLive : ∀ n, s'.nodeHeap.live n = true → s.nodeHeap.live n = true
  nodeDead : ∀ n, s.maps.lookup fd = some n → s'.nodeHeap.live n = false
  nodeKept : ∀ n, s.maps.lookup fd ≠ some n → s'.nodeHeap.live n = s.nodeHeap.live n
  erased : s'.maps = s.maps.erase fd
  poll : s'.poll = s.poll.rebuild s'.maps.keys
  events : s'.inotify.events = s.inotify.events
  faults : s'.faults = s.faults
  tab : s'.tab = s.tab
  entryHeap : s'.entryHeap = s.entryHeap
  next : s'.watchHeap.next = s.watchHeap.next
  path : ∀ p, (s'.watchHeap.cell p).path = (s.watchHeap.cell p).path

structure Reloaded (t : UserTable) (fd : ℕ) (s s' : DaemonState κ) : Prop where
  loaded : Loaded t fd s'
  events : s'.inotify.events = s.inotify.events
  faults : s'.faults = s.faults
  nodeNext : s.nodeHeap.next ≤ s'.nodeHeap.next
  nodeCell : ∀ n < s.nodeHeap.next, s'.nodeHeap.cell n = s.nodeHeap.cell n
  nodeLive : ∀ n < s.nodeHeap.next, s'.nodeHeap.live n = true → s.nodeHeap.live n = true
  nodeDead : ∀ n, s.maps.lookup fd = some n → s'.nodeHeap.live n = false
  /-- All watches are new. -/
  fresh : ∀ p ∈ s'.map, s.watchHeap.next ≤ p
  next : s.watchHeap.next ≤ s'.watchHeap.next
  path : ∀ p < s.watchHeap.next, (s'.watchHeap.cell p).path = (s.watchHeap.cell p).path
  /-- The old entries have been destroyed. -/
  entryLive : ∀ p ∈ s.tab, s'.entryHeap.live p = false
  entryCell : ∀ p ∈ s.tab, s'.entryHeap.cell p = s.entryHeap.cell p

theorem Loaded.registered {t : UserTable} {fd : ℕ} {s : DaemonState κ} (h : Sound fd s)
    (hmaps : s.maps.lookup fd = none) : Loaded t fd (registered t fd s) := by
  refine ⟨h.registered t, s.nodeHeap.next, ?_, ?_, ?_⟩
  · simp [Daemon.registered, FinMap.lookup_insertNew_of_none hmaps]
  · simp [Daemon.registered, Heap.alloc_live]
  · simp [Daemon.registered, Heap.alloc_cell]

section
variable [System κ] {t : UserTable} {fd : ℕ} {s : DaemonState κ}

/-- `Dispose` of a loaded table throws exactly when the kernel has dropped one of its active
watches. -/
theorem post_dispose (h : Loaded t fd s) :
    Post dispose s (fun _ s' => KeepsWatches fd s ∧ Disposed fd s s')
      (fun e s' => ¬ KeepsWatches fd s ∧ e = .inotify "removing watch failed" einval ∧
        s'.faults = s.faults) := by
  obtain ⟨n, hn, hlive, -⟩ := h.node
  have hmem : ∀ p, p ∈ System.order κ s.map.keys ↔ p ∈ s.map.keys := fun p =>
    (System.order_perm _).mem_iff
  unfold dispose unregister rebuild
  simp only [post_bind, post_get, h.opened, hn, post_modify]
  refine Post.imp (post_disposeAll ⟨rfl, h.opened, rfl, h.indexed.of_mem_iff hmem, ?_,
    fun p hp => ?_, h.watches, rfl, fun _ => rfl, fun _ _ => rfl⟩) fun _ s₁ h₁ => ?_
  · exact (System.order_perm _).nodup_iff.mpr s.map.keys_nodup
  · exact (hmem p).mpr (h.owned p hp)
  · obtain ⟨hhas, h₁, hk⟩ := h₁
    have htab : s₁.tab = s.tab := by rw [h₁.frame]
    have hentries : s₁.entryHeap = s.entryHeap := by rw [h₁.frame]
    have hnodes : s₁.nodeHeap = s.nodeHeap.free n := by rw [h₁.frame]
    have hmaps : s₁.maps = s.maps.erase fd := by rw [h₁.frame]
    have hfaults : s₁.faults = s.faults := by rw [h₁.frame]
    have hpoll : s₁.poll = s.poll.rebuild s₁.maps.keys := by rw [h₁.frame]
    refine ⟨hhas, ⟨?_, hk, rfl, ?_, by rw [hnodes]; rfl, by rw [hnodes]; rfl, fun m hm => ?_,
      fun m hm => ?_, fun m hm => ?_, hmaps, hpoll, h₁.events, hfaults, htab, hentries, h₁.next,
      h₁.path⟩⟩
    · refine ⟨h₁.fd, h₁.indexed, h₁.owned, h₁.watches, fun p pE hp => absurd hp (by simp),
        ?_, ?_, ?_, ?_⟩
      · rw [htab, hentries]
        exact h.tab
      · rw [htab]
        exact h.tabNodup
      · rw [hentries]
        exact h.entries
      · rw [hnodes]
        exact h.nodes.free hlive
    · rw [hmaps, FinMap.lookup_erase, if_pos rfl]
    · simp only [hnodes, Heap.free_live] at hm
      split_ifs at hm
      exact hm
    · obtain rfl := Option.some.inj (hn.symm.trans hm)
      simp only [hnodes, Heap.free_live, if_true]
    · have hne : m ≠ n := by
        rintro rfl
        exact hm hn
      simp only [hnodes, Heap.free_live, if_neg hne]

/-- A loaded table is reloaded exactly when its watches are still there and its file can be
parsed. -/
theorem post_reload (h : Loaded t fd s) :
    Post (reload t) s
      (fun _ s' => CanReload t fd s ∧ Reloaded t fd s s')
      (fun _ s' => ¬ CanReload t fd s ∧ s'.faults = s.faults) := by
  unfold reload CanReload
  rw [post_bind]
  refine (post_dispose h).mono (fun _ s₁ h₁ => ?_) fun e _ he =>
    ⟨fun hall => he.1 hall.1, he.2.2⟩
  obtain ⟨hkeeps, h₁⟩ := h₁
  rw [← h₁.kernel]
  refine (post_load h₁.sound h₁.map h₁.maps t).mono (fun _ s₃ h₃ => ?_)
    fun e _ he => ⟨fun hall => he.2.1 hall.2, he.2.2.trans h₁.faults⟩
  obtain ⟨hfile, s₂, h₂, rfl⟩ := h₃
  have hold : ∀ p ∈ s.tab, p < (cleared s₁).entryHeap.next := fun p hp => by
    simp only [cleared, Heap.freeAll_next, h₁.entryHeap]
    exact h.entries.lt_next (h.tab p hp)
  have hnext : (cleared s₁).watchHeap.next = s.watchHeap.next := h₁.next
  have hnodes : s₂.nodeHeap = s₁.nodeHeap := h₂.grown.nodeHeap
  have hnone : s₂.maps.lookup fd = none := by
    rw [h₂.grown.maps]
    exact h₁.maps
  refine ⟨⟨hkeeps, hfile⟩, ⟨Loaded.registered h₂.sound hnone,
    h₂.grown.events.trans h₁.events, h₂.grown.faults.trans h₁.faults, ?_, fun n hn => ?_,
    fun n hn hlive => ?_, fun n hn => ?_, fun p hp => ?_, ?_, fun p hp => ?_, fun p hp => ?_,
    fun p hp => ?_⟩⟩
  · simp only [registered, hnodes, Heap.alloc_next, h₁.nodeNext]
    exact Nat.le_succ _
  · have hlt : n < s₁.nodeHeap.next := by rwa [h₁.nodeNext]
    simp only [registered, hnodes, Heap.alloc_cell, if_neg (Nat.ne_of_lt hlt), h₁.nodeCell]
  · have hlt : n < s₁.nodeHeap.next := by rwa [h₁.nodeNext]
    simp only [registered, hnodes, Heap.alloc_live, if_neg (Nat.ne_of_lt hlt)] at hlive
    exact h₁.nodeLive n hlive
  · have hlt : n < s₁.nodeHeap.next := by
      obtain ⟨m, hm, hlive, -⟩ := h.node
      obtain rfl := Option.some.inj (hm.symm.trans hn)
      rw [h₁.nodeNext]
      exact h.nodes.lt_next hlive
    simp only [registered, hnodes, Heap.alloc_live, if_neg (Nat.ne_of_lt hlt)]
    exact h₁.nodeDead n hn
  · rcases h₂.grown.keys p hp with hp | hp
    · have hp : p ∈ s₁.map := hp
      rw [h₁.map] at hp
      exact absurd hp (AList.notMem_empty p)
    · rwa [hnext] at hp
  · rw [← hnext]
    exact h₂.grown.watchNext
  · rw [← h₁.path p, registered, h₂.grown.watchCell p (by rwa [hnext])]
    rfl
  · rw [registered, h₂.grown.entryLive p (hold p hp), cleared, Heap.freeAll_live, h₁.tab]
    simp [hp]
  · rw [registered, h₂.grown.entryCell p (hold p hp), cleared, Heap.freeAll_cell, h₁.entryHeap]

end

end Incron.Daemon
