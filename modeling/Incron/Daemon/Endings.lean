import Incron.Daemon.Shutdown

/-! What ends the daemon other than its return from `main`. Refused watches, denied accesses,
failing children and missing table files are not among the causes. -/
namespace Incron.Daemon
open Hoare

variable {κ : Type}

/-! ## The methods of a table -/

/-- An exception that ends a part of the daemon, and the system after its last call, which is the
cause of the exception. -/
inductive Fatal {κ : Type} [System κ] : DaemonException → κ → Prop
  | unreadable {k : κ} {fd errno : ℕ} (hread : (System.readEvents k fd).2 = .error errno)
      (herrno : errno ≠ ewouldblock) :
      Fatal (.inotify "reading events failed" errno) (System.readEvents k fd).1
  | gone {k : κ} (hgone : Gone k) : Fatal (.inotify "removing watch failed" einval) k
  | unparsed {k : κ} {t : UserTable} (hfile : ¬ FileLoads t k) :
      Fatal .outOfRange (System.readFile k t.path).1

section
variable [System κ] {t : UserTable} {fd : ℕ} {s : DaemonState κ}

theorem post_dispose_fatal (h : Loaded t fd s) :
    Post dispose s (fun _ s' => Disposed fd s s')
      fun e s' => e = .inotify "removing watch failed" einval ∧ Gone s'.kernel :=
  ((post_dispose h).and post_dispose_gone).mono (fun _ _ h => h.1.2)
    fun _ _ he => ⟨he.1.2.1, he.2 he.1.2.1⟩

theorem post_loadTab_fatal :
    Post (loadTab t.path) s (fun _ _ => True) fun e s' => Fatal e s'.kernel := by
  unfold loadTab clearTab
  simp only [post_bind, post_modify, post_call]
  cases hload : IncronTab.load (System.readFile s.kernel t.path).2 with
  | error e =>
    refine .unparsed fun hfile => ?_
    obtain ⟨r, hr⟩ := (IncronTab.exists_load_iff _).mpr hfile
    rw [hload] at hr
    exact absurd hr (by simp)
  | ok r =>
    have hpush : ∀ e ∈ r.2, ∀ s : DaemonState κ, True →
        Post (pushEntry e) s (fun _ _ => True) fun _ _ => False := fun _ _ _ _ => trivial
    exact (Post.forM_invariant (I := fun _ => True) hpush trivial).imp_of_total
      fun _ _ _ => trivial

theorem post_load_fatal (h : Sound fd s) (hmap : s.map = ∅) (hmaps : s.maps.lookup fd = none) :
    Post (load t) s (fun _ _ => True) fun e s' => Fatal e s'.kernel := by
  rw [load_eq_expandTab]
  unfold expandTab
  simp only [post_bind, post_get]
  refine ((post_loadTab h hmap t).and_error post_loadTab_fatal).imp fun _ s₁ h₁ => ?_
  refine (Post.forM_invariant (fun p hp s' h' => post_addSubDirs h' hp)
    h₁.1.sound.progress).imp_of_total fun _ s₂ h₂ => ?_
  have h₂ := h₁.1.trans h₂
  refine (Post.forM_invariant (fun p hp s' h' => post_addPlainEntry t h' hp)
    h₂.sound.progress).imp_of_total fun _ s₃ h₃ => ?_
  have h₃ := h₂.trans h₃
  have hnone : s₃.maps.lookup fd = none := by
    rw [h₃.grown.maps]
    exact hmaps
  exact (post_register h₃.sound.opened hnone t).imp_of_total fun _ _ _ => trivial

theorem post_reload_fatal (h : Loaded t fd s) :
    Post (reload t) s (fun _ _ => True) fun e s' => Fatal e s'.kernel := by
  unfold reload
  rw [post_bind]
  refine (post_dispose_fatal h).mono (fun _ _ h₁ => post_load_fatal h₁.sound h₁.map h₁.maps)
    fun e _ he => ?_
  obtain ⟨rfl, hgone⟩ := he
  exact .gone hgone

theorem post_destroy_gone (h : Loaded t fd s) :
    Post destroy s (fun _ _ => True) fun _ s' => Gone s'.kernel := by
  unfold destroy
  rw [post_bind]
  refine (post_dispose_fatal h).mono (fun _ _ h₁ => ?_) fun _ _ he => he.2
  exact (post_close h₁.cleanly h₁.sound.opened).imp_of_total fun _ _ _ => trivial

theorem post_expand_fork (pE : ℕ) (e : InotifyEvent) :
    Post (do
      let cmd ← expandEntry pE e
      return if ← call System.fork then some cmd else none : Daemon κ (Option Str)) s
      (fun _ _ => True) fun e s' => Fatal e s'.kernel := by
  unfold expandEntry watchPath
  simp only [post_bind, post_entryAt, post_ite, post_watchAt, post_pure, UserTable.expandCmd_eq,
    post_call]
  split_ifs

theorem post_onEvent_fatal (h : Loaded t fd s) (e : InotifyEvent) :
    Post (onEvent t e) s (fun _ _ => True) fun e s' => Fatal e s'.kernel := by
  unfold onEvent watchPath
  simp only [post_bind, post_get]
  cases hbound : s.map.lookup e.watch with
  | none => trivial
  | some pE =>
    have hlive : s.watchHeap.live e.watch = true :=
      h.indexed.live _ (FinMap.mem_of_lookup hbound)
    simp only [post_bind, post_watchAt, hlive, touch_live, post_call, post_pure]
    refine post_ite.mpr ?_
    split
    · trivial
    · simp only [post_bind, post_watchAt, hlive, touch_live, post_pure]
      refine post_ite.mpr ?_
      split
      · rw [post_bind]
        exact (post_reload_fatal (h.kernel _)).imp fun _ _ _ => post_expand_fork pE e
      · exact post_expand_fork pE e

theorem post_round_fatal {it : ℕ} (h : Loaded t fd s) (hcell : s.nodeHeap.cell it = t) :
    Post (round it) s (fun _ s' => Stays t fd s s') fun e s' => Fatal e s'.kernel := by
  have hround : Post (round it) s (fun _ _ => True) fun e s' => Fatal e s'.kernel :=
    post_round_cases hcell (fun _ => trivial)
      fun e q _ => (post_onEvent_fatal (h.popped it q) e).imp fun _ _ _ => trivial
  exact (post_round_stays h hcell).and_error hround

theorem post_drain_fatal {it : ℕ} (n : ℕ) (h : Loaded t fd s) (hlt : it < s.nodeHeap.next)
    (hcell : s.nodeHeap.cell it = t) :
    Post (drain it n) s (fun _ _ => True) fun e s' => Fatal e s'.kernel := by
  induction n generalizing s with
  | zero => trivial
  | succ n ih =>
    unfold drain
    rw [post_bind]
    refine (post_round_fatal h hcell).imp fun r s₁ h₁ => ?_
    cases r with
    | none => trivial
    | some r =>
      simp only [post_bind, post_pure]
      exact ih h₁.loaded (Nat.lt_of_lt_of_le hlt h₁.apart.next)
        ((h₁.apart.cell it hlt).trans hcell)

/-- `WaitForEvents` fails only because the descriptor cannot be read: the watches that it disables
are enabled. -/
theorem post_waitForEvents_fatal (h : Loaded t fd s) :
    Post waitForEvents s (fun _ _ => True) fun e s' => Fatal e s'.kernel := by
  unfold waitForEvents
  simp only [post_bind, post_get, h.opened, post_call]
  cases hread : (System.readEvents s.kernel fd).2 with
  | error errno =>
    simp only [post_ite, post_pure, post_throw]
    split_ifs with herrno
    exact .unreadable hread herrno
  | ok evts =>
    have hloop : ∀ e ∈ evts, ∀ s : DaemonState κ, Indexed s.inotify s.watchHeap s.map.keys →
        Post (queueEvent e) s
          (fun _ s' => Indexed s'.inotify s'.watchHeap s'.map.keys)
          fun e s' => Fatal e s'.kernel := by
      intro e _ s hs
      refine (post_queueEvent hs e).imp_of_total fun _ s' hs' => ?_
      have hmap : s'.map = s.map := by rw [hs'.frame]
      rw [hmap]
      exact hs'.indexed
    have hindexed := (h.kernel (System.readEvents s.kernel fd).1).indexed
    exact (Post.forM_invariant hloop hindexed).imp fun _ _ _ => trivial

theorem post_startEvents_fatal (h : Loaded t fd s) :
    Post (startEvents fd) s
      (fun it s' => Stays t fd s s' ∧ ∃ n, it = some n ∧ n < s'.nodeHeap.next ∧
        s'.nodeHeap.cell n = t)
      fun e s' => Fatal e s'.kernel := by
  have hstart : Post (startEvents fd) s (fun _ _ => True) fun e s' => Fatal e s'.kernel :=
    (h.post_startEvents (post_waitForEvents_fatal h)).imp fun _ _ _ => trivial
  exact (post_startEvents_stays h).and_error hstart

theorem post_serveTable_fatal (h : Loaded t fd s) :
    Post (serveTable fd) s (fun _ _ => True) fun e s' => Fatal e s'.kernel := by
  unfold serveTable
  rw [post_bind]
  refine (post_startEvents_fatal h).imp fun it s₁ h₁ => ?_
  obtain ⟨h₁, n, rfl, hlt, hcell⟩ := h₁
  simp only [post_bind, post_get, post_pure]
  exact post_drain_fatal _ h₁.loaded hlt hcell

end
end Incron.Daemon

namespace Incron.Dispatch
open Hoare Daemon Management

variable {κ : Type}

/-! ## The dispatcher -/

/-- An exception that ends the daemon, and the system after its last call. -/
inductive Ending [DispatcherSystem κ] : DaemonException → κ → Prop
  | table {e : DaemonException} {k : κ} (h : Fatal e k) : Ending e k
  /-- A table could not be destroyed. -/
  | destructor {k : κ} (h : Gone k) : Ending .terminate k
  | refused {k : κ} {fds : List ℕ} {errno : ℕ}
      (hinit : (DispatcherSystem.inotifyInit k fds).2 = .error errno) :
      Ending (.inotify "inotify init failed" errno) (DispatcherSystem.inotifyInit k fds).1
  | unreadable {k : κ} {errno : ℕ} (hread : (DispatcherSystem.readMgmt k).2 = .error errno) :
      Ending (.inotify "reading events failed" errno) (DispatcherSystem.readMgmt k).1

section
variable [DispatcherSystem κ] {D : TableDirs} {d : DispatcherState κ} {pipeFd mgmtFd : ℕ}

theorem post_loadTable_ending (h : Consistent d) (dir : TableDir) (n : FileName) :
    Post (loadTable D dir n) d (fun _ _ => True) fun e d' => Ending e d'.kernel := by
  unfold loadTable newTable
  simp only [post_bind, post_get, post_call]
  cases hinit : (DispatcherSystem.inotifyInit d.kernel d.fds).2 with
  | error errno => exact .refused hinit
  | ok fd =>
    have hclosed := DispatcherSystem.init_closed d.kernel d.fds fd hinit
    simp only [post_modifyGet, post_modify, post_onTable]
    let d₁ := created d D dir n (DispatcherSystem.inotifyInit d.kernel d.fds).1 fd
    obtain ⟨hsound, hnone⟩ := h.sound_created (D := D) dir n d₁.kernel hclosed
    have hmap : (d₁.view d.tables.next).map = ∅ := by
      simp only [d₁, DispatcherState.view, created_cell dir n _ fd]
      rfl
    exact (post_load_fatal hsound hmap hnone).mono (fun _ _ _ => trivial) fun _ _ he => .table he

theorem post_deleteTable_gone {t : Incron.UserTable} {fd p : ℕ} (h : Loaded t fd (d.view p)) :
    Post (deleteTable p) d (fun _ _ => True) fun e d' => e = .terminate ∧ Gone d'.kernel := by
  unfold deleteTable
  simp only [post_bind, post_get, post_tryCatch, post_throw, post_onTable, post_modify]
  exact (post_destroy_gone h).mono (fun _ _ _ => trivial) fun _ _ he => ⟨trivial, he⟩

theorem keeps_ending :
    Keeps D (fun _ : DispatcherState κ => True) fun e d => Ending e d.kernel where
  frame _ _ _ _ _ := trivial
  load _ dir n h _ _ := post_loadTable_ending h dir n
  delete _ path p h _ hut := by
    obtain ⟨fd, hp⟩ := h.owned path p hut
    rw [post_bind]
    refine (post_deleteTable_gone hp.loaded).mono (fun _ _ _ => trivial) fun e _ he => ?_
    obtain ⟨rfl, hgone⟩ := he
    exact .destructor hgone
  reload _ _ _ _ _ _ hp := by
    rw [post_onTable]
    exact (post_reload_fatal hp.loaded).mono (fun _ _ _ => trivial) fun _ _ he => .table he
  serve _ _ _ _ _ _ hp := by
    rw [post_onTable]
    exact (post_serveTable_fatal hp.loaded).mono (fun _ _ _ => trivial) fun _ _ he => .table he
  readMgmt _ _ hread := .unreadable hread

end
end Incron.Dispatch
