import Incron.Daemon.Runs

/-! When a table can be disposed, reloaded and removed: exactly while the kernel has all of its
active watches. -/
namespace Incron.Daemon
open Hoare

variable {κ : Type}

structure CleanlyDisposed (s : DaemonState κ) : Prop where
  map : s.map = ∅
  watches : s.inotify.watches = ∅
  paths : s.inotify.paths = ∅
  destroyed : ∀ p < s.watchHeap.next, s.watchHeap.freed.count p = 1

section
variable [System κ] {t : UserTable} {fd : ℕ} {s : DaemonState κ}

theorem Disposed.cleanly {s' : DaemonState κ} (h : Disposed fd s s') : CleanlyDisposed s' := by
  have hindexed : Indexed s'.inotify s'.watchHeap [] := by
    have := h.sound.indexed
    rwa [h.map] at this
  refine ⟨h.map, hindexed.watches.eq_empty, hindexed.paths.eq_empty, fun p hp => ?_⟩
  refine h.sound.watches.count_freed (fun q => Bool.eq_false_iff.mpr fun hq => ?_) hp
  have hmem := h.sound.owned q hq
  rw [h.map] at hmem
  exact AList.notMem_empty q hmem

/-- The `Inotify` object of a disposed table is closed without exceptions. -/
theorem post_close (h : CleanlyDisposed s) (hfd : s.inotify.fd = some fd) :
    Post close s (fun _ s' => s'.inotify.fd = none) fun _ _ => False := by
  unfold close
  have hnone : (∅ : FinMap Str ℕ).entries = [] := rfl
  simp only [post_bind, post_get, hfd, h.paths, hnone, List.mergeSort_nil, List.map_nil]
  exact rfl

theorem post_destroy (h : Loaded t fd s) :
    Post destroy s (fun _ _ => KeepsWatches fd s) fun _ _ => ¬ KeepsWatches fd s := by
  unfold destroy
  rw [post_bind]
  refine (post_dispose h).mono (fun _ s' hs' => ?_) fun _ _ he => he.1
  exact (post_close hs'.2.cleanly hs'.2.sound.opened).imp_of_total fun _ _ _ => hs'.1

/-- The states of the daemon between the actions, and those in which `OnEvent` has been called
and comes to its reload. -/
inductive Reached (t : UserTable) (fd : ℕ) (s₀ : DaemonState κ) : DaemonState κ → Prop
  | between (as : List (Action κ)) {s : DaemonState κ} {it : Option ℕ}
      (hrun : Transition.run (step t fd) (s₀, none) as = some (s, it)) : Reached t fd s₀ s
  | inOnEvent (as : List (Action κ)) {s : DaemonState κ} {it : ℕ} {e : InotifyEvent}
      {q : List InotifyEvent} (k : κ)
      (hrun : Transition.run (step t fd) (s₀, none) as = some (s, some it))
      (hq : s.inotify.events = e :: q) : Reached t fd s₀ { popped it q s with kernel := k }

theorem Reached.loaded {s₀ : DaemonState κ} (h : Reached t fd s₀ s) (hs₀ : Started t fd s₀) :
    Loaded t fd s := by
  cases h with
  | between as hrun => exact (running_of_run hs₀ hrun).loaded
  | inOnEvent as k hrun => exact ((running_of_run hs₀ hrun).loaded.popped _ _).kernel k

/-- In every state that is reached, a table can be disposed, reloaded and removed exactly when
the kernel still has each active watch at its removal and the table file can be parsed. -/
theorem dispose_reload_destroy_iff {s₀ : DaemonState κ} (hs₀ : Started t fd s₀)
    (hs : Reached t fd s₀ s) :
    ((∃ s', dispose s = .ok () s' ∧ CleanlyDisposed s') ∧
      (∃ a s', reload t s = .ok a s') ∧ ∃ a s', destroy s = .ok a s') ↔
      KeepsWatches fd s ∧ FileLoads t (rmAll s.kernel fd (descriptors s)) := by
  have h : Loaded t fd s := hs.loaded hs₀
  have hdispose := post_dispose h
  have hreload := (post_reload h).exists_ok_iff (fun _ _ hs' => hs'.1) fun _ _ he => he.1
  have hdestroy := (post_destroy h).exists_ok_iff (fun _ _ hs' => hs') fun _ _ he => he
  constructor
  · rintro ⟨-, hr, -⟩
    exact hreload.mp hr
  · intro hcan
    refine ⟨?_, hreload.mpr hcan, hdestroy.mpr hcan.1⟩
    obtain ⟨⟨⟩, s', hs'⟩ :=
      (hdispose.exists_ok_iff (fun _ _ hs' => hs'.1) fun _ _ he => he.1).mpr hcan.1
    exact ⟨s', hs', (hdispose.ok hs').2.cleanly⟩

end

theorem dispose_reload_destroy_start : ∃ s₀, start systemTable oneEntry = some s₀ ∧
    (((∃ s', dispose s₀ = .ok () s' ∧ CleanlyDisposed s') ∧
      (∃ a s', reload systemTable s₀ = .ok a s') ∧ ∃ a s', destroy s₀ = .ok a s') ↔
      KeepsWatches 3 s₀ ∧ FileLoads systemTable (rmAll s₀.kernel 3 (descriptors s₀))) := by
  obtain ⟨s₀, hs₀⟩ : ∃ s₀, start systemTable oneEntry = some s₀ :=
    Option.isSome_iff_exists.mp (by decide +kernel)
  exact ⟨s₀, hs₀, dispose_reload_destroy_iff (started_of_start hs₀) (.between [] rfl)⟩

/-- The watched directory has been deleted, and the kernel has dropped its watch. -/
def deleted : SmallSystem :=
  { oneEntry with pending := [{ wd := some 0, mask := inIgnored, name := [] }] }

/-- As long as `IN_IGNORED` has not been read, the table cannot be disposed. -/
theorem not_dispose_deleted : ∃ s₀ s, start systemTable oneEntry = some s₀ ∧
    Transition.run (step systemTable 3) (s₀, none) [.world deleted] = some (s, none) ∧
      ¬ ∃ s', dispose s = .ok () s' ∧ CleanlyDisposed s' := by
  obtain ⟨s₀, hs₀⟩ : ∃ s₀, start systemTable oneEntry = some s₀ :=
    Option.isSome_iff_exists.mp (by decide +kernel)
  have hwds : (start systemTable oneEntry).map descriptors = some [some 0] := by decide +kernel
  rw [hs₀] at hwds
  have hwds : descriptors { s₀ with kernel := deleted } = [some 0] := Option.some.inj hwds
  refine ⟨s₀, _, hs₀, rfl, ?_⟩
  rintro ⟨s', hs', -⟩
  have hloaded : Loaded systemTable 3 { s₀ with kernel := deleted } :=
    (started_of_start hs₀).running.loaded.kernel deleted
  have hkeeps := ((post_dispose hloaded).ok hs').1
  rw [KeepsWatches, hwds] at hkeeps
  have hhas : System.hasWatch deleted 3 0 = true := hkeeps.1
  exact absurd hhas (by decide)

end Incron.Daemon
