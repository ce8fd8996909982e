import Incron.Daemon.Consistency

/-! Rules for runs of the dispatcher: what the operations on tables keep, and what they throw, is
what the start, a pass and every run keep and throw. -/
namespace Incron.Daemon

/-- What `ProcessEvents` does with the events of a table. -/
def serveTable {κ : Type} [System κ] (fd : ℕ) : Daemon κ Unit := do
  match ← startEvents fd with
  | none => pure ()
  | some it => let _ ← drain it ((← get).inotify.events.length + 1)

end Incron.Daemon

namespace Incron.Dispatch
open Hoare Daemon Management

variable {κ : Type}

section
variable [DispatcherSystem κ]

/-- The operations on tables keep a property while everything is in step, and throw only what `E`
allows. -/
structure Keeps (D : TableDirs) (I : DispatcherState κ → Prop)
    (E : DaemonException → DispatcherState κ → Prop) : Prop where
  frame : ∀ (d : DispatcherState κ) k poll finish, I d →
    I { d with kernel := k, poll := poll, finish := finish }
  load : ∀ (d : DispatcherState κ) dir (n : FileName), Consistent d → I d →
    d.ut.lookup (buildPath (D.base dir) n) = none →
    Post (loadTable D dir n) d (fun _ d' => I d') E
  delete : ∀ (d : DispatcherState κ) path p, Consistent d → I d → d.ut.lookup path = some p →
    Post (do deleteTable p; modify fun d => { d with ut := d.ut.erase path }) d
      (fun _ d' => I d') E
  reload : ∀ (d : DispatcherState κ) path p fd, I d → d.ut.lookup path = some p →
    Owned d path p fd → Post (onTable p Daemon.reload) d (fun _ d' => I d') E
  serve : ∀ (d : DispatcherState κ) path p fd, I d → d.ut.lookup path = some p →
    Owned d path p fd → Post (onTable p fun _ => serveTable fd) d (fun _ d' => I d') E
  readMgmt : ∀ (d : DispatcherState κ) errno,
    (DispatcherSystem.readMgmt d.kernel).2 = .error errno →
    E (.inotify "reading events failed" errno)
      { d with kernel := (DispatcherSystem.readMgmt d.kernel).1 }

variable {D : TableDirs} {I : DispatcherState κ → Prop}
  {E : DaemonException → DispatcherState κ → Prop} {d : DispatcherState κ} {pipeFd mgmtFd : ℕ}

/-- An exception of the start, which may also be about the directory of the user tables. -/
def StartThrows (E : DaemonException → DispatcherState κ → Prop) (e : DaemonException)
    (d : DispatcherState κ) : Prop :=
  E e d ∨ ∃ k errno, (DispatcherSystem.readDir k .user).2 = .error errno ∧
    e = .inotify "cannot open user table directory" errno ∧
    d.kernel = (DispatcherSystem.readDir k .user).1

namespace Keeps

/-! ## A pass -/

theorem post_processMgmtEvent (K : Keeps D I E) (h : Steady pipeFd mgmtFd d) (hI : I d)
    (e : MgmtEvent) :
    Post (processMgmtEvent D e) d (fun _ d' => I d') E := by
  unfold processMgmtEvent
  rw [post_ite]
  split
  · exact K.frame d _ _ _ hI
  cases e.name with
  | none => exact hI
  | some n =>
    simp only
    rw [post_ite]
    split
    · exact hI
    rw [post_bind, post_get]
    cases hut : d.ut.lookup (buildPath (D.base e.watch) n) with
    | some pUt =>
      obtain ⟨fd, hp⟩ := h.consistent.owned _ _ hut
      simp only [post_ite]
      split_ifs
      · exact K.reload d _ pUt fd hI hut hp
      · exact K.delete d _ pUt h.consistent hI hut
      · exact hI
    | none =>
      simp only
      rw [post_ite]
      split
      · cases hwatch : e.watch with
        | sys =>
          rw [hwatch] at hut
          exact K.load d .sys n h.consistent hI hut
        | user =>
          rw [hwatch] at hut
          have hasked := K.frame d (DispatcherSystem.checkUser d.kernel n).1 d.poll d.finish hI
          simp only [post_bind, Dispatch.post_call, post_ite, post_pure]
          split_ifs
          · exact K.load _ .user n (h.consistent.of_frame rfl) hasked hut
          · exact hasked
      · exact hI

theorem post_processMgmtEvents (K : Keeps D I E) (h : Steady pipeFd mgmtFd d) (hI : I d) :
    Post (processMgmtEvents D) d (fun _ d' => Steady pipeFd mgmtFd d' ∧ I d') E := by
  unfold processMgmtEvents
  simp only [post_bind, Dispatch.post_call]
  cases hread : (DispatcherSystem.readMgmt d.kernel).2 with
  | error errno => exact K.readMgmt d errno hread
  | ok evts =>
    have hloop : ∀ e ∈ evts, ∀ d : DispatcherState κ, Steady pipeFd mgmtFd d ∧ I d →
        Post (processMgmtEvent D e) d (fun _ d' => Steady pipeFd mgmtFd d' ∧ I d')
          E := fun e _ d hd =>
      ((Dispatch.post_processMgmtEvent hd.1 e).and (K.post_processMgmtEvent hd.1 hd.2 e)).mono
        (fun _ _ h => h) fun _ _ h => h.2
    exact Post.forM_invariant hloop ⟨h.of_frame rfl rfl rfl, K.frame d _ _ _ hI⟩

theorem post_processTable (K : Keeps D I E) (h : Steady pipeFd mgmtFd d) (hI : I d) (fd : ℕ) :
    Post (processTable fd) d (fun _ d' => Steady pipeFd mgmtFd d' ∧ I d') E := by
  have hserve : Post (processTable fd) d (fun _ d' => I d') E := by
    unfold processTable
    rw [post_bind, post_get]
    cases hn : d.maps.lookup fd with
    | none => exact hI
    | some n =>
      obtain ⟨path, p, hut, hp⟩ := h.consistent.registered fd n hn
      obtain ⟨n', hn', -, hcell⟩ := hp.node
      obtain rfl := Option.some.inj (hn.symm.trans hn')
      simp only
      rw [post_bind, post_get, hcell, hp.this]
      exact K.serve d path p fd hI hut hp
  exact ((Dispatch.post_processTable h fd).and hserve).mono (fun _ _ h => ⟨h.1.1, h.2⟩)
    fun _ _ h => h.2

theorem post_processEntries (K : Keeps D I E) (n i : ℕ) (h : Steady pipeFd mgmtFd d) (hI : I d) :
    Post (processEntries n i) d (fun _ d' => I d') E := by
  induction n generalizing d i with
  | zero => exact hI
  | succ n ih =>
    have hclear : ∀ d : DispatcherState κ, Steady pipeFd mgmtFd d → I d →
        Post (do clearEvents i; processEntries n (i + 1)) d (fun _ d' => I d') E :=
      fun d hd hId => ih (i + 1) (post_clearEvents hd i) (K.frame d _ _ _ hId)
    unfold processEntries processEntry
    simp only [post_bind, post_get, post_ite, post_pure] at hclear ⊢
    split_ifs
    · cases d.poll.data[i]? with
      | none => exact hclear d h hI
      | some pfd =>
        simp only [post_bind]
        exact (K.post_processTable h hI pfd.fd).imp fun _ d₁ h₁ => hclear d₁ h₁.1 h₁.2
    · exact ih (i + 1) h hI
    · exact hI

theorem post_processEvents (K : Keeps D I E) (h : Steady pipeFd mgmtFd d) (hI : I d) :
    Post (processEvents D) d (fun _ d' => I d') E := by
  have hrest : ∀ d₁ : DispatcherState κ, Steady pipeFd mgmtFd d₁ → I d₁ →
      Post (do
        if readable (← get).poll 1 then
          processMgmtEvents D
          clearEvents 1
        processEntries (← get).poll.size 2
        return readable d.poll 0) d₁ (fun _ d' => I d') E := by
    intro d₁ h₁ hI₁
    simp only [post_bind, post_get, post_ite, post_pure]
    split_ifs
    · refine (K.post_processMgmtEvents h₁ hI₁).imp fun _ d₂ h₂ => ?_
      exact K.post_processEntries _ _ (post_clearEvents h₂.1 1) (K.frame d₂ _ _ _ h₂.2)
    · exact K.post_processEntries _ _ h₁ hI₁
  unfold processEvents
  simp only [post_bind, post_get, post_ite, post_pure] at hrest ⊢
  by_cases hpipe : readable d.poll 0 = true
  · rw [if_pos hpipe]
    exact hrest _ (post_clearEvents h 0) (K.frame d _ _ _ hI)
  · rw [if_neg hpipe]
    exact hrest d h hI

theorem step (K : Keeps D I E) (d : DispatcherState κ) (r : Report κ) (d' : DispatcherState κ)
    (h : Steady pipeFd mgmtFd d ∧ I d) (hstep : Dispatch.step D d r = some d') :
    Steady pipeFd mgmtFd d' ∧ I d' := by
  refine ⟨steady_step d r d' h.1 hstep, ?_⟩
  unfold Dispatch.step at hstep
  split at hstep
  · exact absurd hstep (by simp)
  · split at hstep
    · next hx =>
      obtain rfl := Option.some.inj hstep
      exact (K.post_processEvents (h.1.polled r) (K.frame d _ _ _ h.2)).ok hx
    · exact absurd hstep (by simp)

/-! ## The start -/

omit [DispatcherSystem κ] in
theorem post_scan {dir : TableDir} {f : FileName → Dispatch κ Unit}
    (hf : ∀ (n : FileName) d, Scanning pipeFd mgmtFd d → I d →
      d.ut.lookup (buildPath (D.base dir) n) = none →
      Post (f n) d (fun _ d' => Scans D pipeFd mgmtFd dir n d d' ∧ I d') E)
    {names : List FileName} (hnames : names.Nodup) (h : Scanning pipeFd mgmtFd d) (hI : I d)
    (hnew : ∀ n ∈ names, d.ut.lookup (buildPath (D.base dir) n) = none) :
    Post (names.forM f) d
      (fun _ d' => Scanning pipeFd mgmtFd d' ∧ I d' ∧ ∀ dir' (n : FileName), dir' ≠ dir →
        d'.ut.lookup (buildPath (D.base dir') n) = d.ut.lookup (buildPath (D.base dir') n))
      E := by
  have hloop := Post.forM (f := f) (l := names) (s := d) (E := E)
    (I := fun rest d' => (Scanning pipeFd mgmtFd d' ∧ I d' ∧
      ∀ dir' (n : FileName), dir' ≠ dir →
        d'.ut.lookup (buildPath (D.base dir') n) = d.ut.lookup (buildPath (D.base dir') n)) ∧
      rest.Nodup ∧ ∀ n ∈ rest, d'.ut.lookup (buildPath (D.base dir) n) = none)
    (fun n rest d₁ h₁ => ?_) ⟨⟨h, hI, fun _ _ _ => rfl⟩, hnames, hnew⟩
  · exact hloop.imp fun _ _ h' => h'.1
  · obtain ⟨⟨h₁, hI₁, hother₁⟩, hnodup, hnew₁⟩ := h₁
    obtain ⟨hn, hnodup⟩ := List.nodup_cons.mp hnodup
    refine (hf n d₁ h₁ hI₁ (hnew₁ n (by simp))).imp fun _ d₂ h₂ => ?_
    obtain ⟨⟨h₂, hut⟩, hI₂⟩ := h₂
    have hother : ∀ path, path ≠ buildPath (D.base dir) n →
        d₂.ut.lookup path = d₁.ut.lookup path := by
      intro path hpath
      rcases hut with hut | ⟨p, hut⟩
      · rw [hut]
      · rw [hut, FinMap.lookup_insertNew, if_neg hpath]
    refine ⟨⟨h₂, hI₂, fun dir' n' hdir => ?_⟩, hnodup, fun n' hn' => ?_⟩
    · rw [hother _ fun hpath => hdir (buildPath_injective D hpath).1, hother₁ dir' n' hdir]
    · rw [hother _ fun hpath => hn ((buildPath_injective D hpath).2 ▸ hn')]
      exact hnew₁ n' (by simp [hn'])

theorem post_loadSystemTable (K : Keeps D I E) (h : Scanning pipeFd mgmtFd d) (hI : I d)
    {n : FileName} (hnew : d.ut.lookup (buildPath (D.base .sys) n) = none) :
    Post (loadSystemTable D n) d (fun _ d' => Scans D pipeFd mgmtFd .sys n d d' ∧ I d')
      E := by
  have hload : Post (loadSystemTable D n) d (fun _ d' => I d') E := by
    unfold loadSystemTable
    rw [post_ite]
    split
    · exact hI
    · exact K.load d .sys n h.consistent hI hnew
  exact ((Dispatch.post_loadSystemTable h hnew).and hload).mono (fun _ _ h => h) fun _ _ h => h.2

theorem post_loadUserTable (K : Keeps D I E) (h : Scanning pipeFd mgmtFd d) (hI : I d)
    {n : FileName} (hnew : d.ut.lookup (buildPath (D.base .user) n) = none) :
    Post (loadUserTable D n) d (fun _ d' => Scans D pipeFd mgmtFd .user n d d' ∧ I d')
      E := by
  have hload : Post (loadUserTable D n) d (fun _ d' => I d') E := by
    have hasked := K.frame d (DispatcherSystem.checkUser d.kernel n).1 d.poll d.finish hI
    unfold loadUserTable
    rw [post_bind, Dispatch.post_call, post_ite]
    split
    · exact K.load _ .user n (h.kernel _).consistent hasked hnew
    · exact hasked
  exact ((Dispatch.post_loadUserTable h hnew).and hload).mono (fun _ _ h => h) fun _ _ h => h.2

theorem post_scanSystemTables (K : Keeps D I E) (h : Scanning pipeFd mgmtFd d) (hI : I d)
    (hut : d.ut = ∅) :
    Post (scanSystemTables D) d
      (fun _ d' => Scanning pipeFd mgmtFd d' ∧ I d' ∧
        ∀ n : FileName, d'.ut.lookup (buildPath (D.base .user) n) = none)
      E := by
  have hnew : ∀ path, d.ut.lookup path = none := by
    intro path
    rw [hut, AList.lookup_empty]
  have hread := K.frame d (DispatcherSystem.readDir d.kernel .sys).1 d.poll d.finish hI
  unfold scanSystemTables
  rw [post_bind, Dispatch.post_call]
  split
  · exact ⟨h.kernel _, hread, fun n => hnew _⟩
  · next names hnames =>
    have hscan := post_scan (fun _ _ h hI hnew => K.post_loadSystemTable h hI hnew)
      (DispatcherSystem.readDir_nodup _ _ _ hnames)
      (h.kernel (DispatcherSystem.readDir d.kernel .sys).1) hread fun n _ => hnew _
    exact hscan.imp fun _ d₁ h₁ =>
      ⟨h₁.1, h₁.2.1, fun n => (h₁.2.2 .user n (by simp)).trans (hnew _)⟩

theorem post_scanUserTables (K : Keeps D I E) (h : Scanning pipeFd mgmtFd d) (hI : I d)
    (hnew : ∀ n : FileName, d.ut.lookup (buildPath (D.base .user) n) = none) :
    Post (scanUserTables D) d (fun _ d' => I d') (StartThrows E) := by
  have hread := K.frame d (DispatcherSystem.readDir d.kernel .user).1 d.poll d.finish hI
  unfold scanUserTables
  rw [post_bind, Dispatch.post_call]
  split
  · next errno hdir => exact .inr ⟨_, errno, hdir, rfl, rfl⟩
  · next names hnames =>
    have hscan := post_scan (fun _ _ h hI hnew => K.post_loadUserTable h hI hnew)
      (DispatcherSystem.readDir_nodup _ _ _ hnames)
      (h.kernel (DispatcherSystem.readDir d.kernel .user).1) hread fun n _ => hnew n
    exact hscan.mono (fun _ _ h₁ => h₁.2.1) fun _ _ he => .inl he

theorem post_startUp (K : Keeps D I E) (h : Scanning pipeFd mgmtFd d) (hI : I d)
    (hut : d.ut = ∅) : Post (startUp D) d (fun _ d' => I d') (StartThrows E) := by
  have hscans : Post (scanSystemTables D >>= fun _ => scanUserTables D) d (fun _ d' => I d')
      (StartThrows E) := by
    rw [post_bind]
    exact (K.post_scanSystemTables h hI hut).mono
      (fun _ _ h₁ => K.post_scanUserTables h₁.1 h₁.2.1 h₁.2.2) fun _ _ he => .inl he
  have hload : Post (loadTables D) d (fun _ d' => I d') (StartThrows E) := by
    unfold Post
    rw [loadTables_eq]
    exact hscans
  unfold startUp rebuild
  rw [post_bind]
  exact hload.imp fun _ d₁ h₁ => K.frame d₁ _ _ _ h₁

/-! ## Runs -/

theorem of_run (K : Keeps D I E) {d₀ d₁ : DispatcherState κ} {rs : List (Report κ)}
    (h₀ : Initial pipeFd mgmtFd d₀) (hI : I d₀) (hstart : startUp D d₀ = .ok () d₁)
    (hrun : Transition.run (Dispatch.step D) d₁ rs = some d) : Steady pipeFd mgmtFd d ∧ I d := by
  have h₁ := (Dispatch.post_startUp h₀.scanning h₀.ut).ok hstart
  have hI₁ := (K.post_startUp h₀.scanning hI h₀.ut).ok hstart
  exact Transition.run_invariant K.step ⟨⟨h₁.1, h₁.2⟩, hI₁⟩ hrun

/-- A round of the loop of `main` throws besides only when `poll` has failed. -/
theorem post_loopBody (K : Keeps D I E) (h : Steady pipeFd mgmtFd d) (hI : I d)
    (r : PollResult κ) :
    Post (loopBody D r) d (fun _ d' => Steady pipeFd mgmtFd d' ∧ I d')
      fun e d' => E e d' ∨
        ∃ errno, r = .failed errno ∧ e = .inotify "polling failed" errno ∧ d' = d := by
  cases r with
  | ready r =>
    have hpolled := h.polled r
    simp only [loopBody, post_bind, post_modify, post_pure]
    exact ((Dispatch.post_processEvents hpolled).and
      (K.post_processEvents hpolled (K.frame d _ _ _ hI))).mono (fun _ _ h₁ => h₁)
        fun _ _ he => .inl he.2
  | interrupted => exact ⟨h, hI⟩
  | short => exact ⟨h, hI⟩
  | failed errno => exact .inr ⟨errno, rfl, rfl, rfl⟩

end Keeps
end
end Incron.Dispatch
