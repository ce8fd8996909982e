import Incron.Daemon.Rules
import Incron.Lib.Frame

/-! One pass of `ProcessEvents`: which tables are served, and what is left of their events. Only
`GetEvent` and `WaitForEvents` change the queue of a table, and only `Rebuild` the poll array. -/
namespace Incron.Daemon
open Hoare Dispatch

variable {κ : Type}

/-! ## What the operations of a table leave alone -/

/-- The poll array is as it was, or a new one, in which no descriptor is readable. -/
def PollKept (s s' : DaemonState κ) : Prop :=
  s'.poll = s.poll ∨ ∀ i, readable s'.poll i = false

structure Leaves (s s' : DaemonState κ) : Prop where
  events : s'.inotify.events = s.inotify.events
  poll : PollKept s s'

instance : IsPreorder (DaemonState κ) PollKept where
  refl _ := .inl rfl
  trans _ _ _ h h' := h'.elim (fun hpoll => by unfold PollKept; rw [hpoll]; exact h) .inr

instance : IsPreorder (DaemonState κ) Leaves where
  refl _ := ⟨rfl, .inl rfl⟩
  trans _ _ _ h h' := ⟨h'.events.trans h.events, IsTrans.trans _ _ _ h.poll h'.poll⟩

theorem Leaves.of_same {s s' : DaemonState κ} (hevents : s'.inotify.events = s.inotify.events)
    (hpoll : s'.poll = s.poll) : Leaves s s' := ⟨hevents, .inl hpoll⟩

theorem readable_rebuild (P : Poll) (keys : List ℕ) (i : ℕ) :
    readable (P.rebuild keys) i = false := by
  have hzero : ∀ pfd ∈ (P.rebuild keys).data, pfd.revents = 0 := by
    intro pfd hpfd
    simp only [Poll.rebuild, List.mem_cons, List.mem_map] at hpfd
    obtain rfl | rfl | ⟨fd, -, rfl⟩ := hpfd <;> rfl
  unfold readable
  cases hpfd : (P.rebuild keys).data[i]? with
  | none => rfl
  | some pfd =>
    simp only [hzero pfd (List.mem_of_getElem? hpfd)]
    decide

section Calls
variable {α : Type}

theorem within_call (f : κ → κ × α) : Within Leaves (call f) := fun _ => .of_same rfl rfl

theorem within_watchAt (p : ℕ) : Within (Leaves (κ := κ)) (watchAt p) := fun _ => .of_same rfl rfl

theorem within_entryAt (p : ℕ) : Within (Leaves (κ := κ)) (entryAt p) := fun _ => .of_same rfl rfl

theorem within_modifyWatch (p : ℕ) (f : InotifyWatch → InotifyWatch) :
    Within (Leaves (κ := κ)) (modifyWatch p f) := fun _ => .of_same rfl rfl

theorem within_modifyInotify {f : Inotify → Inotify} (hf : ∀ i, (f i).events = i.events) :
    Within (Leaves (κ := κ)) (modifyInotify f) := fun _ => .of_same (hf _) rfl

theorem within_pushEntry (e : IncronTabEntry) : Within (Leaves (κ := κ)) (pushEntry e) :=
  fun _ => .of_same rfl rfl

end Calls

section Operations
variable [System κ] (t : UserTable)

theorem within_add (pWatch : ℕ) : Within (Leaves (κ := κ)) (add pWatch) := by
  have hlink : ∀ path, Within (Leaves (κ := κ)) (add.link pWatch path) := by
    intro path
    unfold add.link
    exact (within_modifyInotify fun _ => by rfl).bind fun _ => Within.get.bind fun _ =>
      within_modifyWatch _ _
  unfold add
  refine Within.get.bind fun s => ?_
  cases s.inotify.fd with
  | none => exact Within.throw _
  | some fd =>
    refine (within_watchAt _).bind fun w => Within.get.bind fun s => ?_
    split
    · exact Within.throw _
    · refine Within.ite ?_ (hlink _)
      refine (within_call _).bind fun r => ?_
      split
      · exact Within.throw _
      · refine Within.get.bind fun s => ?_
        split
        · refine (within_watchAt _).bind fun w' => (within_call _).bind fun r => ?_
          split <;> exact Within.throw _
        · exact (within_modifyWatch _ _).bind fun _ =>
            (within_modifyInotify fun _ => by rfl).bind fun _ => hlink _

theorem within_remove (pWatch : ℕ) : Within (Leaves (κ := κ)) (remove pWatch) := by
  have hunlink : ∀ path, Within (Leaves (κ := κ)) (remove.unlink pWatch path) := by
    intro path
    unfold remove.unlink
    exact (within_modifyInotify fun _ => by rfl).bind fun _ => within_modifyWatch _ _
  unfold remove
  refine Within.get.bind fun s => ?_
  cases s.inotify.fd with
  | none => exact Within.throw _
  | some fd =>
    refine (within_watchAt _).bind fun w => ?_
    split
    · exact hunlink _
    · refine (within_call _).bind fun r => ?_
      split
      · exact Within.throw _
      · exact (within_modifyInotify fun _ => by rfl).bind fun _ =>
          (within_modifyWatch _ _).bind fun _ => hunlink _

omit [System κ] in
theorem within_rebuild : Within (Leaves (κ := κ)) rebuild :=
  fun s => ⟨rfl, .inr (readable_rebuild s.poll s.maps.keys)⟩

omit [System κ] in
theorem within_register : Within (Leaves (κ := κ)) (register t) := by
  unfold register
  refine Within.get.bind fun s => ?_
  split
  · exact Within.pure _
  · refine Within.get.bind fun s => ?_
    split
    · exact within_rebuild
    · exact Within.bind (Within.modify fun _ => .of_same rfl rfl) fun _ => within_rebuild

omit [System κ] in
theorem within_unregister : Within (Leaves (κ := κ)) unregister := by
  unfold unregister
  refine Within.get.bind fun s => ?_
  split
  · exact Within.pure _
  · refine Within.get.bind fun s => ?_
    split
    · exact Within.pure _
    · exact (Within.modify fun _ => .of_same rfl rfl).bind fun _ => within_rebuild

theorem within_dispose : Within (Leaves (κ := κ)) dispose := by
  unfold dispose
  refine within_unregister.bind fun _ => Within.get.bind fun s => ?_
  refine (Within.forM (fun pW => ?_) _).bind fun _ => Within.modify fun _ => .of_same rfl rfl
  unfold disposeWatch
  exact (within_remove pW).bind fun _ => Within.modify fun _ => .of_same rfl rfl

theorem within_loadTab (rPath : Str) : Within (Leaves (κ := κ)) (loadTab rPath) := by
  unfold loadTab
  refine (Within.modify fun _ => .of_same rfl rfl).bind fun _ => (within_call _).bind fun f => ?_
  split
  · exact Within.throw _
  · exact Within.forM (fun e => within_pushEntry e) _

theorem within_addSubDirs (p : ℕ) : Within (Leaves (κ := κ)) (addSubDirs p) := by
  have hvec : ∀ rE : IncronTabEntry, Within (Leaves (κ := κ)) (subDirVec rE) := by
    intro rE
    unfold subDirVec
    refine (within_call _).bind fun out => ?_
    exact Within.ite ((within_call _).bind fun out' => Within.pure _) (Within.pure _)
  unfold addSubDirs
  refine (within_entryAt p).bind fun rE => Within.ite (Within.pure _) ?_
  exact (hvec rE).bind fun ssvec => Within.forM (fun subDir => within_pushEntry _) _

theorem within_addPlainEntry (p : ℕ) : Within (Leaves (κ := κ)) (addPlainEntry t p) := by
  unfold addPlainEntry addTabEntry newWatch deleteWatch
  refine (within_entryAt p).bind fun rE => Within.ite (Within.pure _) ?_
  refine (within_entryAt p).bind fun rE => ?_
  refine (Within.modifyGet fun _ => .of_same rfl rfl).bind fun pW => ?_
  refine (within_call _).bind fun _ => ?_
  refine Within.tryCatch ?_ fun e => ?_
  · exact (within_add pW).bind fun _ => Within.modify fun _ => .of_same rfl rfl
  · cases e with
    | inotify message errno => exact Within.modify fun _ => .of_same rfl rfl
    | outOfRange | terminate => exact Within.throw _

theorem within_load : Within (Leaves (κ := κ)) (load t) := by
  unfold load
  refine (within_loadTab t.path).bind fun _ => Within.get.bind fun s => ?_
  refine (Within.forM (fun p => within_addSubDirs p) _).bind fun _ => Within.get.bind fun s' => ?_
  exact (Within.forM (fun p => within_addPlainEntry t p) _).bind fun _ => within_register t

theorem within_reload : Within (Leaves (κ := κ)) (reload t) :=
  within_dispose.bind fun _ => within_load t

theorem within_onEvent (rEvt : InotifyEvent) : Within (Leaves (κ := κ)) (onEvent t rEvt) := by
  have hpath : ∀ pW, Within (Leaves (κ := κ)) (watchPath pW) := fun pW =>
    (within_watchAt pW).bind fun _ => Within.pure _
  have hexpand : ∀ pE, Within (Leaves (κ := κ)) (expandEntry pE rEvt) := by
    intro pE
    unfold expandEntry
    refine (within_entryAt pE).bind fun rE => ?_
    refine Within.ite ((hpath _).bind fun path => ?_) ((Within.pure _).bind fun path => ?_)
    · simp only [UserTable.expandCmd_eq]
      exact Within.pure _
    · simp only [UserTable.expandCmd_eq]
      exact Within.pure _
  unfold onEvent
  refine Within.get.bind fun s => ?_
  split
  · exact Within.pure _
  · refine (hpath _).bind fun path => (within_call _).bind fun may => ?_
    refine Within.ite (Within.pure _) ?_
    have hrest : ∀ pE, Within (Leaves (κ := κ)) (do
        let cmd ← expandEntry pE rEvt
        return if ← call System.fork then some cmd else none) := fun pE =>
      (hexpand pE).bind fun cmd => (within_call _).bind fun _ => Within.pure _
    refine (hpath _).bind fun _ => ?_
    exact Within.ite ((within_reload t).bind fun _ => hrest _) (hrest _)

theorem within_destroy : Within (Leaves (κ := κ)) destroy := by
  unfold destroy close release
  refine within_dispose.bind fun _ => Within.get.bind fun s => ?_
  split
  · exact Within.pure _
  · refine Within.get.bind fun s' => Within.bind (Within.forM (fun pW => ?_) _) fun _ => ?_
    · refine (within_watchAt pW).bind fun w => ?_
      split
      · exact within_modifyWatch _ _
      · exact (within_call _).bind fun _ => (within_modifyWatch _ _).bind fun _ =>
          within_modifyWatch _ _
    · exact within_modifyInotify fun _ => by rfl

end Operations

/-! ## Draining -/

section Drain
variable [System κ]

theorem within_waitForEvents : Within (PollKept (κ := κ)) waitForEvents := by
  have hcall : ∀ {α : Type} (f : κ → κ × α), Within PollKept (call f) := fun f s => .inl rfl
  have hwatchAt : ∀ p, Within (PollKept (κ := κ)) (watchAt p) := fun p s => .inl rfl
  have hwatch : ∀ p f, Within (PollKept (κ := κ)) (modifyWatch p f) := fun p f s => .inl rfl
  have hinotify : ∀ f, Within (PollKept (κ := κ)) (modifyInotify f) := fun f s => .inl rfl
  have hdisable : ∀ p, Within (PollKept (κ := κ)) (disable p) := by
    intro p
    unfold disable
    refine (hwatchAt p).bind fun w => Within.ite ?_ (Within.throw _)
    split
    · exact (hinotify _).bind fun _ => hwatch p _
    · exact hwatch p _
  have hqueue : ∀ e, Within (PollKept (κ := κ)) (queueEvent e) := by
    intro e
    unfold queueEvent
    refine Within.get.bind fun s => ?_
    split
    · exact Within.pure _
    · refine (hwatchAt _).bind fun w => Within.ite ?_ (hinotify _)
      exact (hdisable _).bind fun _ => hinotify _
  unfold waitForEvents
  refine Within.get.bind fun s => ?_
  split
  · exact Within.throw _
  · refine (hcall _).bind fun evts => ?_
    split
    · exact Within.ite (Within.pure _) (Within.throw _)
    · exact Within.forM hqueue _

theorem post_round_queue (it : ℕ) (s : DaemonState κ) :
    Post (round it) s
      (fun r s' => PollKept s s' ∧ (r = none → s'.inotify.events = []) ∧
        (r ≠ none → s'.inotify.events.length + 1 = s.inotify.events.length))
      fun _ _ => True := by
  unfold round getEvent
  simp only [post_bind, post_get]
  cases hevents : s.inotify.events with
  | nil => exact ⟨.inl rfl, fun _ => hevents, fun h => absurd rfl h⟩
  | cons e q =>
    simp only [post_bind, post_modifyInotify, post_pure, post_nodeAt]
    refine (within_onEvent _ e _).imp_any fun cmd s' hs' => ?_
    refine ⟨hs'.poll, fun h => absurd h (by simp), fun _ => ?_⟩
    rw [hs'.events]
    simp [touch, hevents]

/-- With more rounds than events the queue gets empty, wherever the node has gone. -/
theorem post_drain_queue (it n : ℕ) (s : DaemonState κ) (hn : s.inotify.events.length < n) :
    Post (drain it n) s (fun _ s' => PollKept s s' ∧ s'.inotify.events = [])
      fun _ _ => True := by
  induction n generalizing s with
  | zero => exact absurd hn (Nat.not_lt_zero _)
  | succ n ih =>
    unfold drain
    rw [post_bind]
    refine (post_round_queue it s).imp_any fun r s₁ hs₁ => ?_
    obtain ⟨hpoll, hnone, hsome⟩ := hs₁
    cases r with
    | none => exact ⟨hpoll, hnone rfl⟩
    | some r =>
      have hlen := hsome (by simp)
      simp only [post_bind, post_pure]
      exact (ih s₁ (by omega)).imp_any fun _ s₂ hs₂ => ⟨IsTrans.trans _ _ _ hpoll hs₂.1, hs₂.2⟩

/-- The events of a table: whatever had been in its queue, nothing is left. -/
theorem post_serveTable_queue (fd : ℕ) (s : DaemonState κ) :
    Post (serveTable fd) s
      (fun _ s' => PollKept s s' ∧ (s.inotify.events = [] → s'.inotify.events = []))
      fun _ _ => True := by
  have hstart : Post (startEvents fd) s
      (fun it s' => PollKept s s' ∧ (it = none → s' = s)) fun _ _ => True := by
    unfold startEvents
    simp only [post_bind, post_get]
    split
    · exact ⟨.inl rfl, fun _ => rfl⟩
    · simp only [post_bind, post_nodeAt, post_pure]
      exact (within_waitForEvents _).imp_any fun _ s' hs' => ⟨hs', fun h => absurd h (by simp)⟩
  unfold serveTable
  rw [post_bind]
  refine hstart.imp_any fun it s₁ hs₁ => ?_
  cases it with
  | none =>
    obtain rfl := hs₁.2 rfl
    exact ⟨hs₁.1, id⟩
  | some it =>
    simp only [post_bind, post_get, post_pure]
    refine (post_drain_queue it _ s₁ (Nat.lt_succ_self _)).imp_any fun _ s₂ hs₂ => ?_
    exact ⟨IsTrans.trans _ _ _ hs₁.1 hs₂.1, fun _ => hs₂.2⟩

end Drain
end Incron.Daemon

namespace Incron.Dispatch
open Hoare Daemon Management

variable {κ : Type}

/-! ## The management part -/

def Idle (d : DispatcherState κ) : Prop := ∀ p, (d.tables.cell p).inotify.events = []

/-- No event has been left in a queue, and the poll array is as it was, or a new one, in which no
descriptor is readable. -/
structure Undisturbed (d d' : DispatcherState κ) : Prop where
  idle : Idle d → Idle d'
  poll : d'.poll = d.poll ∨ ∀ i, readable d'.poll i = false

instance : IsPreorder (DispatcherState κ) Undisturbed where
  refl _ := ⟨id, .inl rfl⟩
  trans _ _ _ h h' := ⟨fun hidle => h'.idle (h.idle hidle),
    h'.poll.elim (fun hpoll => by rw [hpoll]; exact h.poll) .inr⟩

/-- No event has been left in a queue, no entry has become readable, and the entries from the
`i`-th on are as they were, or the poll array is a new one. -/
structure UpTo (i : ℕ) (d d' : DispatcherState κ) : Prop where
  idle : Idle d → Idle d'
  fewer : ∀ j, readable d.poll j = false → readable d'.poll j = false
  poll : (d'.poll.size = d.poll.size ∧ ∀ j, i ≤ j → readable d'.poll j = readable d.poll j) ∨
    ∀ j, readable d'.poll j = false

instance (i : ℕ) : IsPreorder (DispatcherState κ) (UpTo i) where
  refl _ := ⟨id, fun _ => id, .inl ⟨rfl, fun _ _ => rfl⟩⟩
  trans _ _ _ h h' := by
    refine ⟨fun hidle => h'.idle (h.idle hidle), fun j hj => h'.fewer j (h.fewer j hj), ?_⟩
    rcases h'.poll with ⟨hsize', hsame'⟩ | hnew
    · refine h.poll.imp (fun ⟨hsize, hsame⟩ => ?_) fun hnew j => h'.fewer j (hnew j)
      exact ⟨hsize'.trans hsize, fun j hj => (hsame' j hj).trans (hsame j hj)⟩
    · exact .inr hnew

theorem Undisturbed.upTo {d d' : DispatcherState κ} (h : Undisturbed d d') (i : ℕ) :
    UpTo i d d' := by
  refine ⟨h.idle, fun j hj => ?_, h.poll.imp_left fun hpoll => ?_⟩
  · rcases h.poll with hpoll | hnew
    · rw [hpoll]
      exact hj
    · exact hnew j
  · rw [hpoll]
    exact ⟨rfl, fun _ _ => rfl⟩

theorem Idle.of_tables {d d' : DispatcherState κ} (h : Idle d) (htables : d'.tables = d.tables) :
    Idle d' := by
  unfold Idle
  rw [htables]
  exact h

theorem Idle.put {d : DispatcherState κ} (h : Idle d) (p : ℕ) {s : DaemonState κ}
    (hs : s.inotify.events = []) : Idle (d.put p s) := by
  intro q
  by_cases hq : q = p
  · subst hq
    simp [DispatcherState.put, hs]
  · simp only [DispatcherState.put, Heap.set_cell_of_ne _ hq]
    exact h q

theorem within_onTable {α : Type} (p : ℕ) {f : UserTable → Daemon κ α}
    (hf : ∀ t, Within Leaves (f t)) : Within Undisturbed (onTable p f) := by
  intro d
  rw [post_onTable]
  have hput : ∀ s', Leaves (d.view p) s' → Undisturbed d (d.put p s') :=
    fun s' hs' => ⟨fun h => h.put p (hs'.events.trans (h p)), hs'.poll⟩
  exact (hf _ _).mono (fun _ _ hs' => hput _ hs') fun _ _ hs' => hput _ hs'

section
variable [DispatcherSystem κ] {D : TableDirs} {d : DispatcherState κ}

omit [DispatcherSystem κ] in
theorem within_call {α : Type} (f : κ → κ × α) : Within Undisturbed (call f) :=
  fun _ => ⟨fun h => h.of_tables rfl, .inl rfl⟩

omit [DispatcherSystem κ] in
theorem within_modify {f : DispatcherState κ → DispatcherState κ}
    (htables : ∀ d, (f d).tables.cell = d.tables.cell) (hpoll : ∀ d, (f d).poll = d.poll) :
    Within Undisturbed (modify f : Dispatch κ Unit) :=
  Within.modify fun d => ⟨fun h p => by rw [htables]; exact h p, .inl (hpoll d)⟩

theorem within_loadTable (dir : TableDir) (n : FileName) :
    Within Undisturbed (loadTable (κ := κ) D dir n) := by
  unfold loadTable newTable
  refine Within.bind (Within.get.bind fun d₀ => (within_call _).bind fun r => ?_) fun pUt => ?_
  · split
    · exact Within.throw _
    · refine Within.modifyGet fun d => ⟨fun h p => ?_, .inl rfl⟩
      simp only [Heap.alloc_cell]
      split_ifs
      · rfl
      · exact h p
  · refine Within.bind (within_modify (fun _ => by rfl) fun _ => by rfl) fun _ => ?_
    exact within_onTable pUt within_load

theorem within_deleteTable (pUt : ℕ) : Within Undisturbed (deleteTable (κ := κ) pUt) := by
  unfold deleteTable
  refine Within.get.bind fun d₀ => Within.bind ?_ fun _ => within_modify (fun _ => rfl) fun _ => rfl
  exact Within.tryCatch (within_onTable pUt fun _ => within_destroy) fun _ => Within.throw _

theorem within_loadTables : Within Undisturbed (loadTables (κ := κ) D) := by
  have hsys : ∀ n, Within Undisturbed (loadSystemTable (κ := κ) D n) := by
    intro n
    unfold loadSystemTable
    exact Within.ite (Within.pure _) (within_loadTable _ _)
  have huser : ∀ n, Within Undisturbed (loadUserTable (κ := κ) D n) := by
    intro n
    unfold loadUserTable
    exact (within_call _).bind fun may => Within.ite (within_loadTable _ _) (Within.pure _)
  have hscanSys : Within Undisturbed (scanSystemTables (κ := κ) D) := by
    unfold scanSystemTables
    refine (within_call _).bind fun r => ?_
    split
    · exact Within.pure _
    · exact Within.forM hsys _
  have hscanUser : Within Undisturbed (scanUserTables (κ := κ) D) := by
    unfold scanUserTables
    refine (within_call _).bind fun r => ?_
    split
    · exact Within.throw _
    · exact Within.forM huser _
  intro d
  unfold Post
  rw [loadTables_eq]
  exact hscanSys.bind (fun _ => hscanUser) d

theorem within_processMgmtEvents : Within Undisturbed (processMgmtEvents (κ := κ) D) := by
  have hevent : ∀ e, Within Undisturbed (processMgmtEvent (κ := κ) D e) := by
    intro e
    unfold processMgmtEvent
    refine Within.ite (within_modify (fun _ => rfl) fun _ => rfl) ?_
    split
    · exact Within.pure _
    · refine Within.ite (Within.pure _) (Within.get.bind fun d => ?_)
      split
      · refine Within.ite (within_onTable _ within_reload) (Within.ite ?_ (Within.pure _))
        exact (within_deleteTable _).bind fun _ => within_modify (fun _ => rfl) fun _ => rfl
      · refine Within.ite ?_ (Within.pure _)
        split
        · exact within_loadTable _ _
        · exact (within_call _).bind fun may => Within.ite (within_loadTable _ _) (Within.pure _)
  unfold processMgmtEvents
  refine (within_call _).bind fun r => ?_
  split
  · exact Within.throw _
  · exact Within.forM hevent _

/-! ## The tables -/

def readableFrom (P : Poll) (i : ℕ) : List ℕ := (List.range' i (P.size - i)).filter (readable P)

/-- What the loop does with a readable entry. -/
def serveEntry (i : ℕ) : Dispatch κ Unit := do
  match (← get).poll.data[i]? with
  | none => pure ()
  | some pfd => processTable pfd.fd
  clearEvents i

theorem processEntry_eq (i : ℕ) (d : DispatcherState κ) :
    processEntry i d = if readable d.poll i then serveEntry i d else .ok () d := by
  unfold processEntry serveEntry
  rw [get_bind]
  split_ifs
  · rfl
  · rfl

theorem post_processTable_undisturbed (fd : ℕ) (d : DispatcherState κ) :
    Post (processTable fd) d (fun _ d' => Undisturbed d d') fun _ _ => True := by
  unfold processTable
  simp only [post_bind, post_get]
  split
  · exact Std.Refl.refl d
  · rw [post_bind, post_get]
    refine (post_onTable _ _).mpr ((post_serveTable_queue fd _).imp_any fun _ s' hs' => ?_)
    exact ⟨fun h => h.put _ (hs'.2 (h _)), hs'.1⟩

omit [DispatcherSystem κ] in
theorem readable_clear (P : Poll) (i j : ℕ) :
    readable { P with data := P.data.modify i fun pfd => { pfd with revents := 0 } } j =
      (readable P j && j != i) := by
  unfold readable
  rw [List.getElem?_modify]
  cases P.data[j]? with
  | none => rfl
  | some pfd =>
    by_cases hij : i = j
    · simp [hij]
    · simp [hij, Ne.symm hij]

omit [DispatcherSystem κ] in
theorem within_clearEvents {i k : ℕ} (hi : i < k) :
    Within (UpTo (κ := κ) k) (clearEvents i) := by
  refine Within.modify fun d => ⟨fun h => h.of_tables rfl, fun j hj => ?_,
    .inl ⟨rfl, fun j hj => ?_⟩⟩
  · rw [readable_clear, hj, Bool.false_and]
  · rw [readable_clear, bne_iff_ne.mpr (Nat.ne_of_gt (Nat.lt_of_lt_of_le hi hj)), Bool.and_true]

theorem post_serveEntry (i : ℕ) (d : DispatcherState κ) :
    Post (serveEntry i) d (fun _ d' => UpTo (i + 1) d d') fun _ _ => True := by
  unfold serveEntry
  simp only [post_bind, post_get]
  split
  · exact (within_clearEvents (Nat.lt_succ_self i) d).imp_any fun _ _ h => h
  · rw [post_bind]
    refine (post_processTable_undisturbed _ d).imp_any fun _ d₁ h₁ => ?_
    exact (within_clearEvents (Nat.lt_succ_self i) d₁).imp_any
      fun _ _ h₂ => IsTrans.trans _ _ _ (h₁.upTo _) h₂

theorem processEntries_unreadable (n i : ℕ) (h : ∀ j, readable d.poll j = false) :
    processEntries n i d = .ok () d := by
  induction n generalizing i with
  | zero => rfl
  | succ n ih =>
    rw [processEntries_succ]
    split_ifs
    · simp only [Bind.bind, EStateM.bind, processEntry_eq, h]
      exact ih (i + 1)
    · rfl

omit [DispatcherSystem κ] in
theorem readableFrom_of_lt {P : Poll} {i : ℕ} (hi : i < P.size) : readableFrom P i =
    if readable P i then i :: readableFrom P (i + 1) else readableFrom P (i + 1) := by
  obtain ⟨n, hn⟩ := Nat.exists_eq_add_of_lt hi
  have hsub : P.size - i = n + 1 := by omega
  have hsub' : P.size - (i + 1) = n := by omega
  rw [readableFrom, readableFrom, hsub, hsub', List.range'_succ, List.filter_cons]

omit [DispatcherSystem κ] in
theorem readableFrom_of_le {P : Poll} {i : ℕ} (hi : P.size ≤ i) : readableFrom P i = [] := by
  rw [readableFrom, Nat.sub_eq_zero_of_le hi]
  rfl

omit [DispatcherSystem κ] in
theorem readableFrom_congr {P P' : Poll} {i : ℕ} (hsize : P'.size = P.size)
    (h : ∀ j, i ≤ j → readable P' j = readable P j) : readableFrom P' i = readableFrom P i := by
  unfold readableFrom
  rw [hsize]
  exact List.filter_congr fun j hj => h j (List.mem_range'_1.mp hj).1

/-- The loop serves readable entries from the front, all of them unless the poll array is a new
one at its end. -/
theorem processEntries_serves (n i : ℕ) (hn : d.poll.size ≤ i + n) :
    ∃ is, is <+: readableFrom d.poll i ∧ processEntries n i d = is.forM serveEntry d ∧
      (is = readableFrom d.poll i ∨
        ∀ d', is.forM serveEntry d = .ok () d' → ∀ j, readable d'.poll j = false) := by
  induction n generalizing i d with
  | zero =>
    exact ⟨[], List.nil_prefix, rfl, .inl (readableFrom_of_le hn).symm⟩
  | succ n ih =>
    rw [processEntries_succ]
    by_cases hi : i < d.poll.size
    · rw [if_pos hi, readableFrom_of_lt hi]
      simp only [Bind.bind, EStateM.bind, processEntry_eq]
      by_cases hread : readable d.poll i = true
      · simp only [if_pos hread]
        cases hserve : serveEntry i d with
        | error e d₁ =>
          have hrun : [i].forM serveEntry d = .error e d₁ := by
            simp only [List.forM, Bind.bind, EStateM.bind, hserve]
          refine ⟨[i], by simp, hrun.symm, .inr fun d' hd' => ?_⟩
          exact absurd (hrun.symm.trans hd') (by simp)
        | ok u d₁ =>
          have hrun : ∀ is : List ℕ, (i :: is).forM serveEntry d = is.forM serveEntry d₁ := by
            intro is
            simp only [List.forM, Bind.bind, EStateM.bind, hserve]
          rcases ((post_serveEntry i d).ok hserve).poll with ⟨hsize, hbehind⟩ | hnew
          · obtain ⟨is, hpre, hrest, hall⟩ := ih (i + 1) (d := d₁) (by omega)
            rw [readableFrom_congr hsize fun j hj => hbehind j hj] at hpre hall
            refine ⟨i :: is, List.cons_prefix_cons.mpr ⟨rfl, hpre⟩, ?_, ?_⟩
            · exact hrest.trans (hrun is).symm
            · rw [hrun]
              exact hall.imp_left fun his => by rw [his]
          · refine ⟨[i], by simp, ?_, .inr fun d' hd' => ?_⟩
            · rw [hrun]
              exact processEntries_unreadable n (i + 1) hnew
            · rw [hrun] at hd'
              obtain ⟨-, rfl⟩ := EStateM.Result.ok.inj hd'
              exact hnew
      · simp only [if_neg hread]
        exact ih (i + 1) (by omega)
    · rw [if_neg hi]
      exact ⟨[], List.nil_prefix, rfl, .inl (readableFrom_of_le (Nat.le_of_not_lt hi)).symm⟩

/-! ## The pass -/

/-- `ProcessEvents` up to the loop over the tables. -/
def processFirst (D : TableDirs) : Dispatch κ Bool := do
  let pipe := readable (← get).poll 0
  if pipe then clearEvents 0
  if readable (← get).poll 1 then
    processMgmtEvents D
    clearEvents 1
  return pipe

theorem within_processFirst : Within (UpTo 2) (processFirst (κ := κ) D) := by
  have hmgmt : Within (UpTo 2) (processMgmtEvents (κ := κ) D) :=
    within_processMgmtEvents.mono fun _ _ h => h.upTo 2
  have hrest : ∀ pipe, Within (UpTo 2) (do
      if readable (← get).poll 1 then
        processMgmtEvents D
        clearEvents 1
      return pipe : Dispatch κ Bool) := by
    intro pipe
    refine Within.get.bind fun d => Within.ite ?_ (Within.pure _)
    exact hmgmt.bind fun _ => (within_clearEvents (by decide)).bind fun _ => Within.pure _
  unfold processFirst
  refine Within.get.bind fun d => Within.ite ?_ (hrest _)
  exact (within_clearEvents (by decide)).bind fun _ => hrest _

theorem processEvents_eq (d : DispatcherState κ) : processEvents D d = (do
    let pipe ← processFirst D
    processEntries (← get).poll.size 2
    return pipe : Dispatch κ Bool) d := by
  have hite : ∀ (c : Prop) [Decidable c] (x y : Dispatch κ Bool) (f : Bool → Dispatch κ Bool),
      (if c then x else y) >>= f = if c then x >>= f else y >>= f :=
    fun c _ x y f => apply_ite (· >>= f) c x y
  unfold processEvents processFirst
  simp only [hite, bind_assoc, pure_bind]

theorem processEvents_serves (d : DispatcherState κ) :
    ∃ is, is <+: readableFrom d.poll 2 ∧
      processEvents D d = (do
        let pipe ← processFirst D
        is.forM serveEntry
        return pipe : Dispatch κ Bool) d ∧
      (is = readableFrom d.poll 2 ∨
        ∀ pipe d', processEvents D d = .ok pipe d' → ∀ i, readable d'.poll i = false) := by
  rw [processEvents_eq]
  cases hfirst : processFirst D d with
  | error e d₁ =>
    have hthrows : ∀ f : Bool → Dispatch κ Bool, (processFirst D >>= f) d = .error e d₁ := by
      intro f
      simp only [Bind.bind, EStateM.bind, hfirst]
    exact ⟨_, List.prefix_rfl, (hthrows _).trans (hthrows _).symm, .inl rfl⟩
  | ok pipe d₁ =>
    have hgoes : ∀ f : Bool → Dispatch κ Bool, (processFirst D >>= f) d = f pipe d₁ := by
      intro f
      simp only [Bind.bind, EStateM.bind, hfirst]
    obtain ⟨is, hpre, hloop, hall⟩ := processEntries_serves (d := d₁) d₁.poll.size 2 (by omega)
    have hrun : (processEntries d₁.poll.size 2 >>= fun _ => (pure pipe : Dispatch κ Bool)) d₁ =
        (is.forM serveEntry >>= fun _ => (pure pipe : Dispatch κ Bool)) d₁ := by
      simp only [Bind.bind, EStateM.bind, hloop]
    simp only [hgoes, get_bind, hrun]
    rcases ((within_processFirst d).ok hfirst).poll with ⟨hsize, hsame⟩ | hnew
    · rw [readableFrom_congr hsize hsame] at hpre hall
      refine ⟨is, hpre, rfl, hall.imp_right fun hnone pipe' d' hd' => ?_⟩
      obtain ⟨u, d₂, hd₂, hpure⟩ := bind_eq_ok.mp hd'
      obtain ⟨-, rfl⟩ := EStateM.Result.ok.inj hpure
      exact hnone d₂ hd₂
    · have hnil : readableFrom d₁.poll 2 = [] := by
        unfold readableFrom
        exact List.filter_eq_nil_iff.mpr fun j _ => by simp [hnew j]
      obtain rfl := List.prefix_nil.mp (hnil ▸ hpre)
      refine ⟨[], List.nil_prefix, rfl, .inr fun pipe' d' hd' => ?_⟩
      obtain ⟨-, rfl⟩ := EStateM.Result.ok.inj hd'
      exact hnew

/-! ## Runs -/

theorem idle_step (d : DispatcherState κ) (r : Report κ) (d' : DispatcherState κ) (h : Idle d)
    (hstep : step D d r = some d') : Idle d' := by
  unfold step at hstep
  split at hstep
  · exact absurd hstep (by simp)
  · split at hstep
    · next pipe d₁ hx =>
      obtain rfl := Option.some.inj hstep
      obtain ⟨is, -, hserves, -⟩ := processEvents_serves (D := D) (polled d r)
      rw [hserves] at hx
      obtain ⟨pipe', d₂, hfirst, hx⟩ := bind_eq_ok.mp hx
      obtain ⟨u, d₃, hloop, hpure⟩ := bind_eq_ok.mp hx
      obtain ⟨-, rfl⟩ := EStateM.Result.ok.inj hpure
      have hidle : Idle d₂ := ((within_processFirst _).ok hfirst).idle (h.of_tables rfl)
      have hserve : ∀ i ∈ is, ∀ d : DispatcherState κ, Idle d →
          Post (serveEntry i) d (fun _ d' => Idle d') fun _ _ => True := fun i _ d hd =>
        (post_serveEntry i d).imp_any fun _ _ h => h.idle hd
      exact (Post.forM_invariant hserve hidle).ok hloop
    · exact absurd hstep (by simp)

/-- An event that a table has read is handled before the next poll, whatever tables have been
loaded, reloaded and deleted in between. -/
theorem queues_empty_between_polls {pipeFd mgmtFd : ℕ} {d₀ d₁ : DispatcherState κ}
    {rs : List (Report κ)} (h₀ : Initial pipeFd mgmtFd d₀) (hstart : startUp D d₀ = .ok () d₁)
    (hrun : Transition.run (step D) d₁ rs = some d) :
    ∀ p, (d.tables.cell p).inotify.events = [] := by
  have hidle₀ : Idle d₀ := by
    intro p
    rw [h₀.tables]
    rfl
  have hwithin : Within Undisturbed (startUp (κ := κ) D) :=
    within_loadTables.bind fun _ s => ⟨fun h => h.of_tables rfl, .inr (readable_rebuild _ _)⟩
  exact Transition.run_invariant idle_step (((hwithin d₀).ok hstart).idle hidle₀) hrun

theorem queues_empty_tableReplaced : ∃ d₁ d, startUp smallDirs smallInitial = .ok () d₁ ∧
    Transition.run (step smallDirs) d₁ [tableReplaced] = some d ∧
    ∀ p, (d.tables.cell p).inotify.events = [] := by
  obtain ⟨d₁, d, hstart, hd⟩ := exists_tableReplaced
  exact ⟨d₁, d, hstart, hd, queues_empty_between_polls ⟨rfl, rfl, rfl, rfl, rfl⟩ hstart hd⟩

end
end Incron.Dispatch
