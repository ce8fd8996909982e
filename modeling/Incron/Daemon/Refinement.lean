import Incron.Daemon.Passes

/-! The dispatcher, with its objects, descriptors and events of tables, against the table management
alone: it has the tables that the management makes of the same events. -/
namespace Incron.Dispatch
open Hoare Daemon Management

variable {κ : Type}

/-! ## The tables by their paths -/

/-- The name and the kind of the table of a path. -/
def identity (d : DispatcherState κ) (path : Str) : Option (Str × Bool) :=
  (d.ut.lookup path).map fun p => ((d.tables.cell p).table.user, (d.tables.cell p).table.fSysTable)

def identityOf (ut : TableMap) (path : Str) : Option (Str × Bool) :=
  (ut.lookup path).map fun t => (t.user.1, t.fSysTable)

/-- `g_ut` has the tables of the map and no pointers to objects that do not exist yet, and
`g_fFinish` is the same. -/
structure Refines (d : DispatcherState κ) (m : TableMap × Bool) : Prop where
  identity : ∀ path, identity d path = identityOf m.1 path
  below : ∀ path p, d.ut.lookup path = some p → p < d.tables.next
  finish : d.finish = m.2

/-- `g_ut`, `g_fFinish` and what is constant about the tables are as they were. -/
structure SameTables (d d' : DispatcherState κ) : Prop where
  ut : d'.ut = d.ut
  table : ∀ p, (d'.tables.cell p).table = (d.tables.cell p).table
  next : d'.tables.next = d.tables.next
  finish : d'.finish = d.finish

instance : IsPreorder (DispatcherState κ) SameTables where
  refl _ := ⟨rfl, fun _ => rfl, rfl, rfl⟩
  trans _ _ _ h h' := ⟨h'.ut.trans h.ut, fun p => (h'.table p).trans (h.table p),
    h'.next.trans h.next, h'.finish.trans h.finish⟩

theorem Refines.same {d d' : DispatcherState κ} {m : TableMap × Bool} (h : Refines d m)
    (hsame : SameTables d d') : Refines d' m := by
  refine ⟨fun path => ?_, fun path p hp => ?_, hsame.finish.trans h.finish⟩
  · rw [← h.identity path]
    simp only [Dispatch.identity, hsame.ut, hsame.table]
  · rw [hsame.ut] at hp
    rw [hsame.next]
    exact h.below path p hp

theorem sameTables_onTable {α : Type} (p : ℕ) (f : UserTable → Daemon κ α) :
    Within SameTables (onTable p f) := by
  intro d
  rw [post_onTable]
  have hput : ∀ s', SameTables d (d.put p s') := fun s' => ⟨rfl, fun q => table_put q s', rfl, rfl⟩
  exact Post.of (fun _ s' _ => hput s') fun _ s' _ => hput s'

theorem sameTables_clearEvents (i : ℕ) : Within (SameTables (κ := κ)) (clearEvents i) :=
  fun _ => ⟨rfl, fun _ => rfl, rfl, rfl⟩

section
variable [DispatcherSystem κ] {D : TableDirs} {d : DispatcherState κ} {m : TableMap × Bool}

theorem sameTables_serveEntry (i : ℕ) : Within (SameTables (κ := κ)) (serveEntry i) := by
  have htable : ∀ fd, Within (SameTables (κ := κ)) (processTable fd) := by
    intro fd
    unfold processTable
    refine Within.get.bind fun d => ?_
    split
    · exact Within.pure _
    · exact Within.get.bind fun d => sameTables_onTable _ _
  unfold serveEntry
  refine Within.get.bind fun d => ?_
  split
  · exact sameTables_clearEvents i
  · exact (htable _).bind fun _ => sameTables_clearEvents i

/-! ## The operations -/

omit [DispatcherSystem κ] in
theorem Refines.of_lookup_some (h : Refines d m) {path : Str} {p : ℕ}
    (hp : d.ut.lookup path = some p) : ∃ t, m.1.lookup path = some t := by
  have hid := h.identity path
  rw [Dispatch.identity, hp, identityOf, Option.map_some, eq_comm, Option.map_eq_some_iff] at hid
  obtain ⟨t, ht, -⟩ := hid
  exact ⟨t, ht⟩

omit [DispatcherSystem κ] in
theorem Refines.of_lookup_none (h : Refines d m) {path : Str} (hp : d.ut.lookup path = none) :
    m.1.lookup path = none := by
  have hid := h.identity path
  rw [Dispatch.identity, hp, identityOf, Option.map_none, eq_comm, Option.map_eq_none_iff] at hid
  exact hid

omit [DispatcherSystem κ] in
/-- A new object is inserted, whatever the path has had before. -/
theorem Refines.insertNew (h : Refines d m) {d' : DispatcherState κ} {o : TableObject}
    {path : Str} {t : Management.UserTable} (ho : o.table.user = t.user.1)
    (hsys : o.table.fSysTable = t.fSysTable) (htables : d'.tables = d.tables.alloc o)
    (hut : d'.ut = d.ut.insertNew path d.tables.next) (hfinish : d'.finish = d.finish) :
    Refines d' (m.1.insertNew path t, m.2) := by
  have hold : ∀ path' p, d.ut.lookup path' = some p → d'.tables.cell p = d.tables.cell p := by
    intro path' p hp
    rw [htables, Heap.alloc_cell, if_neg (Nat.ne_of_lt (h.below path' p hp))]
  have hnew : d'.tables.cell d.tables.next = o := by
    rw [htables, Heap.alloc_cell, if_pos rfl]
  refine ⟨fun path' => ?_, fun path' p hp => ?_, hfinish.trans h.finish⟩
  · have hid := h.identity path'
    simp only [Dispatch.identity, identityOf, hut, FinMap.lookup_insertNew] at hid ⊢
    split_ifs with hpath
    · subst hpath
      cases hp : d.ut.lookup path' with
      | none =>
        rw [h.of_lookup_none hp]
        simp [hnew, ho, hsys]
      | some p =>
        obtain ⟨t', ht'⟩ := h.of_lookup_some hp
        rw [hp, ht'] at hid
        simpa [ht', hold path' p hp] using hid
    · cases hp : d.ut.lookup path' with
      | none => rw [hp] at hid; exact hid
      | some p =>
        rw [hp] at hid
        simpa [hold path' p hp] using hid
  · rw [htables, Heap.alloc_next]
    rw [hut, FinMap.lookup_insertNew] at hp
    split_ifs at hp with hpath
    · cases hq : d.ut.lookup path with
      | none =>
        rw [hq] at hp
        obtain rfl := Option.some.inj hp
        exact Nat.lt_succ_self _
      | some q =>
        rw [hq] at hp
        obtain rfl := Option.some.inj hp
        exact Nat.lt_succ_of_lt (h.below path _ hq)
    · exact Nat.lt_succ_of_lt (h.below path' p hp)

theorem post_loadTable_refines (h : Refines d m) (dir : TableDir) (n : FileName)
    (loaded : Option Str) :
    Post (loadTable D dir n) d
      (fun _ d' => Refines d' (m.1.insertNew (buildPath (D.base dir) n)
        { user := n, fSysTable := dir = .sys, loaded := loaded }, m.2))
      fun _ _ => True := by
  unfold loadTable newTable
  simp only [post_bind, post_get, post_call]
  split
  · trivial
  · simp only [post_modifyGet, post_modify]
    refine Post.imp_any (sameTables_onTable _ load _) fun _ d' hd' => Refines.same ?_ hd'
    exact h.insertNew rfl rfl rfl rfl rfl

theorem post_deleteTable_refines (h : Refines d m) (path : Str) (p : ℕ) :
    Post (do deleteTable p; modify fun d => { d with ut := d.ut.erase path }) d
      (fun _ d' => Refines d' (m.1.erase path, m.2)) fun _ _ => True := by
  unfold deleteTable
  simp only [post_bind, post_get, post_tryCatch, post_throw, post_modify]
  refine Post.imp_any (sameTables_onTable _ (fun _ => destroy) _) fun _ d' hd' => ?_
  have hrefines := h.same hd'
  refine ⟨fun path' => ?_, fun path' q hq => ?_, hrefines.finish⟩
  · have hold := hrefines.identity path'
    simp only [identity, identityOf, FinMap.lookup_erase, Heap.free_cell] at hold ⊢
    split_ifs
    · rfl
    · exact hold
  · rw [FinMap.lookup_erase] at hq
    split_ifs at hq
    exact hrefines.below path' q hq

/-! ## Management events -/

omit [DispatcherSystem κ] in
theorem Refines.congr (h : Refines d m) {m' : TableMap × Bool}
    (hid : ∀ path, identityOf m'.1 path = identityOf m.1 path) (hfinish : m'.2 = m.2) :
    Refines d m' :=
  ⟨fun path => (h.identity path).trans (hid path).symm, h.below, h.finish.trans hfinish.symm⟩

theorem identityOf_insert_load (fs : Files) {ut : TableMap} {path : Str}
    {t : Management.UserTable} (ht : ut.lookup path = some t) (path' : Str) :
    identityOf (ut.insert path (t.load fs)) path' = identityOf ut path' := by
  unfold identityOf
  rw [FinMap.lookup_insert]
  split_ifs with hpath
  · rw [hpath, ht]
    rfl
  · rfl

/-- The management's handling of an event about a file, with both directories in one. -/
theorem processMgmtEvent_eq (check : FileName → Bool) (fs : Files) {e : MgmtEvent} {n : FileName}
    (hself : ¬ (InotifyEvent.isType e.mask inDeleteSelf ||
      InotifyEvent.isType e.mask inUnmount) = true)
    (hname : e.name = some n) (ut : TableMap) (finish : Bool) :
    Management.processMgmtEvent D check fs e ut finish =
      if e.watch = .sys ∧ isHidden n then (ut, finish)
      else (tableEvent D fs e n (e.watch = .sys || check n) ut, finish) := by
  unfold Management.processMgmtEvent
  rw [if_neg hself, hname]
  cases hwatch : e.watch with
  | sys => by_cases hn : isHidden n = true <;> simp [hn]
  | user => simp

variable (fs : Files) {check : FileName → Bool}

theorem post_processMgmtEvent_refines
    (hcheck : ∀ (k : κ) n, (DispatcherSystem.checkUser k n).2 = check n) (e : MgmtEvent)
    (h : Refines d m) :
    Post (processMgmtEvent D e) d
      (fun _ d' => Refines d' (Management.processMgmtEvent D check fs e m.1 m.2))
      fun _ _ => True := by
  unfold processMgmtEvent
  rw [post_ite]
  split
  · next hself =>
    unfold Management.processMgmtEvent
    rw [if_pos hself]
    exact ⟨h.identity, h.below, rfl⟩
  next hself =>
  cases hname : e.name with
  | none =>
    unfold Management.processMgmtEvent
    rw [if_neg hself, hname]
    exact h
  | some n =>
    rw [processMgmtEvent_eq check fs hself hname]
    simp only
    rw [post_ite]
    by_cases hhidden : e.watch = .sys ∧ isHidden n = true
    · rw [if_pos hhidden, if_pos hhidden]
      exact h
    rw [if_neg hhidden, if_neg hhidden]
    unfold tableEvent
    simp only [post_bind, post_get]
    cases hut : d.ut.lookup (buildPath (D.base e.watch) n) with
    | some pUt =>
      obtain ⟨t, ht⟩ := h.of_lookup_some hut
      rw [ht]
      simp only
      split_ifs
      · refine (sameTables_onTable pUt reload d).imp_any fun _ d' hd' => ?_
        exact (h.same hd').congr (identityOf_insert_load fs ht) rfl
      · exact post_deleteTable_refines h _ pUt
      · exact h
    | none =>
      have hload : ∀ d : DispatcherState κ, Refines d m → Post (loadTable D e.watch n) d
          (fun _ d' => Refines d' (m.1.insertNew (buildPath (D.base e.watch) n)
            (Management.UserTable.load fs { user := n, fSysTable := e.watch = .sys }), m.2))
          fun _ _ => True := fun d hd => post_loadTable_refines hd e.watch n _
      rw [h.of_lookup_none hut]
      simp only
      rw [post_ite]
      cases harrival : isArrival e with
      | false => exact h
      | true =>
        cases hwatch : e.watch with
        | sys =>
          rw [hwatch] at hload
          exact hload d h
        | user =>
          rw [hwatch] at hload
          simp only [post_bind, Dispatch.post_call, hcheck]
          have hcall : Refines { d with kernel := (DispatcherSystem.checkUser d.kernel n).1 } m :=
            ⟨h.identity, h.below, h.finish⟩
          cases check n with
          | true => exact hload _ hcall
          | false => exact hcall

def follow (D : TableDirs) (check : FileName → Bool) (fs : Files) (m : TableMap × Bool)
    (evts : List MgmtEvent) : TableMap × Bool :=
  evts.foldl (fun m e => Management.processMgmtEvent D check fs e m.1 m.2) m

def readEvents (d : DispatcherState κ) : List MgmtEvent :=
  if readable d.poll 1 then (DispatcherSystem.readMgmt d.kernel).2.toOption.getD [] else []

theorem post_processMgmtEvents_refines
    (hcheck : ∀ (k : κ) n, (DispatcherSystem.checkUser k n).2 = check n) (h : Refines d m) :
    Post (processMgmtEvents D) d
      (fun _ d' => Refines d'
        (follow D check fs m ((DispatcherSystem.readMgmt d.kernel).2.toOption.getD [])))
      fun _ _ => True := by
  unfold processMgmtEvents
  simp only [post_bind, Dispatch.post_call]
  cases (DispatcherSystem.readMgmt d.kernel).2 with
  | error errno => trivial
  | ok evts =>
    have hcall : Refines { d with kernel := (DispatcherSystem.readMgmt d.kernel).1 } m :=
      ⟨h.identity, h.below, h.finish⟩
    exact Post.forM_foldl (fun e _ _ h' => post_processMgmtEvent_refines fs hcheck e h') evts hcall

theorem post_processFirst_refines
    (hcheck : ∀ (k : κ) n, (DispatcherSystem.checkUser k n).2 = check n) (h : Refines d m) :
    Post (processFirst D) d (fun _ d' => Refines d' (follow D check fs m (readEvents d)))
      fun _ _ => True := by
  have hrest : ∀ (pipe : Bool) (d' : DispatcherState κ), Refines d' m →
      readEvents d' = readEvents d →
      Post (do
        if readable (← get).poll 1 then
          processMgmtEvents D
          clearEvents 1
        return pipe : Dispatch κ Bool) d'
        (fun _ d' => Refines d' (follow D check fs m (readEvents d))) fun _ _ => True := by
    intro pipe d' hd' hsame
    rw [post_bind, post_get, ← hsame, readEvents]
    split
    · simp only [post_bind, post_pure]
      refine (post_processMgmtEvents_refines fs hcheck hd').imp_any fun _ d₁ h₁ => ?_
      exact (sameTables_clearEvents 1 d₁).imp_any fun _ d₂ h₂ => h₁.same h₂
    · exact hd'
  unfold processFirst
  rw [post_bind, post_get]
  refine post_ite.mpr ?_
  split
  · rw [post_bind]
    exact hrest _ _ (h.same ⟨rfl, fun _ => rfl, rfl, rfl⟩) (by
      unfold readEvents
      rw [readable_clear]
      simp)
  · exact hrest _ d h rfl

theorem post_processEvents_refines
    (hcheck : ∀ (k : κ) n, (DispatcherSystem.checkUser k n).2 = check n) (h : Refines d m) :
    Post (processEvents D) d (fun _ d' => Refines d' (follow D check fs m (readEvents d)))
      fun _ _ => True := by
  obtain ⟨is, -, hserves, -⟩ := processEvents_serves (D := D) d
  have hpass : Post (do
      let pipe ← processFirst D
      is.forM serveEntry
      return pipe : Dispatch κ Bool) d
      (fun _ d' => Refines d' (follow D check fs m (readEvents d))) fun _ _ => True := by
    rw [post_bind]
    refine (post_processFirst_refines fs hcheck h).imp_any fun pipe d₁ h₁ => ?_
    rw [post_bind]
    exact (Within.forM sameTables_serveEntry is d₁).imp_any fun _ d₂ h₂ => h₁.same h₂
  unfold Post
  rw [hserves]
  exact hpass

/-! ## The start -/

/-- The files are those that the two scans of `load_tables` find. -/
structure Scanned (D : TableDirs) (d : DispatcherState κ) (fs : Files) : Prop where
  sys : (fs .sys).keys = (DispatcherSystem.readDir d.kernel .sys).2.toOption.getD []
  user : ∀ d', scanSystemTables D d = .ok () d' →
    (fs .user).keys = (DispatcherSystem.readDir d'.kernel .user).2.toOption.getD []

/-- The body of a loop over the files loads the tables of those that pass the test. -/
def Loads (D : TableDirs) (fs : Files) (dir : TableDir) (ok : FileName → Bool)
    (f : FileName → Dispatch κ Unit) : Prop :=
  ∀ n (d : DispatcherState κ) (m : TableMap × Bool), Refines d m →
    Post (f n) d (fun _ d' => Refines d' (if ok n then
      m.1.insertNew (buildPath (D.base dir) n)
        (Management.UserTable.load fs { user := n, fSysTable := dir = .sys }) else m.1, m.2))
      fun _ _ => True

theorem loads_systemTable :
    Loads D fs .sys (fun n => !isHidden n && !isBackup n) (loadSystemTable (κ := κ) D) := by
  intro n d m hd
  unfold loadSystemTable
  rw [post_ite]
  simp only [← Bool.not_or]
  cases isHidden n || isBackup n with
  | true => exact hd
  | false => exact post_loadTable_refines hd .sys n _

theorem loads_userTable (hcheck : ∀ (k : κ) n, (DispatcherSystem.checkUser k n).2 = check n) :
    Loads D fs .user check (loadUserTable (κ := κ) D) := by
  intro n d m hd
  have hasked : Refines { d with kernel := (DispatcherSystem.checkUser d.kernel n).1 } m :=
    ⟨hd.identity, hd.below, hd.finish⟩
  unfold loadUserTable
  rw [post_bind, Dispatch.post_call, hcheck, post_ite]
  cases check n with
  | true => exact post_loadTable_refines hasked .user n _
  | false => exact hasked

omit [DispatcherSystem κ] in
theorem post_scan_refines {dir : TableDir} {ok : FileName → Bool} {f : FileName → Dispatch κ Unit}
    (hf : Loads D fs dir ok f) (h : Refines d m) :
    Post ((fs dir).keys.forM f) d
      (fun _ d' => Refines d' (Management.scan D fs dir ok m.1, m.2)) fun _ _ => True := by
  have hfold := Post.forM_foldl (R := fun d ut => Refines d (ut, m.2))
    (fun n d ut hd => hf n d (ut, m.2) hd) (fs dir).keys h
  unfold Management.scan
  rw [AList.keys, List.keys, List.foldl_map] at hfold
  exact hfold

theorem post_scanSystemTables_refines (h : Refines d m)
    (hsys : (fs .sys).keys = (DispatcherSystem.readDir d.kernel .sys).2.toOption.getD []) :
    Post (scanSystemTables D) d (fun _ d' => Refines d'
      (Management.scan D fs .sys (fun n => !isHidden n && !isBackup n) m.1, m.2))
      fun _ _ => True := by
  have hcall : Refines { d with kernel := (DispatcherSystem.readDir d.kernel .sys).1 } m :=
    ⟨h.identity, h.below, h.finish⟩
  have hloop := post_scan_refines fs (loads_systemTable (D := D) fs) hcall
  unfold scanSystemTables
  rw [post_bind, Dispatch.post_call]
  rw [hsys] at hloop
  cases hdir : (DispatcherSystem.readDir d.kernel .sys).2 with
  | error errno => rw [hdir] at hloop; exact hloop
  | ok names => rw [hdir] at hloop; exact hloop

theorem post_scanUserTables_refines
    (hcheck : ∀ (k : κ) n, (DispatcherSystem.checkUser k n).2 = check n) (h : Refines d m)
    (huser : (fs .user).keys = (DispatcherSystem.readDir d.kernel .user).2.toOption.getD []) :
    Post (scanUserTables D) d
      (fun _ d' => Refines d' (Management.scan D fs .user check m.1, m.2)) fun _ _ => True := by
  have hcall : Refines { d with kernel := (DispatcherSystem.readDir d.kernel .user).1 } m :=
    ⟨h.identity, h.below, h.finish⟩
  have hloop := post_scan_refines fs (loads_userTable (D := D) fs hcheck) hcall
  unfold scanUserTables
  rw [post_bind, Dispatch.post_call]
  rw [huser] at hloop
  cases hdir : (DispatcherSystem.readDir d.kernel .user).2 with
  | error errno => trivial
  | ok names => rw [hdir] at hloop; exact hloop

theorem post_startUp_refines
    (hcheck : ∀ (k : κ) n, (DispatcherSystem.checkUser k n).2 = check n) (hut : d.ut = ∅)
    (hscan : Scanned D d fs) :
    Post (startUp D) d
      (fun _ d' => Refines d' (Management.loadTables D check fs, d.finish)) fun _ _ => True := by
  have hempty : Refines d (∅, d.finish) := by
    refine ⟨fun path => ?_, fun path p hp => ?_, rfl⟩
    · simp [identity, identityOf, hut]
    · rw [hut] at hp
      exact absurd hp (by simp)
  have hload : Post (loadTables D) d
      (fun _ d' => Refines d' (Management.loadTables D check fs, d.finish)) fun _ _ => True := by
    unfold Post
    rw [loadTables_eq]
    change Post (scanSystemTables D >>= fun _ => scanUserTables D) d _ _
    rw [post_bind]
    have hself : Post (scanSystemTables D) d
        (fun _ d' => scanSystemTables D d = .ok () d') fun _ _ => True :=
      Post.self.mono (fun _ _ h => h) fun _ _ _ => trivial
    refine ((post_scanSystemTables_refines fs hempty hscan.sys).and hself).mono
      (fun _ d₁ h₁ => ?_) fun _ _ _ => trivial
    exact post_scanUserTables_refines fs hcheck h₁.1 (hscan.user d₁ h₁.2)
  unfold startUp rebuild
  rw [post_bind]
  exact hload.imp_any fun _ d₁ h₁ => h₁.same ⟨rfl, fun _ => rfl, rfl, rfl⟩

/-! ## Runs of the management -/

/-- The same tables and the same `g_fFinish`, whatever the tables have loaded. -/
structure SameIdentities (m m' : TableMap × Bool) : Prop where
  identity : ∀ path, identityOf m.1 path = identityOf m'.1 path
  finish : m.2 = m'.2

theorem identityOf_insertNew (ut : TableMap) (path path' : Str) (t : Management.UserTable) :
    identityOf (ut.insertNew path t) path' = if path' = path then
      some ((identityOf ut path).getD (t.user.1, t.fSysTable)) else identityOf ut path' := by
  unfold identityOf
  rw [FinMap.lookup_insertNew]
  split_ifs
  · cases ut.lookup path <;> rfl
  · rfl

theorem identityOf_erase (ut : TableMap) (path path' : Str) :
    identityOf (ut.erase path) path' = if path' = path then none else identityOf ut path' := by
  unfold identityOf
  rw [FinMap.lookup_erase]
  split_ifs <;> rfl

theorem SameIdentities.lookup {m m' : TableMap × Bool} (h : SameIdentities m m') (path : Str) :
    (m.1.lookup path).isSome = (m'.1.lookup path).isSome := by
  have hid := congrArg Option.isSome (h.identity path)
  simpa [identityOf] using hid

theorem SameIdentities.processMgmtEvent {m m' : TableMap × Bool} (h : SameIdentities m m')
    (check : FileName → Bool) (fs fs' : Files) (e : MgmtEvent) :
    SameIdentities (Management.processMgmtEvent D check fs e m.1 m.2)
      (Management.processMgmtEvent D check fs' e m'.1 m'.2) := by
  by_cases hself : (InotifyEvent.isType e.mask inDeleteSelf ||
      InotifyEvent.isType e.mask inUnmount) = true
  · unfold Management.processMgmtEvent
    rw [if_pos hself, if_pos hself]
    exact ⟨h.identity, rfl⟩
  cases hname : e.name with
  | none =>
    unfold Management.processMgmtEvent
    rw [if_neg hself, if_neg hself, hname]
    exact h
  | some n =>
    rw [processMgmtEvent_eq check fs hself hname, processMgmtEvent_eq check fs' hself hname]
    split_ifs
    · exact h
    refine ⟨fun path => ?_, h.finish⟩
    have hlookup := h.lookup (buildPath (D.base e.watch) n)
    unfold tableEvent
    cases ht : m.1.lookup (buildPath (D.base e.watch) n) with
    | none =>
      rw [ht, Option.isSome_none, eq_comm, Option.isSome_eq_false_iff, Option.isNone_iff_eq_none]
        at hlookup
      rw [hlookup]
      simp only
      split_ifs
      · rw [identityOf_insertNew, identityOf_insertNew, h.identity, h.identity]
        rfl
      · exact h.identity path
    | some t =>
      rw [ht, Option.isSome_some, eq_comm, Option.isSome_iff_exists] at hlookup
      obtain ⟨t', ht'⟩ := hlookup
      rw [ht']
      simp only
      split_ifs
      · rw [identityOf_insert_load fs ht, identityOf_insert_load fs' ht', h.identity]
      · rw [identityOf_erase, identityOf_erase, h.identity]
      · exact h.identity path

/-- The tables are what the events that have been processed make of those of the start. -/
theorem exists_processed {check : FileName → Bool} {fs : Files} {as : List Action}
    {s : Management.System}
    (hrun : Transition.run (Management.step D check) (System.start D check fs) as = some s) :
    ∃ evts, s.reported = evts ++ s.queue ∧
      SameIdentities (follow D check fs (Management.loadTables D check fs, false) evts)
        (s.ut, s.finish) := by
  refine Transition.run_invariant (I := fun s : Management.System =>
    ∃ evts, s.reported = evts ++ s.queue ∧
      SameIdentities (follow D check fs (Management.loadTables D check fs, false) evts)
        (s.ut, s.finish)) ?_ ⟨[], rfl, fun _ => rfl, rfl⟩ hrun
  rintro s a s' ⟨evts, hreported, hsame⟩ hstep
  cases a with
  | change c =>
    obtain rfl := Option.some.inj hstep
    exact ⟨evts, by rw [hreported, List.append_assoc], hsame⟩
  | process =>
    simp only [Management.step] at hstep
    cases hqueue : s.queue with
    | nil => simp [hqueue] at hstep
    | cons e q =>
      rw [hqueue] at hstep
      obtain rfl := Option.some.inj hstep
      refine ⟨evts ++ [e], by rw [hreported, hqueue, List.append_assoc]; rfl, ?_⟩
      rw [follow, List.foldl_concat]
      exact hsame.processMgmtEvent check fs s.files e

/-! ## Runs of the dispatcher -/

/-- The management events that `poll` lets a pass read. -/
def reported (r : Report κ) : List MgmtEvent :=
  if r.revents 1 &&& pollin != 0 then
    (DispatcherSystem.readMgmt r.kernel).2.toOption.getD []
  else []

theorem readEvents_polled {pipeFd mgmtFd : ℕ} (h : Steady pipeFd mgmtFd d) (r : Report κ) :
    readEvents (polled d r) = reported r := by
  have hlen : 1 < d.poll.data.length := by
    have hfds := congrArg List.length h.listed.lists.fds
    simp only [List.length_map, List.length_cons] at hfds
    omega
  unfold readEvents reported readable polled
  simp [List.getElem?_eq_getElem hlen]

/-- The dispatcher with its objects, descriptors and the events of tables has the tables of the
management, from the start and as far as it has read the events of the directories. -/
theorem dispatcher_refines_management {pipeFd mgmtFd : ℕ} {d₀ d₁ : DispatcherState κ}
    {rs : List (Report κ)} {check : FileName → Bool} {fs : Files} {as : List Action}
    {s : Management.System} (h₀ : Initial pipeFd mgmtFd d₀) (hfinish : d₀.finish = false)
    (hcheck : ∀ (k : κ) n, (DispatcherSystem.checkUser k n).2 = check n)
    (hscan : Scanned D d₀ fs) (hstart : startUp D d₀ = .ok () d₁)
    (hrun : Transition.run (step D) d₁ rs = some d)
    (hmgmt : Transition.run (Management.step D check) (System.start D check fs) as = some s)
    (hevents : s.reported = rs.flatMap reported ++ s.queue) :
    (∀ path, identity d path = identityOf s.ut path) ∧ d.finish = s.finish := by
  have h₁ := (post_startUp h₀.scanning h₀.ut).ok hstart
  have hrefines := (post_startUp_refines fs hcheck h₀.ut hscan).ok hstart
  rw [hfinish] at hrefines
  have hpasses := Transition.run_foldl (R := fun d m => Steady pipeFd mgmtFd d ∧ Refines d m)
    (g := fun m r => follow D check fs m (reported r)) (fun d r d' m h hstep => ?_)
    ⟨⟨h₁.1, h₁.2⟩, hrefines⟩ hrun
  · obtain ⟨evts, hprocessed, hsame⟩ := exists_processed hmgmt
    rw [hevents] at hprocessed
    obtain rfl := List.append_cancel_right hprocessed
    rw [follow, List.foldl_flatMap] at hsame
    exact ⟨fun path => (hpasses.2.identity path).trans (hsame.identity path),
      hpasses.2.finish.trans hsame.finish⟩
  · refine ⟨steady_step d r d' h.1 hstep, ?_⟩
    rw [← readEvents_polled h.1 r]
    have hpolled : Refines (polled d r) m := h.2.same ⟨rfl, fun _ => rfl, rfl, rfl⟩
    unfold step at hstep
    split at hstep
    · exact absurd hstep (by simp)
    · split at hstep
      · next hx =>
        obtain rfl := Option.some.inj hstep
        exact (post_processEvents_refines fs hcheck hpolled).ok hx
      · exact absurd hstep (by simp)

def smallFiles : Files := fun dir => if dir = .sys then AList.singleton fileT [] else ∅

/-- The table `t` is deleted, a user table `u` is created, and both events are processed. -/
def replaced : Option Management.System :=
  Transition.run (Management.step smallDirs fun _ => true)
    (System.start smallDirs (fun _ => true) smallFiles)
    [.change (.delete .sys fileT), .change (.write .user fileU []), .process, .process]

theorem dispatcher_refines_management_tableReplaced : ∃ d₁ d s,
    startUp smallDirs smallInitial = .ok () d₁ ∧
    Transition.run (step smallDirs) d₁ [tableReplaced] = some d ∧ replaced = some s ∧
    (∀ path, identity d path = identityOf s.ut path) ∧ d.finish = s.finish := by
  obtain ⟨d₁, d, hstart, hd⟩ := exists_tableReplaced
  obtain ⟨hsome, hevents⟩ : ∃ h : replaced.isSome = true, (replaced.get h).reported =
      [tableReplaced].flatMap reported ++ (replaced.get h).queue := by decide
  exact ⟨d₁, d, replaced.get hsome, hstart, hd, (Option.some_get hsome).symm,
    dispatcher_refines_management ⟨rfl, rfl, rfl, rfl, rfl⟩ rfl (fun _ _ => rfl)
      ⟨by decide, fun _ _ => rfl⟩ hstart hd (Option.some_get hsome).symm hevents⟩

end
end Incron.Dispatch
