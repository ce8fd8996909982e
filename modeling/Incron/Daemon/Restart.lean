import Incron.Daemon.Management

/-! Incremental table management against a restart. For each file the last event that is
still pending tells whether the file exists; without one, the table of the file is as the
directory has it. -/
namespace Incron.Management

section
variable (D : TableDirs) (checkUser : FileName → Bool)

def accepted (d : TableDir) (n : FileName) : Bool :=
  match d with
  | .sys => !isHidden n
  | .user => checkUser n

def about (d : TableDir) (n : FileName) (e : MgmtEvent) : Bool :=
  e.watch = d && e.name = some n

/-- The files that have a table once all events are processed: what the scan accepts, and
what the handler accepts of the files with an event. -/
def listed (s : System) (d : TableDir) (n : FileName) : Bool :=
  scanned checkUser d n || (accepted checkUser d n && s.reported.any (about d n))

/-- The event reports what has become of an existing or a missing file. -/
def Reports (e : MgmtEvent) (exists_ : Bool) : Prop :=
  isArrival e = exists_ ∧ isDeparture e = !exists_

def Regular (e : MgmtEvent) : Prop :=
  InotifyEvent.isType e.mask inDeleteSelf = false ∧ InotifyEvent.isType e.mask inUnmount = false

def pending (s : System) (d : TableDir) (n : FileName) : Option MgmtEvent :=
  (s.queue.filter (about d n)).getLast?

structure Tracks (s : System) (d : TableDir) (n : FileName) : Prop where
  own : ∀ t, s.ut.lookup (buildPath (D.base d) n) = some t →
    t.user = n ∧ t.fSysTable = (d = .sys : Bool) ∧ accepted checkUser d n = true
  last : ∀ e, pending s d n = some e → Reports e ((s.files d).lookup n).isSome
  settled : pending s d n = none → s.ut.lookup (buildPath (D.base d) n) =
    if listed checkUser s d n then ((s.files d).lookup n).map fun _ => fileTable s.files d n
    else none

structure Invariant (s : System) : Prop where
  regular : ∀ e ∈ s.queue, Regular e
  reported : ∀ e ∈ s.queue, e ∈ s.reported
  keys : ∀ k ∈ s.ut, ∃ d, ∃ n : FileName, k = buildPath (D.base d) n
  tracks : ∀ d n, Tracks D checkUser s d n

end

/-! ## One change -/

private theorem reports_arrival {m : Mask} (hm : m = inCloseWrite ∨ m = inMovedTo)
    (d : TableDir) (n : Option FileName) : Reports ⟨d, m, n⟩ true := by
  have hmask : (InotifyEvent.isType m inCloseWrite || InotifyEvent.isType m inMovedTo) = true ∧
      (InotifyEvent.isType m inMovedFrom || InotifyEvent.isType m inDelete) = false := by
    rcases hm with rfl | rfl <;> decide
  exact hmask

private theorem reports_departure {m : Mask} (hm : m = inMovedFrom ∨ m = inDelete)
    (d : TableDir) (n : Option FileName) : Reports ⟨d, m, n⟩ false := by
  have hmask : (InotifyEvent.isType m inCloseWrite || InotifyEvent.isType m inMovedTo) = false ∧
      (InotifyEvent.isType m inMovedFrom || InotifyEvent.isType m inDelete) = true := by
    rcases hm with rfl | rfl <;> decide
  exact hmask

private theorem about_iff {d d' : TableDir} {n n' : FileName} {m : Mask} :
    about d n ⟨d', m, some n'⟩ = true ↔ d' = d ∧ n' = n := by
  simp [about]

private theorem lookup_update (fs : Files) (d d' : TableDir) (dir : Dir) (n : FileName) :
    (Function.update fs d dir d').lookup n =
      if d' = d then dir.lookup n else (fs d').lookup n := by
  by_cases h : d' = d
  · subst h
    simp
  · simp [h]

private theorem apply_spec_one {fs fs' : Files} {d d' : TableDir} {n n' : FileName} {m : Mask}
    (hsame : ¬ (d' = d ∧ n' = n) → (fs' d).lookup n = (fs d).lookup n)
    (hreports : Reports ⟨d', m, some n'⟩ ((fs' d').lookup n').isSome) :
    match ([(⟨d', m, some n'⟩ : MgmtEvent)].filter (about d n)).getLast? with
    | none => (fs' d).lookup n = (fs d).lookup n
    | some e => Reports e ((fs' d).lookup n).isSome := by
  by_cases h : d' = d ∧ n' = n
  · rw [List.filter_cons_of_pos (about_iff.mpr h)]
    obtain ⟨rfl, rfl⟩ := h
    exact hreports
  · rw [List.filter_cons_of_neg (mt about_iff.mp h)]
    exact hsame h

private theorem apply_rename_spec (fs : Files) (d' : TableDir) (n' n'' : FileName)
    (d : TableDir) (n : FileName) :
    match (((Change.rename d' n' n'').apply fs).2.filter (about d n)).getLast? with
    | none => (((Change.rename d' n' n'').apply fs).1 d).lookup n = (fs d).lookup n
    | some e => Reports e ((((Change.rename d' n' n'').apply fs).1 d).lookup n).isSome := by
  simp only [Change.apply]
  cases (fs d').lookup n' with
  | none => rfl
  | some content =>
    by_cases hn : n' = n''
    · simp [hn]
    simp only [if_neg hn]
    by_cases hto : d' = d ∧ n'' = n
    · -- the event of the new name is the last one
      obtain ⟨rfl, rfl⟩ := hto
      rw [List.filter_cons_of_neg (by simp [about_iff, hn]),
        List.filter_cons_of_pos (about_iff.mpr ⟨rfl, rfl⟩)]
      simpa [lookup_update, FinMap.lookup_insert] using
        reports_arrival (Or.inr rfl) d' (some n'')
    · have htail : [(⟨d', inMovedFrom, some n'⟩ : MgmtEvent), ⟨d', inMovedTo, some n''⟩].filter
          (about d n) = [(⟨d', inMovedFrom, some n'⟩ : MgmtEvent)].filter (about d n) := by
        have hto' : about d n ⟨d', inMovedTo, some n''⟩ = false := by
          rw [← Bool.not_eq_true]
          exact mt about_iff.mp hto
        simp only [List.filter_cons, hto', Bool.false_eq_true, if_false]
      rw [htail]
      apply apply_spec_one
      · intro h
        rw [lookup_update, FinMap.lookup_insert, FinMap.lookup_erase]
        grind
      · rw [lookup_update, FinMap.lookup_insert, FinMap.lookup_erase]
        simpa [hn] using reports_departure (Or.inl rfl) d' (some n')

/-- The last event about a file that a change makes the kernel report. -/
theorem Change.apply_spec (c : Change) (fs : Files) (d : TableDir) (n : FileName) :
    match ((c.apply fs).2.filter (about d n)).getLast? with
    | none => ((c.apply fs).1 d).lookup n = (fs d).lookup n
    | some e => Reports e (((c.apply fs).1 d).lookup n).isSome := by
  cases c with
  | write d' n' content =>
    simp only [apply]
    apply apply_spec_one
    · intro h
      rw [lookup_update, FinMap.lookup_insert]
      grind
    · rw [lookup_update, FinMap.lookup_insert]
      simpa using reports_arrival (Or.inl rfl) d' (some n')
  | moveIn d' n' content =>
    simp only [apply]
    apply apply_spec_one
    · intro h
      rw [lookup_update, FinMap.lookup_insert]
      grind
    · rw [lookup_update, FinMap.lookup_insert]
      simpa using reports_arrival (Or.inr rfl) d' (some n')
  | moveOut d' n' =>
    simp only [apply]
    split_ifs
    · apply apply_spec_one
      · intro h
        rw [lookup_update, FinMap.lookup_erase]
        grind
      · rw [lookup_update, FinMap.lookup_erase]
        simpa using reports_departure (Or.inl rfl) d' (some n')
    · rfl
  | delete d' n' =>
    simp only [apply]
    split_ifs
    · apply apply_spec_one
      · intro h
        rw [lookup_update, FinMap.lookup_erase]
        grind
      · rw [lookup_update, FinMap.lookup_erase]
        simpa using reports_departure (Or.inr rfl) d' (some n')
    · rfl
  | rename d' n' n'' => exact apply_rename_spec fs d' n' n'' d n

theorem Change.apply_regular (c : Change) (fs : Files) : ∀ e ∈ (c.apply fs).2, Regular e := by
  have hmask : ∀ {d : TableDir} {m : Mask} {n : Option FileName},
      (m = inCloseWrite ∨ m = inMovedTo ∨ m = inMovedFrom ∨ m = inDelete) →
        Regular ⟨d, m, n⟩ := by
    intro d m n hm
    have : InotifyEvent.isType m inDeleteSelf = false ∧
        InotifyEvent.isType m inUnmount = false := by
      rcases hm with rfl | rfl | rfl | rfl <;> decide
    exact this
  cases c with
  | write d n content => simpa [apply] using hmask (Or.inl rfl)
  | moveIn d n content => simpa [apply] using hmask (Or.inr (Or.inl rfl))
  | moveOut d n =>
    simp only [apply]
    split_ifs
    · simpa using hmask (Or.inr (Or.inr (Or.inl rfl)))
    · simp
  | delete d n =>
    simp only [apply]
    split_ifs
    · simpa using hmask (Or.inr (Or.inr (Or.inr rfl)))
    · simp
  | rename d n n' =>
    simp only [apply]
    split
    · split_ifs
      · simp
      · simpa using ⟨hmask (Or.inr (Or.inr (Or.inl rfl))), hmask (Or.inr (Or.inl rfl))⟩
    · simp

/-! ## One event -/

section
variable {D : TableDirs} {checkUser : FileName → Bool}

/-- What an event makes of the table of its own file. -/
private theorem lookup_tableEvent (fs : Files) {e : MgmtEvent} {n : FileName} {ut : TableMap}
    (accept : Bool)
    (hown : ∀ t, ut.lookup (buildPath (D.base e.watch) n) = some t →
      t.user = n ∧ t.fSysTable = (e.watch = .sys : Bool) ∧ accept = true) :
    (tableEvent D fs e n accept ut).lookup (buildPath (D.base e.watch) n) =
      if isArrival e && accept then some (fileTable fs e.watch n)
      else if isDeparture e then none
      else ut.lookup (buildPath (D.base e.watch) n) := by
  unfold tableEvent
  cases hlook : ut.lookup (buildPath (D.base e.watch) n) with
  | some t =>
    obtain ⟨hn, hsys, hacc⟩ := hown t hlook
    have hload : t.load fs = fileTable fs e.watch n := by
      obtain ⟨u, b, c⟩ := t
      subst hn hsys
      exact load_eq fs e.watch u c
    rw [hacc, Bool.and_true]
    simp only
    split_ifs with h1 h2
    · rw [FinMap.lookup_insert, if_pos rfl, hload]
    · rw [FinMap.lookup_erase, if_pos rfl]
    · exact hlook
  | none =>
    simp only
    split_ifs with h1 h2
    · rw [FinMap.lookup_insertNew, if_pos rfl, hlook, load_eq]
      rfl
    · exact hlook
    · exact hlook

private theorem lookup_tableEvent_other {fs : Files} {e : MgmtEvent} {n : FileName}
    {ut : TableMap} {accept : Bool} {k : Str} (hk : k ≠ buildPath (D.base e.watch) n) :
    (tableEvent D fs e n accept ut).lookup k = ut.lookup k := by
  unfold tableEvent
  split
  · split_ifs
    · rw [FinMap.lookup_insert, if_neg hk]
    · rw [FinMap.lookup_erase, if_neg hk]
    · rfl
  · split_ifs
    · rw [FinMap.lookup_insertNew, if_neg hk]
    · rfl

/-- What a regular event makes of the table of its own file. -/
theorem lookup_processMgmtEvent {e : MgmtEvent} {n : FileName} {ut : TableMap}
    (fs : Files) (finish : Bool) (he : Regular e) (hn : e.name = some n)
    (hown : ∀ t, ut.lookup (buildPath (D.base e.watch) n) = some t →
      t.user = n ∧ t.fSysTable = (e.watch = .sys : Bool) ∧ accepted checkUser e.watch n = true) :
    (processMgmtEvent D checkUser fs e ut finish).1.lookup (buildPath (D.base e.watch) n) =
      if isArrival e && accepted checkUser e.watch n then some (fileTable fs e.watch n)
      else if isDeparture e then none
      else ut.lookup (buildPath (D.base e.watch) n) := by
  obtain ⟨d, m, name⟩ := e
  simp only at hn
  subst hn
  obtain ⟨hself, hunmount⟩ := he
  simp only at hself hunmount
  simp only [processMgmtEvent, hself, hunmount, Bool.or_self, Bool.false_eq_true, if_false]
  cases d with
  | user => exact lookup_tableEvent fs (checkUser n) hown
  | sys =>
    cases hh : isHidden n with
    | false =>
      have haccept : ∀ t, ut.lookup (buildPath (D.base .sys) n) = some t →
          t.user = n ∧ t.fSysTable = true ∧ true = true :=
        fun t ht => ⟨(hown t ht).1, (hown t ht).2.1, rfl⟩
      have := lookup_tableEvent (D := D) fs (e := ⟨.sys, m, some n⟩) true haccept
      simpa [accepted, hh] using this
    | true =>
      have hnone : ut.lookup (buildPath (D.base .sys) n) = none := by
        rw [Option.eq_none_iff_forall_not_mem]
        intro t ht
        have := (hown t ht).2.2
        simp [accepted, hh] at this
      simp [accepted, hh, hnone]

theorem lookup_processMgmtEvent_other {fs : Files} {e : MgmtEvent} {ut : TableMap}
    {finish : Bool} {k : Str} (hk : ∀ n, e.name = some n → k ≠ buildPath (D.base e.watch) n) :
    (processMgmtEvent D checkUser fs e ut finish).1.lookup k = ut.lookup k := by
  obtain ⟨d, m, name⟩ := e
  simp only [processMgmtEvent]
  split_ifs
  · rfl
  · cases name with
    | none => rfl
    | some n =>
      have hk := hk n rfl
      cases d with
      | user => exact lookup_tableEvent_other hk
      | sys =>
        simp only
        split_ifs
        · rfl
        · exact lookup_tableEvent_other hk

/-! ## The invariant -/

theorem accepted_of_scanned {d : TableDir} {n : FileName} (h : scanned checkUser d n = true) :
    accepted checkUser d n = true := by
  cases d with
  | sys =>
    simp only [scanned, Bool.and_eq_true] at h
    exact h.1
  | user => exact h

variable (D checkUser) in
theorem invariant_start (fs : Files) : Invariant D checkUser (System.start D checkUser fs) := by
  refine ⟨by simp [System.start], by simp [System.start], fun k => mem_loadTables D checkUser fs,
    fun d n => ⟨?_, by simp [pending, System.start], fun _ => ?_⟩⟩
  · intro t ht
    rw [System.start, lookup_loadTables] at ht
    split_ifs at ht with hs
    obtain ⟨c, -, rfl⟩ := Option.map_eq_some_iff.mp ht
    exact ⟨rfl, rfl, accepted_of_scanned hs⟩
  · simp [System.start, lookup_loadTables, listed]

theorem invariant_change {s : System} (h : Invariant D checkUser s) (c : Change) :
    Invariant D checkUser { s with
      files := (c.apply s.files).1
      queue := s.queue ++ (c.apply s.files).2
      reported := s.reported ++ (c.apply s.files).2 } := by
  refine ⟨?_, ?_, h.keys, fun d n => ?_⟩
  · intro e he
    exact (List.mem_append.mp he).elim (h.regular e) (c.apply_regular s.files e)
  · intro e he
    exact List.mem_append.mpr ((List.mem_append.mp he).imp (h.reported e) id)
  have ht := h.tracks d n
  have hspec := c.apply_spec s.files d n
  have hpending : pending { s with
      files := (c.apply s.files).1
      queue := s.queue ++ (c.apply s.files).2
      reported := s.reported ++ (c.apply s.files).2 } d n =
      ((c.apply s.files).2.filter (about d n)).getLast?.or (pending s d n) := by
    simp [pending, List.getLast?_append]
  cases hlast : ((c.apply s.files).2.filter (about d n)).getLast? with
  | some e =>
    rw [hlast] at hspec hpending
    refine ⟨ht.own, fun e' he' => ?_, fun hnone => ?_⟩
    · rw [hpending] at he'
      obtain rfl : e = e' := by simpa using he'
      exact hspec
    · rw [hpending] at hnone
      simp at hnone
  | none =>
    rw [hlast] at hspec hpending
    rw [Option.none_or] at hpending
    simp only at hspec
    have hany : (c.apply s.files).2.any (about d n) = false := by
      rw [List.getLast?_eq_none_iff, List.filter_eq_nil_iff] at hlast
      simpa using hlast
    refine ⟨ht.own, fun e' he' => ?_, fun hnone => ?_⟩
    · rw [hpending] at he'
      simpa only [hspec] using ht.last e' he'
    · rw [hpending] at hnone
      have := ht.settled hnone
      simpa [listed, hany, fileTable, hspec] using this

private theorem tracks_process_own {s : System} (h : Invariant D checkUser s) {e : MgmtEvent}
    {q : List MgmtEvent} (hq : s.queue = e :: q) {n : FileName} (hn : e.name = some n) :
    Tracks D checkUser { s with
      queue := q
      ut := (processMgmtEvent D checkUser s.files e s.ut s.finish).1
      finish := (processMgmtEvent D checkUser s.files e s.ut s.finish).2 } e.watch n := by
  have ht := h.tracks e.watch n
  have hab : about e.watch n e = true := by simp [about, hn]
  have hpending : pending s e.watch n = ((e :: q).filter (about e.watch n)).getLast? := by
    rw [pending, hq]
  rw [List.filter_cons_of_pos hab, List.getLast?_cons] at hpending
  have hlook := lookup_processMgmtEvent s.files s.finish (h.regular e (by simp [hq])) hn ht.own
  refine ⟨fun t htt => ?_, fun e' he' => ?_, fun hnone => ?_⟩
  · rw [hlook] at htt
    split_ifs at htt with h1 h2
    · obtain rfl := Option.some.inj htt
      exact ⟨rfl, rfl, (Bool.and_eq_true_iff.mp h1).2⟩
    · exact ht.own t htt
  · refine ht.last e' ?_
    change (q.filter (about e.watch n)).getLast? = some e' at he'
    rw [hpending, he']
    rfl
  · change (q.filter (about e.watch n)).getLast? = none at hnone
    rw [hnone] at hpending
    -- the event was the last one about the file, so it tells whether the file exists
    obtain ⟨harr, hdep⟩ := ht.last e hpending
    have hrep : s.reported.any (about e.watch n) = true :=
      List.any_eq_true.mpr ⟨e, h.reported e (by simp [hq]), hab⟩
    have hlisted : (scanned checkUser e.watch n || accepted checkUser e.watch n) =
        accepted checkUser e.watch n := by
      cases hs : scanned checkUser e.watch n with
      | false => rfl
      | true => rw [accepted_of_scanned hs]; rfl
    rw [hlook]
    simp only [listed, hrep, Bool.and_true, hlisted]
    cases hfile : (s.files e.watch).lookup n with
    | none =>
      rw [hfile] at harr hdep
      simp [harr, hdep]
    | some c =>
      rw [hfile] at harr hdep
      cases hacc : accepted checkUser e.watch n with
      | true => simp [harr]
      | false =>
        have hnone : s.ut.lookup (buildPath (D.base e.watch) n) = none := by
          rw [Option.eq_none_iff_forall_not_mem]
          intro t htt
          have := (ht.own t htt).2.2
          rw [hacc] at this
          exact Bool.noConfusion this
        simp [hdep, hnone]

private theorem tracks_process_other {s : System} (h : Invariant D checkUser s) {e : MgmtEvent}
    {q : List MgmtEvent} (hq : s.queue = e :: q) {d : TableDir} {n : FileName}
    (hab : ¬ about d n e = true) :
    Tracks D checkUser { s with
      queue := q
      ut := (processMgmtEvent D checkUser s.files e s.ut s.finish).1
      finish := (processMgmtEvent D checkUser s.files e s.ut s.finish).2 } d n := by
  have ht := h.tracks d n
  have hpending : pending s d n = ((e :: q).filter (about d n)).getLast? := by rw [pending, hq]
  rw [List.filter_cons_of_neg hab] at hpending
  have hlook : (processMgmtEvent D checkUser s.files e s.ut s.finish).1.lookup
      (buildPath (D.base d) n) = s.ut.lookup (buildPath (D.base d) n) := by
    apply lookup_processMgmtEvent_other
    intro n' hn' hk
    obtain ⟨rfl, rfl⟩ := buildPath_injective D hk
    exact hab (by simp [about, hn'])
  refine ⟨fun t htt => ht.own t (hlook ▸ htt), fun e' he' => ht.last e' (hpending.trans he'),
    fun hnone => ?_⟩
  have := ht.settled (hpending.trans hnone)
  simp only [hlook]
  exact this

theorem invariant_process {s : System} (h : Invariant D checkUser s) {e : MgmtEvent}
    {q : List MgmtEvent} (hq : s.queue = e :: q) :
    Invariant D checkUser { s with
      queue := q
      ut := (processMgmtEvent D checkUser s.files e s.ut s.finish).1
      finish := (processMgmtEvent D checkUser s.files e s.ut s.finish).2 } := by
  have hmem : ∀ e' ∈ q, e' ∈ s.queue := fun e' he' => by simp [hq, he']
  refine ⟨fun e' he' => h.regular e' (hmem e' he'), fun e' he' => h.reported e' (hmem e' he'),
    fun k hk => ?_, fun d n => ?_⟩
  · by_cases hown : ∃ n, e.name = some n ∧ k = buildPath (D.base e.watch) (n : FileName)
    · obtain ⟨n, -, rfl⟩ := hown
      exact ⟨e.watch, n, rfl⟩
    · rw [← AList.lookup_isSome, lookup_processMgmtEvent_other fun n hn hk => hown ⟨n, hn, hk⟩]
        at hk
      exact h.keys k (AList.lookup_isSome.mp hk)
  · by_cases hab : about d n e = true
    · obtain ⟨rfl, hn⟩ : e.watch = d ∧ e.name = some n := by simpa [about] using hab
      exact tracks_process_own h hq hn
    · exact tracks_process_other h hq hab

theorem invariant_step (s : System) (a : Action) (s' : System) (h : Invariant D checkUser s)
    (hstep : step D checkUser s a = some s') : Invariant D checkUser s' := by
  cases a with
  | change c =>
    obtain rfl := Option.some.inj hstep
    exact invariant_change h c
  | process =>
    simp only [step] at hstep
    cases hq : s.queue with
    | nil => simp [hq] at hstep
    | cons e q =>
      rw [hq] at hstep
      obtain rfl := Option.some.inj hstep
      exact invariant_process h hq

/-! ## Agreement -/

/-- Of the files that exist, a restart misses only reported backup files. -/
private theorem listed_eq_scanned {s : System}
    (h : ∀ n ∈ s.files .sys, isBackup n → ¬ isHidden n → ∀ e ∈ s.reported, ¬ about .sys n e)
    {d : TableDir} {n : FileName} (hn : n ∈ s.files d) :
    listed checkUser s d n = scanned checkUser d n := by
  cases hs : scanned checkUser d n with
  | true => simp [listed, hs]
  | false =>
    simp only [listed, hs, Bool.false_or, Bool.and_eq_false_iff]
    cases d with
    | user => exact Or.inl hs
    | sys =>
      cases hh : isHidden n with
      | true => exact Or.inl (by simp [accepted, hh])
      | false =>
        have hb : isBackup n = true := by simpa [scanned, hh] using hs
        refine Or.inr (Bool.eq_false_iff.mpr fun hany => ?_)
        obtain ⟨e, he, hab⟩ := List.any_eq_true.mp hany
        exact h n hn hb (by simp [hh]) e he hab

variable (D checkUser) in
/-- With all events processed, the tables are those of a restart exactly when no backup file
in the system directory has ever been reported. -/
theorem agreesWithRestart_iff (fs : Files) (as : List Action) (s : System)
    (hrun : Transition.run (step D checkUser) (System.start D checkUser fs) as = some s)
    (hqueue : s.queue = []) :
    AgreesWithRestart D checkUser s ↔
      ∀ n ∈ s.files .sys, isBackup n → ¬ isHidden n → ∀ e ∈ s.reported, ¬ about .sys n e := by
  have hinv : Invariant D checkUser s :=
    Transition.run_invariant invariant_step (invariant_start D checkUser fs) hrun
  have hsettled : ∀ (d : TableDir) (n : FileName), s.ut.lookup (buildPath (D.base d) n) =
      if listed checkUser s d n then ((s.files d).lookup n).map fun _ => fileTable s.files d n
      else none := fun d n => (hinv.tracks d n).settled (by simp [pending, hqueue])
  have hscan := lookup_loadTables D checkUser s.files
  constructor
  · rintro ⟨hkeys, -⟩ n hn hb hh e he hab
    -- a reported backup file has a table that a restart does not build
    have hacc : accepted checkUser .sys n = true := by simpa [accepted] using hh
    have hlisted : listed checkUser s .sys n = true := by
      simp only [listed, hacc, Bool.true_and, Bool.or_eq_true, List.any_eq_true]
      exact Or.inr ⟨e, he, hab⟩
    have hnot : scanned checkUser .sys n = false := by simp [scanned, hb]
    have hmem := hkeys (buildPath (D.base .sys) n)
    rw [← AList.lookup_isSome, ← AList.lookup_isSome, hsettled, hscan, hlisted, hnot] at hmem
    simp [AList.lookup_isSome.mpr hn] at hmem
  · intro h
    have hsame : ∀ (d : TableDir) (n : FileName), s.ut.lookup (buildPath (D.base d) n) =
        (loadTables D checkUser s.files).lookup (buildPath (D.base d) n) := by
      intro d n
      rw [hsettled, hscan]
      by_cases hn : n ∈ s.files d
      · rw [listed_eq_scanned h hn]
      · simp [AList.lookup_eq_none.mpr hn]
    refine ⟨fun k => ⟨fun hk => ?_, fun hk => ?_⟩, fun k t hkt => ?_⟩
    · obtain ⟨d, n, rfl⟩ := hinv.keys k hk
      rwa [← AList.lookup_isSome, ← hsame, AList.lookup_isSome]
    · obtain ⟨d, n, rfl⟩ := mem_loadTables D checkUser s.files hk
      rwa [← AList.lookup_isSome, hsame, AList.lookup_isSome]
    · obtain ⟨d, n, rfl⟩ := hinv.keys k (AList.lookup_isSome.mp (by simp [hkt]))
      rw [hsettled] at hkt
      split_ifs at hkt
      obtain ⟨c, -, rfl⟩ := Option.map_eq_some_iff.mp hkt
      cases d <;> exact ⟨rfl, rfl⟩

end

/-! ## A backup file -/

def defaultDirs : TableDirs :=
  { sysBase := "/etc/incron.d".toList, userBase := "/var/spool/incron".toList,
    distinct := by decide }

def written (n : FileName) : Option System :=
  Transition.run (step defaultDirs fun _ => true)
    (System.start defaultDirs (fun _ => true) fun _ => ∅) [.change (.write .sys n []), .process]

theorem agreesWithRestart_plain :
    ∃ h : (written ⟨"a".toList, by decide⟩).isSome,
      AgreesWithRestart defaultDirs (fun _ => true) ((written ⟨"a".toList, by decide⟩).get h) ↔
        ∀ n ∈ ((written ⟨"a".toList, by decide⟩).get h).files .sys, isBackup n → ¬ isHidden n →
          ∀ e ∈ ((written ⟨"a".toList, by decide⟩).get h).reported, ¬ about .sys n e :=
  ⟨by decide, agreesWithRestart_iff defaultDirs (fun _ => true) (fun _ => ∅) _ _
    (Option.some_get _).symm (by decide)⟩

/-- A backup file that is written gets a table, which a restart does not give it. -/
theorem not_agreesWithRestart_backup :
    ∃ h : (written ⟨"a~".toList, by decide⟩).isSome,
      ((written ⟨"a~".toList, by decide⟩).get h).queue = [] ∧
        ¬ AgreesWithRestart defaultDirs (fun _ => true)
          ((written ⟨"a~".toList, by decide⟩).get h) := by
  refine ⟨by decide, by decide, fun h => ?_⟩
  have hkey := (h.1 "/etc/incron.d/a~".toList).mp (by decide)
  revert hkey
  decide

end Incron.Management
