import Incron.Daemon.Handles

/-! What becomes of the events of a batch: each of them leads to its command up to the first new
directory, and none does from there on. -/
namespace Incron.Daemon
open Hoare

variable {κ : Type} [System κ] {t : UserTable} {fd it : ℕ} {s s' : DaemonState κ}
  {rs : List (InotifyEvent × Option Str)}

/-- The user may access every path, and every `fork` succeeds. -/
structure Permissive (κ : Type) [System κ] : Prop where
  allows : ∀ (k : κ) user path noFollow, (System.mayAccess k user path noFollow).2 = true
  forks : ∀ k : κ, (System.fork k).2 = true

theorem Permissive.access_eq (hperm : Permissive κ) (s : DaemonState κ) (e : InotifyEvent) :
    (access t s e).2 = true := by
  unfold access mayAccess
  split_ifs
  · rfl
  · exact hperm.allows _ _ _ _

/-! ## Rounds -/

theorem drain_cons {e : InotifyEvent} {q : List InotifyEvent} {n : ℕ}
    (hq : s.inotify.events = e :: q) (hnode : s.nodeHeap.cell it = t)
    (hdrain : drain it (n + 1) s = .ok rs s') :
    ∃ c s₁ rs', drainStep it s () = some s₁ ∧ onEvent t e (popped it q s) = .ok c s₁ ∧
      drain it n s₁ = .ok rs' s' ∧ rs = (e, c) :: rs' := by
  obtain ⟨r, s₁, hround, hrest⟩ := bind_eq_ok.mp hdrain
  have hr : Post (round it) s
      (fun r s' => ∃ c, r = some (e, c) ∧ onEvent t e (popped it q s) = .ok c s')
      fun _ _ => True :=
    post_round hq hnode (Post.of (fun c s' hx => ⟨c, rfl, hx⟩) fun _ _ _ => trivial)
  obtain ⟨c, rfl, hx⟩ := hr.ok hround
  obtain ⟨rs', s₂, hdrain', hpure⟩ := bind_eq_ok.mp hrest
  cases hpure
  have hstep : drainStep it s () = some s₁ := by
    unfold drainStep
    rw [hround]
  exact ⟨c, s₁, rs', hstep, hx, hdrain', rfl⟩

/-! ## A batch -/

/-- The event at position `i` leads to its command: up to its own round only live handles have been
read and only commands run that their events are bound to, and its own round has run one. -/
def LeadsToCommand (it : ℕ) (s : DaemonState κ) (rs : List (InotifyEvent × Option Str)) (i : ℕ)
    (e : InotifyEvent) : Prop :=
  Transition.Meets (drainStep it) (fun s _ => SafeRound it s) s (List.replicate (i + 1) ()) ∧
    ∃ cmd : Str, rs[i]? = some (e, some cmd)

/-- Neither the event at position `i` nor one in front of it reports a new directory. -/
def NoNewDirUpTo (q : List InotifyEvent) (i : ℕ) : Prop :=
  ∀ j ≤ i, ∀ e, q[j]? = some e → isNewDir e.mask = false

theorem noNewDirUpTo_zero (e : InotifyEvent) (q : List InotifyEvent) :
    NoNewDirUpTo (e :: q) 0 ↔ isNewDir e.mask = false := by
  refine ⟨fun h => h 0 (Nat.le_refl 0) e rfl, fun he j hj e' he' => ?_⟩
  obtain rfl := Nat.le_zero.mp hj
  rwa [← Option.some.inj he']

theorem noNewDirUpTo_succ (e : InotifyEvent) (q : List InotifyEvent) (i : ℕ) :
    NoNewDirUpTo (e :: q) (i + 1) ↔ isNewDir e.mask = false ∧ NoNewDirUpTo q i := by
  constructor
  · intro h
    exact ⟨h 0 (Nat.zero_le _) e rfl, fun j hj e' he' => h (j + 1) (Nat.succ_le_succ hj) e' he'⟩
  · rintro ⟨he, h⟩ j hj e' he'
    cases j with
    | zero => rwa [← Option.some.inj he']
    | succ j => exact h j (Nat.le_of_succ_le_succ hj) e' he'

/-- An event leads to its command, unless it reports a new directory or stands behind one that
does. -/
theorem drain_batch (hperm : Permissive κ) (h : Draining t fd it s)
    (hbound : ∀ e ∈ s.inotify.events, e.watch ∈ s.map)
    (hdrain : drain it s.inotify.events.length s = .ok rs s') (i : ℕ) (e : InotifyEvent)
    (hi : s.inotify.events[i]? = some e) :
    LeadsToCommand it s rs i e ↔ NoNewDirUpTo s.inotify.events i := by
  unfold LeadsToCommand
  rw [meets_safeRound_iff h]
  generalize hq : s.inotify.events = q at hbound hdrain hi ⊢
  induction q generalizing s rs i with
  | nil => exact absurd hi (by simp)
  | cons e₀ q ih =>
    obtain ⟨c, s₁, rs', hstep, hx, hrest, rfl⟩ := drain_cons hq h.node hdrain
    have hmem : e₀.watch ∈ s.map := hbound e₀ (by simp)
    obtain ⟨pE, hpE⟩ := FinMap.exists_lookup hmem
    have hpopped : Loaded t fd (popped it q s) := h.loaded.popped it q
    have haccess := hperm.access_eq (t := t) (popped it q s) e₀
    rw [List.replicate_succ]
    cases hdir : isNewDir e₀.mask with
    | true =>
      -- the round of the first event reads the entry that its reload has destroyed
      obtain ⟨hcan, -⟩ := (post_onEvent_newDir hpopped hpE haccess hdir).ok hx
      constructor
      · rintro ⟨hmeets, -⟩
        exact absurd ⟨e₀, q, hq, hmem, hperm.access_eq s e₀, hdir, hcan⟩ hmeets.1
      · intro hno
        have hfirst := hno 0 (Nat.zero_le i) e₀ rfl
        exact absurd (hdir.symm.trans hfirst) (by simp)
    | false =>
      have hquiet : ¬ ReloadsNext t fd s := by
        rintro ⟨e', q', hq', -, -, hdir', -⟩
        obtain ⟨rfl, -⟩ := List.cons.inj (hq.symm.trans hq')
        exact absurd (hdir'.symm.trans hdir) (by simp)
      obtain ⟨hc, hs₁⟩ := (post_onEvent_plain hpopped.toSound hpE haccess hdir).ok hx
      rw [hperm.forks, if_pos rfl] at hc
      cases i with
      | zero =>
        obtain rfl := Option.some.inj hi
        rw [noNewDirUpTo_zero]
        exact ⟨fun _ => hdir, fun _ => ⟨⟨hquiet, fun _ _ => trivial⟩, _, by rw [hc]; rfl⟩⟩
      | succ i =>
        have h₁ : Draining t fd it s₁ := h.drainStep hquiet hstep
        subst hs₁
        have hiff := ih h₁ i rfl (fun e' he' => hbound e' (by simp [he'])) hrest hi
        rw [noNewDirUpTo_succ, ← hiff]
        constructor
        · rintro ⟨hmeets, hcmd⟩
          exact ⟨hdir, hmeets.2 _ hstep, hcmd⟩
        · rintro ⟨-, hmeets, hcmd⟩
          refine ⟨⟨hquiet, fun s₂ hs₂ => ?_⟩, hcmd⟩
          obtain rfl := Option.some.inj (hstep.symm.trans hs₂)
          exact hmeets

/-! ## Events whose path stays watched -/

/-- The watch of the event is in the table before and its path is in the table after, with the
same entry. -/
def StaysWatched (s s' : DaemonState κ) (e : InotifyEvent) : Prop :=
  ∃ pE pW' pE', s.map.lookup e.watch = some pE ∧ s'.map.lookup pW' = some pE' ∧
    (s'.watchHeap.cell pW').path = (s.watchHeap.cell e.watch).path ∧
    s'.entryHeap.cell pE' = s.entryHeap.cell pE

/-- An event of a batch whose path stays watched leads to its command, exactly when neither it nor
an event in front of it reports a new directory. -/
theorem commands_iff {s₀ s₁ s₂ : DaemonState κ} (as : List (Action κ)) (hperm : Permissive κ)
    (hs₀ : Started t fd s₀)
    (hrun : Transition.run (step t fd) (s₀, none) as = some (s, none))
    (hstart : startEvents fd s = .ok (some it) s₁)
    (hdrain : drain it s₁.inotify.events.length s₁ = .ok rs s₂) :
    ∀ i e, s₁.inotify.events[i]? = some e → StaysWatched s₁ s₂ e →
      (LeadsToCommand it s₁ rs i e ↔ NoNewDirUpTo s₁.inotify.events i) := by
  have hrunning : Running t fd (s, none) := running_of_run hs₀ hrun
  have hloaded : Loaded t fd s := hrunning.loaded
  obtain ⟨hdraining, hw⟩ := (post_startEvents_draining hloaded).ok hstart it rfl
  have hbound : ∀ e ∈ s₁.inotify.events, e.watch ∈ s₁.map := by
    intro e he
    obtain ⟨q, hq, hmem⟩ := hw.events
    have hidle : s.inotify.events = [] := hrunning.idle rfl
    rw [hq, hidle, List.nil_append] at he
    rw [hw.map]
    exact hmem e he
  exact fun i e hi _ => drain_batch hperm hdraining hbound hdrain i e hi

/-! ## A new directory and a new file -/

theorem permissive_small : Permissive SmallSystem := ⟨fun _ _ _ _ => rfl, fun _ => rfl⟩

/-- The table of `oneEntry` reads events and handles them: the state in which the draining loop
starts, its node, the commands, and the state in which it ends. -/
def handling (evts : List (Mask × Str)) : Option (DaemonState SmallSystem × ℕ ×
    List (InotifyEvent × Option Str) × DaemonState SmallSystem) :=
  match reading evts with
  | none => none
  | some (_, it, s₁) =>
    match drain it s₁.inotify.events.length s₁ with
    | .ok rs s₂ => some (s₁, it, rs, s₂)
    | .error _ _ => none

theorem handling_eq_some {evts : List (Mask × Str)} {s₁ s₂ : DaemonState SmallSystem} {it : ℕ}
    {rs : List (InotifyEvent × Option Str)} (h : handling evts = some (s₁, it, rs, s₂)) :
    (∃ s₀, reading evts = some (s₀, it, s₁)) ∧
      drain it s₁.inotify.events.length s₁ = .ok rs s₂ := by
  unfold handling at h
  split at h
  · exact absurd h (by simp)
  · next s₀ it' s₁' hr =>
    split at h
    · next hx =>
      obtain ⟨rfl, h₁⟩ := Prod.mk.inj (Option.some.inj h)
      obtain ⟨rfl, h₂⟩ := Prod.mk.inj h₁
      obtain ⟨rfl, rfl⟩ := Prod.mk.inj h₂
      exact ⟨⟨s₀, hr⟩, hx⟩
    · exact absurd h (by simp)

/-- The events of a batch, the second command, and what watch 0 had before and watch 1 has after
the batch. -/
structure Observed where
  events : List InotifyEvent
  cmd : Option (Option Str)
  bound : Option ℕ × Option ℕ
  path : Str × Str
  entry : IncronTabEntry × IncronTabEntry
  deriving DecidableEq

def observed (r : DaemonState SmallSystem × ℕ × List (InotifyEvent × Option Str) ×
    DaemonState SmallSystem) : Observed where
  events := r.1.inotify.events
  cmd := r.2.2.1[1]?.map Prod.snd
  bound := (r.1.map.lookup 0, r.2.2.2.map.lookup 1)
  path := ((r.1.watchHeap.cell 0).path, (r.2.2.2.watchHeap.cell 1).path)
  entry := (r.1.entryHeap.cell 0, r.2.2.2.entryHeap.cell 1)

/-- A reload has replaced watch 0 by watch 1. -/
def replaced (events : List InotifyEvent) (cmd : Option Str) : Observed where
  events := events
  cmd := some cmd
  bound := (some 0, some 1)
  path := ("/d".toList, "/d".toList)
  entry := ({ path := "/d".toList, mask := 256, cmd := "ls".toList },
    { path := "/d".toList, mask := 256, cmd := "ls".toList })

theorem staysWatched_of_observed {s₁ s₂ : DaemonState SmallSystem} {it : ℕ}
    {rs : List (InotifyEvent × Option Str)} {events : List InotifyEvent} {cmd : Option Str}
    (h : observed (s₁, it, rs, s₂) = replaced events cmd) :
    s₁.inotify.events = events ∧ rs[1]?.map Prod.snd = some cmd ∧
      ∀ e, e.watch = 0 → StaysWatched s₁ s₂ e := by
  simp only [observed, replaced, Observed.mk.injEq, Prod.mk.injEq] at h
  obtain ⟨hevents, hcmd, ⟨hbefore, hafter⟩, ⟨hpath, hpath'⟩, hentry, hentry'⟩ := h
  refine ⟨hevents, hcmd, fun e he => ⟨0, 1, 1, ?_, hafter, ?_, hentry'.trans hentry.symm⟩⟩
  · rw [he]
    exact hbefore
  · rw [he]
    exact hpath'.trans hpath.symm

def newFile : InotifyEvent := { mask := inCreate, name := "f".toList, watch := 0 }

def newDirectory : InotifyEvent :=
  { mask := inIsdir ||| inCreate, name := "n".toList, watch := 0 }

/-- A new directory behind a new file: the file leads to its command, the directory does not. -/
theorem commands_file_newDir : ∃ s₁ it rs s₂,
    handling [(inCreate, "f".toList), (inIsdir ||| inCreate, "n".toList)] =
      some (s₁, it, rs, s₂) ∧
    s₁.inotify.events = [newFile, newDirectory] ∧
    LeadsToCommand it s₁ rs 0 newFile ∧ ¬ LeadsToCommand it s₁ rs 1 newDirectory := by
  obtain ⟨⟨s₁, it, rs, s₂⟩, h⟩ : ∃ r, handling [(inCreate, "f".toList),
      (inIsdir ||| inCreate, "n".toList)] = some r :=
    Option.isSome_iff_exists.mp (by decide +kernel)
  have hobserved : (handling [(inCreate, "f".toList), (inIsdir ||| inCreate, "n".toList)]).map
      observed = some (replaced [newFile, newDirectory] (some "ls".toList)) := by
    decide +kernel
  rw [h] at hobserved
  obtain ⟨hevents, -, hstays⟩ := staysWatched_of_observed (Option.some.inj hobserved)
  obtain ⟨⟨s₀, hr⟩, hdrain⟩ := handling_eq_some h
  obtain ⟨hstarted, s, hrun, hstart⟩ := reading_eq_some hr
  have hiff := commands_iff _ permissive_small hstarted hrun hstart hdrain
  rw [hevents] at hiff
  refine ⟨s₁, it, rs, s₂, h, hevents, (hiff 0 newFile rfl (hstays _ rfl)).mpr ?_,
    fun hleads => ?_⟩
  · rw [noNewDirUpTo_zero]
    decide
  · have hno := (hiff 1 newDirectory rfl (hstays _ rfl)).mp hleads
    exact absurd (hno 1 (Nat.le_refl 1) _ rfl) (by decide)

/-- The event about the file is lost: the reload for the directory has replaced its watch. -/
theorem not_commands_newDir_file :
    ∃ s₁ it, ∃ (rs : List (InotifyEvent × Option Str)) (s₂ : DaemonState SmallSystem),
    handling [(inIsdir ||| inCreate, "n".toList), (inCreate, "f".toList)] =
        some (s₁, it, rs, s₂) ∧
      ¬ ∀ (i : ℕ) e, s₁.inotify.events[i]? = some e → StaysWatched s₁ s₂ e →
        LeadsToCommand it s₁ rs i e := by
  obtain ⟨⟨s₁, it, rs, s₂⟩, h⟩ : ∃ r, handling [(inIsdir ||| inCreate, "n".toList),
      (inCreate, "f".toList)] = some r := Option.isSome_iff_exists.mp (by decide +kernel)
  have hobserved : (handling [(inIsdir ||| inCreate, "n".toList), (inCreate, "f".toList)]).map
      observed = some (replaced [newDirectory, newFile] none) := by
    decide +kernel
  rw [h] at hobserved
  obtain ⟨hevents, hnone, hstays⟩ := staysWatched_of_observed (Option.some.inj hobserved)
  refine ⟨s₁, it, rs, s₂, h, fun hall => ?_⟩
  have hsecond : s₁.inotify.events[1]? = some newFile := by rw [hevents]; rfl
  obtain ⟨-, cmd, hcmd⟩ := hall 1 newFile hsecond (hstays _ rfl)
  rw [hcmd] at hnone
  exact absurd hnone (by simp)

end Incron.Daemon
