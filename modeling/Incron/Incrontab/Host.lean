import Incron.Daemon.Restart
import Incron.Incrontab.Main

/-! One host: runs of incrontab, changes by other programs and the management of the tables by the
daemon, in any order. -/
namespace Incron.Incrontab
open Management IncronTab

structure Host where
  fs : FileSystem
  daemon : Management.System

/-- The directories of the daemon have the files of the file system. -/
def Shows (D : TableDirs) (fs : FileSystem) (files : Files) : Prop :=
  ∀ d (n : FileName), (files d).lookup n = fs.content (buildPath (D.base d) n)

/-- The files after a run, however it ends. -/
def filesAfter {α : Type} : EStateM.Result IncrontabException FileSystem α → FileSystem
  | .ok _ fs => fs
  | .error _ fs => fs

/-- The path that the operations of a run work on. -/
def tableOf (sys : MainCalls) (argv : List Str) (fs : FileSystem) : Option Str :=
  match userOf sys (commandLine argv) with
  | .ok user => some ((configOf sys (commandLine argv) fs).tablePath user)
  | .error _ => none

/-- What the kernel may report of a program that opens one file, or removes it. -/
def Reported (D : TableDirs) (path : Option Str) : Change → Prop
  | .write d n _ => path = some (buildPath (D.base d) n)
  | .delete d n => path = some (buildPath (D.base d) n)
  | _ => False

/-- The directories and the events after a change, if there is one. -/
def changed (s : Management.System) : Option Change → Management.System
  | none => s
  | some c => { s with
      files := (c.apply s.files).1
      queue := s.queue ++ (c.apply s.files).2
      reported := s.reported ++ (c.apply s.files).2 }

inductive Label where
  /-- A run of incrontab that starts with these files. -/
  | incrontab (sys : MainCalls) (argv : List Str) (fs : FileSystem)
  | other
  | process

/-- A run of incrontab is one step; the kernel reports at most the file that it works on. The
answers of the daemon's `CheckUser` do not change. -/
inductive Step (D : TableDirs) (check : FileName → Bool) : Host → Label → Host → Prop
  | incrontab (h : Host) (sys : MainCalls) (argv : List Str) (c : Option Change)
      (hc : ∀ c' ∈ c, Reported D (tableOf sys argv h.fs) c')
      (hshows : Shows D (filesAfter (main sys argv h.fs)) (changed h.daemon c).files) :
      Step D check h (.incrontab sys argv h.fs)
        ⟨filesAfter (main sys argv h.fs), changed h.daemon c⟩
  | other (h : Host) (fs : FileSystem) (c : Option Change)
      (hshows : Shows D fs (changed h.daemon c).files) :
      Step D check h .other ⟨fs, changed h.daemon c⟩
  | process (h : Host) (s : Management.System) (hs : step D check h.daemon .process = some s) :
      Step D check h .process ⟨h.fs, s⟩

inductive Run (D : TableDirs) (check : FileName → Bool) : Host → List Label → Host → Prop
  | nil (h : Host) : Run D check h [] h
  | cons {h h' h'' : Host} {l : Label} {ls : List Label} (hstep : Step D check h l h')
      (hrun : Run D check h' ls h'') : Run D check h (l :: ls) h''

/-- The daemon has started, with the directories as they were. -/
def Booted (D : TableDirs) (check : FileName → Bool) (h : Host) : Prop :=
  ∃ files, Shows D h.fs files ∧ h.daemon = Management.System.start D check files

/-! ## Every run of incrontab is a step -/

section Steps
variable {D : TableDirs} {check : FileName → Bool} {h h' : Host} {l : Label} {ls : List Label}

/-- A run changes at most the file that it works on. -/
theorem filesAfter_main (sys : MainCalls) (argv : List Str) (fs : FileSystem) :
    (filesAfter (main sys argv fs)).file = fs.file ∨ ∃ user, Authorized sys argv fs user ∧
      (sys.getuid ≠ 0 → sys.getpwuid sys.getuid = some user) ∧
      tableOf sys argv fs = some ((configOf sys (commandLine argv) fs).tablePath user) ∧
      fs.OnlyChanges ((configOf sys (commandLine argv) fs).tablePath user)
        (filesAfter (main sys argv fs)) := by
  have hpost := main_changes_own_table sys argv fs
  unfold Hoare.Post at hpost
  cases hmain : main sys argv fs with
  | error e fs' =>
    rw [hmain] at hpost
    exact .inl hpost
  | ok a fs' =>
    rw [hmain] at hpost
    refine hpost.imp id ?_
    rintro ⟨user, hauth, howner, honly⟩
    refine ⟨user, hauth, howner, ?_, honly⟩
    rw [tableOf, hauth.userOf_eq]

private theorem filesof_same {fs fs' : FileSystem} {files : Files} (hshows : Shows D fs files)
    (hsame : ∀ d (n : FileName), fs'.content (buildPath (D.base d) n) =
      fs.content (buildPath (D.base d) n)) : Shows D fs' files :=
  fun d n => (hshows d n).trans (hsame d n).symm

private theorem lookup_update_dir (files : Files) (d d' : TableDir) (dir : Dir) (n : FileName) :
    (Function.update files d dir d').lookup n =
      if d' = d then dir.lookup n else (files d').lookup n := by
  by_cases hd : d' = d
  · subst hd
    simp
  · simp [hd]

/-- One table file is replaced or removed. -/
private theorem exists_change {fs fs' : FileSystem} {s : Management.System}
    (hshows : Shows D fs s.files) {d : TableDir} {n : FileName}
    (honly : fs.OnlyChanges (buildPath (D.base d) n) fs') :
    ∃ c, Reported D (some (buildPath (D.base d) n)) c ∧ Shows D fs' (changed s (some c)).files := by
  have hother : ∀ d' n', ¬ (d' = d ∧ n' = n) → (s.files d').lookup n' =
      fs'.content (buildPath (D.base d') n') := by
    intro d' n' hne
    rw [hshows d' n', FileSystem.content, FileSystem.content,
      honly _ fun heq => hne (buildPath_injective D heq)]
  cases hcontent : fs'.content (buildPath (D.base d) n) with
  | some content =>
    refine ⟨.write d n content, rfl, fun d' n' => ?_⟩
    simp only [changed, Change.apply, lookup_update_dir, FinMap.lookup_insert]
    split_ifs with hd hn
    · subst hd hn
      exact hcontent.symm
    · exact hd ▸ hother d' n' fun heq => hn heq.2
    · exact hother d' n' fun heq => hd heq.1
  | none =>
    refine ⟨.delete d n, rfl, fun d' n' => ?_⟩
    simp only [changed, Change.apply]
    split_ifs with hmem
    · simp only [lookup_update_dir, FinMap.lookup_erase]
      split_ifs with hd hn
      · subst hd hn
        exact hcontent.symm
      · exact hd ▸ hother d' n' fun heq => hn heq.2
      · exact hother d' n' fun heq => hd heq.1
    · by_cases heq : d' = d ∧ n' = n
      · obtain ⟨rfl, rfl⟩ := heq
        rw [hcontent, AList.lookup_eq_none.mpr hmem]
      · exact hother d' n' heq

/-- Whatever incrontab does, the daemon gets to know it: every run is a step of the host. -/
theorem exists_step_incrontab (check : FileName → Bool) (hshows : Shows D h.fs h.daemon.files)
    (sys : MainCalls) (argv : List Str) :
    ∃ h', Step D check h (.incrontab sys argv h.fs) h' ∧
      h'.fs = filesAfter (main sys argv h.fs) := by
  obtain hsame | ⟨user, -, -, htable, honly⟩ := filesAfter_main sys argv h.fs
  · refine ⟨_, .incrontab h sys argv none (by simp) ?_, rfl⟩
    exact filesof_same hshows fun d n => by rw [FileSystem.content, FileSystem.content, hsame]
  · by_cases htab : ∃ d, ∃ n : FileName,
        (configOf sys (commandLine argv) h.fs).tablePath user = buildPath (D.base d) n
    · obtain ⟨d, n, hpath⟩ := htab
      rw [hpath] at honly htable
      obtain ⟨c, hc, hafter⟩ := exists_change (s := h.daemon) hshows honly
      refine ⟨_, .incrontab h sys argv (some c) ?_ hafter, rfl⟩
      rintro c' hc'
      obtain rfl := Option.some.inj hc'
      rwa [htable]
    · refine ⟨_, .incrontab h sys argv none (by simp) ?_, rfl⟩
      refine filesof_same hshows fun d n => ?_
      rw [FileSystem.content, FileSystem.content, honly _ fun heq => htab ⟨d, n, heq.symm⟩]

theorem exists_run_process (D : TableDirs) (check : FileName → Bool) (h : Host) :
    ∃ ls h', Run D check h ls h' ∧ (∀ l ∈ ls, l = .process) ∧ h'.daemon.queue = [] := by
  induction hn : h.daemon.queue.length generalizing h with
  | zero => exact ⟨[], h, .nil h, by simp, List.length_eq_zero_iff.mp hn⟩
  | succ n ih =>
    cases hq : h.daemon.queue with
    | nil => simp [hq] at hn
    | cons e q =>
      obtain ⟨s, hs, hlen⟩ : ∃ s, Management.step D check h.daemon .process = some s ∧
          s.queue.length = n := by
        simp only [Management.step, hq]
        exact ⟨_, rfl, by simpa [hq] using hn⟩
      obtain ⟨ls, h', hrun, hls, hempty⟩ := ih ⟨h.fs, s⟩ hlen
      refine ⟨.process :: ls, h', .cons (.process h s hs) hrun, ?_, hempty⟩
      intro l hl
      exact (List.mem_cons.mp hl).elim id (hls l)

/-! ## The tables of the daemon -/

structure Consistent (D : TableDirs) (check : FileName → Bool) (h : Host) : Prop where
  files : Shows D h.fs h.daemon.files
  invariant : Invariant D check h.daemon

theorem Booted.consistent (hboot : Booted D check h) : Consistent D check h := by
  obtain ⟨files, hshows, hstart⟩ := hboot
  refine ⟨by rw [hstart]; exact hshows, ?_⟩
  rw [hstart]
  exact invariant_start D check files

private theorem invariant_changed {s : Management.System} (hs : Invariant D check s)
    (c : Option Change) : Invariant D check (changed s c) := by
  cases c with
  | none => exact hs
  | some c => exact invariant_change hs c

theorem Consistent.step (hcons : Consistent D check h) (hstep : Step D check h l h') :
    Consistent D check h' := by
  cases hstep with
  | incrontab sys argv c hc hshows => exact ⟨hshows, invariant_changed hcons.invariant c⟩
  | other fs c hshows => exact ⟨hshows, invariant_changed hcons.invariant c⟩
  | process s hs =>
    refine ⟨?_, invariant_step _ _ _ hcons.invariant hs⟩
    have hfiles : s.files = h.daemon.files := by
      simp only [Management.step] at hs
      cases hq : h.daemon.queue with
      | nil => simp [hq] at hs
      | cons e q =>
        rw [hq] at hs
        obtain rfl := Option.some.inj hs
        rfl
    exact fun d n => by rw [hfiles]; exact hcons.files d n

theorem Consistent.run (hcons : Consistent D check h) (hrun : Run D check h ls h') :
    Consistent D check h' := by
  induction hrun with
  | nil => exact hcons
  | cons hstep _ ih => exact ih (hcons.step hstep)

/-- The table of a file, with everything that stands in it now. -/
def tableNow (D : TableDirs) (fs : FileSystem) (d : TableDir) (n : FileName) :
    Option Management.UserTable :=
  (fs.content (buildPath (D.base d) n)).map fun content =>
    { user := n, fSysTable := d = .sys, loaded := some content }

/-- Without pending events the table of a file is as the file is now. -/
theorem Consistent.lookup (hcons : Consistent D check h) (hqueue : h.daemon.queue = [])
    (d : TableDir) (n : FileName) : h.daemon.ut.lookup (buildPath (D.base d) n) =
      if listed check h.daemon d n then tableNow D h.fs d n else none := by
  have hsettled := (hcons.invariant.tracks d n).settled (by simp [pending, hqueue])
  have hfile := hcons.files d n
  rw [hsettled, tableNow, ← hfile]
  unfold fileTable
  split_ifs
  · cases hl : (h.daemon.files d).lookup n <;> rfl
  · rfl

/-- Whatever runs of incrontab, reported changes and the daemon have done, once all events are
processed each user's table is the current file of that user, if the user passes `CheckUser`; and
each system table is the current file, unless it is hidden or a backup file. -/
theorem tables_follow_files (hboot : Booted D check h) (hrun : Run D check h ls h')
    (hqueue : h'.daemon.queue = []) (n : FileName) :
    h'.daemon.ut.lookup (buildPath D.userBase n) =
        (if check n then tableNow D h'.fs .user n else none) ∧
      (isBackup n = false → h'.daemon.ut.lookup (buildPath D.sysBase n) =
        if isHidden n then none else tableNow D h'.fs .sys n) := by
  have hcons := hboot.consistent.run hrun
  have huser := hcons.lookup hqueue .user n
  have hsys := hcons.lookup hqueue .sys n
  constructor
  · have hlisted : listed check h'.daemon .user n = check n := by
      unfold listed scanned accepted
      cases check n <;> rfl
    rw [hlisted] at huser
    exact huser
  · intro hbackup
    have hlisted : listed check h'.daemon .sys n = !isHidden n := by
      unfold listed scanned accepted
      cases isHidden n <;> simp [hbackup]
    rw [hlisted] at hsys
    rw [show D.sysBase = D.base .sys from rfl, hsys]
    cases isHidden n <;> rfl

end Steps

/-! ## Whose tables change -/

/-- Other programs keep off the files, and incrontab is run by users who are not root, with the
table directory of the daemon. User names are file names. -/
def Label.Own (D : TableDirs) : Label → Prop
  | .incrontab sys argv fs => sys.getuid ≠ 0 ∧
      (configOf sys (commandLine argv) fs).userTableDir = D.userBase ∧
      ∀ user, sys.getpwuid sys.getuid = some user → user ≠ [] ∧ '/' ∉ user
  | .other => False
  | .process => True

/-- What incrontab does not touch: the system tables, and the tables of the users who have not
run it. -/
structure Untouched (D : TableDirs) (h h' : Host) (n : FileName) : Prop where
  sys : h'.fs.content (buildPath (D.base .sys) n) = h.fs.content (buildPath (D.base .sys) n)
  reported : h'.daemon.reported.any (about .sys n) = h.daemon.reported.any (about .sys n)

/-- The run was made by the user of this name, who has passed all tests. -/
def Label.By (n : FileName) : Label → Prop
  | .incrontab sys argv fs => sys.getpwuid sys.getuid = some n.1 ∧ Authorized sys argv fs n.1
  | _ => False

section Owners
variable {D : TableDirs} {check : FileName → Bool} {h h' : Host} {l : Label} {ls : List Label}

private theorem tableOf_own {sys : MainCalls} {argv : List Str} {fs : FileSystem} {p : Str}
    (hown : (Label.incrontab sys argv fs).Own D) (hp : tableOf sys argv fs = some p) :
    ∃ n : FileName, sys.getpwuid sys.getuid = some n.1 ∧ p = buildPath (D.base .user) n := by
  obtain ⟨huid, hdir, hname⟩ := hown
  unfold tableOf at hp
  cases huser : userOf sys (commandLine argv) with
  | error message => simp [huser] at hp
  | ok user =>
    rw [huser] at hp
    have hpw := userOf_eq_ok huser huid
    refine ⟨⟨user, hname user hpw⟩, hpw, ?_⟩
    rw [← Option.some.inj hp, Configured.tablePath, hdir]
    rfl

private theorem reported_user {sys : MainCalls} {argv : List Str} {fs : FileSystem} {c : Change}
    (hown : (Label.incrontab sys argv fs).Own D) (hc : Reported D (tableOf sys argv fs) c)
    (files : Files) (n : FileName) : (c.apply files).2.any (about .sys n) = false := by
  have hdir : ∀ d (n' : FileName), tableOf sys argv fs = some (buildPath (D.base d) n') →
      d = .user := by
    intro d n' hpath
    obtain ⟨m, -, hm⟩ := tableOf_own hown hpath
    exact (buildPath_injective D hm).1
  cases c with
  | write d n' content =>
    obtain rfl := hdir d n' hc
    simp [Change.apply, about]
  | delete d n' =>
    obtain rfl := hdir d n' hc
    simp only [Change.apply]
    split_ifs <;> simp [about]
  | moveIn d n' content => exact hc.elim
  | moveOut d n' => exact hc.elim
  | rename d n' n'' => exact hc.elim

theorem Untouched.step (hstep : Step D check h l h') (hown : l.Own D) (n : FileName) :
    Untouched D h h' n := by
  cases hstep with
  | incrontab sys argv c hc hshows =>
    constructor
    · obtain hsame | ⟨user, -, -, htable, honly⟩ := filesAfter_main sys argv h.fs
      · rw [FileSystem.content, FileSystem.content, hsame]
      · obtain ⟨m, -, hm⟩ := tableOf_own hown htable
        rw [FileSystem.content, FileSystem.content, honly]
        intro heq
        exact absurd (buildPath_injective D (heq.trans hm)).1 (by decide)
    · cases c with
      | none => rfl
      | some c =>
        simp only [changed, List.any_append,
          reported_user hown (hc c rfl) h.daemon.files n, Bool.or_false]
  | other fs c hshows => exact hown.elim
  | process s hs =>
    refine ⟨rfl, ?_⟩
    simp only [Management.step] at hs
    cases hq : h.daemon.queue with
    | nil => simp [hq] at hs
    | cons e q =>
      rw [hq] at hs
      obtain rfl := Option.some.inj hs
      rfl

theorem Step.by_owner (hstep : Step D check h l h') (hown : l.Own D) (n : FileName) :
    h'.fs.content (buildPath (D.base .user) n) = h.fs.content (buildPath (D.base .user) n) ∨
      l.By n := by
  cases hstep with
  | incrontab sys argv c hc hshows =>
    obtain hsame | ⟨user, hauth, howner, htable, honly⟩ := filesAfter_main sys argv h.fs
    · left
      rw [FileSystem.content, FileSystem.content, hsame]
    · obtain ⟨m, hm, hpath⟩ := tableOf_own hown htable
      obtain rfl : user = m.1 := Option.some.inj ((howner hown.1).symm.trans hm)
      by_cases hnm : n = m
      · subst hnm
        exact .inr ⟨hm, hauth⟩
      · left
        rw [FileSystem.content, FileSystem.content, honly]
        intro heq
        exact hnm (buildPath_injective D (heq.trans hpath)).2
  | other fs c hshows => exact hown.elim
  | process s hs => exact .inl rfl

theorem Run.untouched (hrun : Run D check h ls h') (hown : ∀ l ∈ ls, l.Own D) (n : FileName) :
    Untouched D h h' n := by
  induction hrun with
  | nil h => exact ⟨rfl, rfl⟩
  | cons hstep _ ih =>
    have hfirst := Untouched.step hstep (hown _ (by simp)) n
    have hrest := ih fun l hl => hown l (by simp [hl])
    exact ⟨hrest.sys.trans hfirst.sys, hrest.reported.trans hfirst.reported⟩

theorem Run.by_owner (hrun : Run D check h ls h') (hown : ∀ l ∈ ls, l.Own D) (n : FileName) :
    h'.fs.content (buildPath (D.base .user) n) = h.fs.content (buildPath (D.base .user) n) ∨
      ∃ l ∈ ls, l.By n := by
  induction hrun with
  | nil h => exact .inl rfl
  | cons hstep _ ih =>
    rcases ih fun l hl => hown l (by simp [hl]) with hsame | ⟨l, hl, hby⟩
    · refine (hstep.by_owner (hown _ (by simp)) n).imp hsame.trans fun hby => ?_
      exact ⟨_, by simp, hby⟩
    · exact .inr ⟨l, by simp [hl], hby⟩

/-- Between two moments without pending events, as long as only incrontab changes files and users
other than root run it with the directory of the daemon, no system table changes, and a user's
table changes only if that user has run incrontab and passed all tests. -/
theorem tables_change_by_owner (hboot : Booted D check h) {h₁ h₂ : Host} {ls₁ : List Label}
    (hrun₁ : Run D check h ls₁ h₁) (hqueue₁ : h₁.daemon.queue = [])
    (hrun₂ : Run D check h₁ ls h₂) (hqueue₂ : h₂.daemon.queue = [])
    (hown : ∀ l ∈ ls, l.Own D) (n : FileName) :
    h₂.daemon.ut.lookup (buildPath D.sysBase n) = h₁.daemon.ut.lookup (buildPath D.sysBase n) ∧
      (h₂.daemon.ut.lookup (buildPath D.userBase n) ≠
        h₁.daemon.ut.lookup (buildPath D.userBase n) → ∃ l ∈ ls, l.By n) := by
  have hcons₁ := hboot.consistent.run hrun₁
  have hcons₂ := hcons₁.run hrun₂
  constructor
  · have hkept := hrun₂.untouched hown n
    rw [show D.sysBase = D.base .sys from rfl, hcons₁.lookup hqueue₁, hcons₂.lookup hqueue₂]
    simp only [listed, tableNow, hkept.sys, hkept.reported]
  · intro hne
    refine (hrun₂.by_owner hown n).resolve_left fun hsame => hne ?_
    rw [(tables_follow_files hboot hrun₁ hqueue₁ n).1,
      show buildPath D.userBase n = buildPath (D.base .user) n from rfl, hcons₂.lookup hqueue₂]
    have hlisted : listed check h₂.daemon .user n = check n := by
      unfold listed scanned accepted
      cases check n <;> rfl
    rw [hlisted, tableNow, tableNow, hsame]

end Owners

/-! ## An import reaches the daemon -/

/-- An import for a user with which nothing goes wrong. -/
structure Imports (sys : MainCalls) (argv : List Str) (fs : FileSystem) (user : Str)
    (tab : List IncronTabEntry) : Prop where
  page : ((commandLine argv).existsOption "help".toList ||
    (commandLine argv).existsOption "about".toList ||
    (commandLine argv).existsOption "version".toList) = false
  operation : hasOperation (commandLine argv) = false
  loads : ∃ file, (commandLine argv).getValue 0 = .ok (some file) ∧
    source sys.toCalls fs file = .ok (true, tab)
  userOf_eq : userOf sys (commandLine argv) = .ok user
  permitted : (configOf sys (commandLine argv) fs).permits sys fs user = true
  opened : sys.mayWrite ((configOf sys (commandLine argv) fs).tablePath user) = true
  owner : sys.toCalls.GivesTo user ((configOf sys (commandLine argv) fs).tablePath user)
  written : sys.save.lost (saveStrings tab) = 0

section Import
variable {D : TableDirs} {check : FileName → Bool} {h h' : Host} {ls : List Label}
variable {sys : MainCalls} {argv : List Str} {fs : FileSystem} {tab : List IncronTabEntry}

private theorem Imports.copyFromFile_eq {user file : Str} (himport : Imports sys argv fs user tab)
    (hsource : source sys.toCalls fs file = .ok (true, tab)) :
    copyFromFile sys.toCalls (configOf sys (commandLine argv) fs).cfg file user fs =
      .ok true (saved sys.toCalls (configOf sys (commandLine argv) fs) user tab fs) := by
  obtain ⟨e, hs, -⟩ | ⟨tab', hs, -⟩ | ⟨tab', hs, ⟨hw, -⟩ | ⟨-, ho, -⟩ | ⟨-, -, hrun⟩⟩ :=
    copyFromFile_cases sys.toCalls (configOf sys (commandLine argv) fs) file user fs
  · simp [hsource] at hs
  · simp [hsource] at hs
  · exact absurd himport.opened hw
  · exact absurd himport.owner ho
  · obtain rfl : tab = tab' := (Prod.mk.inj (Except.ok.inj (hsource.symm.trans hs))).2
    exact hrun

private theorem Imports.session_eq {user : Str} (himport : Imports sys argv fs user tab) :
    ∃ e, session sys (commandLine argv) user fs =
      .ok e (saved sys.toCalls (configOf sys (commandLine argv) fs) user tab fs) := by
  obtain ⟨file, hfile, hsource⟩ := himport.loads
  have hperform : perform sys (configOf sys (commandLine argv) fs).cfg (commandLine argv) user fs =
      .ok (ending true) (saved sys.toCalls (configOf sys (commandLine argv) fs) user tab fs) := by
    unfold perform
    rw [himport.operation]
    simp only [Bool.not_false, if_true, hfile]
    change (copyFromFile _ _ file user >>= fun ok => pure (ending ok)) fs = _
    rw [Hoare.bind_eq_ok]
    exact ⟨true, _, himport.copyFromFile_eq hsource, rfl⟩
  refine ⟨{ ending true with
    err := (configFile sys (commandLine argv)).2 ++ (ending true).err }, ?_⟩
  unfold session
  rw [Hoare.get_bind, Hoare.bind_eq_ok]
  refine ⟨true, fs, by rw [checkUser_eq, himport.permitted], ?_⟩
  simp only [if_true]
  rw [Hoare.bind_eq_ok]
  exact ⟨_, _, hperform, rfl⟩

theorem Imports.content {user : Str} (himport : Imports sys argv fs user tab) :
    (filesAfter (main sys argv fs)).content
      ((configOf sys (commandLine argv) fs).tablePath user) = some (saveText tab) := by
  obtain ⟨file, hfile, hsource⟩ := himport.loads
  have hvals : (commandLine argv).valList.length ≠ 0 := by
    intro hnone
    simp [AppArgs.getValue, List.length_eq_zero_iff.mp hnone] at hfile
  have hmain : filesAfter (main sys argv fs) =
      saved sys.toCalls (configOf sys (commandLine argv) fs) user tab fs := by
    obtain ⟨e, he⟩ := himport.session_eq
    rw [main_eq, himport.page, himport.operation, himport.userOf_eq]
    simp only [Bool.false_eq_true, if_false, Bool.not_false, Bool.true_and, Bool.false_and,
      hvals, decide_false]
    have htry : tryCatch (session sys (commandLine argv) user) unhandled fs = .ok e
        (saved sys.toCalls (configOf sys (commandLine argv) fs) user tab fs) := by
      change (EStateM.tryCatch _ _) fs = _
      rw [EStateM.tryCatch, he]
    rw [htry]
    rfl
  rw [hmain, content_saved,
    (written_saveStrings_iff sys.toCalls file fs hsource).mpr himport.written]

theorem Run.fs_eq_of_process (hrun : Run D check h ls h') (hls : ∀ l ∈ ls, l = .process) :
    h'.fs = h.fs := by
  induction hrun with
  | nil => rfl
  | cons hstep _ ih =>
    rw [ih fun l hl => hls l (by simp [hl])]
    cases hstep with
    | process s hs => rfl
    | incrontab sys argv c hc hshows => exact nomatch hls _ List.mem_cons_self
    | other fs c hshows => exact nomatch hls _ List.mem_cons_self

/-- The table that the daemon has after an import and the processing of all events, in whichever
of its directories the import has written. -/
private theorem lookup_after_import (hcons : Consistent D check h) {d : TableDir} {n : FileName}
    (himport : Imports sys argv h.fs n tab)
    (hdir : (configOf sys (commandLine argv) h.fs).userTableDir = D.base d)
    (hscanned : scanned check d n = true) {h₁ : Host}
    (hstep : Step D check h (.incrontab sys argv h.fs) h₁) (hrun : Run D check h₁ ls h')
    (hls : ∀ l ∈ ls, l = .process) (hqueue : h'.daemon.queue = []) :
    h'.daemon.ut.lookup (buildPath (D.base d) n) =
      some { user := n, fSysTable := d = .sys, loaded := some (saveText tab) } := by
  have hfs : h'.fs = filesAfter (main sys argv h.fs) := by
    rw [hrun.fs_eq_of_process hls]
    cases hstep
    rfl
  have hcontent := himport.content
  rw [Configured.tablePath, hdir, ← hfs] at hcontent
  have hlisted : listed check h'.daemon d n = true := by rw [listed, hscanned, Bool.true_or]
  rw [((hcons.step hstep).run hrun).lookup hqueue, hlisted, tableNow, hcontent]
  rfl

/-- An import with which nothing goes wrong reaches the daemon with all of its entries: when the
events have been processed, the user's table is the text of the imported table. -/
theorem import_reaches_daemon (hboot : Booted D check h) {h₁ h₂ h₃ : Host}
    {ls₁ ls₂ : List Label} (hrun₁ : Run D check h ls₁ h₁) {n : FileName}
    (himport : Imports sys argv h₁.fs n tab)
    (hdir : (configOf sys (commandLine argv) h₁.fs).userTableDir = D.userBase)
    (hstep : Step D check h₁ (.incrontab sys argv h₁.fs) h₂) (hrun₂ : Run D check h₂ ls₂ h₃)
    (hls₂ : ∀ l ∈ ls₂, l = .process) (hqueue : h₃.daemon.queue = []) (hcheck : check n = true) :
    h₃.daemon.ut.lookup (buildPath D.userBase n) =
      some { user := n, fSysTable := false, loaded := some (saveText tab) } :=
  lookup_after_import (hboot.consistent.run hrun₁) (d := .user) himport hdir hcheck hstep hrun₂ hls₂
    hqueue

/-- A user who is not root and names a configuration file of their own gives the daemon a system
table: `main` says that the default file will be used and loads the other one. -/
theorem custom_config_gives_system_table (hboot : Booted D check h) {h₁ h₂ h₃ : Host}
    {ls₁ ls₂ : List Label} (hrun₁ : Run D check h ls₁ h₁) {n : FileName} {cfg content : Str}
    (huid : sys.getuid ≠ 0) (himport : Imports sys argv h₁.fs n tab)
    (hcfg : (commandLine argv).getOption "config".toList = some cfg)
    (hread : sys.openRead h₁.fs cfg = .ok content)
    (hdir : ((IncronCfg.init {}).read content).getValue "user_table_dir".toList = some D.sysBase)
    (hname : isHidden n = false ∧ isBackup n = false)
    (hstep : Step D check h₁ (.incrontab sys argv h₁.fs) h₂) (hrun₂ : Run D check h₂ ls₂ h₃)
    (hls₂ : ∀ l ∈ ls₂, l = .process) (hqueue : h₃.daemon.queue = []) :
    (configFile sys (commandLine argv)).2 =
        ["insufficient privileges to use custom configuration (will use default)".toList] ∧
      h₃.daemon.ut.lookup (buildPath D.sysBase n) =
        some { user := n, fSysTable := true, loaded := some (saveText tab) } := by
  have hfile : configFile sys (commandLine argv) = (cfg,
      ["insufficient privileges to use custom configuration (will use default)".toList]) := by
    rw [configFile, hcfg]
    simp only [if_pos huid]
  have hconf : (configOf sys (commandLine argv) h₁.fs).userTableDir = D.base .sys := by
    have hcfg' : (configOf sys (commandLine argv) h₁.fs).cfg =
        (IncronCfg.init {}).read content := by
      rw [configOf, hfile]
      simp only [Configured.load, IncronCfg.load, hread]
      rfl
    unfold Configured.userTableDir
    simp only [hcfg', hdir, Option.get_some]
    rfl
  refine ⟨by rw [hfile], ?_⟩
  exact lookup_after_import (hboot.consistent.run hrun₁) himport hconf
    (by simp [scanned, hname]) hstep hrun₂ hls₂ hqueue

end Import

/-! ## A host -/

def bobsCalls : MainCalls :=
  { EditCalls.works 7 ⟨[], 0⟩ with
    mayUnlink := fun _ => true
    mayAppend := fun _ => true
    getuid := 1000
    getpwuid := fun _ => some "bob".toList
    setenv := true
    eaccess := fun _ => true }

/-- A table, and a configuration file with the other directory. -/
def bobsHome : FileSystem where
  file path :=
    if path = "/home/bob/new".toList then some ⟨newText, 2⟩
    else if path = "/home/bob/cfg".toList then
      some ⟨"user_table_dir = /etc/incron.d\n".toList, 2⟩
    else none

def freshHost : Host := ⟨bobsHome, Management.System.start defaultDirs (fun _ => true) fun _ => ∅⟩

private theorem not_in_home (d : TableDir) (n : FileName) {p : Str} (hp : p[1]? = some 'h') :
    buildPath (defaultDirs.base d) n ≠ p := by
  rintro rfl
  have hsecond : (buildPath (defaultDirs.base d) [])[1]? = some 'h' := by
    rw [buildPath_eq, List.getElem?_append_left (by cases d <;> decide)] at hp
    exact hp
  revert hsecond
  cases d <;> decide

theorem booted_freshHost : Booted defaultDirs (fun _ => true) freshHost := by
  refine ⟨fun _ => ∅, ?_, rfl⟩
  intro d n
  have hnone : bobsHome.file (buildPath (defaultDirs.base d) n) = none := by
    unfold bobsHome
    simp only
    rw [if_neg (not_in_home d n (by decide)), if_neg (not_in_home d n (by decide))]
  change none = (bobsHome.file (buildPath (defaultDirs.base d) n)).map File.content
  rw [hnone]
  rfl

def newTable : List IncronTabEntry := [{ path := "/new".toList, mask := 32, cmd := "ls".toList }]

def plainArgv : List Str := ["incrontab".toList, "/home/bob/new".toList]

def customArgv : List Str :=
  ["incrontab".toList, "--config=/home/bob/cfg".toList, "/home/bob/new".toList]

def bob : FileName := ⟨"bob".toList, by decide⟩

private theorem loads_new : source bobsCalls.toCalls bobsHome "/home/bob/new".toList =
    .ok (true, newTable) := load_newText

theorem imports_plain : Imports bobsCalls plainArgv bobsHome bob newTable := by
  refine ⟨by decide, by decide, ⟨_, by decide, loads_new⟩, by decide, by decide, rfl, ?_, ?_⟩
  · exact ⟨⟨1000, 1000⟩, rfl, rfl⟩
  · decide

theorem imports_custom : Imports bobsCalls customArgv bobsHome bob newTable := by
  refine ⟨by decide, by decide, ⟨_, by decide, loads_new⟩, by decide, by decide, rfl, ?_, ?_⟩
  · exact ⟨⟨1000, 1000⟩, rfl, rfl⟩
  · decide

theorem exists_bobsRun (argv : List Str) : ∃ h₂ h₃ ls,
    Step defaultDirs (fun _ => true) freshHost (.incrontab bobsCalls argv bobsHome) h₂ ∧
      Run defaultDirs (fun _ => true) h₂ ls h₃ ∧ (∀ l ∈ ls, l = .process) ∧
      h₃.daemon.queue = [] := by
  obtain ⟨h₂, hstep, -⟩ := exists_step_incrontab (fun _ => true)
    booted_freshHost.consistent.files bobsCalls argv
  obtain ⟨ls, h₃, hrun, hls, hqueue⟩ := exists_run_process defaultDirs (fun _ => true) h₂
  exact ⟨h₂, h₃, ls, hstep, hrun, hls, hqueue⟩

theorem tables_follow_files_bob : ∃ ls h, Run defaultDirs (fun _ => true) freshHost ls h ∧
    h.daemon.ut.lookup (buildPath defaultDirs.userBase bob) =
      tableNow defaultDirs h.fs .user bob ∧
    h.daemon.ut.lookup (buildPath defaultDirs.sysBase bob) =
      tableNow defaultDirs h.fs .sys bob := by
  obtain ⟨h₂, h₃, ls, hstep, hrun, -, hqueue⟩ := exists_bobsRun plainArgv
  have hfollow := tables_follow_files booted_freshHost (.cons hstep hrun) hqueue bob
  have hsys := hfollow.2 (by decide)
  rw [if_neg (by decide)] at hsys
  exact ⟨_, h₃, .cons hstep hrun, hfollow.1, hsys⟩

/-- Bob's table is new, because Bob has run incrontab. -/
theorem tables_change_by_owner_bob : ∃ ls h, Run defaultDirs (fun _ => true) freshHost ls h ∧
    h.daemon.ut.lookup (buildPath defaultDirs.sysBase bob) =
      freshHost.daemon.ut.lookup (buildPath defaultDirs.sysBase bob) ∧
    h.daemon.ut.lookup (buildPath defaultDirs.userBase bob) ≠
      freshHost.daemon.ut.lookup (buildPath defaultDirs.userBase bob) ∧ ∃ l ∈ ls, l.By bob := by
  obtain ⟨h₂, h₃, ls, hstep, hrun, hls, hqueue⟩ := exists_bobsRun plainArgv
  have hown : ∀ l ∈ .incrontab bobsCalls plainArgv bobsHome :: ls, l.Own defaultDirs := by
    intro l hl
    rcases List.mem_cons.mp hl with rfl | hl
    · refine ⟨by decide, by decide, ?_⟩
      rintro user ⟨⟩
      decide
    · rw [hls l hl]
      trivial
  have hchange := tables_change_by_owner booted_freshHost (.nil _) rfl (.cons hstep hrun) hqueue
    hown bob
  have hnew : h₃.daemon.ut.lookup (buildPath defaultDirs.userBase bob) =
      some { user := bob, fSysTable := false, loaded := some (saveText newTable) } :=
    lookup_after_import booted_freshHost.consistent (d := .user) imports_plain (by decide) rfl
      hstep hrun hls hqueue
  have hne : h₃.daemon.ut.lookup (buildPath defaultDirs.userBase bob) ≠
      freshHost.daemon.ut.lookup (buildPath defaultDirs.userBase bob) := by
    rw [hnew]
    exact Option.some_ne_none _
  exact ⟨_, h₃, .cons hstep hrun, hchange.1, hne, hchange.2 hne⟩

theorem import_reaches_daemon_bob : ∃ h : Host,
    h.daemon.ut.lookup (buildPath defaultDirs.userBase bob) =
      some { user := bob, fSysTable := false, loaded := some (saveText newTable) } := by
  obtain ⟨h₂, h₃, ls, hstep, hrun, hls, hqueue⟩ := exists_bobsRun plainArgv
  exact ⟨h₃, import_reaches_daemon booted_freshHost (.nil _) imports_plain (by decide) hstep hrun
    hls hqueue rfl⟩

/-- Bob's table runs with the rights of the system tables. -/
theorem custom_config_gives_system_table_bob : ∃ h : Host,
    (configFile bobsCalls (commandLine customArgv)).2 =
        ["insufficient privileges to use custom configuration (will use default)".toList] ∧
      h.daemon.ut.lookup (buildPath defaultDirs.sysBase bob) =
        some { user := bob, fSysTable := true, loaded := some (saveText newTable) } := by
  obtain ⟨h₂, h₃, ls, hstep, hrun, hls, hqueue⟩ := exists_bobsRun customArgv
  have hcfg : (commandLine customArgv).getOption "config".toList =
      some "/home/bob/cfg".toList := by decide
  have hread : bobsCalls.openRead freshHost.fs "/home/bob/cfg".toList =
      .ok "user_table_dir = /etc/incron.d\n".toList := by decide
  exact ⟨h₃, custom_config_gives_system_table booted_freshHost (.nil _) (by decide) imports_custom
    hcfg hread (by decide) (by decide) hstep hrun hls hqueue⟩

end Incron.Incrontab
