import Incron.Config.AppArgs
import Incron.Incrontab.Import
import Incron.Incrontab.Operations
import Incron.Table.CheckUser

/-! The program incrontab (`main` in ict-main.cpp): the command line, the user, the configuration
and the permission to use incron, and then one of the operations. -/
namespace Incron
namespace AppArgs

/-- Several calls of `AddOption`; `none` when one of them is refused. -/
def addOptions (A : AppArgs) : List Declaration → Option AppArgs
  | [] => some A
  | d :: decls =>
    match A.addOption d.rName d.cShort d.type with
    | (A, true) => A.addOptions decls
    | (_, false) => none

end AppArgs

namespace Incrontab
open IncronTab

/-- The real user id of the process, the name that the user database has for it, whether all
variables can be set, and the answer of `eaccess` for a configuration file. -/
structure MainCalls extends TableCalls where
  getuid : ℕ
  getpwuid : ℕ → Option Str
  setenv : Bool
  eaccess : Str → Bool

/-- The exit status and what `main` itself writes; help, about and version are left out. -/
structure Ending where
  status : ℕ := 0
  err : List Str := []
  out : Str := []
  deriving DecidableEq, Repr

def fail (message : Str) : Ending := { status := 1, err := [message] }

def quoted (s : Str) : Str := '\'' :: s ++ ['\'']

def hasOperation (A : AppArgs) : Bool :=
  A.existsOption "list".toList || A.existsOption "remove".toList ||
    A.existsOption "edit".toList || A.existsOption "types".toList ||
    A.existsOption "reload".toList

/-- The user whose table is meant, or the message with which `main` gives up. -/
def userOf (sys : MainCalls) (A : AppArgs) : Except Str Str :=
  match A.getOption "user".toList with
  | some user =>
    if sys.getuid ≠ 0 then
      .error ("cannot override user to ".toList ++ quoted user ++
        ": insufficient privileges".toList)
    else
      match sys.getpwnam user with
      | some _ => if sys.setenv then .ok user else .error "cannot set environment variables".toList
      | none => .error ("user ".toList ++ quoted user ++ " not found".toList)
  | none =>
    match sys.getpwuid sys.getuid with
    | none => .error "cannot determine current user".toList
    | some name => .ok name

/-- The configuration file that is loaded, and what is said about it. `GetOption` has replaced
the default path already when the privileges are looked at. -/
def configFile (sys : MainCalls) (A : AppArgs) : Str × List Str :=
  match A.getOption "config".toList with
  | none => (IncronCfg.cfgDefault, [])
  | some cfg => (cfg,
      if sys.getuid ≠ 0 then
        ["insufficient privileges to use custom configuration (will use default)".toList]
      else if !sys.eaccess cfg then
        ["cannot read configuration file (will use default)".toList]
      else [])

def configOf (sys : MainCalls) (A : AppArgs) (fs : FileSystem) : Configured :=
  Configured.load (fun path => (sys.openRead fs path).toOption) (configFile sys A).1

/-- What `CheckUser` finds at a path. -/
def fileState (sys : MainCalls) (fs : FileSystem) (path : Str) : FileState :=
  match sys.openRead fs path with
  | .ok content => .readable content
  | .error .enoent => .absent
  | .error .other => .unreadable

/-- `IncronTab::CheckUser` with the paths from the configuration. -/
def checkUser (sys : MainCalls) (C : IncronCfg) (rUser : Str) : Program Bool := do
  match C.getValue "allowed_users".toList with
  | none => throw (.inotify "configuration is corrupted" einval)
  | some path =>
    let fs ← get
    if fileState sys fs path = .absent then
      match C.getValue "denied_users".toList with
      | none => throw (.inotify "configuration is corrupted" einval)
      | some path' => pure (IncronTab.checkUser .absent (fileState sys fs path') rUser)
    else pure (IncronTab.checkUser (fileState sys fs path) .absent rUser)

/-- The status that stands for an answer. -/
def ending (ok : Bool) : Ending := { status := if ok then 0 else 1 }

/-- The operation itself. There is a value when no operation is given, so that the list is not
read behind its end. -/
def perform (sys : MainCalls) (C : IncronCfg) (A : AppArgs) (user : Str) : Program Ending :=
  if !hasOperation A then
    match A.getValue 0 with
    | .ok (some file) => ending <$> copyFromFile sys.toCalls C file user
    | _ => pure (ending false)
  else if A.existsOption "list".toList then do
    let (ok, out) ← listTable sys.toTableCalls C user
    pure { ending ok with out := out }
  else if A.existsOption "remove".toList then
    ending <$> removeTable sys.toTableCalls C user
  else if A.existsOption "edit".toList then
    ending <$> editTable sys.toEditCalls C user
  else if A.existsOption "types".toList then
    pure { out := listTypes }
  else if A.existsOption "reload".toList then
    ending <$> reloadTable sys.toTableCalls C user
  else pure (fail "invalid usage".toList)

/-- The `try` block. -/
def session (sys : MainCalls) (A : AppArgs) (user : Str) : Program Ending := do
  let fs ← get
  let C := configOf sys A fs
  let notes := (configFile sys A).2
  if ← checkUser sys C.cfg user then
    let e ← perform sys C.cfg A user
    pure { e with err := notes ++ e.err }
  else
    let e := fail ("user ".toList ++ quoted user ++ " is not allowed to use incron".toList)
    pure { e with err := notes ++ e.err }

/-- `catch (InotifyException e)`. -/
def unhandled : IncrontabException → Program Ending
  | .inotify message _ =>
    pure { status := 1, err := ["*** unhandled exception occurred ***".toList, message.toList] }
  | .outOfRange => throw .outOfRange

def main (sys : MainCalls) (argv : List Str) : Program Ending :=
  match ({} : AppArgs).addOptions AppArgs.incrontabOptions with
  | none => pure (fail "error while initializing application".toList)
  | some A₀ =>
    let A := A₀.parse argv
    if A.existsOption "help".toList || A.existsOption "about".toList ||
        A.existsOption "version".toList then pure {}
    else if !hasOperation A && A.valList.length = 0 then
      pure (fail "invalid arguments - specify operation or source file".toList)
    else if hasOperation A && 0 < A.valList.length then
      pure (fail
        "invalid arguments - operation and source file cannot be combined".toList)
    else
      match userOf sys A with
      | .error message => pure (fail message)
      | .ok user => tryCatch (session sys A user) unhandled

/-! ## The steps -/

/-- The options that are registered do not clash. -/
theorem addOptions_incrontab : ({} : AppArgs).addOptions AppArgs.incrontabOptions =
    some (AppArgs.registered AppArgs.incrontabOptions) := by
  rfl

def commandLine (argv : List Str) : AppArgs :=
  (AppArgs.registered AppArgs.incrontabOptions).parse argv

namespace Configured
variable (C : Configured)

def allowedUsers : Str :=
  (C.cfg.getValue "allowed_users".toList).get
    (C.builtin ("allowed_users".toList, "/etc/incron.allow".toList) (by decide))

def deniedUsers : Str :=
  (C.cfg.getValue "denied_users".toList).get
    (C.builtin ("denied_users".toList, "/etc/incron.deny".toList) (by decide))

def permits (sys : MainCalls) (fs : FileSystem) (rUser : Str) : Bool :=
  IncronTab.checkUser (fileState sys fs C.allowedUsers) (fileState sys fs C.deniedUsers) rUser

end Configured

section Steps
variable {sys : MainCalls} {C : Configured} {fs : FileSystem} {A : AppArgs} {user : Str}

/-- `CheckUser` asks the two files of the configuration, and changes nothing. -/
theorem checkUser_eq : checkUser sys C.cfg user fs = .ok (C.permits sys fs user) fs := by
  have hallow : C.cfg.getValue "allowed_users".toList = some C.allowedUsers :=
    (Option.some_get _).symm
  have hdeny : C.cfg.getValue "denied_users".toList = some C.deniedUsers :=
    (Option.some_get _).symm
  unfold checkUser Configured.permits
  simp only [hallow, hdeny]
  rw [Hoare.get_bind]
  cases hstate : fileState sys fs C.allowedUsers with
  | absent => rfl
  | unreadable => rfl
  | readable f => rfl

/-- The operations that may change a table: an import, a removal and an edit. -/
def Changing (A : AppArgs) : Prop :=
  hasOperation A = false ∨ A.existsOption "list".toList = false ∧
    (A.existsOption "remove".toList = true ∨ A.existsOption "edit".toList = true)

/-- Every file is as it was, or the operation may change the table and no other file has been
changed. -/
def Performed (A : AppArgs) (path : Str) (fs fs' : FileSystem) : Prop :=
  fs'.file = fs.file ∨ Changing A ∧ fs.OnlyChanges path fs'

theorem post_perform : Hoare.Post (perform sys C.cfg A user) fs
    (fun _ fs' => Performed A (C.tablePath user) fs fs') fun _ fs' => fs'.file = fs.file := by
  have hmap : ∀ x : Program Bool, (ending <$> x) = x >>= fun ok => pure (ending ok) := fun _ => rfl
  unfold perform
  split_ifs with hnone hlist hremove hedit htypes hreload
  · rw [Bool.not_eq_true'] at hnone
    cases A.getValue 0 with
    | error e => exact .inl rfl
    | ok file =>
      cases file with
      | none => exact .inl rfl
      | some file =>
        simp only [hmap, Hoare.post_bind]
        apply (post_copyFromFile sys.toCalls C file user fs).mono
        · exact fun _ fs' h => .inr ⟨.inl hnone, h⟩
        · rintro e fs' rfl
          rfl
  · rw [Hoare.post_bind]
    apply post_listTable.imp_of_total
    rintro ⟨ok, out⟩ fs' rfl
    exact .inl rfl
  · rw [hmap, Hoare.post_bind]
    apply post_removeTable.imp_of_total
    exact fun _ fs' h => .inr ⟨.inr ⟨by simpa using hlist, .inl hremove⟩, h.1⟩
  · rw [hmap, Hoare.post_bind]
    apply (post_editTable user).mono
    · exact fun _ fs' h => .inr ⟨.inr ⟨by simpa using hlist, .inr hedit⟩, h.1⟩
    · exact fun _ fs' h => h.1
  · exact .inl rfl
  · rw [hmap, Hoare.post_bind]
    apply post_reloadTable.imp_of_total
    rintro ok fs' rfl
    exact .inl rfl
  · exact .inl rfl

/-- A user who is not allowed to use incron changes nothing. -/
theorem post_session : Hoare.Post (session sys A user) fs
    (fun _ fs' => fs'.file = fs.file ∨ (configOf sys A fs).permits sys fs user = true ∧
      Performed A ((configOf sys A fs).tablePath user) fs fs') fun _ fs' => fs'.file = fs.file := by
  unfold session
  rw [Hoare.post_bind, Hoare.post_get, Hoare.post_bind, Hoare.Post, checkUser_eq]
  cases hpermits : (configOf sys A fs).permits sys fs user with
  | false => exact .inl rfl
  | true =>
    simp only [if_true]
    rw [Hoare.post_bind]
    exact post_perform.imp fun _ fs' h => .inr ⟨trivial, h⟩

end Steps

/-! ## Whose table is changed -/

/-- What a run has passed that changes a table. -/
structure Authorized (sys : MainCalls) (argv : List Str) (fs : FileSystem) (user : Str) :
    Prop where
  userOf_eq : userOf sys (commandLine argv) = .ok user
  permitted : (configOf sys (commandLine argv) fs).permits sys fs user = true
  changing : Changing (commandLine argv)
  alone : hasOperation (commandLine argv) = true ↔ (commandLine argv).valList = []

/-- Only root acts for somebody else. -/
theorem userOf_eq_ok {sys : MainCalls} {A : AppArgs} {user : Str} (h : userOf sys A = .ok user)
    (huid : sys.getuid ≠ 0) : sys.getpwuid sys.getuid = some user := by
  unfold userOf at h
  cases hoption : A.getOption "user".toList with
  | some name =>
    rw [hoption] at h
    simp only [if_pos huid] at h
    exact absurd h (by simp)
  | none =>
    rw [hoption] at h
    cases hname : sys.getpwuid sys.getuid with
    | none => simp [hname] at h
    | some name =>
      rw [hname] at h
      exact congrArg some (Except.ok.inj h)

/-- `main` from where the command line has been parsed. -/
theorem main_eq (sys : MainCalls) (argv : List Str) :
    main sys argv = if (commandLine argv).existsOption "help".toList ||
        (commandLine argv).existsOption "about".toList ||
        (commandLine argv).existsOption "version".toList then pure {}
      else if !hasOperation (commandLine argv) && (commandLine argv).valList.length = 0 then
        pure (fail "invalid arguments - specify operation or source file".toList)
      else if hasOperation (commandLine argv) && 0 < (commandLine argv).valList.length then
        pure (fail "invalid arguments - operation and source file cannot be combined".toList)
      else
        match userOf sys (commandLine argv) with
        | .error message => pure (fail message)
        | .ok user => tryCatch (session sys (commandLine argv) user) unhandled := by
  rw [main, addOptions_incrontab]
  rfl

/-- Whatever happens, a run changes at most one file: the table of the user it acts for, who has
passed all tests. Without root's privileges that is the user who runs it. -/
theorem main_changes_own_table (sys : MainCalls) (argv : List Str) (fs : FileSystem) :
    Hoare.Post (main sys argv) fs
      (fun _ fs' => fs'.file = fs.file ∨ ∃ user, Authorized sys argv fs user ∧
        (sys.getuid ≠ 0 → sys.getpwuid sys.getuid = some user) ∧
        fs.OnlyChanges ((configOf sys (commandLine argv) fs).tablePath user) fs')
      fun _ fs' => fs'.file = fs.file := by
  rw [main_eq]
  split_ifs with hpage hmissing hboth
  · exact .inl rfl
  · exact .inl rfl
  · exact .inl rfl
  · cases huser : userOf sys (commandLine argv) with
    | error message => exact .inl rfl
    | ok user =>
      rw [Hoare.post_tryCatch]
      apply post_session.mono
      · rintro _ fs' (hsame | ⟨hpermits, hsame | ⟨hchanging, honly⟩⟩)
        · exact .inl hsame
        · exact .inl hsame
        · refine .inr ⟨user, ⟨huser, hpermits, hchanging, ?_⟩, userOf_eq_ok huser, honly⟩
          rw [← List.length_eq_zero_iff]
          cases hoper : hasOperation (commandLine argv) with
          | false => simpa [hoper] using hmissing
          | true => simpa [hoper] using hboth
      · intro e fs' hsame
        cases e with
        | inotify message errno => exact .inl hsame
        | outOfRange => exact hsame

end Incrontab
end Incron
