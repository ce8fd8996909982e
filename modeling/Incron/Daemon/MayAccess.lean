import Incron.Basic

/-! `UserTable::MayAccess`: any access right of the user's classes is sufficient. The record of the
user is looked at before it is tested. -/
namespace Incron.UserTable

def sIrwxu : BitVec 32 := 0o700
def sIrwxg : BitVec 32 := 0o70
def sIrwxo : BitVec 32 := 0o7

structure Stat where
  mode : BitVec 32
  uid : ℕ
  gid : ℕ
  deriving DecidableEq, Repr

structure Passwd where
  uid : ℕ
  gid : ℕ
  deriving DecidableEq, Repr

/-- `struct group` with the members that `gr_mem` points to. -/
structure Group where
  mem : List Str
  deriving DecidableEq, Repr

/-- The file system and the two databases; `none` is a failed call or a missing record. -/
structure Host where
  stat : Str → Option Stat
  lstat : Str → Option Stat
  getpwnam : Str → Option Passwd
  getgrgid : ℕ → Option Group

inductive Crash where
  /-- A null pointer is dereferenced. -/
  | nullPointer
  deriving DecidableEq, Repr

/-- `*p`. -/
def deref {α : Type} : Option α → Except Crash α
  | none => .error .nullPointer
  | some a => .ok a

/-- Some right of a class is set in the mode. -/
def Stat.grants (st : Stat) (rights : BitVec 32) : Bool := st.mode &&& rights != 0

namespace Host
variable (H : Host) (user path : Str) (fNoFollow : Bool)

/-- The permissions of the file, or of the link. -/
def permissions : Option Stat := if fNoFollow then H.lstat path else H.stat path

/-- The loop over the members of a group. -/
def listed (gid : ℕ) : Bool := (H.getgrgid gid).any (·.mem.any (· = user))

/-- The tests behind that for everyone. -/
def mayAccessAs (st : Stat) : Except Crash Bool := do
  let pwd := H.getpwnam user
  if (← deref pwd).uid = 0 then return true
  if st.grants sIrwxg then
    if pwd.any (·.gid = st.gid) then return true
    if H.listed user st.gid then return true
  if st.grants sIrwxu then
    if pwd.any (·.uid = st.uid) then return true
  return false

/-- `UserTable::MayAccess` for the user of the table. -/
def mayAccess : Except Crash Bool :=
  match H.permissions path fNoFollow with
  | none => .ok false
  | some st => if st.grants sIrwxo then .ok true else H.mayAccessAs user st

/-! ## The rights of a user -/

/-- The rights are those of others, of root, of the group or of the owner. -/
def Permitted (st : Stat) : Prop :=
  st.grants sIrwxo = true ∨ (∃ pwd, H.getpwnam user = some pwd ∧ pwd.uid = 0) ∨
    (st.grants sIrwxg = true ∧ ((∃ pwd, H.getpwnam user = some pwd ∧ pwd.gid = st.gid) ∨
      ∃ gr, H.getgrgid st.gid = some gr ∧ user ∈ gr.mem)) ∨
    (st.grants sIrwxu = true ∧ ∃ pwd, H.getpwnam user = some pwd ∧ pwd.uid = st.uid)

/-- `MayAccess` gives an answer, which is that of the rights. -/
def AnswersByRights : Prop :=
  ∃ b, H.mayAccess user path fNoFollow = .ok b ∧
    (b = true ↔ ∃ st, H.permissions path fNoFollow = some st ∧ H.Permitted user st)

/-- The record of the user is missing where it is needed. -/
def MissesRecord : Prop :=
  ∃ st, H.permissions path fNoFollow = some st ∧ st.grants sIrwxo = false ∧
    H.getpwnam user = none

theorem mayAccessAs_of_none (st : Stat) (h : H.getpwnam user = none) :
    H.mayAccessAs user st = .error .nullPointer := by
  rw [mayAccessAs, h]
  rfl

theorem mayAccessAs_of_some (st : Stat) {pwd : Passwd} (h : H.getpwnam user = some pwd) :
    H.mayAccessAs user st = .ok (decide (pwd.uid = 0) ||
      (st.grants sIrwxg && (decide (pwd.gid = st.gid) || H.listed user st.gid)) ||
      (st.grants sIrwxu && decide (pwd.uid = st.uid))) := by
  unfold mayAccessAs
  rw [h]
  simp only [deref, bind, Except.bind, pure, Except.pure, Option.any_some]
  split_ifs <;> simp_all

theorem listed_iff (gid : ℕ) :
    H.listed user gid = true ↔ ∃ gr, H.getgrgid gid = some gr ∧ user ∈ gr.mem := by
  unfold listed
  cases H.getgrgid gid with
  | none => simp
  | some gr => simp

theorem permitted_iff_of_some (st : Stat) {pwd : Passwd} (h : H.getpwnam user = some pwd)
    (hother : st.grants sIrwxo = false) :
    H.Permitted user st ↔ (decide (pwd.uid = 0) ||
      (st.grants sIrwxg && (decide (pwd.gid = st.gid) || H.listed user st.gid)) ||
      (st.grants sIrwxu && decide (pwd.uid = st.uid))) = true := by
  unfold Permitted
  simp [h, hother, or_assoc, listed_iff]

/-- `MayAccess` is right unless it needs a record that is missing. -/
theorem answersByRights_iff :
    H.AnswersByRights user path fNoFollow ↔ ¬ H.MissesRecord user path fNoFollow := by
  unfold AnswersByRights MissesRecord mayAccess
  cases hst : H.permissions path fNoFollow with
  | none => simp
  | some st =>
    cases hother : st.grants sIrwxo with
    | true => simp [hother, Permitted]
    | false =>
      cases hpwd : H.getpwnam user with
      | none => simp [hother, H.mayAccessAs_of_none user st hpwd]
      | some pwd =>
        simp [hother, H.mayAccessAs_of_some user st hpwd,
          H.permitted_iff_of_some user st hpwd hother]

/-- A file for its owner and its group, on a system whose users are gone. -/
def deserted : Host where
  stat _ := some { mode := 0o640, uid := 1000, gid := 100 }
  lstat _ := some { mode := 0o640, uid := 1000, gid := 100 }
  getpwnam _ := none
  getgrgid _ := none

theorem not_answersByRights_deserted :
    ¬ deserted.AnswersByRights "user".toList "/tmp/a".toList false := by
  rintro ⟨b, hb, -⟩
  have hcrash : deserted.mayAccess "user".toList "/tmp/a".toList false = .error .nullPointer := by
    decide
  rw [hcrash] at hb
  exact absurd hb (by simp)

end Host
end Incron.UserTable
