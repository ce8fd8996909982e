import Incron.Daemon.ProcessTree
import Incron.Lib.Credentials
import Incron.Lib.FinMap
import Mathlib.Tactic.IntervalCases

/-! `UserTable::RunAsUser` with the credentials and the environment of the child: which process a
user's command is run in. -/
namespace Incron.Daemon
open Credentials

/-- What a child has when it calls `execlp`. -/
structure Identity where
  cred : Credentials
  env : FinMap Str Str

/-- The user database, the groups that `initgroups` finds for a user and a further group, and
which calls fail although the process may make them. -/
structure RunCalls where
  getpwnam : Str → Option Passwd
  groupsOf : Str → ℕ → List ℕ
  fails : List Call → Bool
  clearenvFails : Bool
  setenvFails : Str → Bool
  execlpFails : Bool

/-- The calls up to `setuid`. -/
def RunCalls.calls (sys : RunCalls) (user : Str) (pwd : Passwd) : List Call :=
  [.setgid pwd.gid, .setgroups (sys.groupsOf user pwd.gid), .setuid pwd.uid]

/-- One `setenv` after the other, `none` when one of them fails. -/
def RunCalls.setAll (sys : RunCalls) : List (Str × Str) → FinMap Str Str → Option (FinMap Str Str)
  | [], env => some env
  | v :: vs, env => if sys.setenvFails v.1 then none else sys.setAll vs (env.insert v.1 v.2)

/-- The environment of the command, `none` when it cannot be made. -/
def RunCalls.makeEnv (sys : RunCalls) (pwd : Passwd) (env : FinMap Str Str) :
    Option (FinMap Str Str) :=
  if pwd.uid ≠ 0 then
    if sys.clearenvFails then none else sys.setAll (environment pwd) ∅
  else some env

/-- `RunAsUser`: how the child ends, and its identity then. -/
def RunCalls.runAsUser (sys : RunCalls) (user cmd : Str) (x : Identity) : Ended × Identity :=
  match sys.getpwnam user with
  | none => (.exit 1, x)
  | some pwd =>
    match attempt sys.fails [] (sys.calls user pwd) x.cred with
    | (false, cred) => (.exit 1, { x with cred := cred })
    | (true, cred) =>
      match sys.makeEnv pwd x.env with
      | none => (.exit 1, { x with cred := cred })
      | some env =>
        if sys.execlpFails then (.exit 1, ⟨cred, env⟩)
        else (.exec bash [bash, "-c".toList, cmd], ⟨cred, env⟩)

/-! ## The environment -/

section
variable {sys : RunCalls} {pwd : Passwd} {env env' : FinMap Str Str}

private theorem setAll_eq_some {vs : List (Str × Str)} :
    sys.setAll vs env = some env' ↔ (∀ v ∈ vs, sys.setenvFails v.1 = false) ∧
      env' = vs.foldl (fun env v => env.insert v.1 v.2) env := by
  induction vs generalizing env with
  | nil =>
    rw [RunCalls.setAll, Option.some.injEq]
    exact ⟨fun h => ⟨by simp, h.symm⟩, fun h => h.2.symm⟩
  | cons v vs ih =>
    rw [RunCalls.setAll]
    by_cases hv : sys.setenvFails v.1 = true
    · simp [hv]
    · rw [if_neg hv, ih]
      simp [hv]

private theorem setAll_eq_none {vs : List (Str × Str)} :
    sys.setAll vs env = none ↔ ∃ v ∈ vs, sys.setenvFails v.1 = true := by
  induction vs generalizing env with
  | nil => simp [RunCalls.setAll]
  | cons v vs ih =>
    rw [RunCalls.setAll]
    by_cases hv : sys.setenvFails v.1 = true
    · simp [hv]
    · rw [if_neg hv, ih]
      simp [hv]

theorem makeEnv_eq_none : sys.makeEnv pwd env = none ↔ pwd.uid ≠ 0 ∧
    (sys.clearenvFails = true ∨ ∃ v ∈ environment pwd, sys.setenvFails v.1 = true) := by
  rw [RunCalls.makeEnv]
  split_ifs with huid hclear
  · exact ⟨fun _ => ⟨huid, .inl hclear⟩, fun _ => rfl⟩
  · rw [setAll_eq_none]
    exact ⟨fun h => ⟨huid, .inr h⟩, fun h => h.2.resolve_left hclear⟩
  · exact ⟨fun h => by simp at h, fun h => absurd h.1 huid⟩

private theorem lookup_foldl_insert (vs : List (Str × Str)) (hvs : (vs.map Prod.fst).Nodup)
    (env : FinMap Str Str) (k : Str) :
    (vs.foldl (fun env v => env.insert v.1 v.2) env).lookup k =
      (vs.lookup k).or (env.lookup k) := by
  induction vs generalizing env with
  | nil => simp
  | cons v vs ih =>
    rw [List.map_cons, List.nodup_cons] at hvs
    rw [List.foldl_cons, ih hvs.2, FinMap.lookup_insert, List.lookup_cons]
    by_cases hk : k = v.1
    · subst hk
      have hnone : vs.lookup v.1 = none := by
        rw [List.lookup_eq_none_iff]
        rintro w hw
        rw [bne_iff_ne]
        rintro heq
        exact hvs.1 (List.mem_map.mpr ⟨w, hw, heq.symm⟩)
      simp [hnone]
    · simp [hk, beq_eq_false_iff_ne.mpr hk]

theorem lookup_makeEnv (h : sys.makeEnv pwd env = some env') (huid : pwd.uid ≠ 0) (k : Str) :
    env'.lookup k = (environment pwd).lookup k := by
  rw [RunCalls.makeEnv, if_pos huid] at h
  split_ifs at h
  obtain ⟨-, rfl⟩ := setAll_eq_some.mp h
  rw [lookup_foldl_insert _ (by simp only [environment, List.map]; decide), AList.lookup_empty,
    Option.or_none]

theorem makeEnv_root (h : sys.makeEnv pwd env = some env') (huid : pwd.uid = 0) : env' = env := by
  rw [RunCalls.makeEnv, if_neg (not_not.mpr huid)] at h
  exact (Option.some.inj h).symm

end

/-! ## The process of the command -/

/-- The process in which bash runs the command of a user: all ids and groups are those of the
user, whatever they were; and who is not root has a clean environment and can never become
anybody else. -/
structure IsUser (sys : RunCalls) (user : Str) (pwd : Passwd) (x y : Identity) : Prop where
  cred : y.cred = ⟨.fixed pwd.uid, .fixed pwd.gid, sys.groupsOf user pwd.gid⟩
  inherited : pwd.uid = 0 → y.env = x.env
  environment : pwd.uid ≠ 0 → ∀ k, y.env.lookup k = (Daemon.environment pwd).lookup k
  confined : pwd.uid ≠ 0 → ∀ ks, y.cred.after ks = y.cred

structure RunCalls.Works (sys : RunCalls) (user : Str) (pwd : Passwd) (x : Identity) : Prop where
  found : sys.getpwnam user = some pwd
  privileged : x.cred.Privileged
  ids : ∀ n < 3, sys.fails ((sys.calls user pwd).take (n + 1)) = false
  env : (sys.makeEnv pwd x.env).isSome = true
  execlp : sys.execlpFails = false

section
variable {sys : RunCalls} {user cmd : Str} {pwd : Passwd} {x : Identity}

private theorem attempt_calls {cred : Credentials} :
    attempt sys.fails [] (sys.calls user pwd) x.cred = (true, cred) ↔
      x.cred.Privileged ∧ (∀ n < 3, sys.fails ((sys.calls user pwd).take (n + 1)) = false) ∧
        cred = ⟨.fixed pwd.uid, .fixed pwd.gid, sys.groupsOf user pwd.gid⟩ := by
  rw [RunCalls.calls, attempt_become]
  constructor
  · rintro ⟨hpriv, h₁, h₂, h₃, rfl⟩
    refine ⟨hpriv, fun n hn => ?_, rfl⟩
    interval_cases n
    · exact h₁
    · exact h₂
    · exact h₃
  · rintro ⟨hpriv, hfails, rfl⟩
    exact ⟨hpriv, hfails 0 (by decide), hfails 1 (by decide), hfails 2 (by decide), rfl⟩

/-- If nothing is in the way, bash runs the command in a process of the user. -/
private theorem runAsUser_of_works (h : sys.Works user pwd x) :
    ∃ y, sys.runAsUser user cmd x = (.exec bash [bash, "-c".toList, cmd], y) ∧
      IsUser sys user pwd x y := by
  obtain ⟨env, henv⟩ := Option.isSome_iff_exists.mp h.env
  refine ⟨⟨⟨.fixed pwd.uid, .fixed pwd.gid, sys.groupsOf user pwd.gid⟩, env⟩, ?_, rfl,
    makeEnv_root henv, lookup_makeEnv henv, fun huid => ?_⟩
  · rw [RunCalls.runAsUser, h.found]
    simp only [attempt_calls.mpr ⟨h.privileged, h.ids, rfl⟩, henv, h.execlp]
    rfl
  · exact Confined.after_eq ⟨huid, rfl, rfl⟩

/-- A child whose user's command is run without the rights of that user does not exist: bash is
started exactly if the user is known, the daemon is privileged and every call works, and then
with the ids, the groups and the environment of the user, who cannot get back the daemon's. In
all other cases the child exits with status 1. -/
theorem runAsUser_runs_as_user (sys : RunCalls) (user cmd : Str) (x : Identity) :
    (∃ pwd, sys.Works user pwd x ∧ ∃ y,
        sys.runAsUser user cmd x = (.exec bash [bash, "-c".toList, cmd], y) ∧
          IsUser sys user pwd x y) ∨
      (∀ pwd, ¬ sys.Works user pwd x) ∧ (sys.runAsUser user cmd x).1 = .exit 1 := by
  by_cases h : ∃ pwd, sys.Works user pwd x
  · obtain ⟨pwd, h⟩ := h
    exact .inl ⟨pwd, h, runAsUser_of_works h⟩
  · have hnot : ∀ pwd, ¬ sys.Works user pwd x := fun pwd hpwd => h ⟨pwd, hpwd⟩
    refine .inr ⟨hnot, ?_⟩
    rw [RunCalls.runAsUser]
    cases hpwd : sys.getpwnam user with
    | none => rfl
    | some pwd =>
      simp only
      cases hids : attempt sys.fails [] (sys.calls user pwd) x.cred with
      | mk ok cred =>
        cases ok with
        | false => rfl
        | true =>
          obtain ⟨hpriv, hfails, -⟩ := attempt_calls.mp hids
          cases henv : sys.makeEnv pwd x.env with
          | none => rfl
          | some env =>
            cases hexec : sys.execlpFails with
            | true => rfl
            | false => exact absurd ⟨hpwd, hpriv, hfails, by rw [henv]; rfl, hexec⟩ (hnot pwd)

end

/-! ## Agreement with the results of the calls -/

def RunCalls.results (sys : RunCalls) (user : Str) (pwd : Passwd) (x : Identity)
    (system : Str → ℤ) : ChildCalls where
  system := system
  getpwnam := sys.getpwnam
  setgid g := if (attempt sys.fails [] [.setgid g] x.cred).1 then 0 else -1
  initgroups name g :=
    if (attempt sys.fails [] [.setgid g, .setgroups (sys.groupsOf name g)] x.cred).1 then 0 else -1
  setuid u := if (attempt sys.fails []
    [.setgid pwd.gid, .setgroups (sys.groupsOf user pwd.gid), .setuid u] x.cred).1 then 0 else -1
  clearenv := if sys.clearenvFails then -1 else 0
  setenv name _ := if sys.setenvFails name then -1 else 0
  execlp _ _ := !sys.execlpFails

private theorem status_ne_zero {b : Bool} : (if b then (0 : ℤ) else -1) ≠ 0 ↔ b = false := by
  cases b <;> simp

private theorem status_ne_zero' {b : Bool} : (if b then (-1 : ℤ) else 0) ≠ 0 ↔ b = true := by
  cases b <;> simp

/-- The child of the process tree ends as this one does. -/
theorem runAsUser_results (sys : RunCalls) (t : UserTable) (cmd : Str) (x : Identity)
    (system : Str → ℤ) {pwd : Passwd} (hpwd : ∀ p ∈ sys.getpwnam t.user, p = pwd) :
    runAsUser t (sys.results t.user pwd x system) cmd =
      .error (sys.runAsUser t.user cmd x).1 := by
  rw [runAsUser, RunCalls.runAsUser]
  simp only [RunCalls.results, status_ne_zero, status_ne_zero']
  cases hfound : sys.getpwnam t.user with
  | none => rfl
  | some p =>
    obtain rfl := hpwd p hfound
    simp only
    cases hids : attempt sys.fails [] (sys.calls t.user p) x.cred with
    | mk ok cred =>
      have hok : (attempt sys.fails [] (sys.calls t.user p) x.cred).1 = ok := by rw [hids]
      cases ok with
      | false =>
        rw [if_pos (.inr (.inr hok))]
        rfl
      | true =>
        have h₁ : (attempt sys.fails [] [.setgid p.gid] x.cred).1 = true :=
          attempt_of_append hok
        have h₂ : (attempt sys.fails []
            [.setgid p.gid, .setgroups (sys.groupsOf t.user p.gid)] x.cred).1 = true :=
          attempt_of_append hok
        rw [RunCalls.calls] at hok
        rw [if_neg (by simp [h₁, h₂, hok])]
        cases hmade : sys.makeEnv p x.env with
        | none =>
          rw [if_pos (makeEnv_eq_none.mp hmade)]
          rfl
        | some env =>
          rw [if_neg (by rw [← @makeEnv_eq_none sys p x.env, hmade]; simp)]
          by_cases hexec : sys.execlpFails = true
          · simp [hexec, failed]
          · simp [hexec]

end Incron.Daemon
