import Incron.Daemon.Disposal
import Incron.Daemon.Fitting

/-! The first entry of a path wins: what is in `m_map` after `Load`, when the kernel answers by
the path and the mask alone. -/
namespace Incron.Daemon
open Hoare FirstFit

variable {κ : Type}

/-- In these kernel states `inotify_add_watch` answers as the oracle says, and the calls of
`Load` do not leave them. -/
structure Answers [System κ] (fd : ℕ) (oracle : Str → Mask → Except ℕ ℕ) (K : κ → Prop) :
    Prop where
  answer : ∀ {k} path mask, K k → (System.addWatch k fd path mask).2 = oracle path mask
  addWatch : ∀ {k} path mask, K k → K (System.addWatch k fd path mask).1
  mayAccess : ∀ {k} user path b, K k → K (System.mayAccess k user path b).1
  readFile : ∀ {k} path, K k → K (System.readFile k path).1
  popen : ∀ {k} cmd, K k → K (System.popen k cmd).1

/-- `Load` is about to be called: for the first time, or after `Dispose` in a state that the
daemon has reached. -/
inductive BeforeLoad [System κ] (t : UserTable) (fd : ℕ) : DaemonState κ → Prop
  | first {s : DaemonState κ} (h : Fresh fd s) : BeforeLoad t fd s
  | again {s₀ s₁ s : DaemonState κ} (k : κ) (hs₀ : Started t fd s₀) (hs₁ : Reached t fd s₀ s₁)
      (hs : dispose s₁ = .ok () s) : BeforeLoad t fd { s with kernel := k }

def Earlier (l : List ℕ) (a b : ℕ) : Prop := ∃ before after, l = before ++ b :: after ∧ a ∈ before

section
variable (s : DaemonState κ) (oracle : Str → Mask → Except ℕ ℕ)

/-- The kernel accepts an entry: it gives it a descriptor that no watch of an earlier entry
with another path has. -/
def Accepted (pE : ℕ) : Prop :=
  pE ∈ plainTab s ∧ ∃ wd, oracle (pathOf s pE) (s.entryHeap.cell pE).mask = .ok wd ∧
    ∀ pE' p, Earlier (plainTab s) pE' pE → s.map.lookup p = some pE' →
      (s.watchHeap.cell p).wd = some wd → pathOf s pE' = pathOf s pE

/-- The only watch of the path is bound to the first entry that the kernel accepts for it. -/
def FirstBound (path : Str) : Prop :=
  ∃ p pE, s.map.lookup p = some pE ∧ Accepted s oracle pE ∧ pathOf s pE = path ∧
    (∀ pE', Earlier (plainTab s) pE' pE → pathOf s pE' = path → ¬ Accepted s oracle pE') ∧
    ∀ q ∈ s.map, (s.watchHeap.cell q).path = path ↔ q = p

/-- A path has its watch exactly if the kernel accepts one of its entries. -/
def FirstWins : Prop :=
  ∀ path, ((∃ pE, Accepted s oracle pE ∧ pathOf s pE = path) → FirstBound s oracle path) ∧
    ((¬ ∃ pE, Accepted s oracle pE ∧ pathOf s pE = path) →
      ∀ q ∈ s.map, (s.watchHeap.cell q).path ≠ path)

end

/-! ## Acceptance and the first fit -/

theorem earlier_iff {before after : List ℕ} {a b : ℕ} (hl : (before ++ b :: after).Nodup) :
    Earlier (before ++ b :: after) a b ↔ a ∈ before := by
  constructor
  · rintro ⟨before', after', heq, ha⟩
    have hnot : b ∉ before ∧ b ∉ after := by
      obtain ⟨-, hcons, hdisjoint⟩ := List.nodup_append.mp hl
      exact ⟨fun hb => hdisjoint b hb b (by simp) rfl, (List.nodup_cons.mp hcons).1⟩
    obtain ⟨rfl, -⟩ := (List.append_cons_inj_of_notMem hnot.1 hnot.2).mp heq
    exact ha
  · exact fun ha => ⟨before, after, rfl, ha⟩

section
variable {s : DaemonState κ} {oracle : Str → Mask → Except ℕ ℕ}

abbrev offered (s : DaemonState κ) (oracle : Str → Mask → Except ℕ ℕ) : ℕ → Option ℕ :=
  offerOf s fun path mask => (oracle path mask).toOption

/-- The bound entries are those that the first fit admits, and their watches have the
descriptors of the oracle. -/
structure Fits (s : DaemonState κ) (oracle : Str → Mask → Except ℕ ℕ) : Prop where
  nodup : (plainTab s).Nodup
  given : ∀ pE, (∃ wd, (pE, wd) ∈ firstFit (pathOf s) (offered s oracle) (plainTab s)) ↔
    ∃ p, s.map.lookup p = some pE
  wd : ∀ p pE, s.map.lookup p = some pE → (s.watchHeap.cell p).wd = offered s oracle pE
  path : ∀ p pE, s.map.lookup p = some pE → (s.watchHeap.cell p).path = pathOf s pE
  only : ∀ p ∈ s.map, ∀ q ∈ s.map, (s.watchHeap.cell p).path = (s.watchHeap.cell q).path → p = q

theorem toOption_eq_some {path : Str} {mask : Mask} {wd : ℕ} :
    (oracle path mask).toOption = some wd ↔ oracle path mask = .ok wd := by
  cases oracle path mask <;> simp [Except.toOption]

/-- The first fit and `m_map` agree about which entries are accepted. -/
theorem Fits.accepts_iff (h : Fits s oracle) {before after : List ℕ} {pE : ℕ}
    (hl : plainTab s = before ++ pE :: after) :
    Accepts (pathOf s) (offered s oracle) before pE ↔ Accepted s oracle pE := by
  have hnodup := h.nodup
  rw [hl] at hnodup
  have hbefore : ∀ x, x ∈ firstFit (pathOf s) (offered s oracle) before ↔
      x ∈ firstFit (pathOf s) (offered s oracle) (plainTab s) ∧ x.1 ∈ before := by
    intro x
    rw [hl]
    exact mem_firstFit_append hnodup
  constructor
  · rintro ⟨wd, hoffer, hfree⟩
    refine ⟨by simp [hl], wd, toOption_eq_some.mp hoffer, fun pE' p hearlier hp hwd => ?_⟩
    rw [hl, earlier_iff hnodup] at hearlier
    obtain ⟨wd', hmem⟩ := (h.given pE').mpr ⟨p, hp⟩
    have heq : some wd' = some wd := by
      rw [← offer_of_mem hmem, ← h.wd p pE' hp, hwd]
    exact hfree (pE', wd') ((hbefore _).mpr ⟨hmem, hearlier⟩) (Option.some.inj heq)
  · rintro ⟨-, wd, hok, hfree⟩
    refine ⟨wd, toOption_eq_some.mpr hok, fun x hx hwd => ?_⟩
    obtain ⟨hmem, hearlier⟩ := (hbefore x).mp hx
    obtain ⟨p, hp⟩ := (h.given x.1).mp ⟨x.2, hmem⟩
    refine hfree x.1 p ?_ hp ?_
    · rw [hl, earlier_iff hnodup]
      exact hearlier
    · rw [h.wd p x.1 hp, offer_of_mem hmem, hwd]

/-- A path has an accepted entry exactly if one of its entries is bound. -/
theorem Fits.exists_accepted_iff (h : Fits s oracle) (path : Str) :
    (∃ pE, Accepted s oracle pE ∧ pathOf s pE = path) ↔
      ∃ p pE, s.map.lookup p = some pE ∧ pathOf s pE = path := by
  have hexists : (∃ pE wd, (pE, wd) ∈ firstFit (pathOf s) (offered s oracle) (plainTab s) ∧
      pathOf s pE = path) ↔ ∃ before pE after, plainTab s = before ++ pE :: after ∧
        pathOf s pE = path ∧ Accepts (pathOf s) (offered s oracle) before pE := exists_mem_iff path
  constructor
  · rintro ⟨pE, hacc, hpath⟩
    obtain ⟨before, after, hl⟩ := List.append_of_mem hacc.1
    obtain ⟨pE', wd, hmem, hpath'⟩ :=
      hexists.mpr ⟨before, pE, after, hl, hpath, (h.accepts_iff hl).mpr hacc⟩
    obtain ⟨p, hp⟩ := (h.given pE').mp ⟨wd, hmem⟩
    exact ⟨p, pE', hp, hpath'⟩
  · rintro ⟨p, pE, hp, hpath⟩
    obtain ⟨wd, hmem⟩ := (h.given pE).mpr ⟨p, hp⟩
    obtain ⟨before, pE', after, hl, hpath', hacc⟩ := hexists.mp ⟨pE, wd, hmem, hpath⟩
    exact ⟨pE', (h.accepts_iff hl).mp hacc, hpath'⟩

theorem Fits.firstWins (h : Fits s oracle) : FirstWins s oracle := by
  intro path
  rw [h.exists_accepted_iff path]
  constructor
  · rintro ⟨p, pE, hp, hpath⟩
    obtain ⟨before, after, hl, -, hacc, hno⟩ := mem_iff_first.mp ((h.given pE).mpr ⟨p, hp⟩)
    have hnodup := h.nodup
    rw [hl] at hnodup
    refine ⟨p, pE, hp, (h.accepts_iff hl).mp hacc, hpath, fun pE' hearlier hpath' hacc' => ?_,
      fun q hq => ⟨fun hq' => ?_, fun hq' => ?_⟩⟩
    · rw [hl, earlier_iff hnodup] at hearlier
      obtain ⟨c, d, rfl⟩ := List.append_of_mem hearlier
      have hl' : plainTab s = c ++ pE' :: (d ++ pE :: after) := by
        rw [hl, List.append_assoc, List.cons_append]
      exact hno c pE' d rfl (hpath'.trans hpath.symm) ((h.accepts_iff hl').mpr hacc')
    · have hmem : p ∈ s.map := FinMap.mem_of_lookup hp
      exact h.only q hq p hmem (by rw [hq', h.path p pE hp, hpath])
    · rw [hq', h.path p pE hp, hpath]
  · intro hno q hq hpath
    obtain ⟨pE, hpE⟩ := FinMap.exists_lookup hq
    exact hno ⟨q, pE, hpE, (h.path q pE hpE).symm.trans hpath⟩

end

/-! ## Load -/

section
variable [System κ] {t : UserTable} {fd : ℕ} {s : DaemonState κ}
  {oracle : Str → Mask → Except ℕ ℕ} {K : κ → Prop}

theorem Answers.offers (h : Answers fd oracle K) :
    Offers fd (fun path mask => (oracle path mask).toOption)
      fun k held => K k ∧ ∀ r wd m, held r = some (wd, m) → wd = r := by
  refine ⟨fun user path b hk => ⟨h.mayAccess user path b hk.1, hk.2⟩,
    fun {k held path mask} hk hr => ⟨?_, h.addWatch path mask hk.1, hk.2⟩,
    fun {k held path mask r wd m} hk hr hheld => ?_,
    fun {k held path mask r} hk hr hheld => ?_⟩
  · rw [h.answer path mask hk.1]
    cases ho : oracle path mask with
    | error errno => exact ⟨errno, rfl⟩
    | ok wd =>
      rw [ho] at hr
      exact absurd hr (by simp [Except.toOption])
  · obtain rfl := hk.2 r wd m hheld
    rw [h.answer path mask hk.1]
    refine ⟨toOption_eq_some.mp hr, mask, BitVec.and_self, h.addWatch path mask hk.1,
      fun r' wd' m' hr' => ?_⟩
    rw [Function.update_apply] at hr'
    split_ifs at hr' with heq
    · rw [heq, (Prod.mk.inj (Option.some.inj hr')).1]
    · exact hk.2 r' wd' m' hr'
  · refine ⟨r, ?_, fun r' m hr' => ?_, mask, BitVec.and_self, h.addWatch path mask hk.1,
      fun r' wd' m' hr' => ?_⟩
    · rw [h.answer path mask hk.1]
      exact toOption_eq_some.mp hr
    · obtain rfl := hk.2 r' r m hr'
      rw [hheld] at hr'
      exact absurd hr' (by simp)
    · rw [Function.update_apply] at hr'
      split_ifs at hr' with heq
      · rw [heq, (Prod.mk.inj (Option.some.inj hr')).1]
      · exact hk.2 r' wd' m' hr'

/-- The files and commands that `Load` reads do not leave the kernel states of the oracle. -/
theorem Answers.tableEntries (h : Answers fd oracle K) {k : κ} (hk : K k) (t : UserTable) :
    K (tableEntries t k).1 := by
  have hderived : ∀ rE k, K k → K (derived rE k).1 := by
    intro rE k hk
    unfold derived subDirs
    split_ifs
    · exact hk
    · exact h.popen _ (h.popen _ hk)
    · exact h.popen _ hk
  have hall : ∀ lines k, K k → K (derivedAll lines k).1 := by
    intro lines
    induction lines with
    | nil => exact fun k hk => hk
    | cons rE lines ih => exact fun k hk => ih _ (hderived rE k hk)
  exact hall _ _ (h.readFile _ hk)

theorem BeforeLoad.sound (h : BeforeLoad t fd s) :
    Sound fd s ∧ s.map = ∅ ∧ s.maps.lookup fd = none := by
  cases h with
  | first h => exact ⟨h.sound, h.map, h.maps⟩
  | again k hs₀ hs₁ hs =>
    have hdisposed := ((post_dispose (hs₁.loaded hs₀)).ok hs).2
    exact ⟨hdisposed.sound.kernel k, hdisposed.map, hdisposed.maps⟩

omit [System κ] in
theorem Fitted.fits {s₀ : DaemonState κ}
    (F : Fitted fd (fun path mask => (oracle path mask).toOption)
      (fun k held => K k ∧ ∀ r wd m, held r = some (wd, m) → wd = r) s₀ (plainTab s) s) :
    Fits s oracle := by
  obtain ⟨h, ⟨-, hwd⟩, hheld⟩ := F.kernel
  refine ⟨F.sound.tabNodup.filter _, F.given, fun p pE hp => ?_, fun p pE hp =>
    (F.matched.entry p pE hp).1, fun p hp q hq hpath => ?_⟩
  · have hmem : p ∈ s.map := FinMap.mem_of_lookup hp
    obtain ⟨wd, hactive⟩ := Option.ne_none_iff_exists'.mp (F.matched.active p hmem)
    obtain ⟨r, hr⟩ := (F.given pE).mpr ⟨p, hp⟩
    have hoffer := offer_of_mem hr
    obtain ⟨m, hm⟩ := hheld.watched p pE wd r hp hactive hoffer
    rw [hactive, hwd r wd m hm]
    exact hoffer.symm
  · have hp' := (F.sound.indexed.paths (s.watchHeap.cell p).path p).mpr ⟨hp, rfl⟩
    have hq' := (F.sound.indexed.paths (s.watchHeap.cell q).path q).mpr ⟨hq, rfl⟩
    rw [hpath, hq'] at hp'
    exact (Option.some.inj hp').symm

/-- `Load` makes the entries of the table file and of the answers of `find`, and the watches
are those of the first accepted entries, whatever has been loaded before. -/
theorem load_firstWins (h : BeforeLoad t fd s) (hA : Answers fd oracle K) (hK : K s.kernel) :
    ((∃ s', load t s = .ok () s') ↔ FileLoads t s.kernel) ∧
      ∀ s', load t s = .ok () s' →
        s'.tab.map s'.entryHeap.cell = (tableEntries t s.kernel).2 ∧ FirstWins s' oracle := by
  obtain ⟨hsound, hmap, hmaps⟩ := h.sound
  have hpost := post_load_fitted hA.offers t hsound hmap hmaps
    ⟨hA.tableEntries hK t, fun r wd m hr => absurd hr (by simp)⟩
  constructor
  · rw [← hpost.exists_ok_iff (fun _ _ h => h.1) fun _ _ h => h]
    exact ⟨fun ⟨s', hs'⟩ => ⟨(), s', hs'⟩, fun ⟨_, s', hs'⟩ => ⟨s', hs'⟩⟩
  · intro s' hs'
    obtain ⟨-, s₁, s₂, F, htab, rfl⟩ := hpost.ok hs'
    have hfits : Fits (registered t fd s₂) oracle := by
      have hfits := F.fits
      exact ⟨hfits.nodup, hfits.given, hfits.wd, hfits.path, hfits.only⟩
    exact ⟨htab, hfits.firstWins⟩

end

/-! ## Two paths with one descriptor -/

structure LengthSystem where
  file : Str

def byLength (path : Str) (_ : Mask) : Except ℕ ℕ := .ok path.length

instance : System LengthSystem where
  addWatch k _ path mask := (k, byLength path mask)
  hasWatch _ _ _ := true
  rmWatch k _ _ := k
  readEvents k _ := (k, .ok [])
  mayAccess k _ _ _ := (k, true)
  readFile k _ := (k, some k.file)
  popen k _ := (k, some [])
  fork k := (k, true)
  order l := l
  order_perm l := List.Perm.refl l

theorem answers_byLength : Answers (κ := LengthSystem) 3 byLength fun _ => True :=
  ⟨fun _ _ _ => rfl, fun _ _ _ => trivial, fun _ _ _ _ => trivial, fun _ _ => trivial,
    fun _ _ => trivial⟩

/-- A table that has been constructed, with three lines for two paths of one length. -/
def threeLines : DaemonState LengthSystem where
  kernel := { file := "/a 256 first\n/b 256 refused\n/a 2 second\n".toList }
  watchHeap := default
  entryHeap := default
  nodeHeap := default
  inotify := { this := 0, fd := some 3, watches := ∅, paths := ∅, events := [] }
  tab := []
  map := ∅
  maps := ∅
  faults := []

theorem load_firstWins_threeLines : ∃ s', load systemTable threeLines = .ok () s' ∧
    s'.tab.map s'.entryHeap.cell = (tableEntries systemTable threeLines.kernel).2 ∧
      FirstWins s' byLength := by
  have hfresh : Fresh 3 threeLines :=
    ⟨rfl, rfl, rfl, rfl, rfl, rfl, rfl, rfl, rfl, Heap.Valid.default, rfl⟩
  have hfile : FileLoads systemTable threeLines.kernel := by
    intro content hcontent
    obtain rfl := Option.some.inj hcontent
    decide +kernel
  obtain ⟨hloads, hwins⟩ :=
    load_firstWins (t := systemTable) (.first hfresh) answers_byLength trivial
  obtain ⟨s', hs'⟩ := hloads.mpr hfile
  exact ⟨s', hs', hwins s' hs'⟩

end Incron.Daemon
