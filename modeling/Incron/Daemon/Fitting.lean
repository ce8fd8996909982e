import Incron.Daemon.Entries
import Incron.Lib.FirstFit

/-! The second loop of `Load`: the entries that get a watch are those that a first fit admits,
with the resources that the kernel offers for them. -/
namespace Incron.Daemon
open Hoare FirstFit

variable {κ ρ : Type} [DecidableEq ρ]

/-! ## Entries and what the kernel offers for them -/

section
variable (s : DaemonState κ) (offer : Str → Mask → Option ρ)

def pathOf (pE : ℕ) : Str := (s.entryHeap.cell pE).path

def offerOf (pE : ℕ) : Option ρ := offer (s.entryHeap.cell pE).path (s.entryHeap.cell pE).mask

/-- The entries without a wildcard, in the order of the table. -/
def plainTab : List ℕ := s.tab.filter fun pE => '*' ∉ pathOf s pE

end

def Covers (m mask : Mask) : Prop := mask &&& m = mask

/-- How the kernel answers while a table is loaded, for the kernel states `K`: `h` tells with
which descriptor and mask a resource is watched. A refused call changes no watch, a resource
that is watched keeps its descriptor, and another one gets a new descriptor; the resource is
then watched with the bits of the new mask. -/
structure Offers [System κ] (fd : ℕ) (offer : Str → Mask → Option ρ)
    (K : κ → (ρ → Option (ℕ × Mask)) → Prop) : Prop where
  access : ∀ {k h} user path b, K k h → K (System.mayAccess k user path b).1 h
  refused : ∀ {k h path mask}, K k h → offer path mask = none →
    (∃ errno, (System.addWatch k fd path mask).2 = .error errno) ∧
      K (System.addWatch k fd path mask).1 h
  again : ∀ {k h path mask r wd m}, K k h → offer path mask = some r → h r = some (wd, m) →
    (System.addWatch k fd path mask).2 = .ok wd ∧ ∃ m', Covers m' mask ∧
      K (System.addWatch k fd path mask).1 (Function.update h r (some (wd, m')))
  fresh : ∀ {k h path mask r}, K k h → offer path mask = some r → h r = none →
    ∃ wd, (System.addWatch k fd path mask).2 = .ok wd ∧ (∀ r' m, h r' ≠ some (wd, m)) ∧
      ∃ m', Covers m' mask ∧
        K (System.addWatch k fd path mask).1 (Function.update h r (some (wd, m')))

/-- The keys of `m_map` are active watches of the path and the mask of their entries. -/
structure Matched (s : DaemonState κ) : Prop where
  entry : ∀ p pE, s.map.lookup p = some pE → (s.watchHeap.cell p).path = pathOf s pE ∧
    (s.watchHeap.cell p).mask = (s.entryHeap.cell pE).mask
  active : ∀ p ∈ s.map, (s.watchHeap.cell p).wd ≠ none

/-- The kernel watches the resources of the entries in `m_map`, and no others. -/
structure Held (offer : Str → Mask → Option ρ) (s : DaemonState κ)
    (h : ρ → Option (ℕ × Mask)) : Prop where
  owner : ∀ r wd m, h r = some (wd, m) → ∃ p pE, s.map.lookup p = some pE ∧
    (s.watchHeap.cell p).wd = some wd ∧ Covers m (s.watchHeap.cell p).mask ∧
      offerOf s offer pE = some r
  watched : ∀ p pE wd r, s.map.lookup p = some pE → (s.watchHeap.cell p).wd = some wd →
    offerOf s offer pE = some r → ∃ m, h r = some (wd, m)

/-- The second loop of `Load` has started in `s₀` and has come through the entries `l`. -/
structure Fitted (fd : ℕ) (offer : Str → Mask → Option ρ)
    (K : κ → (ρ → Option (ℕ × Mask)) → Prop) (s₀ : DaemonState κ) (l : List ℕ)
    (s : DaemonState κ) : Prop where
  progress : Progress fd s₀ s
  entryHeap : s.entryHeap = s₀.entryHeap
  tab : s.tab = s₀.tab
  matched : Matched s
  kernel : ∃ h, K s.kernel h ∧ Held offer s h
  given : ∀ pE, (∃ r, (pE, r) ∈ firstFit (pathOf s) (offerOf s offer) l) ↔
    ∃ p, s.map.lookup p = some pE

section
variable [System κ] {fd : ℕ} {s : DaemonState κ}

def droppedWatch (s : DaemonState κ) (w : InotifyWatch) (k : κ) : DaemonState κ :=
  { s with kernel := k, watchHeap := (s.watchHeap.alloc w).free s.watchHeap.next }

def boundWatch (s : DaemonState κ) (w : InotifyWatch) (pE wd : ℕ) (k : κ) : DaemonState κ :=
  { added { s with watchHeap := s.watchHeap.alloc w } s.watchHeap.next wd k with
    map := s.map.insertNew s.watchHeap.next pE }

section
variable (w : InotifyWatch) (pE wd : ℕ) (k : κ)

omit [System κ]

theorem droppedWatch_cell (h : Sound fd s) {p : ℕ} (hp : p ∈ s.map) :
    (droppedWatch s w k).watchHeap.cell p = s.watchHeap.cell p := by
  rw [droppedWatch, Heap.free_cell, Heap.alloc_cell, if_neg (h.ne_next hp)]

theorem boundWatch_cell_next : (boundWatch s w pE wd k).watchHeap.cell s.watchHeap.next =
    { w with wd := some wd, pInotify := some s.inotify.this } := by
  simp only [boundWatch, added, Heap.set_cell_self, Heap.alloc_cell, if_true]

theorem boundWatch_cell (h : Sound fd s) {p : ℕ} (hp : p ∈ s.map) :
    (boundWatch s w pE wd k).watchHeap.cell p = s.watchHeap.cell p := by
  have hne := h.ne_next hp
  simp only [boundWatch, added, Heap.set_cell_of_ne _ hne, Heap.alloc_cell, if_neg hne]

theorem boundWatch_lookup (h : Sound fd s) (p : ℕ) : (boundWatch s w pE wd k).map.lookup p =
    if p = s.watchHeap.next then some pE else s.map.lookup p :=
  FinMap.lookup_insertNew_of_none (AList.lookup_eq_none.mpr h.next_not_mem) p pE

variable {w pE}

theorem Matched.of_empty (h : s.map = ∅) : Matched s := by
  constructor
  · intro p pE hp
    rw [h] at hp
    exact absurd hp (by simp)
  · intro p hp
    rw [h] at hp
    exact absurd hp (AList.notMem_empty p)

theorem Matched.dropped (hM : Matched s) (h : Sound fd s) : Matched (droppedWatch s w k) := by
  constructor
  · intro p pE hp
    rw [droppedWatch_cell w k h (FinMap.mem_of_lookup hp)]
    exact hM.entry p pE hp
  · intro p hp
    rw [droppedWatch_cell w k h hp]
    exact hM.active p hp

theorem Matched.bound (hM : Matched s) (h : Sound fd s) (hpath : w.path = pathOf s pE)
    (hmask : w.mask = (s.entryHeap.cell pE).mask) : Matched (boundWatch s w pE wd k) := by
  constructor
  · intro p pE' hp
    rw [boundWatch_lookup w pE wd k h] at hp
    split_ifs at hp with hnext
    · obtain rfl := Option.some.inj hp
      rw [hnext, boundWatch_cell_next]
      exact ⟨hpath, hmask⟩
    · rw [boundWatch_cell w pE wd k h (FinMap.mem_of_lookup hp)]
      exact hM.entry p pE' hp
  · intro p hp
    rcases FinMap.mem_insertNew.mp hp with rfl | hp
    · rw [boundWatch_cell_next]
      simp
    · rw [boundWatch_cell w pE wd k h hp]
      exact hM.active p hp

end

/-- The four ways through `AddTabEntry`: the new watch is added, its path is watched already,
the kernel refuses it, or its descriptor is tracked already. -/
theorem post_addTabEntry_cases (t : UserTable) (h : Sound fd s) {pE : ℕ} (hpE : pE ∈ s.tab) :
    let e := s.entryHeap.cell pE
    let w : InotifyWatch := { path := e.path, mask := e.mask }
    let k := (mayAccess t e.path e.mask s.kernel).1
    let answer := System.addWatch k fd e.path e.mask
    Post (addTabEntry t pE) s
      (fun _ s' => Progress fd s s' ∧
        ((s.inotify.paths.lookup e.path = none ∧ ∃ wd, answer.2 = .ok wd ∧
            s.inotify.watches.lookup wd = none ∧ s' = boundWatch s w pE wd answer.1) ∨
          (∃ q, s.inotify.paths.lookup e.path = some q) ∧ s' = droppedWatch s w k ∨
          (∃ errno, answer.2 = .error errno) ∧ s' = droppedWatch s w answer.1 ∨
          ∃ wd q, answer.2 = .ok wd ∧ s.inotify.watches.lookup wd = some q ∧
            s' = droppedWatch s w (System.addWatch answer.1 fd (s.watchHeap.cell q).path
              (s.watchHeap.cell q).mask).1))
      fun _ _ => False := by
  intro e w k answer
  unfold addTabEntry newWatch
  simp only [post_bind, post_entryAt, h.tab pE hpE, touch_live, post_modifyGet, post_call]
  have hnew : s.watchHeap.next ∉ s.map.keys := h.next_not_mem
  have hindexed := h.indexed_alloc w
  have hlive : (s.watchHeap.alloc w).live s.watchHeap.next = true := by simp [Heap.alloc_live]
  have henabled : ((s.watchHeap.alloc w).cell s.watchHeap.next).enabled = true := by
    simp [Heap.alloc_cell, w]
  have hcell : (s.watchHeap.alloc w).cell s.watchHeap.next = w := by simp [Heap.alloc_cell]
  let s₁ : DaemonState κ := { s with kernel := k, watchHeap := s.watchHeap.alloc w }
  have hadd := post_add_cases (s := s₁) h.opened hindexed hlive henabled
  simp only [s₁, hcell] at hadd
  simp only [post_tryCatch, post_bind, post_modify]
  refine Post.mono hadd (fun _ s' h' => ?_) fun exc s' h' => ?_
  · obtain ⟨hpath, wd, hok, hwd, rfl⟩ := h'
    have hindexed' := indexed_added (s := s₁) hindexed hnew hlive henabled hpath hwd
    rw [hcell] at hpath
    exact ⟨h.progress_added hpE (hindexed' _), .inl ⟨hpath, wd, hok, hwd, rfl⟩⟩
  · obtain ⟨⟨msg, errno, rfl⟩, h'⟩ := h'
    rcases h' with ⟨q, hpath, rfl⟩ | ⟨-, errno', herr, rfl⟩ | ⟨-, wd, q, hok, hwd, rfl⟩
    · rw [hcell] at hpath
      exact ⟨h.progress_refused w _, .inr (.inl ⟨⟨q, hpath⟩, rfl⟩)⟩
    · exact ⟨h.progress_refused w _, .inr (.inr (.inl ⟨⟨errno', herr⟩, rfl⟩))⟩
    · have hq : q ≠ s.watchHeap.next := h.ne_next ((h.indexed.watches wd q).mp hwd).1
      refine ⟨h.progress_refused w _, .inr (.inr (.inr ⟨wd, q, hok, hwd, ?_⟩))⟩
      simp only [droppedWatch, Heap.alloc_cell, if_neg hq]
      rfl

/-! ## One entry after the other -/

/-- What an answer of `inotify_add_watch` tells. -/
theorem Offers.answer {offer : Str → Mask → Option ρ}
    {K : κ → (ρ → Option (ℕ × Mask)) → Prop} (O : Offers fd offer K) {k : κ}
    {h : ρ → Option (ℕ × Mask)} (hK : K k h) (path : Str) (mask : Mask) :
    let answer := System.addWatch k fd path mask
    (∀ errno, answer.2 = .error errno → offer path mask = none ∧ K answer.1 h) ∧
      ∀ wd, answer.2 = .ok wd → ∃ r, offer path mask = some r ∧
        ((∃ m, h r = some (wd, m)) ∨ h r = none ∧ ∀ r' m, h r' ≠ some (wd, m)) ∧
          ∃ m, Covers m mask ∧ K answer.1 (Function.update h r (some (wd, m))) := by
  intro answer
  cases hoffer : offer path mask with
  | none =>
    obtain ⟨⟨errno, herr⟩, hK'⟩ := O.refused hK hoffer
    exact ⟨fun _ _ => ⟨rfl, hK'⟩, fun wd hok => absurd (hok.symm.trans herr) (by simp)⟩
  | some r =>
    cases hr : h r with
    | some x =>
      obtain ⟨hok, hrest⟩ := O.again hK hoffer hr
      refine ⟨fun errno herr => absurd (hok.symm.trans herr) (by simp), fun wd hok' => ?_⟩
      obtain rfl := Except.ok.inj (hok.symm.trans hok')
      exact ⟨r, rfl, .inl ⟨x.2, hr⟩, hrest⟩
    | none =>
      obtain ⟨wd, hok, hnew, hrest⟩ := O.fresh hK hoffer hr
      refine ⟨fun errno herr => absurd (hok.symm.trans herr) (by simp), fun wd' hok' => ?_⟩
      obtain rfl := Except.ok.inj (hok.symm.trans hok')
      exact ⟨r, rfl, .inr ⟨hr, hnew⟩, hrest⟩

omit [System κ] in
/-- A watched resource gets another mask, which covers the one of its watch. -/
theorem Held.remasked {offer : Str → Mask → Option ρ} {h : ρ → Option (ℕ × Mask)}
    (hheld : Held offer s h) {r : ρ} {x : ℕ × Mask} {m : Mask} (hr : h r = some x)
    (howner : ∃ p pE, s.map.lookup p = some pE ∧ (s.watchHeap.cell p).wd = some x.1 ∧
      Covers m (s.watchHeap.cell p).mask ∧ offerOf s offer pE = some r) :
    Held offer s (Function.update h r (some (x.1, m))) := by
  constructor
  · intro r' wd m' hr'
    rw [Function.update_apply] at hr'
    split_ifs at hr' with heq
    · obtain ⟨rfl, rfl⟩ := Prod.mk.inj (Option.some.inj hr')
      rw [heq]
      exact howner
    · exact hheld.owner r' wd m' hr'
  · intro p pE wd r' hp hwd hoffer
    obtain ⟨m', hm'⟩ := hheld.watched p pE wd r' hp hwd hoffer
    by_cases heq : r' = r
    · rw [heq] at hm' ⊢
      rw [Function.update_self, Option.some.inj (hr.symm.trans hm')]
      exact ⟨m, rfl⟩
    · exact ⟨m', by rw [Function.update_of_ne heq, hm']⟩

omit [System κ] in
theorem Held.bound {offer : Str → Mask → Option ρ} {h : ρ → Option (ℕ × Mask)}
    (hheld : Held offer s h) (hsound : Sound fd s) {w : InotifyWatch} {pE wd : ℕ} (k : κ) {r : ρ}
    {m : Mask} (hcovers : Covers m w.mask) (hoffer : offerOf s offer pE = some r)
    (hr : h r = none) :
    Held offer (boundWatch s w pE wd k) (Function.update h r (some (wd, m))) := by
  have hself := boundWatch_cell_next (s := s) w pE wd k
  have hlookup := boundWatch_lookup w pE wd k hsound
  have hcell : ∀ {p pE'}, s.map.lookup p = some pE' →
      (boundWatch s w pE wd k).watchHeap.cell p = s.watchHeap.cell p := by
    intro p pE' hp
    exact boundWatch_cell w pE wd k hsound (FinMap.mem_of_lookup hp)
  have hold : ∀ {p pE'}, s.map.lookup p = some pE' → p ≠ s.watchHeap.next := by
    intro p pE' hp
    exact hsound.ne_next (FinMap.mem_of_lookup hp)
  constructor
  · intro r' wd' m' hr'
    rw [Function.update_apply] at hr'
    split_ifs at hr' with heq
    · obtain ⟨rfl, rfl⟩ := Prod.mk.inj (Option.some.inj hr')
      refine ⟨s.watchHeap.next, pE, by rw [hlookup, if_pos rfl], ?_, ?_, heq ▸ hoffer⟩
      · rw [hself]
      · rw [hself]
        exact hcovers
    · obtain ⟨p, pE', hp, hrest⟩ := hheld.owner r' wd' m' hr'
      refine ⟨p, pE', ?_, ?_⟩
      · rw [hlookup, if_neg (hold hp), hp]
      · rw [hcell hp]
        exact hrest
  · intro p pE' wd' r' hp hwd' hoffer'
    rw [hlookup] at hp
    split_ifs at hp with hnext
    · obtain rfl := Option.some.inj hp
      have heq : some r = some r' := hoffer.symm.trans hoffer'
      rw [hnext, hself] at hwd'
      rw [← Option.some.inj heq, Function.update_self, Option.some.inj hwd']
      exact ⟨m, rfl⟩
    · rw [hcell hp] at hwd'
      obtain ⟨m', hm'⟩ := hheld.watched p pE' wd' r' hp hwd' hoffer'
      have hne : r' ≠ r := by
        rintro rfl
        rw [hr] at hm'
        exact absurd hm' (by simp)
      exact ⟨m', by rw [Function.update_of_ne hne, hm']⟩

variable {offer : Str → Mask → Option ρ} {K : κ → (ρ → Option (ℕ × Mask)) → Prop}
  {s₀ : DaemonState κ} {l : List ℕ} {pE : ℕ}

namespace Fitted

omit [System κ] in
theorem sound (F : Fitted fd offer K s₀ l s) : Sound fd s := F.progress.sound

omit [System κ] in
theorem lookup_path (F : Fitted fd offer K s₀ l s) {path : Str} {q : ℕ} :
    s.inotify.paths.lookup path = some q ↔
      ∃ pE', s.map.lookup q = some pE' ∧ pathOf s pE' = path := by
  rw [F.sound.indexed.paths path q]
  constructor
  · rintro ⟨hq, hpath⟩
    obtain ⟨pE', hpE'⟩ := FinMap.exists_lookup hq
    exact ⟨pE', hpE', (F.matched.entry q pE' hpE').1.symm.trans (Option.some.inj hpath)⟩
  · rintro ⟨pE', hpE', hpath⟩
    refine ⟨FinMap.mem_of_lookup hpE', ?_⟩
    simp only [(F.matched.entry q pE' hpE').1, hpath]

omit [System κ] in
theorem path_taken_iff (F : Fitted fd offer K s₀ l s) (path : Str) :
    (∃ x ∈ firstFit (pathOf s) (offerOf s offer) l, pathOf s x.1 = path) ↔
      ∃ q, s.inotify.paths.lookup path = some q := by
  simp only [F.lookup_path]
  constructor
  · rintro ⟨⟨pE', r⟩, hx, hpath⟩
    obtain ⟨p, hp⟩ := (F.given pE').mp ⟨r, hx⟩
    exact ⟨p, pE', hp, hpath⟩
  · rintro ⟨q, pE', hq, hpath⟩
    obtain ⟨r, hr⟩ := (F.given pE').mpr ⟨q, hq⟩
    exact ⟨(pE', r), hr, hpath⟩

omit [System κ] in
theorem resource_taken_iff (F : Fitted fd offer K s₀ l s) {h : ρ → Option (ℕ × Mask)}
    (hheld : Held offer s h) (r : ρ) :
    (∃ x ∈ firstFit (pathOf s) (offerOf s offer) l, x.2 = r) ↔ h r ≠ none := by
  constructor
  · rintro ⟨⟨pE', r'⟩, hx, rfl⟩
    obtain ⟨p, hp⟩ := (F.given pE').mp ⟨_, hx⟩
    have hmem : p ∈ s.map := FinMap.mem_of_lookup hp
    obtain ⟨wd, hwd⟩ := Option.ne_none_iff_exists'.mp (F.matched.active p hmem)
    obtain ⟨m, hm⟩ := hheld.watched p pE' wd r' hp hwd (offer_of_mem hx)
    rw [hm]
    simp
  · intro hne
    obtain ⟨⟨wd, m⟩, hr⟩ := Option.ne_none_iff_exists'.mp hne
    obtain ⟨p, pE', hp, -, -, hoffer⟩ := hheld.owner r wd m hr
    obtain ⟨r', hr'⟩ := (F.given pE').mpr ⟨p, hp⟩
    exact ⟨(pE', r'), hr', Option.some.inj ((offer_of_mem hr').symm.trans hoffer)⟩

omit [System κ] in
theorem tracked (F : Fitted fd offer K s₀ l s) {h : ρ → Option (ℕ × Mask)}
    (hheld : Held offer s h) {r : ρ} {wd : ℕ} {m : Mask} (hr : h r = some (wd, m)) :
    ∃ q pE', s.map.lookup q = some pE' ∧ (s.watchHeap.cell q).wd = some wd ∧
      s.inotify.watches.lookup wd = some q ∧ offerOf s offer pE' = some r := by
  obtain ⟨q, pE', hq, hwd, -, hoffer⟩ := hheld.owner r wd m hr
  have hlook := (F.sound.indexed.watches wd q).mpr ⟨FinMap.mem_of_lookup hq, hwd⟩
  exact ⟨q, pE', hq, hwd, hlook, hoffer⟩

omit [System κ] in
theorem watched (F : Fitted fd offer K s₀ l s) {h : ρ → Option (ℕ × Mask)}
    (hheld : Held offer s h) {wd q : ℕ} (hq : s.inotify.watches.lookup wd = some q) :
    ∃ r m, h r = some (wd, m) := by
  obtain ⟨hmem, hwd⟩ := (F.sound.indexed.watches wd q).mp hq
  obtain ⟨pE', hpE'⟩ := FinMap.exists_lookup hmem
  obtain ⟨r, hr⟩ := (F.given pE').mpr ⟨q, hpE'⟩
  exact ⟨r, hheld.watched q pE' wd r hpE' hwd (offer_of_mem hr)⟩

omit [System κ] in
theorem dropped (F : Fitted fd offer K s₀ l s) {w : InotifyWatch} {k : κ}
    (hprogress : Progress fd s (droppedWatch s w k))
    {h : ρ → Option (ℕ × Mask)} (hK : K k h) (hheld : Held offer s h)
    (hsame : firstFit (pathOf s) (offerOf s offer) (l ++ [pE]) =
      firstFit (pathOf s) (offerOf s offer) l) :
    Fitted fd offer K s₀ (l ++ [pE]) (droppedWatch s w k) := by
  have hcell : ∀ {p pE'}, s.map.lookup p = some pE' →
      (droppedWatch s w k).watchHeap.cell p = s.watchHeap.cell p := by
    intro p pE' hp
    exact droppedWatch_cell w k F.sound (FinMap.mem_of_lookup hp)
  refine ⟨F.progress.trans hprogress, F.entryHeap, F.tab, F.matched.dropped k F.sound,
    ⟨h, hK, fun r wd m hr => ?_, fun p pE' wd r hp hwd hoffer => ?_⟩, fun pE' => ?_⟩
  · obtain ⟨p, pE', hp, hrest⟩ := hheld.owner r wd m hr
    exact ⟨p, pE', hp, by rw [hcell hp]; exact hrest⟩
  · rw [hcell hp] at hwd
    exact hheld.watched p pE' wd r hp hwd hoffer
  · have hgiven := F.given pE'
    rw [← hsame] at hgiven
    exact hgiven

omit [System κ] in
theorem bound (F : Fitted fd offer K s₀ l s) {k : κ} {wd : ℕ} {r : ρ}
    (hprogress : Progress fd s (boundWatch s
      { path := pathOf s pE, mask := (s.entryHeap.cell pE).mask } pE wd k))
    {h : ρ → Option (ℕ × Mask)} (hheld : Held offer s h) {m : Mask}
    (hcovers : Covers m (s.entryHeap.cell pE).mask) (hK : K k (Function.update h r (some (wd, m))))
    (hoffer : offerOf s offer pE = some r) (hr : h r = none)
    (hpath : s.inotify.paths.lookup (pathOf s pE) = none) :
    Fitted fd offer K s₀ (l ++ [pE]) (boundWatch s
      { path := pathOf s pE, mask := (s.entryHeap.cell pE).mask } pE wd k) := by
  let w : InotifyWatch := { path := pathOf s pE, mask := (s.entryHeap.cell pE).mask }
  have hlookup := boundWatch_lookup w pE wd k F.sound
  have hfree : ∀ x ∈ firstFit (pathOf s) (offerOf s offer) l, pathOf s x.1 ≠ pathOf s pE := by
    intro x hx heq
    obtain ⟨q, hq⟩ := (F.path_taken_iff _).mp ⟨x, hx, heq⟩
    rw [hpath] at hq
    exact absurd hq (by simp)
  have hunused : ∀ x ∈ firstFit (pathOf s) (offerOf s offer) l, x.2 ≠ r := by
    intro x hx heq
    exact (F.resource_taken_iff hheld r).mp ⟨x, hx, heq⟩ hr
  refine ⟨F.progress.trans hprogress, F.entryHeap, F.tab, F.matched.bound wd k F.sound rfl rfl,
    ⟨_, hK, hheld.bound F.sound k hcovers hoffer hr⟩, fun pE' => ?_⟩
  have hacc : Accepts (pathOf s) (offerOf s offer) l pE :=
    ⟨r, hoffer, fun x hx heq => absurd heq (hunused x hx)⟩
  have hgiven : (∃ r', (pE', r') ∈ firstFit (pathOf s) (offerOf s offer) (l ++ [pE])) ↔
      (∃ p, s.map.lookup p = some pE') ∨ pE' = pE := by
    rw [mem_firstFit_snoc, F.given pE']
    exact or_congr_right (and_iff_left ⟨hacc, hfree⟩)
  refine hgiven.trans ⟨?_, ?_⟩
  · rintro (⟨p, hp⟩ | rfl)
    · have hold : p ≠ s.watchHeap.next := F.sound.ne_next (FinMap.mem_of_lookup hp)
      exact ⟨p, by rw [hlookup, if_neg hold, hp]⟩
    · exact ⟨s.watchHeap.next, by rw [hlookup, if_pos rfl]⟩
  · rintro ⟨p, hp⟩
    rw [hlookup] at hp
    split_ifs at hp with hnext
    · exact .inr (Option.some.inj hp).symm
    · exact .inl ⟨p, hp⟩

theorem post_addTabEntry (F : Fitted fd offer K s₀ l s) (O : Offers fd offer K) (t : UserTable)
    (hpE : pE ∈ s.tab) :
    Post (addTabEntry t pE) s (fun _ s' => Fitted fd offer K s₀ (l ++ [pE]) s')
      fun _ _ => False := by
  obtain ⟨h, hK, hheld⟩ := F.kernel
  have hK₁ : K (mayAccess t (pathOf s pE) (s.entryHeap.cell pE).mask s.kernel).1 h := by
    unfold mayAccess
    split_ifs
    · exact hK
    · exact O.access _ _ _ hK
  have hanswer := O.answer hK₁ (pathOf s pE) (s.entryHeap.cell pE).mask
  refine (post_addTabEntry_cases t F.sound hpE).imp fun _ s' hs' => ?_
  obtain ⟨hprogress, hcases⟩ := hs'
  rcases hcases with ⟨hpath, wd, hok, hwd, rfl⟩ | ⟨hpath, rfl⟩ | ⟨⟨errno, herr⟩, rfl⟩ |
    ⟨wd, q, hok, hq, rfl⟩
  · obtain ⟨r, hoffer, hr, m, hcovers, hK₂⟩ := hanswer.2 wd hok
    rcases hr with ⟨x, hx⟩ | ⟨hr, -⟩
    · -- a descriptor that is not tracked is a new one
      obtain ⟨q, -, -, -, hq, -⟩ := F.tracked hheld hx
      rw [hwd] at hq
      exact absurd hq (by simp)
    · exact F.bound hprogress hheld hcovers hK₂ hoffer hr hpath
  · exact F.dropped hprogress hK₁ hheld
      (firstFit_append_same (.inl ((F.path_taken_iff _).mpr hpath)))
  · obtain ⟨hoffer, hK₂⟩ := hanswer.1 errno herr
    exact F.dropped hprogress hK₂ hheld (firstFit_append_same (.inr (.inl hoffer)))
  · obtain ⟨r, hoffer, hr, m₁, -, hK₂⟩ := hanswer.2 wd hok
    rcases hr with ⟨m, hr⟩ | ⟨-, hnew⟩
    · -- the second call gives the watch the bits of its own mask again
      obtain ⟨q', pE', hpE', hwd', hq', hoffer'⟩ := F.tracked hheld hr
      obtain rfl := Option.some.inj (hq'.symm.trans hq)
      obtain ⟨hpath', hmask'⟩ := F.matched.entry _ _ hpE'
      have hoffer'' : offer (s.watchHeap.cell q').path (s.watchHeap.cell q').mask = some r := by
        rw [hpath', hmask']
        exact hoffer'
      obtain ⟨-, m₂, hcovers, hK₃⟩ := O.again hK₂ hoffer'' (Function.update_self ..)
      rw [Function.update_idem] at hK₃
      refine F.dropped hprogress hK₃ (hheld.remasked hr ⟨q', pE', hpE', hwd', hcovers, hoffer'⟩)
        (firstFit_append_same (.inr (.inr ?_)))
      obtain ⟨y, hy, hres⟩ := (F.resource_taken_iff hheld r).mpr (by rw [hr]; simp)
      have hfit : offerOf s offer pE = some r := hoffer
      exact ⟨y, hy, by rw [hfit, hres]⟩
    · obtain ⟨r', m, hr'⟩ := F.watched hheld hq
      exact absurd hr' (hnew r' m)

/-- The second loop of `Load`, for the entries without a wildcard. -/
theorem post_addPlainEntries (O : Offers fd offer K) (t : UserTable) (l' : List ℕ)
    (F : Fitted fd offer K s₀ l s) (hl' : ∀ pE ∈ l', pE ∈ s.tab) :
    Post (l'.forM (addPlainEntry t)) s
      (fun _ s' => Fitted fd offer K s₀ (l ++ l'.filter fun pE => '*' ∉ pathOf s pE) s')
      fun _ _ => False := by
  induction l' generalizing s l with
  | nil => simpa using F
  | cons pE l' ih =>
    have hpE := hl' pE (by simp)
    rw [List.forM, post_bind]
    unfold addPlainEntry
    simp only [post_bind, post_entryAt, F.sound.tab pE hpE, touch_live, post_ite, post_pure]
    split_ifs with hwild
    · rw [List.filter_cons_of_neg (by simp [pathOf, hwild])]
      exact ih F fun p hp => hl' p (by simp [hp])
    · refine (F.post_addTabEntry O t hpE).imp fun _ s₁ F₁ => ?_
      have hsame : pathOf s₁ = pathOf s := by
        funext p
        rw [pathOf, pathOf, F₁.entryHeap, F.entryHeap]
      have hrest := ih F₁ fun p hp => by
        rw [F₁.tab, ← F.tab]
        exact hl' p (by simp [hp])
      rw [hsame] at hrest
      rw [List.filter_cons_of_pos (by simp [pathOf, hwild]), ← List.singleton_append,
        ← List.append_assoc]
      exact hrest

end Fitted

/-- `Load` of a disposed table, up to `Register`. -/
theorem post_load_fitted (O : Offers fd offer K) (t : UserTable) (h : Sound fd s)
    (hmap : s.map = ∅) (hmaps : s.maps.lookup fd = none)
    (hK : K (tableEntries t s.kernel).1 fun _ => none) :
    Post (load t) s
      (fun _ s' => FileLoads t s.kernel ∧ ∃ s₁ s₂, Fitted fd offer K s₁ (plainTab s₂) s₂ ∧
        s₂.tab.map s₂.entryHeap.cell = (tableEntries t s.kernel).2 ∧ s' = registered t fd s₂)
      fun _ _ => ¬ FileLoads t s.kernel := by
  rw [load_eq_expandTab]
  simp only [post_bind, post_get]
  refine (post_expandTab h hmap t).imp fun _ s₂ h₂ => ?_
  obtain ⟨hfile, h₂⟩ := h₂
  have F : Fitted fd offer K s₂ [] s₂ := by
    refine ⟨h₂.progress.sound.progress, rfl, rfl, .of_empty h₂.map,
      ⟨_, h₂.kernel ▸ hK, fun r wd m hr => absurd hr (by simp),
        fun p pE wd r hp => ?_⟩, fun pE => ?_⟩
    · rw [h₂.map] at hp
      exact absurd hp (by simp)
    · simp [h₂.map]
  refine (F.post_addPlainEntries O t s₂.tab fun _ hp => hp).imp_of_total fun _ s₃ F₃ => ?_
  change Fitted fd offer K s₂ (plainTab s₂) s₃ at F₃
  have hplain : plainTab s₂ = plainTab s₃ := by
    unfold plainTab pathOf
    rw [F₃.tab, F₃.entryHeap]
  rw [hplain] at F₃
  have htab : s₃.tab.map s₃.entryHeap.cell = (tableEntries t s.kernel).2 := by
    rw [F₃.tab, F₃.entryHeap, h₂.entries]
  have hnone : s₃.maps.lookup fd = none := by
    rw [F₃.progress.grown.maps, h₂.progress.grown.maps]
    exact hmaps
  exact (post_register F₃.sound.opened hnone t).imp_of_total
    fun _ _ h₄ => ⟨hfile, s₂, s₃, F₃, htab, h₄⟩

end

end Incron.Daemon
