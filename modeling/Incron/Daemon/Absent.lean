import Incron.Daemon.Resetting

/-! `Inotify::Remove` of a watch that is not present: it goes by the descriptor and the path of the
watch, which may be those of another one. -/
namespace Incron.Daemon
open Hoare InotifyEvent

section
variable {τ : Type}

def Present (s : DaemonState (TreeKernel τ)) (q : ℕ) : Prop :=
  (∃ path, s.inotify.paths.lookup path = some q) ∨ ∃ wd, s.inotify.watches.lookup wd = some q

instance (s : DaemonState (TreeKernel τ)) (q : ℕ) : Decidable (Present s q) :=
  inferInstanceAs (Decidable (_ ∨ _))

/-- The indexes, the present watches and those of the kernel are as they were. -/
structure Undisturbed (s s' : DaemonState (TreeKernel τ)) : Prop where
  watches : s'.inotify.watches = s.inotify.watches
  paths : s'.inotify.paths = s.inotify.paths
  cells : ∀ q, Present s q → s'.watchHeap.cell q = s.watchHeap.cell q
  marks : ∀ fd, (s'.kernel.groups fd).marks = (s.kernel.groups fd).marks
  byPath : ∀ q, Present s q → s.inotify.paths.lookup (s.watchHeap.cell q).path = some q →
    s'.inotify.paths.lookup (s'.watchHeap.cell q).path = some q
  byWd : ∀ q wd, Present s q → (s.watchHeap.cell q).wd = some wd →
    s.inotify.watches.lookup wd = some q →
      (s'.watchHeap.cell q).wd = some wd ∧ s'.inotify.watches.lookup wd = some q

variable {s s' : DaemonState (TreeKernel τ)} {p fd : ℕ}

theorem Undisturbed.of_same (hwatches : s'.inotify.watches = s.inotify.watches)
    (hpaths : s'.inotify.paths = s.inotify.paths)
    (hcells : ∀ q, Present s q → s'.watchHeap.cell q = s.watchHeap.cell q)
    (hmarks : ∀ fd, (s'.kernel.groups fd).marks = (s.kernel.groups fd).marks) :
    Undisturbed s s' := by
  refine ⟨hwatches, hpaths, hcells, hmarks, fun q hq hlook => ?_, fun q wd hq hwd hlook => ?_⟩
  · rw [hcells q hq, hpaths]
    exact hlook
  · rw [hcells q hq, hwatches]
    exact ⟨hwd, hlook⟩

variable [DirTree τ]

/-- `Remove` disturbs nothing, whether it throws or not. -/
def RemovesNothing (s : DaemonState (TreeKernel τ)) (p : ℕ) : Prop :=
  Post (remove p) s (fun _ s' => Undisturbed s s') fun _ s' => Undisturbed s s'

/-- Neither the indexes nor the kernel have anything for the path or the descriptor. -/
def Unrelated (s : DaemonState (TreeKernel τ)) (fd p : ℕ) : Prop :=
  match (s.watchHeap.cell p).wd with
  | none => s.inotify.paths.lookup (s.watchHeap.cell p).path = none
  | some wd => System.hasWatch s.kernel fd wd = false

/-- A descriptor that the kernel has is removed. -/
theorem rmWatch_marks_ne {k : TreeKernel τ} {wd : ℕ} (h : System.hasWatch k fd wd = true) :
    ((System.rmWatch k fd wd).groups fd).marks ≠ (k.groups fd).marks := by
  have hany : (k.groups fd).marks.any (·.wd = wd) = true := h
  change ((k.setGroup fd ((k.groups fd).rm wd)).groups fd).marks ≠ _
  rw [TreeKernel.setGroup_groups, NotifyGroup.rm, if_pos hany]
  intro heq
  obtain ⟨m, hm, hwd⟩ := List.any_eq_true.mp hany
  have hkept := (List.filter_eq_self.mp heq) m hm
  simp at hwd hkept
  exact hkept hwd

/-- Of the absent watches that are unrelated, those with a descriptor are refused. -/
theorem post_remove_absent (hfd : s.inotify.fd = some fd) (h : ¬ Present s p) :
    Post (remove p) s
      (fun _ s' => (Undisturbed s s' ↔ Unrelated s fd p) ∧
        (Unrelated s fd p → (s.watchHeap.cell p).wd = none))
      (fun _ s' => Undisturbed s s' ∧ Unrelated s fd p ∧ (s.watchHeap.cell p).wd ≠ none) := by
  unfold remove remove.unlink Unrelated
  simp only [post_bind, post_get, hfd, post_watchAt, touch]
  cases hwd : (s.watchHeap.cell p).wd with
  | none =>
    simp only [post_bind, post_modifyInotify, post_modifyWatch]
    refine ⟨?_, fun _ => trivial⟩
    rw [← FinMap.erase_eq_self_iff]
    constructor
    · exact fun h => h.paths
    · intro herase
      refine .of_same rfl herase (fun q hq => ?_) fun _ => rfl
      exact Heap.set_cell_of_ne _ (fun hqp : q = p => h (hqp ▸ hq)) _
  | some wd =>
    simp only [post_bind, post_call, inotifyRmWatch]
    cases hhas : System.hasWatch s.kernel fd wd with
    | false =>
      simp only [Bool.false_eq_true, if_false, post_throw]
      refine ⟨.of_same rfl rfl (fun _ _ => rfl) fun fd' => ?_, trivial, by simp⟩
      rw [rmWatch_absent hhas]
    | true =>
      simp only [if_true, post_bind, post_modifyInotify, post_modifyWatch]
      exact ⟨iff_of_false (fun h => rmWatch_marks_ne hhas (h.marks fd)) (by simp), by simp⟩

/-- `Remove` of an absent watch disturbs nothing exactly if the watch is unrelated to the indexes
and the kernel; it ends without an exception then if the watch has no descriptor. -/
theorem removesNothing_iff (hfd : s.inotify.fd = some fd) (h : ¬ Present s p) :
    (RemovesNothing s p ↔ Unrelated s fd p) ∧
      (Post (remove p) s (fun _ s' => Undisturbed s s') (fun _ _ => False) ↔
        Unrelated s fd p ∧ (s.watchHeap.cell p).wd = none) := by
  have hpost := post_remove_absent hfd h
  unfold RemovesNothing Post
  cases hx : remove p s with
  | ok a s' =>
    obtain ⟨hiff, hnone⟩ := hpost.ok hx
    exact ⟨hiff, hiff.trans ⟨fun hu => ⟨hu, hnone hu⟩, And.left⟩⟩
  | error e s' =>
    obtain ⟨hsame, hunrelated, hsome⟩ := hpost.error hx
    exact ⟨iff_of_true hsame hunrelated, iff_of_false id fun h => hsome h.2⟩

end

/-! ## A watch that has been refused -/

def secondRefused : DaemonState (TreeKernel Links) :=
  behind (add 1) (behind (add 0) (twoWatches [("/a".toList, 0)]
    { path := "/a".toList, mask := inCreate } { path := "/a".toList, mask := inModify }))

theorem removesNothing_refused : (RemovesNothing secondRefused 1 ↔ Unrelated secondRefused 3 1) ∧
    (Post (remove 1) secondRefused (fun _ s' => Undisturbed secondRefused s') (fun _ _ => False) ↔
      Unrelated secondRefused 3 1 ∧ (secondRefused.watchHeap.cell 1).wd = none) :=
  removesNothing_iff (by decide +kernel) (by decide +kernel)

/-- The refused watch takes the path from the index, where the first one is not found any more. -/
theorem not_removesNothing_refused : secondRefused.inotify.fd = some 3 ∧
    ¬ Present secondRefused 1 ∧ ¬ RemovesNothing secondRefused 1 := by
  refine ⟨by decide +kernel, by decide +kernel, fun hnothing => ?_⟩
  have hfound : secondRefused.inotify.paths.lookup "/a".toList = some 0 := by decide +kernel
  have hpost : Post (remove 1) secondRefused
      (fun _ s' => s'.inotify.paths.lookup "/a".toList = none) fun _ _ => False := by
    decide +kernel
  obtain ⟨a, s', hx, hlost⟩ := hpost.exists_ok
  rw [(hnothing.ok hx).paths, hfound] at hlost
  exact absurd hlost (by simp)

end Incron.Daemon
