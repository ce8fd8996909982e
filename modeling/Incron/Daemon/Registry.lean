import Incron.Daemon.Runs

/-! What the operations of one table make of the dispatcher's map and poll array: they change
the registration of the table, and nothing about the other ones. -/
namespace Incron

/-- The array is the one that `Rebuild` makes, apart from what `poll` has reported. -/
structure Poll.Lists (P : Poll) (keys : List ℕ) : Prop where
  size : P.size = keys.length + 2
  fds : P.data.map PollFd.fd =
    P.pipeFd :: P.mgmtFd :: keys.insertionSort (· ≤ ·)

theorem Poll.lists_rebuild (P : Poll) (keys : List ℕ) : (P.rebuild keys).Lists keys := by
  refine ⟨rfl, ?_⟩
  simp only [Poll.rebuild, List.map_cons, List.map_map]
  congr 2
  exact List.map_id _

namespace Daemon
open Hoare

variable {κ : Type}

/-- The map has changed for the descriptor only, and the nodes of other tables are still
there. -/
structure Apart (fd : ℕ) (s s' : DaemonState κ) : Prop where
  lookup : ∀ fd', fd' ≠ fd → s'.maps.lookup fd' = s.maps.lookup fd'
  own : ∀ n, s'.maps.lookup fd = some n → s.maps.lookup fd = some n ∨ s.nodeHeap.next ≤ n
  live : ∀ n < s.nodeHeap.next, s.nodeHeap.live n = true → s.maps.lookup fd ≠ some n →
    s'.nodeHeap.live n = true
  cell : ∀ n < s.nodeHeap.next, s'.nodeHeap.cell n = s.nodeHeap.cell n
  next : s.nodeHeap.next ≤ s'.nodeHeap.next
  pipeFd : s'.poll.pipeFd = s.poll.pipeFd
  mgmtFd : s'.poll.mgmtFd = s.poll.mgmtFd

namespace Apart
variable {fd : ℕ} {s s' s'' : DaemonState κ}

theorem of_same (hmaps : s'.maps = s.maps) (hnodes : s'.nodeHeap = s.nodeHeap)
    (hpoll : s'.poll = s.poll) : Apart fd s s' := by
  refine ⟨fun _ _ => by rw [hmaps], fun n hn => .inl (by rwa [← hmaps]), fun n _ hn _ => ?_,
    fun n _ => by rw [hnodes], by rw [hnodes], by rw [hpoll], by rw [hpoll]⟩
  rwa [hnodes]

theorem trans (h : Apart fd s s') (h' : Apart fd s' s'') : Apart fd s s'' := by
  refine ⟨fun fd' hfd => (h'.lookup fd' hfd).trans (h.lookup fd' hfd), fun n hn => ?_,
    fun n hlt hlive hother => ?_, fun n hlt => ?_, Nat.le_trans h.next h'.next,
    h'.pipeFd.trans h.pipeFd, h'.mgmtFd.trans h.mgmtFd⟩
  · rcases h'.own n hn with hn | hn
    · exact h.own n hn
    · exact .inr (Nat.le_trans h.next hn)
  · have hlt' := Nat.lt_of_lt_of_le hlt h.next
    refine h'.live n hlt' (h.live n hlt hlive hother) fun hn => ?_
    rcases h.own n hn with hn | hn
    · exact hother hn
    · exact absurd hlt (Nat.not_lt_of_le hn)
  · rw [h'.cell n (Nat.lt_of_lt_of_le hlt h.next), h.cell n hlt]

end Apart

/-- The table is registered, and the poll array fits if it has fitted before. -/
structure Stays (t : UserTable) (fd : ℕ) (s s' : DaemonState κ) : Prop where
  loaded : Loaded t fd s'
  apart : Apart fd s s'
  poll : s.poll.Lists s.maps.keys → s'.poll.Lists s'.maps.keys

namespace Stays
variable {t : UserTable} {fd : ℕ} {s s' s'' : DaemonState κ}

theorem length_keys (hs : Stays t fd s s') (h : Loaded t fd s) :
    s'.maps.keys.length = s.maps.keys.length := by
  refine ((List.perm_ext_iff_of_nodup s'.maps.keys_nodup s.maps.keys_nodup).mpr
    fun k => ?_).length_eq
  change k ∈ s'.maps ↔ k ∈ s.maps
  rw [← AList.lookup_isSome, ← AList.lookup_isSome]
  by_cases hk : k = fd
  · obtain ⟨n, hn, -⟩ := h.node
    obtain ⟨n', hn', -⟩ := hs.loaded.node
    rw [hk, hn, hn', Option.isSome_some, Option.isSome_some]
  · rw [hs.apart.lookup k hk]

theorem of_same (h : Loaded t fd s') (hmaps : s'.maps = s.maps)
    (hnodes : s'.nodeHeap = s.nodeHeap) (hpoll : s'.poll = s.poll) : Stays t fd s s' :=
  ⟨h, Apart.of_same hmaps hnodes hpoll, fun hlists => by rwa [hpoll, hmaps]⟩

theorem trans (h : Stays t fd s s') (h' : Stays t fd s' s'') : Stays t fd s s'' :=
  ⟨h'.loaded, h.apart.trans h'.apart, fun hlists => h'.poll (h.poll hlists)⟩

end Stays

section
variable [System κ] {t : UserTable} {fd : ℕ} {s : DaemonState κ}

theorem Disposed.apart {s' : DaemonState κ} (h : Disposed fd s s') :
    Apart fd s s' ∧ s'.poll.Lists s'.maps.keys := by
  refine ⟨⟨fun fd' hfd => ?_, fun n hn => ?_, fun n _ hlive hother => ?_, fun n _ => ?_, ?_,
    ?_, ?_⟩, ?_⟩
  · rw [h.erased, FinMap.lookup_erase, if_neg hfd]
  · rw [h.maps] at hn
    exact absurd hn (by simp)
  · rw [h.nodeKept n hother]
    exact hlive
  · rw [h.nodeCell]
  · rw [h.nodeNext]
  · rw [h.poll]
    rfl
  · rw [h.poll]
    rfl
  · rw [h.poll]
    exact Poll.lists_rebuild _ _

/-- `Load` of a disposed table registers it and nothing else. -/
theorem post_load_apart (h : Sound fd s) (hmap : s.map = ∅) (hmaps : s.maps.lookup fd = none) :
    Post (load t) s
      (fun _ s' => Loaded t fd s' ∧ Apart fd s s' ∧ s'.poll.Lists s'.maps.keys ∧
        s'.inotify.fd = s.inotify.fd)
      fun _ _ => True := by
  refine (post_load h hmap hmaps t).imp_any fun _ s' h' => ?_
  obtain ⟨-, s₁, h₁, rfl⟩ := h'
  have hmaps₁ : s₁.maps = s.maps := h₁.grown.maps
  have hnodes₁ : s₁.nodeHeap = s.nodeHeap := h₁.grown.nodeHeap
  have hpoll₁ : s₁.poll = s.poll := h₁.grown.poll
  have hnone : s₁.maps.lookup fd = none := by rw [hmaps₁, hmaps]
  refine ⟨Loaded.registered h₁.sound hnone, ⟨fun fd' hfd => ?_, fun n hn => ?_,
    fun n hlt hlive _ => ?_, fun n hlt => ?_, ?_, ?_, ?_⟩, Poll.lists_rebuild _ _,
    h₁.grown.fd⟩
  · rw [registered, FinMap.lookup_insertNew_of_none hnone, if_neg hfd, hmaps₁]
  · rw [registered, FinMap.lookup_insertNew_of_none hnone, if_pos rfl] at hn
    obtain rfl := Option.some.inj hn
    exact .inr (by rw [hnodes₁])
  · simp only [registered, hnodes₁, Heap.alloc_live, if_neg (Nat.ne_of_lt hlt), hlive]
  · simp only [registered, hnodes₁, Heap.alloc_cell, if_neg (Nat.ne_of_lt hlt)]
  · simp only [registered, hnodes₁, Heap.alloc_next]
    exact Nat.le_succ _
  · simp only [registered, hpoll₁]
    rfl
  · simp only [registered, hpoll₁]
    rfl

theorem post_reload_stays (h : Loaded t fd s) :
    Post (reload t) s (fun _ s' => Stays t fd s s') fun _ _ => True := by
  unfold reload
  rw [post_bind]
  refine (post_dispose h).imp_any fun _ s₁ h₁ => ?_
  obtain ⟨-, h₁⟩ := h₁
  refine (post_load_apart h₁.sound h₁.map h₁.maps).imp_any fun _ s₂ h₂ => ?_
  exact ⟨h₂.1, h₁.apart.1.trans h₂.2.1, fun _ => h₂.2.2.1⟩

theorem post_onEvent_stays (h : Loaded t fd s) (e : InotifyEvent) :
    Post (onEvent t e) s (fun _ s' => Stays t fd s s') fun _ _ => True := by
  refine (post_onEvent_cases h e).imp_any fun _ s' hs' => ?_
  rcases hs' with ⟨-, hs'⟩ | ⟨-, -, s₁, f, hrun, -, rfl⟩
  · obtain ⟨k, -, rfl⟩ := hs'.state
    exact Stays.of_same (h.kernel k) rfl rfl rfl
  · have h₁ := (post_reload_stays (h.kernel _)).ok hrun
    have hstart : Stays t fd s { s with kernel := (access t s e).1 } :=
      Stays.of_same (h.kernel _) rfl rfl rfl
    have hloaded := (h₁.loaded.faults f).kernel (System.fork s₁.kernel).1
    exact (hstart.trans h₁).trans (Stays.of_same hloaded rfl rfl rfl)

theorem post_round_stays {it : ℕ} (h : Loaded t fd s) (hcell : s.nodeHeap.cell it = t) :
    Post (round it) s (fun _ s' => Stays t fd s s') fun _ _ => True := by
  refine post_round_cases hcell (fun _ => Stays.of_same h rfl rfl rfl) fun e q _ => ?_
  have hpopped : Stays t fd s (popped it q s) := Stays.of_same (h.popped it q) rfl rfl rfl
  exact (post_onEvent_stays (h.popped it q) e).imp_any fun _ _ h' => hpopped.trans h'

/-- The draining loop; its node may have been destroyed, but it keeps its content. -/
theorem post_drain_stays {it : ℕ} (n : ℕ) (h : Loaded t fd s) (hlt : it < s.nodeHeap.next)
    (hcell : s.nodeHeap.cell it = t) :
    Post (drain it n) s (fun _ s' => Stays t fd s s') fun _ _ => True := by
  induction n generalizing s with
  | zero => exact Stays.of_same h rfl rfl rfl
  | succ n ih =>
    unfold drain
    rw [post_bind]
    refine (post_round_stays h hcell).imp_any fun r s₁ h₁ => ?_
    cases r with
    | none => exact h₁
    | some r =>
      have hlt₁ := Nat.lt_of_lt_of_le hlt h₁.apart.next
      have hcell₁ := (h₁.apart.cell it hlt).trans hcell
      simp only [post_bind, post_pure]
      exact (ih h₁.loaded hlt₁ hcell₁).imp_any fun _ _ h₂ => h₁.trans h₂

theorem post_drain_empty {it n : ℕ} (h : Running t fd (s, some it))
    (hn : s.inotify.events.length < n) :
    Post (drain it n) s (fun _ s' => s'.inotify.events = []) fun _ _ => True := by
  induction n generalizing s with
  | zero => exact absurd hn (Nat.not_lt_zero _)
  | succ n ih =>
    unfold drain
    rw [post_bind]
    refine h.post_round.imp_any fun r s₁ h₁ => ?_
    obtain ⟨hrunning, hevents⟩ := h₁
    cases r with
    | none => exact hrunning.idle rfl
    | some r =>
      have hlen : s.inotify.events.length = s₁.inotify.events.length + 1 := by
        rw [hevents]
        simp
      simp only [post_bind, post_pure]
      exact (ih hrunning (by omega)).imp_any fun _ _ h₂ => h₂

theorem post_startEvents_stays (h : Loaded t fd s) :
    Post (startEvents fd) s
      (fun it s' => Stays t fd s s' ∧ ∃ n, it = some n ∧ n < s'.nodeHeap.next ∧
        s'.nodeHeap.cell n = t)
      fun _ _ => True := by
  refine (post_startEvents h).imp_any fun it s' h' => ?_
  obtain ⟨hrunning, n, rfl, -, hw⟩ := h'
  have hpoll : s'.poll = s.poll := by rw [hw.frame]
  obtain ⟨hlt, hcell⟩ := hrunning.node n rfl
  exact ⟨Stays.of_same hrunning.loaded hw.maps hw.nodeHeap hpoll, n, rfl, hlt, hcell⟩

end

end Daemon
end Incron
