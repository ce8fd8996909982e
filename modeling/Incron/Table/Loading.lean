import Incron.Table.MaskField

/-! Loading a table file: what the entries of a file look like, and how much of the file
they take up. Paths survive `GetSafePath` and a second parsing. -/
namespace Incron

namespace StringTokenizer

theorem stripPrefix_cons_of_ne {p c : Char} (h : c ≠ p) (s : Str) :
    stripPrefix p (c :: s) = c :: stripPrefix p s := by
  cases s <;> simp [stripPrefix, h]

theorem stripPrefix_of_not_mem {p : Char} {s : Str} (h : p ∉ s) : stripPrefix p s = s := by
  induction s with
  | nil => rfl
  | cons c s ih =>
    simp only [List.mem_cons, not_or] at h
    rw [stripPrefix_cons_of_ne (Ne.symm h.1), ih h.2]

end StringTokenizer

namespace IncronTabEntry
open StringTokenizer

/-! ## Paths through `GetSafePath` and back -/

@[simp] theorem getSafePath_nil : getSafePath [] = [] := rfl

theorem getSafePath_cons (c : Char) (p : Str) :
    getSafePath (c :: p) =
      (if c = ' ' then ['\\', ' '] else if c = '\\' then ['\\', '\\'] else [c]) ++
        getSafePath p := rfl

theorem stripPrefix_getSafePath (p : Str) : stripPrefix '\\' (getSafePath p) = p := by
  induction p with
  | nil => rfl
  | cons c p ih =>
    rw [getSafePath_cons]
    split_ifs with h1 h2
    · subst h1
      change stripPrefix '\\' ('\\' :: ' ' :: getSafePath p) = _
      rw [stripPrefix, if_pos rfl, if_neg (by decide), stripPrefix_cons_of_ne (by decide), ih]
    · subst h2
      change stripPrefix '\\' ('\\' :: '\\' :: getSafePath p) = _
      rw [stripPrefix, if_pos rfl, if_pos rfl, ih]
    · rw [List.singleton_append, stripPrefix_cons_of_ne h2, ih]

theorem mem_getSafePath {c : Char} {p : Str} (h : c ∈ getSafePath p) : c = '\\' ∨ c ∈ p := by
  induction p with
  | nil => exact absurd h (by simp)
  | cons d p ih =>
    rw [getSafePath_cons, List.mem_append] at h
    rcases h with h | h
    · have : c = '\\' ∨ c = d := by
        split_ifs at h <;> simp_all
      exact this.imp id fun h => by simp [h]
    · exact (ih h).imp id fun h => List.mem_cons_of_mem _ h

/-- Reading a field and writing it again does not make it longer. -/
theorem length_getSafePath_stripPrefix_le (raw : Str) (h : ∀ c ∈ raw, isBlank c = false) :
    (getSafePath (stripPrefix '\\' raw)).length ≤ raw.length := by
  induction raw using stripPrefix.induct '\\' with
  | case1 => simp [stripPrefix]
  | case2 => simp [stripPrefix]
  | case3 c hc =>
    have hb : c ≠ ' ' := by
      rintro rfl
      simp [isBlank] at h
    simp [stripPrefix, hc, getSafePath_cons, hb]
  | case4 s ih =>
    have := ih fun c hc => h c (by simp [hc])
    simp [stripPrefix, getSafePath_cons]
    omega
  | case5 d s hd ih =>
    have := ih fun c hc => h c (List.mem_cons_of_mem _ hc)
    simp only [stripPrefix, if_true, if_neg hd, List.length_cons] at this ⊢
    omega
  | case6 c d s hc ih =>
    have hb : c ≠ ' ' := by
      rintro rfl
      exact absurd (h ' ' (by simp)) (by decide)
    have := ih fun c hc => h c (List.mem_cons_of_mem _ hc)
    simp only [stripPrefix, if_neg hc, getSafePath_cons, if_neg hb, List.length_append,
      List.length_cons, List.length_nil] at this ⊢
    omega

/-! ## Entries of a file -/

/-- What `Parse` guarantees about the entry of a line buffer. -/
structure FromLine (s : Str) (e : IncronTabEntry) : Prop where
  path_ne_nil : e.path ≠ []
  path : ∀ c ∈ e.path, c ∈ s ∧ c ≠ '\n' ∧ isBlank c = false
  cmd : ∀ c ∈ e.cmd, c ∈ s ∧ c ≠ '\n'
  /-- Both fields and the three separating characters fit into the line. -/
  length : (getSafePath e.path).length + e.cmd.length + 3 ≤ s.length

theorem chomp_sublist (s : Str) : (chomp s).Sublist s := by
  unfold chomp
  split_ifs
  · exact List.dropLast_sublist s
  · exact List.Sublist.refl s

private theorem mem_chomp {c : Char} {s : Str} (hs : '\n' ∉ s.dropLast) (h : c ∈ chomp s) :
    c ∈ s ∧ c ≠ '\n' := by
  unfold chomp at h
  split_ifs at h with hl
  · exact ⟨(List.dropLast_sublist s).subset h, fun hc => hs (hc ▸ h)⟩
  · refine ⟨h, ?_⟩
    rintro rfl
    have hne : s ≠ [] := List.ne_nil_of_mem h
    rw [← List.dropLast_append_getLast hne, List.mem_append, List.mem_singleton] at h
    rcases h with h | h
    · exact hs h
    · exact hl (by rw [List.getLast?_eq_getLast_of_ne_nil hne, ← h])

theorem fromLine_of_parse {s : Str} {e : IncronTabEntry} (hs : '\n' ∉ s.dropLast)
    (h : parse s = .ok (some e)) : FromLine s e := by
  obtain ⟨-, k, hk, rfl, rfl⟩ := parse_some h
  obtain ⟨hpath, hcmd⟩ := parseMask_path (stripPrefix '\\' k.raw₂)
    { path := stripPrefix '\\' k.raw₁, cmd := chomp k.rest }
  have hrest : '\n' ∉ k.rest.dropLast := by
    have : k.line.dropLast = k.skip₁ ++ k.raw₁ ++ k.b₁ :: (k.skip₂ ++ k.raw₂ ++ k.b₂ ::
        k.rest.dropLast) := by
      simp [LineCut.line, List.dropLast_append_of_ne_nil, List.dropLast_cons_of_ne_nil, hk.rest]
    rw [this] at hs
    simp only [List.mem_append, List.mem_cons, not_or] at hs
    exact hs.2.2.2.2
  have hraw : ∀ c ∈ k.raw₁, c ≠ '\n' := by
    rintro c hc rfl
    have : k.line.dropLast = k.skip₁ ++ k.raw₁ ++ (k.b₁ :: (k.skip₂ ++ k.raw₂ ++ k.b₂ ::
        k.rest)).dropLast := by
      simp [LineCut.line, List.dropLast_append_of_ne_nil]
    rw [this] at hs
    exact hs (by simp [hc])
  refine ⟨?_, ?_, ?_, ?_⟩
  · rw [LineCut.entry, hpath]
    exact hk.path
  · rw [LineCut.entry, hpath]
    intro c hc
    have hc' := mem_of_mem_stripPrefix hc
    exact ⟨by simp [LineCut.line, hc'], hraw c hc', hk.raw₁ c hc'⟩
  · rw [LineCut.entry, hcmd]
    intro c hc
    obtain ⟨hc', hne⟩ := mem_chomp hrest hc
    exact ⟨by simp [LineCut.line, hc'], hne⟩
  · rw [LineCut.entry, hpath, hcmd]
    have h1 := length_getSafePath_stripPrefix_le k.raw₁ hk.raw₁
    have h2 : k.raw₂ ≠ [] := fun h0 => hk.mask (by rw [h0]; rfl)
    have h3 := (chomp_sublist k.rest).length_le
    have h4 := List.length_pos_iff.mpr h2
    simp only [LineCut.line, List.length_append, List.length_cons]
    omega

def accepted (s : Str) : Option IncronTabEntry :=
  match parse s with
  | .ok e => e
  | .error _ => none

theorem accepted_eq_some {s : Str} {e : IncronTabEntry} :
    accepted s = some e ↔ parse s = .ok (some e) := by
  unfold accepted
  split <;> simp_all

end IncronTabEntry

namespace IncronTab
open IncronTabEntry

def entriesOf (f : Str) : List IncronTabEntry := (Stdio.readAll 1000 f).filterMap accepted

private theorem parse_ne_error {s : Str} (hs : s ≠ []) (err : OutOfRange) :
    parse s ≠ .error err := by
  cases s with
  | nil => exact absurd rfl hs
  | cons c s =>
    unfold parse
    simp only
    split_ifs <;> simp

private theorem loadLoop_eq (l : List Str) (tab : List IncronTabEntry)
    (hl : ∀ s ∈ l, s ≠ [] ∧ '\x00' ∉ s) :
    loadLoop l tab = .ok (tab ++ l.filterMap accepted) := by
  induction l generalizing tab with
  | nil => simp [loadLoop]
  | cons s l ih =>
    obtain ⟨hne, hnul⟩ := hl s (by simp)
    have ih := fun tab => ih tab fun s hs => hl s (by simp [hs])
    rw [loadLoop, Stdio.cString_of_not_mem hnul, List.filterMap_cons]
    cases hp : parse s with
    | error err => exact absurd hp (parse_ne_error hne err)
    | ok o =>
      cases o with
      | none => simp [ih, accepted, hp]
      | some e => simp [ih, accepted, hp]

/-- `Parse` throws for the empty string alone. -/
private theorem exists_loadLoop_iff (l : List Str) (tab : List IncronTabEntry) :
    (∃ r, loadLoop l tab = .ok r) ↔ ∀ s ∈ l, Stdio.cString s ≠ [] := by
  induction l generalizing tab with
  | nil => simp [loadLoop]
  | cons s l ih =>
    rw [List.forall_mem_cons, loadLoop]
    by_cases hs : Stdio.cString s = []
    · rw [hs]
      simp [parse]
    · cases hp : parse (Stdio.cString s) with
      | error err => exact absurd hp (parse_ne_error hs err)
      | ok o =>
        cases o with
        | none => simp [ih, hs]
        | some e => simp [ih, hs]

/-- A table file can be loaded unless one of its lines starts with a NUL byte. -/
theorem exists_load_iff (file : Option Str) :
    (∃ r, load file = .ok r) ↔
      ∀ content, file = some content → ∀ s ∈ Stdio.readAll 1000 content, s.head? ≠ some '\x00' := by
  cases file with
  | none => simp [load]
  | some content =>
    have hload : (∃ r, load (some content) = .ok r) ↔
        ∃ r, loadLoop (Stdio.readAll 1000 content) [] = .ok r := by
      rw [load]
      cases loadLoop (Stdio.readAll 1000 content) [] <;> simp [Except.map]
    rw [hload, exists_loadLoop_iff]
    have hline : ∀ s ∈ Stdio.readAll 1000 content,
        (Stdio.cString s ≠ [] ↔ s.head? ≠ some '\x00') := by
      intro s hs
      have hne := (Stdio.readAll_isBuffer 1000 (by decide) content s hs).ne_nil
      cases s with
      | nil => exact absurd rfl hne
      | cons c s => by_cases hc : c = '\x00' <;> simp [Stdio.cString, hc]
    constructor
    · rintro h _ hcontent s hs
      obtain rfl := Option.some.inj hcontent
      exact (hline s hs).mp (h s hs)
    · intro h s hs
      exact (hline s hs).mpr (h content rfl s hs)

theorem load_eq {content : Str} (h : '\x00' ∉ content) :
    load (some content) = .ok (true, entriesOf content) := by
  rw [load, loadLoop_eq]
  · rfl
  · intro s hs
    have hbuf := Stdio.readAll_isBuffer 1000 (by decide) content s hs
    exact ⟨hbuf.ne_nil, fun hnul => h (hbuf.subset _ hnul)⟩

theorem fromLine_of_mem {f : Str} {e : IncronTabEntry} (h : e ∈ entriesOf f) :
    ∃ s, FromLine s e ∧ ∀ c ∈ s, c ∈ f := by
  obtain ⟨s, hs, he⟩ := List.mem_filterMap.mp h
  have hbuf := Stdio.readAll_isBuffer 1000 (by decide) f s hs
  exact ⟨s, fromLine_of_parse hbuf.newline (accepted_eq_some.mp he), hbuf.subset⟩

/-! ## Weights

The path as it is written and the command of an entry, counted together. -/

def weight (e : IncronTabEntry) : ℕ := (getSafePath e.path).length + e.cmd.length

def totalWeight (l : List IncronTabEntry) : ℕ := (l.map weight).sum

@[simp] theorem totalWeight_nil : totalWeight [] = 0 := rfl

@[simp] theorem totalWeight_cons (e : IncronTabEntry) (l : List IncronTabEntry) :
    totalWeight (e :: l) = weight e + totalWeight l := by
  simp [totalWeight]

@[simp] theorem totalWeight_append (l l' : List IncronTabEntry) :
    totalWeight (l ++ l') = totalWeight l + totalWeight l' := by
  simp [totalWeight]

theorem entriesOf_eq (f : Str) (hf : f ≠ []) :
    entriesOf f = (accepted (Stdio.split 999 f).1).toList ++ entriesOf (Stdio.split 999 f).2 := by
  rw [entriesOf, Stdio.readAll_eq 1000 (by decide) f hf, List.filterMap_cons]
  cases accepted (Stdio.split (1000 - 1) f).1 <;> rfl

/-- The entries of a file and their separating characters fit into the file. -/
theorem totalWeight_entriesOf (f : Str) :
    entriesOf f = [] ∨ totalWeight (entriesOf f) + 3 ≤ f.length := by
  induction f using Stdio.readAll_induction (show 2 ≤ 1000 by decide) with
  | nil => exact Or.inl rfl
  | step f hf ih =>
    have hlen := congrArg List.length (Stdio.split_append 999 f)
    rw [List.length_append] at hlen
    rw [entriesOf_eq f hf]
    simp only [show 1000 - 1 = 999 from rfl] at ih
    cases he : accepted (Stdio.split 999 f).1 with
    | none =>
      rcases ih with h | h
      · exact Or.inl (by simp [h])
      · exact Or.inr (by simp; omega)
    | some e =>
      have hline := (fromLine_of_parse (Stdio.newline_not_mem_dropLast 999 f)
        (accepted_eq_some.mp he)).length
      right
      rcases ih with h | h
      · simp only [h, Option.toList_some, totalWeight_append, totalWeight_cons, totalWeight_nil,
          weight]
        omega
      · simp only [Option.toList_some, totalWeight_append, totalWeight_cons, totalWeight_nil,
          weight]
        omega

end IncronTab
end Incron
