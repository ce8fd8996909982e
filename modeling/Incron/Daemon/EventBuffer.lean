import Incron.Daemon.Instances

/-! The read buffer of `WaitForEvents`: the records of the kernel as bytes, the walk over them,
and what it makes of the event queue. -/
namespace Incron

abbrev Byte := BitVec 8

def inotifyEventSize : ℕ := 16

def inotifyBuflen : ℕ := 1024 * (inotifyEventSize + 16)

/-! ## Words in memory -/

/-- A 32-bit value in memory, in the byte order of the machine. -/
def wordBytes (bigEndian : Bool) (v : BitVec 32) : List Byte :=
  let n := v.toNat
  let bytes := [BitVec.ofNat 8 n, BitVec.ofNat 8 (n / 0x100), BitVec.ofNat 8 (n / 0x10000),
    BitVec.ofNat 8 (n / 0x1000000)]
  if bigEndian then bytes.reverse else bytes

def ofWordBytes (bigEndian : Bool) (bytes : List Byte) : BitVec 32 :=
  let bytes := if bigEndian then bytes.reverse else bytes
  BitVec.ofNat 32 (bytes.foldr (fun b n => b.toNat + 0x100 * n) 0)

@[simp] theorem length_wordBytes (bigEndian : Bool) (v : BitVec 32) :
    (wordBytes bigEndian v).length = 4 := by
  cases bigEndian <;> rfl

@[simp] theorem ofWordBytes_wordBytes (bigEndian : Bool) (v : BitVec 32) :
    ofWordBytes bigEndian (wordBytes bigEndian v) = v := by
  have hlt := v.isLt
  apply BitVec.eq_of_toNat_eq
  cases bigEndian <;>
  · simp [ofWordBytes, wordBytes]
    omega

/-! ## Records -/

/-- A record of the kernel: `struct inotify_event` and the name behind it, which is filled up
with NUL bytes; without a name there may be none. -/
structure KernelEvent where
  wd : BitVec 32
  mask : Mask
  cookie : BitVec 32
  name : List Byte
  padding : ℕ
  name_ne_zero : 0 ∉ name
  padded : padding = 0 → name = []

namespace KernelEvent

def len (e : KernelEvent) : ℕ := e.name.length + e.padding

def encode (bigEndian : Bool) (e : KernelEvent) : List Byte :=
  wordBytes bigEndian e.wd ++ wordBytes bigEndian e.mask ++ wordBytes bigEndian e.cookie ++
    wordBytes bigEndian (BitVec.ofNat 32 e.len) ++ (e.name ++ List.replicate e.padding 0)

end KernelEvent

/-- A descriptor as it is looked up: -1 is none. -/
def descriptor (wd : BitVec 32) : Option ℕ := if wd = -1 then none else some wd.toNat

def text (bytes : List Byte) : Str := bytes.map fun b => Char.ofNat b.toNat

def KernelEvent.raw (e : KernelEvent) : RawEvent where
  wd := descriptor e.wd
  mask := e.mask
  cookie := e.cookie
  name := text e.name

/-! ## The walk over the buffer -/

/-- A word of the buffer, `none` when it is not inside. -/
def wordAt (bigEndian : Bool) (buf : List Byte) (i : ℕ) : Option (BitVec 32) :=
  if i + 4 ≤ buf.length then some (ofWordBytes bigEndian ((buf.drop i).take 4)) else none

/-- A C string of the buffer, `none` when it does not end inside. -/
def stringAt (buf : List Byte) (i : ℕ) : Option (List Byte) :=
  if 0 ∈ buf.drop i then some ((buf.drop i).takeWhile (· ≠ 0)) else none

/-- `pEvt->len > 0 ? pEvt->name : ""`. -/
def nameAt (buf : List Byte) (i len : ℕ) : Option (List Byte) :=
  if 0 < len then stringAt buf i else some []

/-- The fields of the record at `i` and its `len`, by `InotifyEvent(pEvt, pW)`. -/
def eventAt (bigEndian : Bool) (buf : List Byte) (i : ℕ) : Option (RawEvent × ℕ) := do
  let wd ← wordAt bigEndian buf i
  let mask ← wordAt bigEndian buf (i + 4)
  let cookie ← wordAt bigEndian buf (i + 8)
  let len ← wordAt bigEndian buf (i + 12)
  let name ← nameAt buf (i + inotifyEventSize) len.toNat
  return ({ wd := descriptor wd, mask := mask, cookie := cookie, name := text name }, len.toNat)

namespace Daemon
open Hoare

variable {κ : Type}

/-- The loop of `WaitForEvents` over the `buf.length` bytes that have been read: the final
offset, `none` when it reads beyond them or does not end within the fuel. -/
def bufferLoop (bigEndian : Bool) (buf : List Byte) : ℕ → ℕ → Daemon κ (Option ℕ)
  | 0, _ => return none
  | fuel + 1, i => do
    if i < buf.length then
      match eventAt bigEndian buf i with
      | none => return none
      | some (evt, len) =>
        queueEvent evt
        bufferLoop bigEndian buf fuel (i + (inotifyEventSize + len))
    else return some i

end Daemon

/-! ## One record -/

section
variable (bigEndian : Bool)

theorem KernelEvent.length_encode (e : KernelEvent) :
    (e.encode bigEndian).length = inotifyEventSize + e.len := by
  simp only [encode, List.length_append, length_wordBytes, List.length_replicate, len,
    inotifyEventSize]

private theorem wordAt_append (pre post : List Byte) (v : BitVec 32) {i : ℕ}
    (hi : i = pre.length) :
    wordAt bigEndian (pre ++ (wordBytes bigEndian v ++ post)) i = some v := by
  subst hi
  rw [wordAt, if_pos (by simp), List.drop_left,
    List.take_left' (length_wordBytes bigEndian v), ofWordBytes_wordBytes]

private theorem stringAt_append (pre name post : List Byte) (hname : 0 ∉ name) {i : ℕ}
    (hi : i = pre.length) : stringAt (pre ++ (name ++ 0 :: post)) i = some name := by
  subst hi
  have hall : ∀ b ∈ name, (decide (b ≠ 0)) = true := by
    intro b hb
    simpa using fun h : b = 0 => hname (h ▸ hb)
  rw [stringAt, List.drop_left, if_pos (by simp), List.takeWhile_append_of_pos hall]
  simp

/-- The record at the end of `pre` is read as it has been written. -/
theorem eventAt_encode (e : KernelEvent) (pre post : List Byte) (hlen : e.len < 0x100000000) :
    eventAt bigEndian (pre ++ (e.encode bigEndian ++ post)) pre.length = some (e.raw, e.len) := by
  have hlenNat : (BitVec.ofNat 32 e.len).toNat = e.len := by
    rw [BitVec.toNat_ofNat]
    exact Nat.mod_eq_of_lt hlen
  let word := wordBytes bigEndian
  let names := e.name ++ (List.replicate e.padding 0 ++ post)
  have hwd := wordAt_append bigEndian pre
    (word e.mask ++ (word e.cookie ++ (word (BitVec.ofNat 32 e.len) ++ names))) e.wd rfl
  have hmask := wordAt_append bigEndian (pre ++ word e.wd)
    (word e.cookie ++ (word (BitVec.ofNat 32 e.len) ++ names)) e.mask (i := pre.length + 4)
    (by simp [word])
  have hcookie := wordAt_append bigEndian (pre ++ (word e.wd ++ word e.mask))
    (word (BitVec.ofNat 32 e.len) ++ names) e.cookie (i := pre.length + 8) (by simp [word])
  have hword := wordAt_append bigEndian (pre ++ (word e.wd ++ (word e.mask ++ word e.cookie)))
    names (BitVec.ofNat 32 e.len) (i := pre.length + 12) (by simp [word])
  have hname : nameAt (pre ++ (e.encode bigEndian ++ post)) (pre.length + inotifyEventSize)
      e.len = some e.name := by
    rcases Nat.eq_zero_or_pos e.padding with hpad | hpad
    · have hnil := e.padded hpad
      have hzero : ¬ 0 < e.len := by simp [KernelEvent.len, hnil, hpad]
      rw [nameAt, if_neg hzero, hnil]
    · obtain ⟨k, hk⟩ := Nat.exists_eq_add_one.mpr hpad
      have hpos : 0 < e.len := by
        unfold KernelEvent.len
        omega
      have h := stringAt_append
        (pre ++ (word e.wd ++ (word e.mask ++ (word e.cookie ++ word (BitVec.ofNat 32 e.len)))))
        e.name (List.replicate k 0 ++ post) e.name_ne_zero (i := pre.length + inotifyEventSize)
        (by simp [word, inotifyEventSize])
      rw [nameAt, if_pos hpos]
      simpa [KernelEvent.encode, hk, List.replicate_succ, word] using h
  simp only [word, names, List.append_assoc] at hwd hmask hcookie hword
  simp only [KernelEvent.encode, List.append_assoc] at hname ⊢
  simp only [eventAt, hwd, hmask, hcookie, hword, Option.bind_eq_bind, Option.bind_some, hlenNat,
    hname]
  rfl

end

/-! ## All records -/

def encodeAll (bigEndian : Bool) (evts : List KernelEvent) : List Byte :=
  evts.flatMap (KernelEvent.encode bigEndian)

namespace Daemon
open Hoare

variable {κ : Type} (bigEndian : Bool)

private theorem bufferLoop_append (pre : List Byte) (evts : List KernelEvent)
    (hlen : (encodeAll bigEndian evts).length ≤ inotifyBuflen) {fuel : ℕ}
    (hfuel : evts.length ≤ fuel) :
    bufferLoop (κ := κ) bigEndian (pre ++ encodeAll bigEndian evts) (fuel + 1) pre.length = do
      (evts.map KernelEvent.raw).forM queueEvent
      return some (pre ++ encodeAll bigEndian evts).length := by
  induction evts generalizing pre fuel with
  | nil => simp [bufferLoop, encodeAll]
  | cons e evts ih =>
    obtain ⟨fuel, rfl⟩ := Nat.exists_eq_add_one.mpr (Nat.zero_lt_of_lt hfuel)
    have hsplit : encodeAll bigEndian (e :: evts) =
        e.encode bigEndian ++ encodeAll bigEndian evts := rfl
    have hsize := e.length_encode bigEndian
    rw [hsplit, List.length_append, hsize] at hlen
    have hsmall : e.len < 0x100000000 := by
      have hle : e.len ≤ inotifyBuflen := by omega
      exact Nat.lt_of_le_of_lt hle (by decide)
    have hread := eventAt_encode bigEndian e pre (encodeAll bigEndian evts) hsmall
    have hlt : pre.length < (pre ++ (e.encode bigEndian ++ encodeAll bigEndian evts)).length := by
      simp only [List.length_append, hsize, inotifyEventSize]
      omega
    have hnext : pre.length + (inotifyEventSize + e.len) =
        (pre ++ e.encode bigEndian).length := by
      rw [List.length_append, hsize]
    have hrec := ih (pre ++ e.encode bigEndian) (by omega) (Nat.le_of_succ_le_succ hfuel)
    rw [← hnext, List.append_assoc] at hrec
    rw [hsplit, bufferLoop, if_pos hlt, hread, List.map_cons, List.forM, bind_assoc]
    simp only [hrec]

/-- From every state that is reached, the walk over the records ends behind the last one, reads
nothing else, and queues in order the events of the watches that are still tracked; the calls
of `GetEvent` give the queue in this order. -/
theorem bufferLoop_encodeAll [System κ] {w₀ w : Instances κ} (hw₀ : Constructed w₀)
    {ops : List (Operation κ)} (hrun : Transition.run operate w₀ ops = some w) (a : ℕ)
    (evts : List KernelEvent) (hlen : (encodeAll bigEndian evts).length ≤ inotifyBuflen)
    {fuel : ℕ} (hfuel : evts.length < fuel) :
    ∃ s, bufferLoop bigEndian (encodeAll bigEndian evts) fuel 0 (w.state a) =
        .ok (some (encodeAll bigEndian evts).length) s ∧
      s.inotify.events = (w.inotify a).events ++
        kept (masks w.watchHeap) (w.inotify a).watches (evts.map KernelEvent.raw) ∧
      s.inotify.watches =
        (evts.map KernelEvent.raw).foldl (trackedAfter (masks w.watchHeap)) (w.inotify a).watches ∧
      ∀ n, ∃ s', getEvents n s = .ok ((List.range n).map fun i => s.inotify.events[i]?) s' ∧
        s'.inotify.events = s.inotify.events.drop n := by
  obtain ⟨l, H, -⟩ := (consistent_of_run hw₀ hrun).indexed a
  obtain ⟨hloop, -, hevents, hwatches⟩ :=
    forM_queueEvent (s := w.state a) H (evts.map KernelEvent.raw)
  obtain ⟨fuel, rfl⟩ := Nat.exists_eq_add_one.mpr (Nat.zero_lt_of_lt hfuel)
  refine ⟨_, ?_, hevents, hwatches, fun n => ⟨_, getEvents_eq n _, rfl⟩⟩
  have hwalk := bufferLoop_append (κ := κ) bigEndian [] evts hlen (Nat.le_of_lt_succ hfuel)
  simp only [List.nil_append, List.length_nil] at hwalk
  rw [hwalk, bind_eq_ok]
  exact ⟨(), _, hloop, rfl⟩

def fileCreated : KernelEvent where
  wd := 0
  mask := inCreate
  cookie := 7
  name := [97]
  padding := 15
  name_ne_zero := by decide
  padded := by decide

def nameless (wd : BitVec 32) (mask : Mask) : KernelEvent where
  wd := wd
  mask := mask
  cookie := 0
  name := []
  padding := 0
  name_ne_zero := by simp
  padded _ := rfl

/-- Descriptor 1 is that of a one-shot watch, and 9 that of no watch; descriptor 0 is dropped by
`IN_IGNORED`. -/
def mixedRecords : List KernelEvent :=
  [fileCreated, nameless 1 inOpen, nameless 1 inOpen, nameless 9 inOpen, nameless 0 inIgnored,
    fileCreated]

def mixedQueue : List InotifyEvent :=
  [{ mask := inCreate, cookie := 7, name := "a".toList, watch := 0 },
    { mask := inOpen, name := [], watch := 1 }, { mask := inIgnored, name := [], watch := 0 }]

theorem bufferLoop_mixedRecords : ∃ w s, Transition.run operate twoObjects
      [.newWatch "/d".toList inCreate true, .add 0 0,
        .newWatch "/f".toList (inOpen ||| inOneshot) true, .add 0 1] = some w ∧
    bufferLoop false (encodeAll false mixedRecords) 7 0 (w.state 0) = .ok (some 128) s ∧
    s.inotify.events = mixedQueue ∧
    ∃ s', getEvents 3 s = .ok (mixedQueue.map some) s' ∧ s'.inotify.events = [] := by
  obtain ⟨w, hw⟩ : ∃ w, Transition.run operate twoObjects
      [.newWatch "/d".toList inCreate true, .add 0 0,
        .newWatch "/f".toList (inOpen ||| inOneshot) true, .add 0 1] = some w :=
    Option.isSome_iff_exists.mp (by decide +kernel)
  have hqueue : (Transition.run operate twoObjects
      [.newWatch "/d".toList inCreate true, .add 0 0,
        .newWatch "/f".toList (inOpen ||| inOneshot) true, .add 0 1]).map (fun w =>
      (w.inotify 0).events ++ kept (masks w.watchHeap) (w.inotify 0).watches
        (mixedRecords.map KernelEvent.raw)) = some mixedQueue := by decide +kernel
  rw [hw] at hqueue
  have hlen : (encodeAll false mixedRecords).length = 128 := by decide +kernel
  obtain ⟨s, hs, hevents, -, hget⟩ := bufferLoop_encodeAll false
    ⟨fun _ => rfl, fun _ => rfl, fun _ => rfl, rfl⟩ hw 0 mixedRecords
    (by rw [hlen]; decide) (Nat.lt_succ_self 6)
  rw [hlen] at hs
  have hevents := hevents.trans (Option.some.inj hqueue)
  obtain ⟨s', hs', hrest⟩ := hget 3
  rw [hevents] at hs' hrest
  exact ⟨w, s, hw, hs, hevents, s', hs', hrest⟩

end Daemon

end Incron
