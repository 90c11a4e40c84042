import GraphReduction.Proofs.Machine.Contract

/-!
# Raw memory

An address has the number of a block, counted from one, above 32 bits of offset. Blocks are never put
in the place of other blocks, so what a call does can be told from the calls that succeeded before it:
which blocks were allocated and not freed, and what was last stored at an address.
-/

namespace GraphReduction

open List

namespace World

/-- A call on raw memory. -/
inductive MemoryCall where
  | malloc (words : Int64)
  | free (address : UInt64)
  | peek (address : UInt64)
  | poke (address : UInt64) (value : Int64)

/-- What a call that succeeds does to memory. -/
inductive MemoryEvent where
  | allocated (start : UInt64) (size : Nat)
  | freed (start : UInt64)
  | stored (address : UInt64) (value : Int64)
deriving DecidableEq

variable {w w' : World} {start address : UInt64} {size k j : Nat} {events : List MemoryEvent} {b : Block}
  {blocks : Array (Option Block)}

/-- Makes a call. -/
def MemoryCall.perform : MemoryCall → WorldM (Option MemoryEvent)
  | malloc words => return some (.allocated (← World.malloc words) words.toInt.toNat)
  | free address => do
    World.free address
    return some (.freed address)
  | peek address => do
    let _ ← World.peek address
    return none
  | poke address value => do
    World.poke address value
    return some (.stored address value)

/-- Makes a call and takes note of what it did. -/
def MemoryCall.apply (s : World × List MemoryEvent) (c : MemoryCall) : World × List MemoryEvent :=
  match c.perform s.1 with
  | .ok event w => (w, event.toList ++ s.2)
  | .error _ w => (w, s.2)

/-- The number of words that a call asks for. -/
def MemoryCall.words : MemoryCall → Int
  | malloc words => words.toInt
  | _ => 0

def MemoryCall.isMalloc : MemoryCall → Bool
  | malloc _ => true
  | _ => false

/-- The block at `start` was allocated and not freed since. The last event is the first of the list. -/
def Live (start : UInt64) (size : Nat) : List MemoryEvent → Prop
  | [] => False
  | .allocated s n :: events => (start = s ∧ size = n) ∨ Live start size events
  | .freed s :: events => start ≠ s ∧ Live start size events
  | .stored .. :: events => Live start size events

/-- The address is one of the `size` words from `start` on. -/
def Inside (address start : UInt64) (size : Nat) : Prop :=
  start.toNat ≤ address.toNat ∧ address.toNat < start.toNat + size

instance (address start : UInt64) (size : Nat) : Decidable (Inside address start size) :=
  inferInstanceAs (Decidable (_ ∧ _))

/-- The address is in a block that was allocated and not freed since. -/
def Valid (address : UInt64) (events : List MemoryEvent) : Prop :=
  ∃ start size, Live start size events ∧ Inside address start size

/-- What was last stored at an address since its block was allocated, or zero. -/
def lastStored (address : UInt64) : List MemoryEvent → Int64
  | [] => 0
  | .allocated s n :: events => if Inside address s n then 0 else lastStored address events
  | .freed _ :: events => lastStored address events
  | .stored a v :: events => if address = a then v else lastStored address events

/-- The address of word `j` of block `k`. -/
def AddressOf (address : UInt64) (k j : Nat) : Prop :=
  address.toNat = (k + 1) * 2 ^ 32 + j ∧ j < 2 ^ 32

@[grind →]
theorem AddressOf.inj {k' j' : Nat} (h : AddressOf address k j) (h' : AddressOf address k' j') :
    k = k' ∧ j = j' := by
  unfold AddressOf at h h'
  omega

@[grind →]
theorem AddressOf.ext {address' : UInt64} (h : AddressOf address k j) (h' : AddressOf address' k j) :
    address = address' := UInt64.toNat_inj.1 (h.1.trans h'.1.symm)

theorem AddressOf.splitAddress (h : AddressOf address k j) :
    splitAddress address = (k + 1, j) := by
  unfold AddressOf at h
  rw [World.splitAddress, show UInt32.size = 2 ^ 32 from rfl, Prod.mk.injEq]
  omega

/-- An address that is not in front of all blocks is that of a word. -/
theorem exists_addressOf (h : (splitAddress address).1 ≠ 0) : ∃ k j, AddressOf address k j := by
  rw [splitAddress, show UInt32.size = 2 ^ 32 from rfl] at h
  refine ⟨address.toNat / 2 ^ 32 - 1, address.toNat % 2 ^ 32, ?_, Nat.mod_lt _ (by decide)⟩
  simp only at h
  omega

theorem addressOf_start (hk : k + 1 < 2 ^ 32) : AddressOf (UInt64.ofNat ((k + 1) * UInt32.size)) k 0 := by
  have hlt : (k + 1) * 2 ^ 32 < UInt64.size := by
    rw [show UInt64.size = 2 ^ 64 from rfl]
    omega
  refine ⟨?_, by decide⟩
  rw [show UInt32.size = 2 ^ 32 from rfl, UInt64.toNat_ofNat_of_lt' hlt]
  exact (Nat.add_zero _).symm

/-- An address is inside the words from the start of a block on if it is that of one of them. -/
theorem inside_iff (hstart : AddressOf start k 0) (hsize : size ≤ 2 ^ 32) :
    Inside address start size ↔ ∃ j, AddressOf address k j ∧ j < size := by
  unfold AddressOf at hstart ⊢
  unfold Inside
  constructor
  · intro h
    exact ⟨address.toNat - start.toNat, by omega⟩
  · rintro ⟨j, h⟩
    omega

/-- An address is found in a block if it is that of one of its words. -/
theorem find?_eq_some_iff : w.find? address = some (b, j) ↔
    ∃ k : Nat, w.blocks[k]? = some (some b) ∧ AddressOf address k j ∧ j < b.size := by
  constructor
  · intro h
    unfold find? at h
    simp only at h
    split at h
    · cases h
    · rename_i hblock
      obtain ⟨k, j', haddr⟩ := exists_addressOf hblock
      rw [haddr.splitAddress, Nat.add_sub_cancel] at h
      split at h
      · rename_i b' hb
        split at h
        · cases h
          exact ⟨k, Option.join_eq_some_iff.1 hb, haddr, ‹_›⟩
        · cases h
      · cases h
  · rintro ⟨k, hb, haddr, hlt⟩
    unfold find?
    rw [haddr.splitAddress]
    simp [hb, hlt]

/-!
## What the calls do
-/

theorem meets_peek : Meets (peek address) w
    (fun v w' => ∃ b j, w.find? address = some (b, j) ∧ v = b.words.getD j 0 ∧ w' = w)
    fun _ w' => w' = w ∧ w.find? address = none := by
  unfold peek
  rw [meets_bind, meets_get]
  split
  · exact ⟨rfl, ‹_›⟩
  · exact ⟨_, _, ‹_›, rfl, rfl⟩

theorem meets_poke {value : Int64} : Meets (poke address value) w
    (fun _ w' => ∃ b j, w.find? address = some (b, j) ∧ w' = { w with
      blocks := w.blocks.setIfInBounds ((splitAddress address).1 - 1)
        (some { b with words := b.words.insert j value }) })
    fun _ w' => w' = w ∧ w.find? address = none := by
  unfold poke
  rw [meets_bind, meets_get]
  split
  · exact ⟨rfl, ‹_›⟩
  · exact ⟨_, _, ‹_›, rfl⟩

/-- A block is freed at its start. -/
theorem meets_free : Meets (free address) w
    (fun _ w' => ∃ (k : Nat) (b : Block), AddressOf address k 0 ∧ w.blocks[k]? = some (some b) ∧
      w' = { w with blocks := w.blocks.setIfInBounds k none })
    fun _ w' => w' = w ∧ ¬ ∃ (k : Nat) (b : Block), AddressOf address k 0 ∧ w.blocks[k]? = some (some b) := by
  unfold free
  simp only [meets_bind, meets_ite, meets_get]
  split
  · rename_i hbad
    refine ⟨rfl, ?_⟩
    rintro ⟨k, b, haddr, -⟩
    rw [haddr.splitAddress] at hbad
    simp at hbad
  · rename_i hgood
    rw [not_or, not_not] at hgood
    obtain ⟨k, j, haddr⟩ := exists_addressOf hgood.2
    rw [haddr.splitAddress] at hgood ⊢
    obtain rfl : j = 0 := hgood.1
    rw [Nat.add_sub_cancel]
    show Meets _ w _ _
    split
    · rename_i hnone
      refine ⟨rfl, ?_⟩
      rintro ⟨k', b, haddr', hb⟩
      obtain ⟨rfl, -⟩ := haddr.inj haddr'
      rw [hb] at hnone
      cases hnone
    · rename_i b hb
      exact ⟨k, b, haddr, Option.join_eq_some_iff.1 hb, rfl⟩

theorem meets_malloc {words : Int64} : Meets (malloc words) w
    (fun start w' => 0 ≤ words.toInt ∧ start = UInt64.ofNat ((w.blocks.size + 1) * UInt32.size) ∧
      w' = { w with blocks := w.blocks.push (some ⟨words.toInt.toNat, ∅⟩) })
    fun _ w' => w' = w ∧ words.toInt < 0 := by
  unfold malloc
  simp only [meets_bind, meets_ite, meets_modify, meets_get]
  split
  · rename_i hneg
    exact ⟨rfl, Int64.lt_iff_toInt_lt.1 hneg⟩
  · rename_i hneg
    rw [Int64.lt_iff_toInt_lt, not_lt] at hneg
    refine ⟨hneg, ?_, rfl⟩
    simp only [Array.size_push]

/-!
## The invariant
-/

/-- Memory is what the events have made of it. -/
structure Recorded (blocks : Array (Option Block)) (events : List MemoryEvent) : Prop where
  few : blocks.size < 2 ^ 32
  small : ∀ (k : Nat) (b : Block), blocks[k]? = some (some b) → b.size ≤ 2 ^ 32
  live : ∀ start size, Live start size events ↔
    ∃ (k : Nat) (b : Block), blocks[k]? = some (some b) ∧ AddressOf start k 0 ∧ size = b.size
  allocated : ∀ start size, .allocated start size ∈ events → size ≤ 2 ^ 32
  freed : ∀ start, .freed start ∈ events → ∃ k : Nat, blocks[k]? = some none ∧ AddressOf start k 0
  words : ∀ (k : Nat) (b : Block) j address, blocks[k]? = some (some b) → AddressOf address k j →
    j < b.size → b.words.getD j 0 = lastStored address events

theorem Recorded.valid_iff (h : Recorded w.blocks events) :
    Valid address events ↔ ∃ b j, w.find? address = some (b, j) := by
  constructor
  · rintro ⟨start, size, hlive, hin⟩
    obtain ⟨k, b, hb, hstart, rfl⟩ := (h.live start size).1 hlive
    obtain ⟨j, haddr, hj⟩ := (inside_iff hstart (h.small k b hb)).1 hin
    exact ⟨b, j, find?_eq_some_iff.2 ⟨k, hb, haddr, hj⟩⟩
  · rintro ⟨b, j, hfind⟩
    obtain ⟨k, hb, haddr, hj⟩ := find?_eq_some_iff.1 hfind
    have hk : k < w.blocks.size := (Array.getElem?_eq_some_iff.1 hb).1
    have hfew := h.few
    have hstart := addressOf_start (show k + 1 < 2 ^ 32 by omega)
    exact ⟨_, b.size, (h.live _ _).2 ⟨k, b, hb, hstart, rfl⟩, (inside_iff hstart (h.small k b hb)).2 ⟨j, haddr, hj⟩⟩

theorem recorded_nil : Recorded #[] [] := by
  constructor <;> simp [Live]

/-- A new block goes behind all others. -/
theorem Recorded.malloc (h : Recorded blocks events) (hfew : blocks.size + 1 < 2 ^ 32)
    (hsize : size ≤ 2 ^ 32) (hstart : AddressOf start blocks.size 0) :
    Recorded (blocks.push (some ⟨size, ∅⟩)) (.allocated start size :: events) := by
  have hin : ∀ a, Inside a start size ↔ ∃ j, AddressOf a blocks.size j ∧ j < size :=
    fun _ => inside_iff hstart hsize
  have hnew : (blocks.push (some ⟨size, ∅⟩))[blocks.size]? = some (some ⟨size, ∅⟩) := by simp
  obtain ⟨-, small, live, allocated, freed, words⟩ := h
  refine ⟨by grind, by grind, by grind [Live], by grind, by grind, by grind [lastStored]⟩

/-- A block that is freed stays so. -/
theorem Recorded.free (h : Recorded blocks events) (haddr : AddressOf address k 0) (hb : blocks[k]? = some (some b)) :
    Recorded (blocks.setIfInBounds k none) (.freed address :: events) := by
  obtain ⟨few, small, live, allocated, freed, words⟩ := h
  refine ⟨by grind, by grind, by grind [Live], by grind, by grind, by grind [lastStored]⟩

/-- A word that is stored is found at its address, and all others are as before. -/
theorem Recorded.poke {value : Int64} (h : Recorded blocks events) (hb : blocks[k]? = some (some b))
    (haddr : AddressOf address k j) :
    Recorded (blocks.setIfInBounds k (some { b with words := b.words.insert j value }))
      (.stored address value :: events) := by
  obtain ⟨few, small, live, allocated, freed, words⟩ := h
  refine ⟨by grind, by grind, by grind [Live], by grind, by grind, by grind [lastStored]⟩

theorem perform_error {c : MemoryCall} {e : RuntimeError} (hx : c.perform w = .error e w') : w' = w := by
  have hmeets : Meets c.perform w (fun _ _ => True) fun _ w' => w' = w := by
    cases c with
    | malloc _ => exact meets_bind.2 (meets_malloc.mono (fun _ _ _ => trivial) fun _ _ he => he.1)
    | free _ => exact meets_bind.2 (meets_free.mono (fun _ _ _ => trivial) fun _ _ he => he.1)
    | peek _ => exact meets_bind.2 (meets_peek.mono (fun _ _ _ => trivial) fun _ _ he => he.1)
    | poke _ _ => exact meets_bind.2 (meets_poke.mono (fun _ _ _ => trivial) fun _ _ he => he.1)
  exact hmeets.error hx

/-- **One call** keeps memory what the events have made of it. -/
theorem Recorded.perform {c : MemoryCall} (h : Recorded w.blocks events)
    (hwords : c.words ≤ 2 ^ 32)
    (hfew : w.blocks.size + (if c.isMalloc then 1 else 0) < 2 ^ 32) :
    Meets c.perform w (fun event w' => Recorded w'.blocks (event.toList ++ events) ∧
      w'.blocks.size ≤ w.blocks.size + if c.isMalloc then 1 else 0) fun _ _ => True := by
  cases c with
  | malloc words =>
    have hwords : words.toInt ≤ 2 ^ 32 := hwords
    refine meets_bind.2 (meets_malloc.mono (fun start w' hw' => ?_) fun _ _ _ => trivial)
    obtain ⟨hpos, rfl, rfl⟩ := hw'
    exact ⟨h.malloc hfew (by omega) (addressOf_start hfew), by simp [MemoryCall.isMalloc]⟩
  | free address =>
    refine meets_bind.2 (meets_free.mono (fun _ w' hw' => ?_) fun _ _ _ => trivial)
    obtain ⟨k, b, haddr, hb, rfl⟩ := hw'
    exact ⟨h.free haddr hb, by simp⟩
  | peek address =>
    refine meets_bind.2 (meets_peek.mono (fun _ w' hw' => ?_) fun _ _ _ => trivial)
    obtain ⟨-, -, -, -, rfl⟩ := hw'
    exact ⟨h, by simp⟩
  | poke address value =>
    refine meets_bind.2 (meets_poke.mono (fun _ w' hw' => ?_) fun _ _ _ => trivial)
    obtain ⟨b, j, hfind, rfl⟩ := hw'
    obtain ⟨k, hb, haddr, -⟩ := find?_eq_some_iff.1 hfind
    rw [haddr.splitAddress]
    exact ⟨h.poke hb haddr, by simp⟩

/-- The world and the events after calls. -/
def afterCalls (w : World) (calls : List MemoryCall) : World × List MemoryEvent :=
  calls.foldl MemoryCall.apply (w, [])

/-- **Any number of calls** keep memory what the events have made of it. -/
theorem Recorded.foldl {calls : List MemoryCall} (h : Recorded w.blocks events)
    (hwords : ∀ c ∈ calls, c.words ≤ 2 ^ 32)
    (hfew : w.blocks.size + calls.countP MemoryCall.isMalloc < 2 ^ 32) :
    Recorded (calls.foldl MemoryCall.apply (w, events)).1.blocks
      (calls.foldl MemoryCall.apply (w, events)).2 := by
  induction calls generalizing w events with
  | nil => exact h
  | cons c calls ih =>
    rw [countP_cons] at hfew
    obtain ⟨hwords, hrest⟩ := forall_mem_cons.1 hwords
    have hcall := h.perform hwords (by omega)
    rw [foldl_cons, MemoryCall.apply]
    cases hx : c.perform w with
    | ok event w' =>
      obtain ⟨h', hsize⟩ := hcall.ok hx
      exact ih h' hrest (by omega)
    | error e w' =>
      obtain rfl := perform_error hx
      exact ih h hrest (by omega)

/-- A call that succeeds if `A` holds, and fails if not. -/
theorem exists_ok_iff {α : Type} {x : WorldM α} {A : Prop} (h : Meets x w (fun _ _ => A) fun _ _ => ¬ A) :
    (∃ a w', x w = .ok a w') ↔ A := by
  cases hx : x w with
  | ok a w' => exact iff_of_true ⟨a, w', rfl⟩ (h.ok hx)
  | error e w' => exact iff_of_false (by simp) (h.error hx)

/-- **Raw memory is a partial map.** After any calls on a fresh world, with at most `2 ^ 32` words asked
for at once and fewer than `2 ^ 32 - 1` requests: an address can be read and written exactly if it is in
a block that was allocated and not freed, and holds what was last stored there since then, or zero.
Blocks that are live do not share an address, and zero is none. A block is freed exactly at its start,
and its addresses are never valid again. A call that fails changes nothing. -/
theorem memory_exact (input : Bytes) (args : List String) (files : FileSystem) (calls : List MemoryCall)
    (hwords : ∀ c ∈ calls, c.words ≤ 2 ^ 32)
    (hcount : calls.countP MemoryCall.isMalloc < 2 ^ 32 - 1) (w : World) (events : List MemoryEvent)
    (hs : afterCalls (ofInput input args files) calls = (w, events)) :
    (∀ p, ((∃ v w', peek p w = .ok v w') ↔ Valid p events) ∧
      (∀ v w', peek p w = .ok v w' → v = lastStored p events) ∧
      ∀ v, (∃ u w', poke p v w = .ok u w') ↔ Valid p events) ∧
    (∀ start size start' size', Live start size events → Live start' size' events →
      (start = start' ∧ size = size') ∨ ∀ p, ¬ (Inside p start size ∧ Inside p start' size')) ∧
    ¬ Valid 0 events ∧
    (∀ p, (∃ u w', free p w = .ok u w') ↔ ∃ size, Live p size events) ∧
    (∀ p start size, .allocated start size ∈ events → .freed start ∈ events →
      Inside p start size → ¬ Valid p events) ∧
    ∀ (c : MemoryCall) e w', c.perform w = .error e w' → w' = w := by
  have hrun := Recorded.foldl (w := ofInput input args files) recorded_nil hwords (by show 0 + _ < _; omega)
  have h : Recorded w.blocks events := by
    rwa [show calls.foldl MemoryCall.apply (ofInput input args files, []) = (w, events) from hs] at hrun
  have hnone : ∀ {p}, w.find? p = none → ¬ Valid p events := by
    intro p hp hv
    obtain ⟨b, j, hfind⟩ := h.valid_iff.1 hv
    rw [hp] at hfind
    cases hfind
  refine ⟨fun p => ⟨exists_ok_iff ?_, fun v w' hx => ?_, fun v => exists_ok_iff ?_⟩,
    fun s n s' n' hl hl' => ?_, ?_, fun p => exists_ok_iff ?_, fun p s n ha hf hin hv => ?_,
    fun c e w' hx => perform_error hx⟩
  · exact meets_peek.mono (fun _ _ ⟨b, j, hb, _⟩ => h.valid_iff.2 ⟨b, j, hb⟩) fun _ _ he => hnone he.2
  · obtain ⟨b, j, hfind, rfl, -⟩ := meets_peek.ok hx
    obtain ⟨k, hb, haddr, hj⟩ := find?_eq_some_iff.1 hfind
    exact h.words k b j p hb haddr hj
  · exact meets_poke.mono (fun _ _ ⟨b, j, hb, _⟩ => h.valid_iff.2 ⟨b, j, hb⟩) fun _ _ he => hnone he.2
  · obtain ⟨k, b, hb, hstart, rfl⟩ := (h.live s n).1 hl
    obtain ⟨k', b', hb', hstart', rfl⟩ := (h.live s' n').1 hl'
    by_cases hk : k = k'
    · subst k'
      obtain rfl : b = b' := Option.some.inj (Option.some.inj (hb.symm.trans hb'))
      exact .inl ⟨hstart.ext hstart', rfl⟩
    · refine .inr fun p ⟨hin, hin'⟩ => hk ?_
      obtain ⟨j, hj, -⟩ := (inside_iff hstart (h.small k b hb)).1 hin
      obtain ⟨j', hj', -⟩ := (inside_iff hstart' (h.small k' b' hb')).1 hin'
      exact (hj.inj hj').1
  · rw [h.valid_iff]
    rintro ⟨b, j, hfind⟩
    obtain ⟨k, -, haddr, -⟩ := find?_eq_some_iff.1 hfind
    have hzero : (0 : UInt64).toNat = (k + 1) * 2 ^ 32 + j := haddr.1
    rw [show (0 : UInt64).toNat = 0 from rfl] at hzero
    omega
  · refine meets_free.mono (fun _ _ ⟨k, b, haddr, hb, _⟩ => ?_) fun _ _ he hl => he.2 ?_
    · exact ⟨b.size, (h.live p _).2 ⟨k, b, hb, haddr, rfl⟩⟩
    · obtain ⟨n, hl⟩ := hl
      obtain ⟨k, b, hb, haddr, -⟩ := (h.live p n).1 hl
      exact ⟨k, b, haddr, hb⟩
  · obtain ⟨k, hk, hstart⟩ := h.freed s hf
    obtain ⟨j, haddr, -⟩ := (inside_iff hstart (h.allocated s n ha)).1 hin
    obtain ⟨b, j', hfind⟩ := h.valid_iff.1 hv
    obtain ⟨k', hb, haddr', -⟩ := find?_eq_some_iff.1 hfind
    obtain ⟨rfl, -⟩ := haddr.inj haddr'
    rw [hb] at hk
    cases hk

/-- A block is freed after a word was stored in it, and another one is allocated. -/
def reusingCalls : List MemoryCall :=
  [.malloc 2, .poke 4294967297 7, .free 4294967296, .malloc 3, .poke 8589934592 5]

/-- The word in the first block is gone, and that in the second one is there. -/
theorem memory_exact_reusingCalls :
    (∀ c ∈ reusingCalls, c.words ≤ 2 ^ 32) ∧ reusingCalls.countP MemoryCall.isMalloc < 2 ^ 32 - 1 ∧
      (∀ v w', peek 4294967297 (afterCalls default reusingCalls).1 ≠ .ok v w') ∧
      ∃ w', peek 8589934592 (afterCalls default reusingCalls).1 = .ok 5 w' := by
  have hwords : ∀ c ∈ reusingCalls, c.words ≤ 2 ^ 32 := by decide
  have hcount : reusingCalls.countP MemoryCall.isMalloc < 2 ^ 32 - 1 := by decide
  have hevents : afterCalls default reusingCalls = ((afterCalls default reusingCalls).1,
      [.stored 8589934592 5, .allocated 8589934592 3, .freed 4294967296, .stored 4294967297 7,
        .allocated 4294967296 2]) := rfl
  obtain ⟨hread, -, -, -, hgone, -⟩ := memory_exact [] [] .empty reusingCalls hwords hcount _ _ hevents
  refine ⟨hwords, hcount, fun v w' hx => ?_, ?_⟩
  · exact hgone 4294967297 4294967296 2 (by simp) (by simp) (by decide) ((hread _).1.1 ⟨v, w', hx⟩)
  · obtain ⟨v, w', hx⟩ := (hread 8589934592).1.2 ⟨8589934592, 3, .inl ⟨rfl, rfl⟩, by decide⟩
    obtain rfl := (hread _).2.1 v w' hx
    exact ⟨w', hx⟩

end World

end GraphReduction
