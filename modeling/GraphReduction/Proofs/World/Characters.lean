import GraphReduction.Proofs.Binary.Canonical
import GraphReduction.Proofs.Cache.Directory
import GraphReduction.Proofs.Machine.Contract

/-!
# Characters in and out

A character is read in two steps: its first byte tells how many bytes there should be, by ranges that
are wider than they need to be, and the bytes are then checked together. What is written is the
encoding of the character, and it waits until there is a block of it.
-/

namespace GraphReduction

open List hiding map take
open String (utf8EncodeChar)

namespace World

variable {w w' : World} {i n : Nat} {p : Primitive} {handle : Int64} {bytes : Bytes}

/-!
## Encodings
-/

/-- The first byte of an encoding tells its length. -/
theorem sequenceLength_utf8EncodeChar (c : Char) :
    ∃ first rest, utf8EncodeChar c = first :: rest ∧ sequenceLength first = some (rest.length + 1) := by
  have hone : ∀ k ≤ 0x7f, sequenceLength (UInt8.ofNat k) = some 1 := by decide +kernel
  have htwo : ∀ k < 0x20, sequenceLength (UInt8.ofNat (k + 0xc0)) = some 2 := by decide +kernel
  have hthree : ∀ k < 0x10, sequenceLength (UInt8.ofNat (k + 0xe0)) = some 3 := by decide +kernel
  have hfour : ∀ k < 0x08, sequenceLength (UInt8.ofNat (k + 0xf0)) = some 4 := by decide +kernel
  unfold utf8EncodeChar
  dsimp only
  split
  · exact ⟨_, _, rfl, hone _ ‹_›⟩
  split
  · exact ⟨_, _, rfl, htwo _ (Nat.mod_lt _ (by omega))⟩
  split
  · exact ⟨_, _, rfl, hthree _ (Nat.mod_lt _ (by omega))⟩
  · exact ⟨_, _, rfl, hfour _ (Nat.mod_lt _ (by omega))⟩

theorem toUTF8_singleton (c : Char) : (String.ofList [c]).toUTF8 = ⟨(utf8EncodeChar c).toArray⟩ := by
  rw [String.toUTF8_eq_toByteArray, String.toByteArray_ofList, List.utf8Encode_singleton]
  exact ByteArray.ext List.data_toByteArray

/-- **Bytes are decoded as a character exactly if they are its encoding.** -/
theorem decodeChar_eq_ok_iff {c : Char} : decodeChar bytes = .ok c ↔ bytes = utf8EncodeChar c := by
  constructor
  · intro h
    unfold decodeChar at h
    split at h
    · rename_i s hs
      split at h
      · rename_i c' hlist
        cases h
        have hs' : s = String.ofList [c] := by rw [← hlist, String.ofList_toList]
        have := toUTF8_of_fromUTF8? hs
        rw [hs', toUTF8_singleton] at this
        exact congrArg (fun b => b.data.toList) this.symm
      · cases h
    · cases h
  · rintro rfl
    unfold decodeChar
    rw [← toUTF8_singleton, fromUTF8?_toUTF8]
    simp

/-- No encoding starts another one. -/
theorem utf8EncodeChar_append_inj {c c' : Char} {rest rest' : Bytes}
    (h : utf8EncodeChar c ++ rest = utf8EncodeChar c' ++ rest') : c = c' ∧ rest = rest' := by
  obtain ⟨first, tail, heq, hlen⟩ := sequenceLength_utf8EncodeChar c
  obtain ⟨first', tail', heq', hlen'⟩ := sequenceLength_utf8EncodeChar c'
  have hfirst : first = first' := by
    rw [heq, heq'] at h
    exact (cons_eq_cons.1 h).1
  rw [← hfirst, hlen] at hlen'
  have hlength : (utf8EncodeChar c).length = (utf8EncodeChar c').length := by
    rw [heq, heq', length_cons, length_cons]
    exact Option.some.inj hlen'
  obtain ⟨hc, hrest⟩ := append_inj h hlength
  have hdec := decodeChar_eq_ok_iff.2 hc
  rw [decodeChar_eq_ok_iff.2 rfl] at hdec
  exact ⟨(Except.ok.inj hdec).symm ▸ rfl, hrest⟩

/-- An encoding at the start of the input has as many bytes as the first one says. -/
theorem exists_rest_of_prefix {c : Char} {first : UInt8} (h : utf8EncodeChar c <+: first :: bytes) :
    ∃ rest, utf8EncodeChar c = first :: rest ∧ rest <+: bytes ∧
      sequenceLength first = some (rest.length + 1) := by
  obtain ⟨b, rest, heq, hlen⟩ := sequenceLength_utf8EncodeChar c
  rw [heq] at h
  obtain ⟨rfl, hrest⟩ := cons_prefix_cons.1 h
  exact ⟨rest, heq, hrest, hlen⟩

/-!
## Input
-/

/-- The input that is left on a channel: what is read ahead and the rest of the file. A directory can
be opened, but not read. -/
def remaining (w : World) (ahead : Bytes) : Option FileCursor → Option Bytes
  | none => some ahead
  | some cursor =>
    if w.files.get? cursor.location = some .directory then none
    else some (ahead ++ (w.files.content cursor.location).drop cursor.offset)

/-- The input that is left at a position of the handles. -/
def unreadAt (w : World) (i : Nat) : Option Bytes :=
  match (w.handles[i]?).join with
  | some (.input ahead file) => w.remaining ahead file
  | _ => none

/-- The input that is left on a handle. -/
def unread? (w : World) (handle : Int64) : Option Bytes := (w.slot? handle).bind w.unreadAt

/-- A handle that is open at a position stays so. -/
def KeepsOpen (i : Nat) (w w' : World) : Prop :=
  ∀ handle, w.slot? handle = some i → w'.slot? handle = some i

theorem lt_size_of_join {c : Channel} (h : (w.handles[i]?).join = some c) : i < w.handles.size := by
  by_contra hge
  rw [Array.getElem?_eq_none (by omega)] at h
  cases h

theorem KeepsOpen.of_set {c : Channel} (h : w'.handles = w.handles.setIfInBounds i (some c)) :
    KeepsOpen i w w' := by
  intro handle hs
  unfold World.slot? at hs ⊢
  split at hs
  · rename_i hopen
    cases hs
    obtain ⟨_, hsome⟩ := Option.isSome_iff_exists.1 hopen.2
    rw [h, if_pos ⟨hopen.1, by
      rw [Array.getElem?_setIfInBounds_self_of_lt (lt_size_of_join hsome)]; rfl⟩]
  · cases hs

theorem channel_of_slot {c : Channel} (hs : w.slot? handle = some i)
    (hw : (w.handles[i]?).join = some c) : channel p handle w = .ok (i, c) w := by
  have hmeets : Meets (channel p handle) w (fun r w' => r = (i, c) ∧ w' = w) fun _ _ => False := by
    simp only [channel, meets_bind, meets_get, hs, hw]
    exact ⟨rfl, rfl⟩
  unfold Meets at hmeets
  split at hmeets
  · rename_i heq
    rw [heq, hmeets.1, hmeets.2]
  · exact hmeets.elim

theorem exists_input_of_unreadAt (h : w.unreadAt i = some bytes) :
    i < w.handles.size ∧ ∃ ahead file, (w.handles[i]?).join = some (.input ahead file) ∧
      w.remaining ahead file = some bytes := by
  unfold unreadAt at h
  split at h
  · rename_i ahead file hw
    exact ⟨lt_size_of_join hw, ahead, file, hw, h⟩
  · cases h

/-- What is left once the channel at a position is an input. -/
theorem unreadAt_set {ahead : Bytes} {file : Option FileCursor} (hi : i < w.handles.size) :
    { w with handles := w.handles.setIfInBounds i (some (.input ahead file)) : World }.unreadAt i =
      w.remaining ahead file := by
  unfold unreadAt
  rw [Array.getElem?_setIfInBounds_self_of_lt hi]
  cases file <;> rfl

theorem remaining_cons {b : UInt8} {ahead : Bytes} {file : Option FileCursor}
    (h : w.remaining (b :: ahead) file = some bytes) :
    ∃ rest, bytes = b :: rest ∧ w.remaining ahead file = some rest := by
  unfold remaining at h ⊢
  split at h
  · cases h
    exact ⟨ahead, rfl, rfl⟩
  · split at h
    · cases h
    · cases h
      rename_i hdir
      exact ⟨_, rfl, if_neg hdir⟩

/-- Nothing is lost between a block and what is left of the file after it. -/
theorem block_append_drop (content : Bytes) (k : Nat) :
    (content.drop k).take bufferSize ++
      content.drop (k + ((content.drop k).take bufferSize).length) = content.drop k := by
  rw [← drop_drop]
  have htake : (content.drop k).take bufferSize =
      (content.drop k).take ((content.drop k).take bufferSize).length := by
    rw [length_take, take_eq_take_min]
  nth_rewrite 1 [htake]
  exact take_append_drop _ _

/-- Looking for more input loses none of it, and finds some if there is any. -/
theorem meets_refill {ahead : Bytes} {file : Option FileCursor} (h : w.remaining ahead file = some bytes) :
    Meets (refill p ahead file) w
      (fun r w' => w' = w ∧ w.remaining r.1 r.2 = some bytes ∧ (r.1 = [] → bytes = []))
      fun _ _ => False := by
  unfold refill
  split
  · rename_i cursor
    simp only [remaining] at h
    split at h
    · cases h
    · rename_i hdir
      cases h
      simp only [meets_bind, meets_get]
      refine ⟨rfl, ?_, fun hnil => (take_eq_nil_iff.1 hnil).resolve_left (by decide)⟩
      simp only [remaining, if_neg hdir, block_append_drop, nil_append]
  · rename_i hne
    refine ⟨rfl, h, fun hnil => ?_⟩
    cases file with
    | none => exact (Option.some.inj h).symm.trans hnil
    | some cursor => exact absurd rfl (hne cursor hnil)

/-- **The next byte** is the first one that is left, whether it was read ahead or comes with the next
block of the file. -/
theorem meets_nextByte (h : w.unreadAt i = some bytes) :
    Meets (nextByte p i) w
      (fun b w' => b = bytes.head? ∧ w'.unreadAt i = some bytes.tail ∧ KeepsOpen i w w')
      fun _ _ => False := by
  obtain ⟨hi, ahead, file, hw, hrem⟩ := exists_input_of_unreadAt h
  unfold nextByte
  simp only [meets_bind, meets_get, hw]
  refine (meets_refill hrem).imp fun r w1 h1 => ?_
  obtain ⟨ahead', file'⟩ := r
  obtain ⟨rfl, hr, hnil⟩ := h1
  cases ahead' with
  | nil =>
    obtain rfl := hnil rfl
    exact ⟨rfl, (unreadAt_set hi).trans hr, .of_set rfl⟩
  | cons b ahead =>
    obtain ⟨rest, rfl, hrest⟩ := remaining_cons hr
    exact ⟨rfl, (unreadAt_set hi).trans hrest, .of_set rfl⟩

/-- The next bytes, unless there are fewer. -/
theorem meets_nextBytes (h : w.unreadAt i = some bytes) :
    Meets (nextBytes p i n) w
      (fun bs w' => bs.length = n ∧ ∃ rest, bytes = bs ++ rest ∧ w'.unreadAt i = some rest ∧
        KeepsOpen i w w')
      fun _ _ => bytes.length < n := by
  induction n generalizing w bytes with
  | zero => exact ⟨rfl, bytes, rfl, h, fun _ hs => hs⟩
  | succ n ih =>
    rw [nextBytes, meets_bind]
    refine (meets_nextByte h).mono (fun b w1 h1 => ?_) fun _ _ hf => hf.elim
    obtain ⟨rfl, h1, hc⟩ := h1
    cases bytes with
    | nil => exact Nat.succ_pos n
    | cons b bytes =>
      simp only [head?_cons, meets_bind, meets_pure]
      refine (ih h1).mono (fun bs w2 h2 => ?_) fun _ _ hlt => Nat.succ_lt_succ hlt
      obtain ⟨hlen, rest, hrest, h2, hc'⟩ := h2
      exact ⟨congrArg (· + 1) hlen, rest, congrArg (b :: ·) hrest, h2, fun _ hs => hc' _ (hc _ hs)⟩

/-- **One character**: what is read of the input `bytes`, and when nothing is read. -/
theorem meets_getChar (h : w.unread? handle = some bytes) :
    Meets (getChar handle) w
      (fun n w' => (n = endOfInput ∧ bytes = [] ∧ w'.unread? handle = some []) ∨
        ∃ c rest, n = Int64.ofNat c.toNat ∧ bytes = utf8EncodeChar c ++ rest ∧
          w'.unread? handle = some rest)
      fun _ _ => bytes ≠ [] ∧ ∀ c, ¬ utf8EncodeChar c <+: bytes := by
  obtain ⟨i, hs, hi⟩ := Option.bind_eq_some_iff.1 h
  obtain ⟨-, ahead, file, hw, -⟩ := exists_input_of_unreadAt hi
  have hunread : ∀ {w' rest}, KeepsOpen i w w' → w'.unreadAt i = some rest →
      w'.unread? handle = some rest := fun hc hr => by rw [unread?, hc _ hs]; exact hr
  unfold getChar
  rw [meets_bind, meets_of_ok (channel_of_slot hs hw), meets_bind]
  refine (meets_nextByte hi).mono (fun b w1 h1 => ?_) fun _ _ hf => hf.elim
  obtain ⟨rfl, h1, hc1⟩ := h1
  cases bytes with
  | nil => exact .inl ⟨rfl, rfl, hunread hc1 h1⟩
  | cons first bytes =>
    simp only [head?_cons]
    split
    · rename_i hnone
      refine ⟨cons_ne_nil _ _, fun c hc => ?_⟩
      obtain ⟨rest, -, -, hlen⟩ := exists_rest_of_prefix hc
      rw [hnone] at hlen
      cases hlen
    · rename_i n hn
      rw [meets_bind]
      refine (meets_nextBytes h1).mono (fun bs w2 h2 => ?_) fun _ _ hlt => ?_
      · obtain ⟨hlen, rest, hrest, h2, hc2⟩ := h2
        obtain rfl : bytes = bs ++ rest := hrest
        split
        · rename_i c hdec
          refine .inr ⟨c, rest, rfl, ?_, hunread (fun _ hs => hc2 _ (hc1 _ hs)) h2⟩
          rw [← decodeChar_eq_ok_iff.1 hdec, cons_append]
        · rename_i k hdec
          refine ⟨cons_ne_nil _ _, fun c hc => ?_⟩
          -- the encoding would have the bytes that were read
          obtain ⟨rest', heq, hpre, hlen'⟩ := exists_rest_of_prefix hc
          cases hn.symm.trans hlen'
          have hlen'' : rest'.length = bs.length := hlen.symm
          have hbs := (prefix_of_prefix_length_le hpre (prefix_append bs rest) hlen''.le).eq_of_length hlen''
          rw [← hbs, ← heq, decodeChar_eq_ok_iff.2 rfl] at hdec
          cases hdec
      · refine ⟨cons_ne_nil _ _, fun c hc => ?_⟩
        obtain ⟨rest', -, hpre, hlen'⟩ := exists_rest_of_prefix hc
        cases hn.symm.trans hlen'
        have hle := hpre.length_le
        simp only [tail_cons] at hlt
        omega

/-!
## Output
-/

/-- What has come out of a channel, with what is still pending. A file is written at its end. -/
def emitted (w : World) : Channel → Option Bytes
  | .console isError => some (if isError then w.stderr else w.stdout).toUTF8.toList
  | .output pending file append =>
    if w.files.get? file.location ≠ some .directory ∧
        (append = true ∨ file.offset = (w.files.content file.location).length) then
      some (w.files.content file.location ++ pending.toUTF8.toList)
    else none
  | .input .. => none

/-- What has come out of a handle. -/
def written? (w : World) (handle : Int64) : Option Bytes :=
  (w.slot? handle).bind fun i => (w.handles[i]?).join.bind w.emitted

theorem toUTF8_push (s : String) (c : Char) :
    (s.push c).toUTF8.toList = s.toUTF8.toList ++ utf8EncodeChar c := by
  rw [toList_eq, toList_eq, String.toUTF8_eq_toByteArray, String.toUTF8_eq_toByteArray,
    String.toByteArray_push, List.utf8Encode_singleton, ByteArray.data_append, Array.toList_append,
    List.data_toByteArray]

/-- At the end of a file, writing over it is writing after it. -/
theorem overwrite_end (content bytes : Bytes) : overwrite content content.length bytes = content ++ bytes := by
  simp [overwrite]

/-- Writing what is pending does not change what has come out. -/
theorem emitted_flushSlot {pending : String} {file : FileCursor} {append : Bool}
    (hw : (w.handles[i]?).join = some (.output pending file append))
    (h : w.emitted (.output pending file append) = some bytes) :
    Meets (flushSlot i) w
      (fun _ w' => KeepsOpen i w w' ∧ ∃ pending' file', (w'.handles[i]?).join =
        some (.output pending' file' append) ∧ w'.emitted (.output pending' file' append) = some bytes)
      fun _ _ => False := by
  unfold flushSlot
  rw [meets_modify]
  simp only [hw]
  split
  · exact ⟨fun _ hs => hs, pending, file, hw, h⟩
  · refine ⟨.of_set rfl, "", { file with offset := file.offset + pending.toUTF8.toList.length }, ?_, ?_⟩
    · exact congrArg Option.join (Array.getElem?_setIfInBounds_self_of_lt (lt_size_of_join hw))
    · simp only [emitted] at h ⊢
      split at h
      · rename_i hok
        cases h
        have hnew : (if append = true then w.files.content file.location ++ pending.toUTF8.toList
            else overwrite (w.files.content file.location) file.offset pending.toUTF8.toList) =
            w.files.content file.location ++ pending.toUTF8.toList := by
          split
          · rfl
          · rw [hok.2.resolve_left ‹_›, overwrite_end]
        have hget := FileSystem.get?_put_self hok.1
          (n := .file (w.files.content file.location ++ pending.toUTF8.toList))
        rw [hnew]
        have hcontent : (w.files.put file.location
            (.file (w.files.content file.location ++ pending.toUTF8.toList))).content file.location =
            w.files.content file.location ++ pending.toUTF8.toList := by
          rw [FileSystem.content, hget]
        rw [hget, hcontent, if_pos ⟨by simp, hok.2.imp_right fun ho => by rw [ho, length_append]⟩]
        rw [show "".toUTF8.toList = [] by rw [toList_eq]; rfl, append_nil]
      · cases h

/-- **A character is written as its encoding**, behind what has come out before. -/
theorem meets_putChar {c : Char} (h : w.written? handle = some bytes) :
    Meets (putChar handle c) w (fun _ w' => w'.written? handle = some (bytes ++ utf8EncodeChar c))
      fun _ _ => False := by
  obtain ⟨i, hs, hi⟩ := Option.bind_eq_some_iff.1 h
  obtain ⟨ch, hw, hch⟩ := Option.bind_eq_some_iff.1 hi
  have hwritten : ∀ {w' c' out}, KeepsOpen i w w' → (w'.handles[i]?).join = some c' →
      w'.emitted c' = out → w'.written? handle = out := by
    intro w' c' out hk hc hout
    rw [written?, hk _ hs, Option.bind_some, hc]
    exact hout
  unfold putChar
  rw [meets_bind, meets_of_ok (channel_of_slot hs hw)]
  cases ch with
  | input ahead file => cases hch
  | console isError =>
    cases hch
    cases isError <;> exact hwritten (fun _ hs => hs) hw (congrArg some (toUTF8_push _ _))
  | output pending file append =>
    -- what is pending may be written first, and then the character waits
    have hpush : ∀ {w1 : World} {pending file}, KeepsOpen i w w1 →
        (w1.handles[i]?).join = some (.output pending file append) →
        w1.emitted (.output pending file append) = some bytes →
        World.written? { w1 with
          handles := w1.handles.setIfInBounds i (some (.output (pending.push c) file append)) }
          handle = some (bytes ++ utf8EncodeChar c) := by
      intro w1 pending file hk hw1 hemit
      have hnew : w1.emitted (.output (pending.push c) file append) = some (bytes ++ utf8EncodeChar c) := by
        simp only [emitted] at hemit ⊢
        split at hemit
        · rename_i hok
          cases hemit
          rw [if_pos hok, toUTF8_push, append_assoc]
        · cases hemit
      exact hwritten (fun h hs => KeepsOpen.of_set rfl h (hk h hs))
        (congrArg Option.join (Array.getElem?_setIfInBounds_self_of_lt (lt_size_of_join hw1))) hnew
    simp only [meets_bind, meets_ite, meets_modify]
    split
    · refine (emitted_flushSlot hw hch).imp fun _ w1 h1 => ?_
      obtain ⟨hk, pending', file', hw1, hemit⟩ := h1
      simp only [hw1]
      exact hpush hk hw1 hemit
    · simp only [hw]
      exact hpush (fun _ hs => hs) hw hch

/-!
## Reading back
-/

/-- The next `n` characters of a handle. -/
def getChars (handle : Int64) : Nat → WorldM (List Int64)
  | 0 => return []
  | n + 1 => do
    let c ← getChar handle
    let cs ← getChars handle n
    return c :: cs

/-- **At the end of the input there is nothing but the end.** -/
theorem meets_getChars_end (h : w.unread? handle = some []) :
    Meets (getChars handle n) w (fun cs _ => cs = replicate n endOfInput) fun _ _ => False := by
  induction n generalizing w with
  | zero => rfl
  | succ n ih =>
    rw [getChars, meets_bind]
    refine (meets_getChar h).mono (fun c w1 h1 => ?_) fun _ _ he => he.1 rfl
    rcases h1 with ⟨rfl, -, h1⟩ | ⟨c, rest, -, hnil, -⟩
    · rw [meets_bind]
      exact (ih h1).imp fun cs _ hcs => congrArg (endOfInput :: ·) hcs
    · exact absurd (append_eq_nil_iff.1 hnil.symm).1 String.utf8EncodeChar_ne_nil

/-- **Encodings one after the other are read as their characters.** -/
theorem meets_getChars {cs : List Char} (h : w.unread? handle = some (cs.flatMap utf8EncodeChar)) :
    Meets (getChars handle (cs.length + n)) w
      (fun codes _ => codes = cs.map (Int64.ofNat ·.toNat) ++ replicate n endOfInput)
      fun _ _ => False := by
  induction cs generalizing w with
  | nil =>
    rw [length_nil, Nat.zero_add]
    exact meets_getChars_end h
  | cons c cs ih =>
    rw [length_cons, Nat.add_right_comm, getChars, meets_bind]
    rw [flatMap_cons] at h
    refine (meets_getChar h).mono (fun code w1 h1 => ?_) fun _ _ he => he.2 c (prefix_append _ _)
    rcases h1 with ⟨-, hnil, -⟩ | ⟨c', rest, rfl, hstart, h1⟩
    · exact absurd (append_eq_nil_iff.1 hnil).1 String.utf8EncodeChar_ne_nil
    · obtain ⟨rfl, rfl⟩ := utf8EncodeChar_append_inj hstart
      rw [meets_bind]
      exact (ih h1).imp fun codes _ hcodes => congrArg (Int64.ofNat c.toNat :: ·) hcodes

theorem meets_putChars {cs : List Char} (h : w.written? handle = some bytes) :
    Meets (cs.forM (putChar handle)) w
      (fun _ w' => w'.written? handle = some (bytes ++ cs.flatMap utf8EncodeChar)) fun _ _ => False := by
  induction cs generalizing w bytes with
  | nil => exact h.trans (congrArg some (append_nil _).symm)
  | cons c cs ih =>
    show Meets (putChar handle c >>= fun _ => cs.forM (putChar handle)) w _ _
    rw [meets_bind, flatMap_cons, ← append_assoc]
    exact (meets_putChar h).imp fun _ w1 h1 => ih h1

theorem toInt_code (c : Char) : (Int64.ofNat c.toNat).toInt = c.toNat := by
  have hlt : c.toNat < 1114112 := by
    rcases c.valid with h | h
    · exact Nat.lt_trans h (by decide)
    · exact h.2
  exact Int64.toInt_ofNat_of_lt (by omega)

/-- A result without an error is one that the contract allows. -/
theorem exists_ok_of_meets {α : Type} {x : WorldM α} {Q : α → World → Prop}
    (h : Meets x w Q fun _ _ => False) : ∃ a w', x w = .ok a w' ∧ Q a w' := by
  cases hx : x w with
  | ok a w' => exact ⟨a, w', rfl, h.ok hx⟩
  | error e w' => exact (h.error hx).elim

/-- **Character input accepts exactly the encodings of characters.** With `bytes` left on a handle, the
end of the input is reported exactly if there are none. A character is read exactly if they start with
its encoding, and just that is consumed. Everything else is an error. So what is written for characters
is read back as these characters, with nothing but the end of the input after them. -/
theorem character_io_exact :
    (∀ (w : World) handle bytes, w.unread? handle = some bytes →
      ((∃ w', getChar handle w = .ok endOfInput w') ↔ bytes = []) ∧
      (∀ c : Char, (∃ w', getChar handle w = .ok (Int64.ofNat c.toNat) w') ↔
        utf8EncodeChar c <+: bytes) ∧
      Meets (getChar handle) w
        (fun n w' => (n = endOfInput ∧ w'.unread? handle = some []) ∨
          ∃ c rest, n = Int64.ofNat c.toNat ∧ bytes = utf8EncodeChar c ++ rest ∧
            w'.unread? handle = some rest)
        fun _ _ => bytes ≠ [] ∧ ∀ c, ¬ utf8EncodeChar c <+: bytes) ∧
    ∀ cs : List Char, ∃ out,
      (∀ (w : World) handle old, w.written? handle = some old →
        ∃ w', cs.forM (putChar handle) w = .ok () w' ∧ w'.written? handle = some (old ++ out)) ∧
      ∀ (w : World) handle n, w.unread? handle = some out → ∃ w', getChars handle (cs.length + n) w =
        .ok (cs.map (Int64.ofNat ·.toNat) ++ replicate n endOfInput) w' := by
  have hend : ∀ c : Char, Int64.ofNat c.toNat ≠ endOfInput := by
    intro c heq
    have hcode := toInt_code c
    rw [heq] at hcode
    have : (endOfInput.toInt : Int) = -1 := by decide
    omega
  refine ⟨fun w handle bytes h => ⟨⟨?_, ?_⟩, fun c => ⟨?_, ?_⟩, ?_⟩, fun cs => ?_⟩
  · rintro ⟨w', hok⟩
    rcases (meets_getChar h).ok hok with ⟨-, hnil, -⟩ | ⟨c, rest, hc, -⟩
    · exact hnil
    · exact absurd hc.symm (hend c)
  · rintro rfl
    cases hok : getChar handle w with
    | ok n w' =>
      rcases (meets_getChar h).ok hok with ⟨rfl, -⟩ | ⟨c, rest, -, hnil, -⟩
      · exact ⟨w', rfl⟩
      · exact absurd (append_eq_nil_iff.1 hnil.symm).1 String.utf8EncodeChar_ne_nil
    | error e w' => exact absurd rfl ((meets_getChar h).error hok).1
  · rintro ⟨w', hok⟩
    rcases (meets_getChar h).ok hok with ⟨hn, -⟩ | ⟨c', rest, hc, rfl, -⟩
    · exact absurd hn (hend c)
    · have hcode := toInt_code c
      rw [hc, toInt_code, Nat.cast_inj] at hcode
      rw [Char.toNat_inj.1 hcode]
      exact prefix_append _ _
  · intro hstart
    cases hok : getChar handle w with
    | ok n w' =>
      rcases (meets_getChar h).ok hok with ⟨-, rfl, -⟩ | ⟨c', rest, rfl, rfl, -⟩
      · exact absurd (prefix_nil.1 hstart) String.utf8EncodeChar_ne_nil
      · obtain ⟨rest', hrest⟩ := hstart
        obtain ⟨rfl, -⟩ := utf8EncodeChar_append_inj hrest
        exact ⟨w', rfl⟩
    | error e w' => exact absurd hstart (((meets_getChar h).error hok).2 c)
  · refine (meets_getChar h).imp fun n w' hn => ?_
    exact hn.imp_left fun hn => ⟨hn.1, hn.2.2⟩
  · refine ⟨cs.flatMap utf8EncodeChar, fun w handle old h => ?_, fun w handle n h => ?_⟩
    · obtain ⟨_, w', hok, hw'⟩ := exists_ok_of_meets (meets_putChars h)
      exact ⟨w', hok, hw'⟩
    · obtain ⟨_, w', hok, rfl⟩ := exists_ok_of_meets (meets_getChars h)
      exact ⟨w', hok⟩

/-- An accented letter before a bracket is read, and the two come back after they were written. -/
theorem character_io_exact_accented :
    (ofInput [0xc3, 0xa9, 0x28] [] .empty).unread? stdinHandle = some [0xc3, 0xa9, 0x28] ∧
    (∃ w', getChar stdinHandle (ofInput [0xc3, 0xa9, 0x28] [] .empty) = .ok 0xe9 w') ∧
    (¬ ∃ w', getChar stdinHandle (ofInput [0xc3, 0xa9, 0x28] [] .empty) = .ok endOfInput w') ∧
    ∃ out w' w'', ['é', '('].forM (putChar stdoutHandle) default = .ok () w' ∧
      w'.written? stdoutHandle = some out ∧
      getChars stdinHandle 3 (ofInput out [] .empty) = .ok [0xe9, 0x28, endOfInput] w'' := by
  have hunread : (ofInput [0xc3, 0xa9, 0x28] [] .empty).unread? stdinHandle = some [0xc3, 0xa9, 0x28] := rfl
  obtain ⟨hend, hread, -⟩ := character_io_exact.1 _ _ _ hunread
  obtain ⟨out, hput, hget⟩ := character_io_exact.2 ['é', '(']
  obtain ⟨w', hok, hwritten⟩ := hput default stdoutHandle [] (by cbv)
  obtain ⟨w'', hback⟩ := hget (ofInput out [] .empty) stdinHandle 1 rfl
  exact ⟨hunread, (hread 'é').2 (by decide), fun h => absurd (hend.1 h) (by decide),
    out, w', w'', hok, hwritten, hback⟩

end World

end GraphReduction
