import GraphReduction.Proofs.Binary.Numerals
import GraphReduction.Proofs.Fallible

/-!
# Canonical spellings

A decoder accepts more than one spelling of a number, because a number in base 128 can be padded
with zero digits. What the encoders write is the shortest of them.
-/

namespace GraphReduction

open List hiding map take

variable {n : Nat} {bs : Bytes} {c c' : Cursor} {s : String}

/-- `used` is the spelling `bs` or a longer one. -/
def NoShorter (bs used : Bytes) : Prop := used = bs ∨ bs.length < used.length

theorem NoShorter.refl (bs : Bytes) : NoShorter bs bs := Or.inl rfl

theorem NoShorter.length_le {used : Bytes} (h : NoShorter bs used) : bs.length ≤ used.length := by
  rcases h with rfl | h
  · exact le_rfl
  · exact h.le

theorem NoShorter.append {bs' used used' : Bytes} (h : NoShorter bs used)
    (h' : NoShorter bs' used') : NoShorter (bs ++ bs') (used ++ used') := by
  have hle := h.length_le
  have hle' := h'.length_le
  rcases h with rfl | h
  · rcases h' with rfl | h'
    · exact .refl _
    · exact Or.inr (by simp only [length_append]; omega)
  · exact Or.inr (by simp only [length_append]; omega)

theorem NoShorter.cons {bs used : Bytes} (b : UInt8) (h : NoShorter bs used) :
    NoShorter (b :: bs) (b :: used) := (NoShorter.refl [b]).append h

theorem exists_of_run {α : Type} {d : Decoder α} {a : α} (h : (d.run ⟨bs, 0⟩).map Prod.fst = .ok a) :
    ∃ c', d ⟨bs, 0⟩ = .ok (a, c') := by
  cases hd : d ⟨bs, 0⟩ with
  | error r =>
    rw [StateT.run, hd] at h
    cases h
  | ok r =>
    rw [StateT.run, hd] at h
    obtain rfl : r.1 = a := Except.ok.inj h
    exact ⟨r.2, rfl⟩

/-- `bs` is the shortest spelling of `a`. -/
structure Canonical {α : Type} (d : Decoder α) (a : α) (bs : Bytes) : Prop where
  reads : ∀ rest n, d ⟨bs ++ rest, n⟩ = .ok (a, ⟨rest, n + bs.length⟩)
  shortest : ∀ c c', d c = .ok (a, c') → ∃ used, c.rest = used ++ c'.rest ∧ NoShorter bs used

namespace Canonical

open Decoder Fallible

variable {α β : Type} {d : Decoder α} {f : α → Decoder β} {a : α} {b : β} {bs bs' : Bytes}

theorem pure (a : α) : Canonical (Pure.pure a) a [] := by
  refine ⟨fun rest n => rfl, fun c c' h => ?_⟩
  cases h
  exact ⟨[], rfl, .refl _⟩

/-- **A sequence**: the result of the whole determines that of the first part. -/
theorem bind (h : Canonical d a bs) (hf : Canonical (f a) b bs')
    (hinj : ∀ a' c c1 c', d c = .ok (a', c1) → f a' c1 = .ok (b, c') → a' = a) :
    Canonical (d >>= f) b (bs ++ bs') := by
  refine ⟨fun rest n => ?_, fun c c' hc => ?_⟩
  · rw [append_assoc, bind_of_ok (h.reads _ _), hf.reads, length_append, Nat.add_assoc]
  · obtain ⟨a', c1, h1, h2⟩ := bind_eq_ok.1 hc
    obtain rfl := hinj a' c c1 c' h1 h2
    obtain ⟨used, hu, hn⟩ := h.shortest c c1 h1
    obtain ⟨used', hu', hn'⟩ := hf.shortest c1 c' h2
    refine ⟨used ++ used', ?_, hn.append hn'⟩
    rw [hu, hu', append_assoc]

theorem position {g : Nat → Decoder β} (h : ∀ n, Canonical (g n) b bs) :
    Canonical (position >>= g) b bs := by
  refine ⟨fun rest n => ?_, fun c c' hc => ?_⟩
  · rw [bind_of_ok rfl]
    exact (h n).reads rest n
  · rw [bind_of_ok rfl] at hc
    exact (h c.offset).shortest c c' hc

theorem andThen (h : Canonical d a bs) (hf : Canonical (f a) b [])
    (hinj : ∀ a' c c1 c', d c = .ok (a', c1) → f a' c1 = .ok (b, c') → a' = a) :
    Canonical (d >>= f) b bs := by
  have hb := h.bind hf hinj
  rwa [append_nil] at hb

theorem map {g : α → β} (h : Canonical d a bs) (hinj : ∀ a', g a' = g a → a' = a) :
    Canonical (d >>= fun a => Pure.pure (g a)) (g a) bs := by
  refine h.andThen (pure (g a)) fun a' c c1 c' _ hc => ?_
  have heq := pure_eq_ok.1 hc
  exact hinj a' (congrArg Prod.fst heq).symm

end Canonical

/-!
## Bytes
-/

namespace Binary

theorem split?_eq_some {front back : Bytes} :
    split? n bs = some (front, back) ↔ bs = front ++ back ∧ front.length = n := by
  induction n generalizing bs front with
  | zero =>
    constructor
    · intro h
      cases h
      exact ⟨rfl, rfl⟩
    · rintro ⟨rfl, hlen⟩
      rw [length_eq_zero_iff.1 hlen]
      rfl
  | succ n ih =>
    cases bs with
    | nil =>
      constructor
      · intro h
        cases h
      · rintro ⟨happ, hlen⟩
        have := congrArg length happ
        simp only [length_nil, length_append] at this
        omega
    | cons b bs =>
      simp only [split?, Option.map_eq_some_iff, Prod.mk.injEq, Prod.exists]
      constructor
      · rintro ⟨front', back', hs, rfl, rfl⟩
        obtain ⟨rfl, rfl⟩ := ih.1 hs
        exact ⟨rfl, rfl⟩
      · rintro ⟨happ, hlen⟩
        cases front with
        | nil => cases hlen
        | cons b' front =>
          cases happ
          exact ⟨front, back, ih.2 ⟨rfl, Nat.succ.inj hlen⟩, rfl, rfl⟩

theorem toNat_ofNat_lt (h : n < 256) : (UInt8.ofNat n).toNat = n := by
  rw [UInt8.toNat_ofNat']
  exact Nat.mod_eq_of_lt h

theorem length_littleEndian (width n : Nat) : (littleEndian width n).length = width := by
  induction width generalizing n with
  | zero => rfl
  | succ width ih => rw [littleEndian, length_cons, ih]

theorem ofLittleEndian_littleEndian (width n : Nat) :
    ofLittleEndian (littleEndian width n) = n % 256 ^ width := by
  induction width generalizing n with
  | zero => rw [Nat.pow_zero, Nat.mod_one]; rfl
  | succ width ih =>
    have hb : n % 256 < 256 := Nat.mod_lt _ (by omega)
    rw [littleEndian, ofLittleEndian, ih, toNat_ofNat_lt hb, Nat.pow_succ', Nat.mod_mul]

theorem littleEndian_ofLittleEndian (bs : Bytes) :
    littleEndian bs.length (ofLittleEndian bs) = bs := by
  induction bs with
  | nil => rfl
  | cons b bs ih =>
    have hb := b.toNat_lt
    rw [length_cons, ofLittleEndian, littleEndian]
    have hmod : (b.toNat + 256 * ofLittleEndian bs) % 256 = b.toNat := by omega
    have hdiv : (b.toNat + 256 * ofLittleEndian bs) / 256 = ofLittleEndian bs := by omega
    rw [hmod, hdiv, ih, UInt8.ofNat_toNat]

end Binary

open Binary Decoder Fallible

theorem take_eq_ok (h : take n c = .ok (bs, c')) : c.rest = bs ++ c'.rest ∧ bs.length = n := by
  unfold take at h
  cases hs : split? n c.rest with
  | none => rw [hs] at h; cases h
  | some p =>
    rw [hs] at h
    cases h
    exact split?_eq_some.1 hs

theorem canonical_take (bs : Bytes) : Canonical (take bs.length) bs bs := by
  refine ⟨fun rest n => ?_, fun c c' h => ?_⟩
  · unfold take
    rw [split?_eq_some.2 ⟨rfl, rfl⟩]
  · exact ⟨bs, (take_eq_ok h).1, .refl _⟩

theorem Canonical.tagged {α : Type} {d tail : Decoder α} {a : α} {b : UInt8}
    (ht : Canonical tail a bs) (hd : ∀ rest n, d ⟨b :: rest, n⟩ = tail ⟨rest, n + 1⟩)
    (hnil : ∀ n r, d ⟨[], n⟩ ≠ .ok r)
    (htag : ∀ b' rest n c', d ⟨b' :: rest, n⟩ = .ok (a, c') → b' = b) :
    Canonical d a (b :: bs) := by
  refine ⟨fun rest n => ?_, fun c c' h => ?_⟩
  · rw [cons_append, hd, ht.reads, length_cons, Nat.add_assoc, Nat.add_comm 1]
  · obtain ⟨bytes, n⟩ := c
    cases bytes with
    | nil => exact absurd h (hnil n _)
    | cons b' rest =>
      obtain rfl := htag b' rest n c' h
      rw [hd] at h
      obtain ⟨used, hu, hn⟩ := ht.shortest _ _ h
      exact ⟨b' :: used, congrArg (b' :: ·) hu, hn.cons b'⟩

theorem ofLittleEndian_lt (bs : Bytes) : ofLittleEndian bs < 256 ^ bs.length := by
  induction bs with
  | nil => exact Nat.one_pos
  | cons b bs ih =>
    have hb := b.toNat_lt
    rw [ofLittleEndian, length_cons, pow_succ]
    omega

theorem word_lt {width : Nat} (h : word width c = .ok (n, c')) : n < 256 ^ width := by
  obtain ⟨bs, c1, htake, h⟩ := bind_eq_ok.1 h
  obtain rfl : n = ofLittleEndian bs := congrArg Prod.fst (pure_eq_ok.1 h)
  rw [← (take_eq_ok htake).2]
  exact ofLittleEndian_lt bs

theorem canonical_word {width : Nat} (hn : n < 256 ^ width) :
    Canonical (word width) n (littleEndian width n) := by
  have htake := canonical_take (littleEndian width n)
  rw [length_littleEndian] at htake
  unfold word
  refine htake.andThen ?_ fun bs c c1 c' hbs h => ?_
  · rw [ofLittleEndian_littleEndian, Nat.mod_eq_of_lt hn]
    exact .pure n
  · obtain rfl : n = ofLittleEndian bs := congrArg Prod.fst (pure_eq_ok.1 h)
    rw [← (take_eq_ok hbs).2, littleEndian_ofLittleEndian]

/-!
## Numbers
-/

theorem varint_of_lt (h : n < 128) : Binary.varint n = [UInt8.ofNat n] := by
  unfold Binary.varint
  rw [if_pos h]

theorem varint_of_ge (h : 128 ≤ n) :
    Binary.varint n = UInt8.ofNat (n % 128 + 128) :: Binary.varint (n / 128) := by
  rw [Binary.varint, if_neg (by omega)]

theorem varint_digit {b : UInt8} (hb : 128 ≤ b.toNat) (hn : 0 < n) :
    Binary.varint (b.toNat % 128 + 128 * n) = b :: Binary.varint n := by
  have hlt := b.toNat_lt
  rw [varint_of_ge (by omega)]
  have hmod : (b.toNat % 128 + 128 * n) % 128 + 128 = b.toNat := by omega
  have hdiv : (b.toNat % 128 + 128 * n) / 128 = n := by omega
  rw [hmod, hdiv, UInt8.ofNat_toNat]

theorem terminated_varint (n : Nat) :
    Terminated (Binary.varint n) ∧ digitSum (Binary.varint n) = n := by
  induction n using Nat.strong_induction_on with
  | _ n ih =>
    rcases Nat.lt_or_ge n 128 with hlt | hge
    · have hb := toNat_ofNat_lt (show n < 256 by omega)
      rw [varint_of_lt hlt, terminated_cons_of_lt (by rwa [hb]), digitSum_singleton (by rwa [hb]), hb]
      exact ⟨rfl, rfl⟩
    · have hb := toNat_ofNat_lt (show n % 128 + 128 < 256 by omega)
      obtain ⟨hterm, hsum⟩ := ih (n / 128) (by omega)
      rw [varint_of_ge hge, terminated_cons_of_ge (by omega), digitSum_cons, hb, hsum]
      exact ⟨hterm, by omega⟩

theorem length_varint_le {k : Nat} (h : n < 128 ^ (k + 1)) : (Binary.varint n).length ≤ k + 1 := by
  induction k generalizing n with
  | zero => rw [varint_of_lt (by omega), length_singleton]
  | succ k ih =>
    rcases Nat.lt_or_ge n 128 with hlt | hge
    · rw [varint_of_lt hlt, length_singleton]
      omega
    · rw [varint_of_ge hge, length_cons]
      exact Nat.succ_le_succ (ih (Nat.div_lt_of_lt_mul (by rwa [← pow_succ'])))

theorem noShorter_varint {used : Bytes} (h : Terminated used) :
    NoShorter (Binary.varint (digitSum used)) used := by
  induction used with
  | nil => exact absurd h not_terminated_nil
  | cons b used ih =>
    by_cases hb : b.toNat < 128
    · obtain rfl := (terminated_cons_of_lt hb).1 h
      rw [digitSum_singleton hb, varint_of_lt hb, UInt8.ofNat_toNat]
      exact .refl _
    · have hused := (terminated_cons_of_ge hb).1 h
      have hlen := (ih hused).length_le
      rw [digitSum_cons]
      rcases Nat.eq_zero_or_pos (digitSum used) with hzero | hpos
      · -- digits that only pad the number
        rw [hzero, varint_of_lt (by omega), length_singleton] at hlen
        rw [hzero, varint_of_lt (by omega)]
        exact .inr (by simp only [length_cons, length_nil]; omega)
      · rw [varint_digit (by omega) hpos]
        exact (ih hused).cons b

theorem canonical_varint (hn : n < UInt64.size) : Canonical Decoder.varint n (Binary.varint n) := by
  obtain ⟨hterm, hsum⟩ := terminated_varint n
  refine ⟨fun rest m => ?_, fun c c' h => ?_⟩
  · have hten : n < 128 ^ (9 + 1) := hn.trans (by decide)
    refine (varintDigits_eq_ok_iff (Nat.zero_le 9)).2
      ⟨_, ⟨rfl, hterm, (Nat.zero_add _).trans_le (length_varint_le hten), ?_, rfl⟩, ?_⟩
    · rwa [hsum, pow_zero, Nat.mul_one]
    · rw [hsum, pow_zero, Nat.mul_one, Nat.zero_add]
  · obtain ⟨used, hs, rfl⟩ := (varintDigits_eq_ok_iff (Nat.zero_le 9)).1 h
    rw [pow_zero, Nat.mul_one, Nat.zero_add]
    exact ⟨used, hs.split, noShorter_varint hs.terminated⟩

theorem canonical_varint32 (n : UInt32) : Canonical varint32 n (Binary.varint n.toNat) := by
  have hn := n.toNat_lt
  have hsize : n.toNat < UInt64.size := by
    have : UInt64.size = 18446744073709551616 := rfl
    omega
  unfold varint32
  refine .position fun m => ?_
  refine (canonical_varint hsize).andThen ?_ fun k c c1 c' _ h => ?_
  · rw [if_pos (show n.toNat < UInt32.size from n.toNat_lt), UInt32.ofNat_toNat]
    exact .pure n
  · by_cases hk : k < UInt32.size
    · rw [if_pos hk] at h
      have heq : n = UInt32.ofNat k := congrArg Prod.fst (pure_eq_ok.1 h)
      rw [heq, UInt32.toNat_ofNat_of_lt' hk]
    · rw [if_neg hk] at h
      exact absurd h throw_ne_ok

theorem zigzag_lt (n : Int64) : zigzag n.toInt < UInt64.size := by
  have hlo := n.le_toInt
  have hhi := n.toInt_lt
  have hsize : UInt64.size = 18446744073709551616 := rfl
  unfold zigzag
  split <;> omega

theorem unzigzag_zigzag (n : Int) : unzigzag (zigzag n) = n := by
  unfold unzigzag zigzag
  split <;> split <;> omega

theorem zigzag_unzigzag (n : Nat) : zigzag (unzigzag n) = n := by
  unfold unzigzag zigzag
  split <;> split <;> omega

theorem unzigzag_bounds (hn : n < UInt64.size) :
    -9223372036854775808 ≤ unzigzag n ∧ unzigzag n < 9223372036854775808 := by
  have hsize : UInt64.size = 18446744073709551616 := rfl
  unfold unzigzag
  split <;> omega

theorem varint_lt (h : Decoder.varint c = .ok (n, c')) : n < UInt64.size := by
  obtain ⟨used, hs, rfl⟩ := (varintDigits_eq_ok_iff (Nat.zero_le 9)).1 h
  simpa using hs.word

theorem canonical_signed (n : Int64) :
    Canonical signed n (Binary.varint (zigzag n.toInt)) := by
  unfold signed
  refine (canonical_varint (zigzag_lt n)).andThen ?_ fun k c c1 c' hk h => ?_
  · rw [unzigzag_zigzag, Int64.ofInt_toInt]
    exact .pure n
  · have hn : n = Int64.ofInt (unzigzag k) := congrArg Prod.fst (pure_eq_ok.1 h)
    obtain ⟨hlo, hhi⟩ := unzigzag_bounds (varint_lt hk)
    rw [hn, Int64.toInt_ofInt_of_le hlo hhi, zigzag_unzigzag]

/-- **Numbers are read exactly.** Reading succeeds if and only if one of the next ten bytes is the
first without a flag and the digits up to it stand for a word. The number read is that word, put
together by shifts that lose nothing, and these bytes are consumed. Else the input ends too early if
it has fewer than ten bytes, all of them with a flag, and overflows if not. What was written for a
word or a signed word is read back and ends where it was written to. -/
theorem varint_reads_exactly :
    (∀ (c c' : Cursor) (n : Nat), Decoder.varint c = .ok (n, c') ↔
      ∃ used, c.rest = used ++ c'.rest ∧ c'.offset = c.offset + used.length ∧ used.length ≤ 10 ∧
        Terminated used ∧ digitSum used < 2 ^ 64 ∧ n = digitSum used) ∧
    (∀ c e, Decoder.varint c = .error e →
      e = if c.rest.length < 10 ∧ ∀ b ∈ c.rest, b &&& 0x80 ≠ 0
        then .truncated (c.offset + c.rest.length) else .malformed (.varintOverflow c.offset)) ∧
    (∀ c, Decoder.varint c =
      (wordDigits c.offset 0 0 c.offset c.rest).map fun r => (r.1.toNat, r.2)) ∧
    (∀ (n : UInt64) rest k,
      Int64.ofInt (unzigzag n.toNat) = (n >>> 1).toInt64 ^^^ -(n &&& 1).toInt64 ∧
      Decoder.varint ⟨Binary.varint n.toNat ++ rest, k⟩ =
        .ok (n.toNat, ⟨rest, k + (Binary.varint n.toNat).length⟩)) ∧
    ∀ (n : Int64) rest k, zigzag n.toInt = ((n <<< 1) ^^^ (n >>> 63)).toUInt64.toNat ∧
      signed ⟨Binary.varint (zigzag n.toInt) ++ rest, k⟩ =
        .ok (n, ⟨rest, k + (Binary.varint (zigzag n.toInt)).length⟩) := by
  refine ⟨fun c c' n => ?_, fun c e h => ?_, fun c => ?_, fun n rest k => ?_, fun n rest k => ?_⟩
  · refine (varintDigits_eq_ok_iff (Nat.zero_le 9)).trans (exists_congr fun used => ?_)
    constructor
    · rintro ⟨⟨hsplit, hterm, hshort, hword, hoff⟩, hn⟩
      exact ⟨hsplit, hoff, by simpa using hshort, hterm, by simpa using hword, by simpa using hn⟩
    · rintro ⟨hsplit, hoff, hshort, hterm, hword, hn⟩
      exact ⟨⟨hsplit, hterm, by simpa using hshort, by simpa using hword, hoff⟩, by simpa using hn⟩
  · rcases varintDigits_error (Nat.zero_le 9) h with ⟨rfl, hshort⟩ | ⟨rfl, hnot⟩
    · rw [if_pos (by simpa using hshort)]
    · rw [if_neg (by simpa using hnot)]
  · exact varintDigits_eq_wordDigits (Nat.zero_le 9) (show (0 : UInt64).toNat < 128 ^ 0 by decide)
  · exact ⟨unzigzag_eq_word n, (canonical_varint n.toNat_lt).reads rest k⟩
  · exact ⟨zigzag_eq_word n, (canonical_signed n).reads rest k⟩

/-!
## Texts and tables
-/

/-- A text whose length is a word, as that of every text in the memory of a machine is. -/
def Addressable (s : String) : Prop := s.utf8ByteSize < UInt64.size

instance (s : String) : Decidable (Addressable s) := inferInstanceAs (Decidable (_ < _))

theorem fromUTF8?_toUTF8 (s : String) : String.fromUTF8? s.toUTF8 = some s := by
  unfold String.fromUTF8?
  rw [dif_pos (show s.toUTF8.IsValidUTF8 from s.isValidUTF8)]
  rfl

theorem toUTF8_of_fromUTF8? {b : ByteArray} (h : String.fromUTF8? b = some s) : s.toUTF8 = b := by
  unfold String.fromUTF8? at h
  split at h
  · cases h
    rfl
  · cases h

theorem toList_loop_eq (b : ByteArray) (i : Nat) (r : List UInt8) :
    ByteArray.toList.loop b i r = r.reverse ++ b.data.toList.drop i := by
  induction hk : b.size - i generalizing i r with
  | zero =>
    have hge : b.data.toList.length ≤ i := by
      have : b.data.toList.length = b.size := rfl
      omega
    unfold ByteArray.toList.loop
    rw [if_neg (by omega), drop_eq_nil_of_le hge, append_nil]
  | succ k ih =>
    have hlt : i < b.data.toList.length := by
      have : b.data.toList.length = b.size := rfl
      omega
    have hget : b.get! i = b.data.toList[i] := by
      show b.data[i]! = _
      rw [getElem!_pos b.data i hlt, Array.getElem_toList]
    unfold ByteArray.toList.loop
    rw [if_pos (by omega), ih (i + 1) _ (by omega), drop_eq_getElem_cons hlt, hget]
    simp

theorem toList_eq (b : ByteArray) : b.toList = b.data.toList := by
  rw [ByteArray.toList, toList_loop_eq]
  rfl

theorem text_eq_ok {m : Nat} (h : (match String.fromUTF8? ⟨bs.toArray⟩ with
      | some s => Pure.pure s
      | none => throw (.malformed (.invalidText m)) : Decoder String) c = .ok (s, c')) :
    s.toUTF8 = ⟨bs.toArray⟩ := by
  cases hs : String.fromUTF8? ⟨bs.toArray⟩ with
  | none =>
    simp only [hs] at h
    exact absurd h throw_ne_ok
  | some s' =>
    simp only [hs] at h
    obtain rfl : s = s' := congrArg Prod.fst (pure_eq_ok.1 h)
    exact toUTF8_of_fromUTF8? hs

theorem canonical_text (hs : Addressable s) : Canonical Decoder.text s (Binary.text s) := by
  have hlen : s.toUTF8.toList.length = s.toUTF8.size := by
    rw [toList_eq]
    rfl
  have hbytes : (⟨s.toUTF8.toList.toArray⟩ : ByteArray) = s.toUTF8 := by
    rw [toList_eq]
  have htake := canonical_take s.toUTF8.toList
  rw [hlen] at htake
  unfold Decoder.text Binary.text
  refine .position fun m => ?_
  refine (canonical_varint hs).bind ?_ fun k c c1 c' _ hk => ?_
  · refine htake.andThen ?_ fun bs c c1 c' _ hc => ?_
    · simp only [hbytes, fromUTF8?_toUTF8]
      exact .pure s
    · rw [text_eq_ok hc, toList_eq]
  · -- the text tells how many bytes were taken
    obtain ⟨bs, c2, htake, hc⟩ := bind_eq_ok.1 hk
    have hsize : s.utf8ByteSize = bs.length := congrArg ByteArray.size (text_eq_ok hc)
    rw [hsize, (take_eq_ok htake).2]

/-- A table of canonical items, spelled one after another, is canonical. -/
theorem canonical_repeated {α : Type} {item : Nat → Decoder α} (spell : Nat → α → Bytes)
    (table : Nat → List α → Bytes) (hnil : ∀ i, table i [] = [])
    (hcons : ∀ i x xs, table i (x :: xs) = spell i x ++ table (i + 1) xs) (xs : List α) (i : Nat)
    (h : ∀ k x, xs[k]? = some x → Canonical (item (i + k)) x (spell (i + k) x)) :
    Canonical (repeated item i xs.length) xs (table i xs) := by
  induction xs generalizing i with
  | nil =>
    rw [hnil]
    exact .pure []
  | cons x xs ih =>
    have hx : Canonical (item i) x (spell i x) := h 0 x rfl
    have hxs := ih (i + 1) fun k y hy => by
      rw [show i + 1 + k = i + (k + 1) by omega]
      exact h (k + 1) y hy
    rw [hcons, length_cons, repeated]
    refine hx.bind ?_ fun y c c1 c' _ hy => ?_
    · exact hxs.map fun ys hys => (cons.inj hys).2
    · obtain ⟨ys, c2, -, hc⟩ := bind_eq_ok.1 hy
      have heq : x :: xs = y :: ys := congrArg Prod.fst (pure_eq_ok.1 hc)
      exact (cons.inj heq).1.symm

end GraphReduction
