import GraphReduction.Binary.Decode
import Mathlib

/-!
# Numbers in base 128

A number is read up to its first byte without a flag. Ten digits hold 70 bits, so a spelling of ten
bytes may stand for a number that is no word, which its last byte tells. A word is put together from
its digits by shifts, a signed one is folded by shifts and masks, and none of these loses a bit.
-/

namespace GraphReduction

open List hiding map take
open Binary

variable {n i start offset : Nat} {b : UInt8} {bs used : Bytes} {c : Cursor}

/-- All bytes but the last have a flag. -/
def Terminated (used : Bytes) : Prop :=
  ∃ front last, used = front ++ [last] ∧ (∀ b ∈ front, b &&& 0x80 ≠ 0) ∧ last &&& 0x80 = 0

/-- The number that digits stand for, the least significant one first. -/
def digitSum (used : Bytes) : Nat :=
  ∑ i : Fin used.length, (used.get i &&& 0x7f).toNat * 2 ^ (7 * i.val)

theorem toNat_and_mask (b : UInt8) : (b &&& 0x7f).toNat = b.toNat % 128 := by
  rw [UInt8.toNat_and]
  exact Nat.and_two_pow_sub_one_eq_mod b.toNat 7

theorem flag_eq_zero_iff (b : UInt8) : b &&& 0x80 = 0 ↔ b.toNat < 128 := by
  have hall : ∀ n < 256, UInt8.ofNat n &&& 0x80 = 0 ↔ n < 128 := by decide +kernel
  simpa only [UInt8.ofNat_toNat] using hall b.toNat b.toNat_lt

theorem digitSum_cons (b : UInt8) (bs : Bytes) :
    digitSum (b :: bs) = b.toNat % 128 + 128 * digitSum bs := by
  have hsucc : ∀ i : Fin bs.length, (bs.get i &&& 0x7f).toNat * 2 ^ (7 * i.succ.val) =
      128 * ((bs.get i &&& 0x7f).toNat * 2 ^ (7 * i.val)) := by
    intro i
    rw [Fin.val_succ, Nat.mul_succ, pow_add]
    ring
  unfold digitSum
  rw [Finset.mul_sum, ← Finset.sum_congr rfl fun i _ => hsucc i, ← toNat_and_mask]
  refine (Fin.sum_univ_succ _).trans ?_
  rw [Fin.val_zero, Nat.mul_zero, pow_zero, Nat.mul_one]
  rfl

theorem digitSum_singleton (h : b.toNat < 128) : digitSum [b] = b.toNat := by
  rw [digitSum_cons, Nat.mod_eq_of_lt h]
  rfl

theorem not_terminated_nil : ¬ Terminated [] := by
  rintro ⟨front, last, h, -⟩
  simp at h

theorem terminated_cons_of_lt (hb : b.toNat < 128) : Terminated (b :: bs) ↔ bs = [] := by
  constructor
  · rintro ⟨front, last, hused, hfront, -⟩
    cases front with
    | nil => exact (cons_eq_cons.1 hused).2
    | cons b' front =>
      obtain ⟨rfl, -⟩ := cons_eq_cons.1 hused
      exact absurd ((flag_eq_zero_iff b).2 hb) (hfront b mem_cons_self)
  · rintro rfl
    exact ⟨[], b, rfl, by simp, (flag_eq_zero_iff b).2 hb⟩

theorem terminated_cons_of_ge (hb : ¬ b.toNat < 128) : Terminated (b :: bs) ↔ Terminated bs := by
  have hflag : b &&& 0x80 ≠ 0 := fun h => hb ((flag_eq_zero_iff b).1 h)
  constructor
  · rintro ⟨front, last, hused, hfront, hlast⟩
    cases front with
    | nil =>
      obtain ⟨rfl, -⟩ := cons_eq_cons.1 hused
      exact absurd hlast hflag
    | cons b' front =>
      obtain ⟨-, rfl⟩ := cons_eq_cons.1 hused
      exact ⟨front, last, rfl, fun x hx => hfront x (mem_cons_of_mem b' hx), hlast⟩
  · rintro ⟨front, last, rfl, hfront, hlast⟩
    refine ⟨b :: front, last, rfl, fun x hx => ?_, hlast⟩
    rcases mem_cons.1 hx with rfl | hx
    · exact hflag
    · exact hfront x hx

theorem Terminated.eq_of_append {bs' r r' : Bytes} (h : Terminated bs) (h' : Terminated bs')
    (heq : bs ++ r = bs' ++ r') : bs = bs' := by
  induction bs generalizing bs' with
  | nil => exact absurd h not_terminated_nil
  | cons b bs ih =>
    cases bs' with
    | nil => exact absurd h' not_terminated_nil
    | cons b' bs' =>
      obtain ⟨rfl, htail⟩ := cons_eq_cons.1 heq
      by_cases hb : b.toNat < 128
      · rw [(terminated_cons_of_lt hb).1 h, (terminated_cons_of_lt hb).1 h']
      · rw [ih ((terminated_cons_of_ge hb).1 h) ((terminated_cons_of_ge hb).1 h') htail]

/-- One more digit at the lower end of a number keeps it a word, as a word has a whole number of
places above the digit. -/
theorem digit_room {d v : Nat} (hi : i < 9) (hd : d < 128) :
    (d + 128 * v) * 128 ^ i < 2 ^ 64 ↔ v * 128 ^ (i + 1) < 2 ^ 64 := by
  obtain ⟨k, hk⟩ : ∃ k, i + 1 + k = 9 := ⟨8 - i, by omega⟩
  have hword : (2 : Nat) ^ 64 = 2 * 128 ^ k * 128 ^ (i + 1) := by
    rw [mul_assoc, ← pow_add, Nat.add_comm k, hk]
    rfl
  have hword' : (2 : Nat) ^ 64 = 128 * (2 * 128 ^ k) * 128 ^ i := by rw [hword, pow_succ]; ring
  have hlow : (d + 128 * v) * 128 ^ i < 2 ^ 64 ↔ d + 128 * v < 128 * (2 * 128 ^ k) := by
    rw [hword', Nat.mul_lt_mul_right (Nat.pow_pos (by omega))]
  have hhigh : v * 128 ^ (i + 1) < 2 ^ 64 ↔ v < 2 * 128 ^ k := by
    rw [hword, Nat.mul_lt_mul_right (Nat.pow_pos (by omega))]
  rw [hlow, hhigh]
  omega

theorem digit_fits {d : Nat} (hi : i ≤ 9) (hd : d < 128) (hten : i = 9 → d ≤ 1) :
    d * 128 ^ i < 2 ^ 64 := by
  rcases Nat.eq_or_lt_of_le hi with rfl | hlt
  · have := hten rfl
    omega
  · have hle : 128 ^ (i + 1) ≤ 128 ^ 9 := Nat.pow_le_pow_right (by omega) hlt
    have hmul : d * 128 ^ i < 128 * 128 ^ i := Nat.mul_lt_mul_of_pos_right hd (Nat.pow_pos (by omega))
    rw [pow_succ] at hle
    omega

/-- What is read from digit `i` on: digits up to the first one without a flag, ten at most in all,
that stand for a word. -/
structure Spells (i : Nat) (bs : Bytes) (offset : Nat) (used : Bytes) (c : Cursor) : Prop where
  split : bs = used ++ c.rest
  terminated : Terminated used
  short : i + used.length ≤ 10
  word : digitSum used * 128 ^ i < 2 ^ 64
  offset : c.offset = offset + used.length

theorem Spells.cons_iff (hi : i < 9) (hb : ¬ b.toNat < 128) :
    Spells i (b :: bs) offset (b :: used) c ↔ Spells (i + 1) bs (offset + 1) used c := by
  have hd : b.toNat % 128 < 128 := Nat.mod_lt _ (by omega)
  constructor
  · rintro ⟨hsplit, hterm, hshort, hword, hoff⟩
    rw [digitSum_cons, digit_room hi hd] at hword
    rw [length_cons] at hshort hoff
    exact ⟨(cons_eq_cons.1 hsplit).2, (terminated_cons_of_ge hb).1 hterm, by omega, hword, by omega⟩
  · rintro ⟨rfl, hterm, hshort, hword, hoff⟩
    refine ⟨rfl, (terminated_cons_of_ge hb).2 hterm, ?_, ?_, ?_⟩
    · rw [length_cons]; omega
    · rwa [digitSum_cons, digit_room hi hd]
    · rw [length_cons]; omega

theorem Spells.exists_cons (h : Spells i (b :: bs) offset used c) : ∃ rest, used = b :: rest := by
  cases used with
  | nil => exact absurd h.terminated not_terminated_nil
  | cons b' rest => exact ⟨rest, by rw [(cons_eq_cons.1 h.split).1]⟩

/-- **Digits are read exactly if they spell a word.** -/
theorem varintDigits_eq_ok_iff {acc : Nat} (hi : i ≤ 9) :
    varintDigits start i acc offset bs = .ok (n, c) ↔
      ∃ used, Spells i bs offset used c ∧ n = acc + digitSum used * 128 ^ i := by
  induction bs generalizing i acc offset with
  | nil =>
    constructor
    · intro h
      cases h
    · rintro ⟨used, h, -⟩
      have hnil := (nil_eq_append_iff.1 h.split).1
      exact absurd (hnil ▸ h.terminated) not_terminated_nil
  | cons b bs ih =>
    have hlast : b.toNat < 128 → ∀ used, Spells i (b :: bs) offset used c → used = [b] := by
      intro hb used h
      obtain ⟨rest, rfl⟩ := h.exists_cons
      rw [(terminated_cons_of_lt hb).1 h.terminated]
    rw [varintDigits]
    split
    · -- a tenth byte above one is no single bit, whether it has a flag or not
      rename_i hten
      obtain ⟨rfl, hbit⟩ := hten
      refine ⟨fun h => (by cases h), ?_⟩
      rintro ⟨used, h, -⟩
      obtain ⟨rest, rfl⟩ := h.exists_cons
      have hshort := h.short
      rw [length_cons] at hshort
      obtain rfl : rest = [] := length_eq_zero_iff.1 (by omega)
      have hb : b.toNat < 128 := by
        by_contra hb
        exact not_terminated_nil ((terminated_cons_of_ge hb).1 h.terminated)
      have hword := h.word
      rw [digitSum_singleton hb] at hword
      omega
    · rename_i hten
      simp only
      split
      · rename_i hb
        rw [Nat.mod_eq_of_lt hb]
        constructor
        · intro h
          cases h
          refine ⟨[b], ⟨rfl, (terminated_cons_of_lt hb).2 rfl, ?_, ?_, rfl⟩, ?_⟩
          · rw [length_singleton]; omega
          · rw [digitSum_singleton hb]
            exact digit_fits hi hb (by omega)
          · rw [digitSum_singleton hb]
            rfl
        · rintro ⟨used, h, rfl⟩
          obtain rfl := hlast hb used h
          obtain rfl : bs = c.rest := (cons_eq_cons.1 h.split).2
          rw [digitSum_singleton hb]
          exact congrArg (fun o => Except.ok (_, (⟨c.rest, o⟩ : Cursor))) h.offset.symm
      · rename_i hb
        have hlt : i < 9 := by omega
        have hvalue : ∀ v, acc + b.toNat % 128 * Nat.pow 128 i + v * 128 ^ (i + 1) =
            acc + (b.toNat % 128 + 128 * v) * 128 ^ i := by
          intro v
          show acc + b.toNat % 128 * 128 ^ i + _ = _
          rw [pow_succ]
          ring
        rw [ih hlt]
        constructor
        · rintro ⟨used, h, rfl⟩
          exact ⟨b :: used, (Spells.cons_iff hlt hb).2 h, by rw [digitSum_cons, hvalue]⟩
        · rintro ⟨used, h, rfl⟩
          obtain ⟨rest, rfl⟩ := h.exists_cons
          exact ⟨rest, (Spells.cons_iff hlt hb).1 h, by rw [digitSum_cons, hvalue]⟩

/-- A varint fails by ending in a continuation or by a tenth digit too large. -/
theorem varintDigits_error {acc : Nat} {e : FormatError} (hi : i ≤ 9)
    (h : varintDigits start i acc offset bs = .error e) :
    (e = .truncated (offset + bs.length) ∧ i + bs.length < 10 ∧ ∀ b ∈ bs, b &&& 0x80 ≠ 0) ∨
      (e = .malformed (.varintOverflow start) ∧
        ¬ (i + bs.length < 10 ∧ ∀ b ∈ bs, b &&& 0x80 ≠ 0)) := by
  induction bs generalizing i acc offset with
  | nil =>
    cases h
    exact .inl ⟨rfl, by simp; omega, by simp⟩
  | cons b bs ih =>
    rw [varintDigits] at h
    split at h
    · rename_i hten
      cases h
      exact .inr ⟨rfl, fun hshort => by have := hshort.1; rw [length_cons] at this; omega⟩
    · simp only at h
      split at h
      · cases h
      · rename_i hten hb
        have hflag : b &&& 0x80 ≠ 0 := fun h => hb ((flag_eq_zero_iff b).1 h)
        rw [length_cons, forall_mem_cons, Nat.add_comm bs.length, ← Nat.add_assoc, ← Nat.add_assoc]
        rcases ih (by omega) h with ⟨rfl, hshort, hall⟩ | ⟨rfl, hnot⟩
        · exact .inl ⟨rfl, hshort, hflag, hall⟩
        · exact .inr ⟨rfl, fun ⟨hshort, _, hall⟩ => hnot ⟨hshort, hall⟩⟩

/-!
## In words
-/

/-- The digits of a number, put together in a word by shifting each into its place. -/
def wordDigits (start shift : Nat) (acc : UInt64) (offset : Nat) :
    Bytes → Except FormatError (UInt64 × Cursor)
  | [] => .error (.truncated offset)
  | b :: bs =>
    if shift = 63 ∧ 1 < b ∨ 63 < shift then .error (.malformed (.varintOverflow start))
    else
      let acc := acc ||| (b &&& 0x7f).toUInt64 <<< UInt64.ofNat shift
      if b &&& 0x80 = 0 then .ok (acc, ⟨bs, offset + 1⟩)
      else wordDigits start (shift + 7) acc (offset + 1) bs

/-- A digit that is shifted into place above the others is added to them. -/
theorem toNat_or_shift {acc d : UInt64} (hi : i ≤ 9) (hacc : acc.toNat < 128 ^ i)
    (hd : d.toNat * 128 ^ i < 2 ^ 64) :
    (acc ||| d <<< UInt64.ofNat (7 * i)).toNat = acc.toNat + d.toNat * 128 ^ i := by
  have hpow : (128 : Nat) ^ i = 2 ^ (7 * i) := by rw [pow_mul]; rfl
  rw [hpow] at hacc hd ⊢
  have hshift : (UInt64.ofNat (7 * i)).toNat % 64 = 7 * i := by
    rw [UInt64.toNat_ofNat_of_lt' (by show 7 * i < 18446744073709551616; omega)]
    omega
  rw [UInt64.toNat_or, UInt64.toNat_shiftLeft, hshift, Nat.shiftLeft_eq, Nat.mod_eq_of_lt hd,
    Nat.or_comm, Nat.mul_comm, ← Nat.two_pow_add_eq_or_of_lt hacc, Nat.add_comm]

/-- **No bit is lost**: the word has the value of the digits. -/
theorem varintDigits_eq_wordDigits {acc : UInt64} (hi : i ≤ 9) (hacc : acc.toNat < 128 ^ i) :
    varintDigits start i acc.toNat offset bs =
      (wordDigits start (7 * i) acc offset bs).map fun r => (r.1.toNat, r.2) := by
  induction bs generalizing i acc offset with
  | nil => rfl
  | cons b bs ih =>
    have hone : 1 < b ↔ 1 < b.toNat := UInt8.lt_iff_toNat_lt
    have htest : (7 * i = 63 ∧ 1 < b ∨ 63 < 7 * i) ↔ (i = 9 ∧ 1 < b.toNat) := by rw [hone]; omega
    rw [varintDigits, wordDigits]
    simp only [htest, flag_eq_zero_iff]
    split
    · rfl
    · rename_i hten
      have hdigit : ((b &&& 0x7f).toUInt64).toNat = b.toNat % 128 := by
        rw [UInt8.toNat_toUInt64, toNat_and_mask]
      have hlt128 : b.toNat % 128 < 128 := Nat.mod_lt _ (by omega)
      have hfits : (b &&& 0x7f).toUInt64.toNat * 128 ^ i < 2 ^ 64 := by
        rw [hdigit]
        exact digit_fits hi hlt128 (by omega)
      have hsum := toNat_or_shift hi hacc hfits
      rw [hdigit] at hsum
      split
      · exact congrArg (fun n => Except.ok (n, _)) hsum.symm
      · have hlt : i < 9 := by omega
        show varintDigits start (i + 1) (acc.toNat + b.toNat % 128 * 128 ^ i) _ _ = _
        rw [← hsum]
        refine ih hlt ?_
        have hmul : b.toNat % 128 * 128 ^ i ≤ 127 * 128 ^ i := Nat.mul_le_mul_right _ (by omega)
        rw [hsum, pow_succ]
        omega

theorem shiftRight_sign (n : Int64) : n >>> 63 = if n.toInt < 0 then -1 else 0 := by
  have hlo := n.le_toInt
  have hhi := n.toInt_lt
  have hshift : (n >>> 63).toInt = n.toInt / 2 ^ 63 := by
    show (n >>> 63).toBitVec.toInt = _
    rw [Int64.toBitVec_shiftRight]
    exact BitVec.toInt_sshiftRight.trans (Int.shiftRight_eq_div_pow _ _)
  refine Int64.toInt_inj.1 ?_
  rw [hshift]
  split
  · show n.toInt / 2 ^ 63 = -1
    omega
  · show n.toInt / 2 ^ 63 = 0
    omega

theorem zigzag_eq_word (n : Int64) :
    zigzag n.toInt = ((n <<< 1) ^^^ (n >>> 63)).toUInt64.toNat := by
  have hlo := n.le_toInt
  have hhi := n.toInt_lt
  have hlt := n.toUInt64.toNat_lt
  have hbits : n.toInt = (n.toUInt64.toNat : Int).bmod (2 ^ 64) := BitVec.toInt_eq_toNat_bmod _
  have hdouble : (n <<< 1).toUInt64.toNat = n.toUInt64.toNat * 2 % 2 ^ 64 := by
    show (n <<< 1).toBitVec.toNat = _
    rw [Int64.toBitVec_shiftLeft]
    exact BitVec.toNat_shiftLeft.trans (by rw [Nat.shiftLeft_eq]; rfl)
  rw [Int.bmod_def] at hbits
  rw [shiftRight_sign, zigzag]
  split
  · rw [if_neg (by omega), Int64.xor_zero, hdouble]
    omega
  · have hsize : UInt64.size = 2 ^ 64 := rfl
    rw [if_pos (by omega), Int64.xor_neg_one, Int64.toUInt64_not, UInt64.toNat_not, hdouble, hsize]
    omega

/-- The lowest bit of a folded number, negated, is the mask that unfolds the others. -/
theorem unzigzag_eq_word (n : UInt64) :
    Int64.ofInt (unzigzag n.toNat) = (n >>> 1).toInt64 ^^^ -(n &&& 1).toInt64 := by
  have hhalf : (n >>> 1).toInt64 = Int64.ofInt (n.toNat / 2 : Nat) := by
    rw [← UInt64.ofNat_toNat (x := n >>> 1), UInt64.toNat_shiftRight]
    rfl
  have hbit : n &&& 1 = UInt64.ofNat (n.toNat % 2) := by
    rw [← UInt64.ofNat_toNat (x := n &&& 1), UInt64.toNat_and, show (1 : UInt64).toNat = 1 from rfl,
      Nat.and_one_is_mod]
  rw [hhalf, hbit, unzigzag]
  rcases Nat.mod_two_eq_zero_or_one n.toNat with h | h
  · rw [h, if_pos rfl]
    exact Int64.xor_zero.symm
  · rw [h, if_neg (by omega)]
    show _ = _ ^^^ -1
    rw [Int64.xor_neg_one, Int64.not_eq_neg_add, Int64.ofInt_sub, Int64.ofInt_neg]
    rfl

end GraphReduction
