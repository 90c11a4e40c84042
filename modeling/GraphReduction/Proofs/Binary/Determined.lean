import GraphReduction.Proofs.Binary.Delimited

/-!
# What is read from the start of a spelling

A spelling that is too large for its reader need not be read back, and one that is cut short is not.
But where something is read from it, it is what was spelt, and all of the spelling was there. No bound
on sizes is needed for that.
-/

namespace GraphReduction

open List hiding map take
open Binary Decoder Fallible

variable {α β : Type}

/-- **All that `d` can read from `bs`**, with other bytes after it and possibly cut short, has `P`,
and is read only where all of `bs` is there. -/
def Determines (d : Decoder α) (bs : Bytes) (P : α → Prop) : Prop :=
  ∀ input rest n a c', input <+: bs ++ rest → d ⟨input, n⟩ = .ok (a, c') →
    P a ∧ input = bs ++ c'.rest

namespace Determines

variable {d : Decoder α} {f : α → Decoder β} {P : α → Prop} {Q : β → Prop} {bs bs' : Bytes}
  {g : Nat → Decoder β}

theorem pure {a : α} (h : P a) : Determines (Pure.pure a) [] P := by
  rintro input rest n a' c' - hd
  cases hd
  exact ⟨h, rfl⟩

theorem throw (e : FormatError) : Determines (throw e : Decoder α) bs P :=
  fun _ _ _ _ _ _ hd => absurd hd throw_ne_ok

/-- **A sequence of decoders**, the second of which is told what the first one can have read. -/
theorem bind (h : Determines d bs P) (hf : ∀ a, P a → Determines (f a) bs' Q) :
    Determines (d >>= f) (bs ++ bs') Q := by
  intro input rest n b c' hinput hd
  obtain ⟨a, c1, ha, hb⟩ := bind_eq_ok.1 hd
  rw [append_assoc] at hinput
  obtain ⟨hP, rfl⟩ := h input (bs' ++ rest) n a c1 hinput ha
  obtain ⟨hQ, hrest⟩ := hf a hP c1.rest rest c1.offset b c'
    ((prefix_append_right_inj bs).1 hinput) hb
  exact ⟨hQ, by rw [hrest, append_assoc]⟩

theorem andThen (h : Determines d bs P) (hf : ∀ a, P a → Determines (f a) [] Q) :
    Determines (d >>= f) bs Q := by
  have hb := h.bind hf
  rwa [append_nil] at hb

theorem map {g : α → β} (h : Determines d bs P) (hg : ∀ a, P a → Q (g a)) :
    Determines (d >>= fun a => Pure.pure (g a)) bs Q :=
  h.andThen fun a ha => pure (hg a ha)

theorem position (h : ∀ n, Determines (g n) bs Q) : Determines (Decoder.position >>= g) bs Q :=
  fun input rest n b c' hinput hd => h n input rest n b c' hinput hd

theorem remaining (h : ∀ n, Determines (g n) bs Q) : Determines (Decoder.remaining >>= g) bs Q :=
  fun input rest n b c' hinput hd => h input.length input rest n b c' hinput hd

theorem lift {x : Except FormatError α} (h : ∀ a, x = .ok a → P a) :
    Determines (liftM x : Decoder α) [] P := by
  cases x with
  | error e => exact throw e
  | ok a => exact pure (h a rfl)

theorem ite {p : Prop} [Decidable p] {d1 d2 : Decoder α} (h1 : p → Determines d1 bs P)
    (h2 : ¬ p → Determines d2 bs P) : Determines (if p then d1 else d2) bs P := by
  split
  · exact h1 ‹_›
  · exact h2 ‹_›

theorem check {p : Prop} [Decidable p] {e : FormatError} {g : α → Decoder β} {y : Decoder β}
    (hy : ¬ p → Determines y bs Q) :
    Determines (if p then MonadExcept.throw e >>= g else y) bs Q := by
  refine .ite (fun _ input rest n b c' _ hd => ?_) hy
  obtain ⟨_, _, hthrow, -⟩ := bind_eq_ok.1 hd
  exact absurd hthrow throw_ne_ok

theorem of_run (h : Determines d bs P) {a : α} {input : Bytes} (hinput : input <+: bs)
    (hd : (d.run ⟨input, 0⟩).map Prod.fst = .ok a) : P a := by
  obtain ⟨c', hc⟩ := exists_of_run hd
  exact (h input [] 0 a c' (by rwa [append_nil]) hc).1

end Determines

/-!
## Numbers, texts and tables
-/

theorem determines_take (bs : Bytes) : Determines (take bs.length) bs (· = bs) := by
  intro input rest n a c' hinput hd
  obtain ⟨hsplit, hlen⟩ := take_eq_ok hd
  have hsplit : input = a ++ c'.rest := hsplit
  obtain ⟨q, hq⟩ := hinput
  rw [hsplit, append_assoc] at hq
  obtain ⟨rfl, -⟩ := append_inj hq hlen
  exact ⟨rfl, hsplit⟩

theorem Determines.tagged {d tail : Decoder α} {P : α → Prop} {b : UInt8} {bs : Bytes}
    (ht : Determines tail bs P) (hd : ∀ rest n, d ⟨b :: rest, n⟩ = tail ⟨rest, n + 1⟩)
    (hnil : ∀ n r, d ⟨[], n⟩ ≠ .ok r) : Determines d (b :: bs) P := by
  intro input rest n a c' hinput h
  cases input with
  | nil => exact absurd h (hnil n _)
  | cons b' input =>
    rw [cons_append] at hinput
    obtain ⟨rfl, htail⟩ := cons_prefix_cons.1 hinput
    rw [hd] at h
    obtain ⟨hP, hrest⟩ := ht input rest (n + 1) a c' htail h
    exact ⟨hP, congrArg (b' :: ·) hrest⟩

theorem determines_word {width n : Nat} (hn : n < 256 ^ width) :
    Determines (word width) (littleEndian width n) (· = n) := by
  have htake := determines_take (littleEndian width n)
  rw [length_littleEndian] at htake
  refine htake.map ?_
  rintro _ rfl
  rw [ofLittleEndian_littleEndian, Nat.mod_eq_of_lt hn]

theorem determines_varint (n : Nat) : Determines Decoder.varint (Binary.varint n) (· = n) := by
  rintro input rest offset a c' ⟨q, hq⟩ hd
  obtain ⟨used, hs, rfl⟩ := (varintDigits_eq_ok_iff (Nat.zero_le 9)).1 hd
  obtain rfl : input = used ++ c'.rest := hs.split
  obtain ⟨hterm, hsum⟩ := terminated_varint n
  rw [append_assoc] at hq
  rw [hs.terminated.eq_of_append hterm hq, hsum, pow_zero, Nat.mul_one, Nat.zero_add]
  exact ⟨rfl, rfl⟩

theorem determines_varint32 (n : Nat) :
    Determines varint32 (Binary.varint n) (fun k => k.toNat = n) := by
  refine .position fun start => (determines_varint n).andThen ?_
  rintro _ rfl
  exact .ite (fun hlt => .pure (UInt32.toNat_ofNat_of_lt' hlt)) fun _ => .throw _

theorem determines_signed (n : Int64) :
    Determines signed (Binary.varint (zigzag n.toInt)) (· = n) := by
  refine (determines_varint _).map ?_
  rintro _ rfl
  rw [unzigzag_zigzag, Int64.ofInt_toInt]

theorem determines_text (s : String) : Determines Decoder.text (Binary.text s) (· = s) := by
  refine .position fun start => (determines_varint _).bind ?_
  rintro _ rfl
  have hlen : s.toUTF8.toList.length = s.toUTF8.size := by
    rw [toList_eq]
    rfl
  have hbytes : (⟨s.toUTF8.toList.toArray⟩ : ByteArray) = s.toUTF8 := by
    rw [toList_eq]
  rw [← hlen]
  refine (determines_take _).andThen ?_
  rintro _ rfl
  rw [hbytes, fromUTF8?_toUTF8]
  exact .pure rfl

theorem determines_repeated {item : Nat → Decoder α} (spell : Nat → α → Bytes)
    (table : Nat → List α → Bytes) (hnil : ∀ i, table i [] = [])
    (hcons : ∀ i x xs, table i (x :: xs) = spell i x ++ table (i + 1) xs) (xs : List α) (i : Nat)
    (h : ∀ k x, xs[k]? = some x → Determines (item (i + k)) (spell (i + k) x) (· = x)) :
    Determines (repeated item i xs.length) (table i xs) (· = xs) := by
  induction xs generalizing i with
  | nil =>
    rw [hnil]
    exact .pure rfl
  | cons x xs ih =>
    rw [hcons]
    refine (h 0 x rfl).bind ?_
    rintro _ rfl
    refine (ih (i + 1) fun k y hy => ?_).map ?_
    · rw [Nat.add_assoc, Nat.add_comm 1]
      exact h (k + 1) y hy
    · rintro _ rfl
      rfl

end GraphReduction
