import GraphReduction.Proofs.Binary.Canonical

/-!
# Decoders that know where their value ends

A decoder that reads a value looks at the bytes of the value and at nothing after them. So it reads
the same value whatever follows, and when the bytes are cut short it runs into the end of the input.
-/

namespace GraphReduction

open List hiding map take
open Binary Decoder Fallible

variable {α β : Type} {a : α} {p : Prop} {bytes : Bytes} {g : α → Decoder β} {y : Decoder β}

/-- From position `n` on, `d` reads `a` from `used` whatever follows, and every part of `used` that
lacks its end is too short. -/
structure ReadsFrom (d : Decoder α) (n : Nat) (used : Bytes) (a : α) : Prop where
  whole : ∀ rest, d ⟨used ++ rest, n⟩ = .ok (a, ⟨rest, n + used.length⟩)
  cut : ∀ p q, used = p ++ q → q ≠ [] → d ⟨p, n⟩ = .error (.truncated (n + p.length))

/-- **A delimited decoder**: what it consumes is the spelling of its value. -/
def Delimited (d : Decoder α) : Prop :=
  ∀ bytes n a c', d ⟨bytes, n⟩ = .ok (a, c') →
    ∃ used, bytes = used ++ c'.rest ∧ c'.offset = n + used.length ∧ ReadsFrom d n used a

/-- A decoder that reads its whole input. Cut short, the input is truncated, and `e` reports the
number of bytes after it. -/
def Closes (e : Nat → FormatError) (d : Decoder α) : Prop :=
  ∀ bytes n a c', d ⟨bytes, n⟩ = .ok (a, c') →
    (∀ p q, bytes = p ++ q → q ≠ [] → d ⟨p, n⟩ = .error (.truncated (n + p.length))) ∧
      ∀ t, t ≠ [] → d ⟨bytes ++ t, n⟩ = .error (e t.length)

/-- Where the cut of two parts one after the other falls: into the first one, or behind it. -/
theorem append_eq_cut {u v p q : Bytes} (h : u ++ v = p ++ q) :
    (∃ r, u = p ++ r ∧ r ≠ []) ∨ ∃ p', p = u ++ p' ∧ v = p' ++ q := by
  rcases append_eq_append_iff.1 h with ⟨p', hp, hv⟩ | ⟨r, hu, hr⟩
  · exact .inr ⟨p', hp, hv⟩
  · cases r with
    | nil =>
      refine .inr ⟨[], ?_, ?_⟩
      · rw [hu, append_nil, append_nil]
      · rw [hr]
        rfl
    | cons b r => exact .inl ⟨b :: r, hu, cons_ne_nil b r⟩

namespace Delimited

variable {d : Decoder α} {f : α → Decoder β}

theorem length_le (h : Delimited d) {c c' : Cursor} (hd : d c = .ok (a, c')) :
    c'.rest.length ≤ c.rest.length := by
  obtain ⟨used, hused, -⟩ := h c.rest c.offset a c' hd
  rw [hused, length_append]
  exact Nat.le_add_left _ _

theorem of_still (h : ∀ c a c', d c = .ok (a, c') → c' = c ∧ ∀ rest, d ⟨rest, c.offset⟩ = .ok (a, ⟨rest, c.offset⟩)) :
    Delimited d := by
  intro bytes n a c' hd
  obtain ⟨rfl, hany⟩ := h _ _ _ hd
  refine ⟨[], rfl, rfl, hany, fun p q hpq hq => ?_⟩
  exact absurd (nil_eq_append_iff.1 hpq).2 hq

theorem pure (a : α) : Delimited (Pure.pure a) := by
  refine of_still fun c a' c' h => ?_
  cases h
  exact ⟨rfl, fun _ => rfl⟩

theorem throw (e : FormatError) : Delimited (throw e : Decoder α) :=
  fun _ _ _ _ h => absurd h throw_ne_ok

theorem position : Delimited position := by
  refine of_still fun c a c' h => ?_
  cases h
  exact ⟨rfl, fun _ => rfl⟩

theorem lift (x : Except FormatError α) : Delimited (liftM x : Decoder α) := by
  cases x with
  | error e => exact throw e
  | ok a => exact pure a

theorem ite [Decidable p] {d1 d2 : Decoder α} (h1 : Delimited d1) (h2 : Delimited d2) :
    Delimited (if p then d1 else d2) := by
  split
  · exact h1
  · exact h2

theorem bind (h : Delimited d) (hf : ∀ a, Delimited (f a)) : Delimited (d >>= f) := by
  intro bytes n b c' hb
  obtain ⟨a, c1, ha, hb⟩ := bind_eq_ok.1 hb
  obtain ⟨u, hu, hn, hread⟩ := h bytes n a c1 ha
  obtain ⟨v, hv, hn', hread'⟩ := hf a c1.rest c1.offset b c' hb
  rw [hn] at hread' hn'
  refine ⟨u ++ v, ?_, ?_, fun rest => ?_, fun p q hpq hq => ?_⟩
  · rw [hu, hv, append_assoc]
  · rw [hn', length_append, Nat.add_assoc]
  · rw [append_assoc, bind_of_ok (hread.whole _), hread'.whole, length_append,
      Nat.add_assoc]
  · rcases append_eq_cut hpq with ⟨r, hur, hr⟩ | ⟨p', rfl, hvp⟩
    · exact bind_of_error (hread.cut p r hur hr)
    · rw [bind_of_ok (hread.whole p'), hread'.cut p' q hvp hq, length_append, Nat.add_assoc]

theorem map {g : α → β} (h : Delimited d) : Delimited (d >>= fun a => Pure.pure (g a)) :=
  h.bind fun a => pure (g a)

theorem check [Decidable p] {e : FormatError} (hy : Delimited y) :
    Delimited (if p then MonadExcept.throw e >>= g else y) := by
  refine .ite (fun _ _ _ _ h => ?_) hy
  obtain ⟨_, _, hthrow, -⟩ := bind_eq_ok.1 h
  exact absurd hthrow throw_ne_ok

end Delimited

/-!
## Numbers, texts and tables
-/

theorem split?_eq_none {n : Nat} {bs : Bytes} (h : bs.length < n) : split? n bs = none := by
  cases hs : split? n bs with
  | none => rfl
  | some r =>
    obtain ⟨rfl, hlen⟩ := split?_eq_some.1 hs
    rw [length_append] at h
    omega

theorem delimited_take (n : Nat) : Delimited (take n) := by
  intro bytes m a c' h
  obtain ⟨hbytes, hlen⟩ := take_eq_ok h
  have hread := (canonical_take a).reads
  rw [hlen] at hread
  refine ⟨a, hbytes, ?_, fun rest => ?_, fun p q hpq hq => ?_⟩
  · have hcanon := hread c'.rest m
    have hbytes' : bytes = a ++ c'.rest := hbytes
    rw [hbytes'] at h
    rw [h] at hcanon
    rw [hlen]
    exact congrArg (fun p => p.2.offset) (Except.ok.inj hcanon)
  · rw [hread, hlen]
  · have hpos := length_pos_iff.2 hq
    rw [hpq, length_append] at hlen
    unfold take
    rw [split?_eq_none (show p.length < n by omega)]

theorem eq_nil_of_cut {b : UInt8} {p q : Bytes} (h : [b] = p ++ q) (hq : q ≠ []) : p = [] := by
  have hlen := congrArg length h
  have hpos := length_pos_iff.2 hq
  rw [length_singleton, length_append] at hlen
  exact length_eq_zero_iff.1 (by omega)

theorem delimited_byte : Delimited byte := by
  intro bytes n a c' h
  cases bytes with
  | nil => cases h
  | cons b bs =>
    cases h
    refine ⟨[a], rfl, rfl, fun rest => rfl, fun p q hpq hq => ?_⟩
    rw [eq_nil_of_cut hpq hq]
    rfl

theorem delimited_word (width : Nat) : Delimited (word width) := (delimited_take width).map

/-- A varint is over at its first byte without a continuation bit. -/
theorem delimited_varint : Delimited Decoder.varint := by
  intro bytes n a c' h
  obtain ⟨used, hs, rfl⟩ := (varintDigits_eq_ok_iff (Nat.zero_le 9)).1 h
  refine ⟨used, hs.split, hs.offset, fun rest => ?_, fun p q hpq hq => ?_⟩
  · exact (varintDigits_eq_ok_iff (Nat.zero_le 9)).2
      ⟨used, ⟨rfl, hs.terminated, hs.short, hs.word, rfl⟩, rfl⟩
  · have hshort := hs.short
    have hflags : ∀ b ∈ p, b &&& 0x80 ≠ 0 := by
      obtain ⟨front, last, hused, hfront, -⟩ := hs.terminated
      have hp : p <+: front := (prefix_concat_iff.1 ⟨q, hpq.symm.trans hused⟩).resolve_left (by
        rintro rfl
        exact hq (append_right_eq_self.1 (hpq.symm.trans hused)))
      exact fun b hb => hfront b (hp.subset hb)
    rw [hpq, length_append] at hshort
    have hpos := length_pos_iff.2 hq
    cases hp : Decoder.varint ⟨p, n⟩ with
    | ok r =>
      obtain ⟨u, hu, -⟩ := (varintDigits_eq_ok_iff (Nat.zero_le 9)).1 hp
      obtain ⟨front, last, rfl, -, hlast⟩ := hu.terminated
      have hsplit : p = front ++ [last] ++ r.2.rest := hu.split
      exact absurd hlast (hflags last (by simp [hsplit]))
    | error e =>
      rcases varintDigits_error (Nat.zero_le 9) hp with ⟨rfl, -⟩ | ⟨-, hnot⟩
      · rfl
      · exact absurd ⟨show 0 + p.length < 10 by omega, hflags⟩ hnot

theorem delimited_varint32 : Delimited varint32 := by
  refine .bind .position fun start => .bind delimited_varint fun n => ?_
  exact .ite (.pure _) (.throw _)

theorem delimited_signed : Delimited signed := delimited_varint.map

theorem delimited_text : Delimited Decoder.text := by
  refine .bind .position fun start => .bind delimited_varint fun size =>
    .bind (delimited_take size) fun bs => ?_
  split
  · exact .pure _
  · exact .throw _

theorem delimited_repeated {item : Nat → Decoder α} (h : ∀ i, Delimited (item i)) (i n : Nat) :
    Delimited (repeated item i n) := by
  induction n generalizing i with
  | zero => exact .pure []
  | succ n ih => exact .bind (h i) fun x => (ih (i + 1)).map

/-!
## The end of the input
-/

/-- Cut short, `bytes` are reported as truncated where they end, and with more bytes after them the
number of those is reported. -/
def Detects (decode : Bytes → Except FormatError α) (extra : Nat → FormatError) (bytes : Bytes) :
    Prop :=
  (∀ p, p <+: bytes → p ≠ bytes → decode p = .error (.truncated p.length)) ∧
    ∀ t, t ≠ [] → decode (bytes ++ t) = .error (extra t.length)

namespace Closes

variable {e : Nat → FormatError} {d : Decoder α} {f : α → Decoder β}

theorem bind (h : Delimited d) (hf : ∀ a, Closes e (f a)) : Closes e (d >>= f) := by
  intro bytes n b c' hb
  obtain ⟨a, c1, ha, hfa⟩ := bind_eq_ok.1 hb
  obtain ⟨u, rfl, hn, hread⟩ := h bytes n a c1 ha
  obtain ⟨hcut, hmore⟩ := hf a c1.rest c1.offset b c' hfa
  rw [hn] at hcut hmore
  refine ⟨fun p q hpq hq => ?_, fun t ht => ?_⟩
  · rcases append_eq_cut hpq with ⟨r, hur, hr⟩ | ⟨p', rfl, hp⟩
    · exact bind_of_error (hread.cut p r hur hr)
    · rw [bind_of_ok (hread.whole p'), hcut p' q hp hq, length_append, Nat.add_assoc]
  · rw [append_assoc, bind_of_ok (hread.whole _), hmore t ht]

theorem map {g : α → β} (h : Closes e d) : Closes e (d >>= fun a => Pure.pure (g a)) := by
  intro bytes n b c' hb
  obtain ⟨a, c1, ha, -⟩ := bind_eq_ok.1 hb
  obtain ⟨hcut, hmore⟩ := h bytes n a c1 ha
  exact ⟨fun p q hpq hq => bind_of_error (hcut p q hpq hq),
    fun t ht => bind_of_error (hmore t ht)⟩

theorem check [Decidable p] {r : FormatError} (hy : Closes e y) :
    Closes e (if p then throw r >>= g else y) := by
  intro bytes n b c' hb
  obtain ⟨hp, hb⟩ := check_eq_ok.1 hb
  rw [if_neg hp]
  exact hy bytes n b c' hb

theorem finish {f : Nat → Decoder β} (hf : ∀ left c, 0 < left → f left c = .error (e left)) :
    Closes e (remaining >>= f) := by
  intro bytes n b c' hb
  have hleft : f bytes.length ⟨bytes, n⟩ = .ok (b, c') := hb
  have hnil : bytes = [] := by
    by_contra hne
    rw [hf _ _ (length_pos_iff.2 hne)] at hleft
    cases hleft
  subst hnil
  refine ⟨fun p q hpq hq => ?_, fun t ht => ?_⟩
  · exact absurd (nil_eq_append_iff.1 hpq).2 hq
  · exact hf t.length ⟨t, n⟩ (length_pos_iff.2 ht)

/-- **What closes its input detects input of any other length.** -/
theorem detects (h : Closes e d) (ha : (d.run ⟨bytes, 0⟩).map Prod.fst = .ok a) :
    Detects (fun bytes => (d.run ⟨bytes, 0⟩).map Prod.fst) e bytes := by
  obtain ⟨c', hc⟩ := exists_of_run ha
  obtain ⟨hcut, hmore⟩ := h bytes 0 a c' hc
  refine ⟨fun p hp hne => ?_, fun t ht => ?_⟩
  · obtain ⟨q, rfl⟩ := hp
    have hq : q ≠ [] := by
      rintro rfl
      exact hne (append_nil p).symm
    show (d ⟨p, 0⟩).map Prod.fst = _
    rw [hcut p q rfl hq, Nat.zero_add]
    rfl
  · show (d ⟨bytes ++ t, 0⟩).map Prod.fst = _
    rw [hmore t ht]
    rfl

end Closes

end GraphReduction
