import GraphReduction.Proofs.Image.Truncation

/-!
# Decoded images

Each check of the decoder is made where its bound is known: distances while records are read, roots
against the number of records, table positions once the tables are there, the entry point last.
Together they put every reference of a decoded image in order, whatever the bytes were.
-/

namespace GraphReduction

open List hiding map take
open Binary Decoder Fallible

variable {α β : Type} {item : Nat → Decoder α}

/-- What `d` reads has `P`. -/
def Gives (d : Decoder α) (P : α → Prop) : Prop := ∀ c a c', d c = .ok (a, c') → P a

namespace Gives

variable {d : Decoder α} {f : α → Decoder β} {P : α → Prop} {Q : β → Prop}

theorem any (d : Decoder α) : Gives d fun _ => True := fun _ _ _ _ => trivial

theorem pure {a : α} (ha : P a) : Gives (Pure.pure a) P := by
  intro c a' c' h
  cases h
  exact ha

theorem throw (e : FormatError) : Gives (MonadExcept.throw e) P :=
  fun _ _ _ h => absurd h throw_ne_ok

theorem bind (h : Gives d P) (hf : ∀ a, P a → Gives (f a) Q) : Gives (d >>= f) Q := by
  intro c b c' hb
  obtain ⟨a, c1, ha, hb⟩ := bind_eq_ok.1 hb
  exact hf a (h c a c1 ha) c1 b c' hb

theorem map {g : α → β} (h : Gives d P) (hg : ∀ a, P a → Q (g a)) :
    Gives (d >>= fun a => Pure.pure (g a)) Q := h.bind fun a ha => .pure (hg a ha)

theorem check {p : Prop} [Decidable p] {e : FormatError} {g : α → Decoder β} {y : Decoder β}
    (hy : ¬ p → Gives y Q) : Gives (if p then MonadExcept.throw e >>= g else y) Q := by
  intro c b c' hb
  obtain ⟨hp, hb⟩ := check_eq_ok.1 hb
  exact hy hp c b c' hb

theorem repeated {P : Nat → α → Prop} (h : ∀ i, Gives (item i) (P i)) (i n : Nat) :
    Gives (repeated item i n) fun xs => ∀ (k : Nat) x, xs[k]? = some x → P (i + k) x := by
  induction n generalizing i with
  | zero => exact .pure fun k x hx => by cases hx
  | succ n ih =>
    refine (h i).bind fun x hx => (ih (i + 1)).map fun xs hxs k y hy => ?_
    cases k with
    | zero =>
      cases hy
      exact hx
    | succ k =>
      rw [show i + (k + 1) = i + 1 + k by omega]
      exact hxs k y hy

end Gives

/-- **A table has no more entries than bytes**, if no entry is read from nothing. -/
theorem size_of_repeated (hd : ∀ i, Delimited (item i)) (hnil : ∀ i n r, item i ⟨[], n⟩ ≠ .ok r)
    {i n : Nat} {c c' : Cursor} {xs : List α} (h : repeated item i n c = .ok (xs, c')) :
    c'.rest.length + n ≤ c.rest.length := by
  induction n generalizing i c xs with
  | zero =>
    cases h
    exact Nat.le_refl _
  | succ n ih =>
    obtain ⟨x, c1, hx, h⟩ := bind_eq_ok.1 h
    obtain ⟨ys, c2, hys, h⟩ := bind_eq_ok.1 h
    cases h
    have hle := ih hys
    obtain ⟨used, hused, -, hread⟩ := hd i c.rest c.offset x c1 hx
    have hne : used ≠ [] := by
      rintro rfl
      exact hnil i c.offset _ (hread.whole [])
    have hpos := length_pos_iff.2 hne
    rw [hused, length_append]
    omega

theorem gives_varint : Gives Decoder.varint fun n => n < UInt64.size := fun _ _ _ h => varint_lt h

theorem gives_take (n : Nat) : Gives (take n) fun bs => bs.length = n :=
  fun _ _ _ h => (take_eq_ok h).2

theorem gives_text : Gives Decoder.text Addressable := by
  refine (Gives.any _).bind fun start _ => gives_varint.bind fun size hsize =>
    (gives_take size).bind fun bs hbs c s c' h => ?_
  have hlen : s.utf8ByteSize = bs.length := congrArg ByteArray.size (text_eq_ok h)
  unfold Addressable
  omega

theorem gives_backReference (i : Nat) : Gives (backReference i) fun j => j < i :=
  gives_varint.bind fun distance _ => .check fun hd => .pure (by omega)

theorem gives_record (i : Nat) : Gives (Record.decode i) fun r => r.RefersBack i ∧ r.TextFits := by
  refine (Gives.any _).bind fun offset _ => (Gives.any _).bind fun tag _ => ?_
  split
  · exact (gives_backReference i).bind fun fn hfn =>
      (gives_backReference i).map fun arg harg => ⟨⟨hfn, harg⟩, trivial⟩
  case h_6 => exact gives_text.map fun s hs => ⟨trivial, hs⟩
  case h_9 => exact .throw _
  all_goals exact (Gives.any _).map fun _ _ => ⟨trivial, trivial⟩

theorem gives_defEntry (count i : Nat) :
    Gives (DefEntry.decode count i) fun d => d.root < count ∧ Addressable d.name := by
  refine gives_text.bind fun name hname => (Gives.any _).bind fun arity _ =>
    gives_varint.bind fun root _ => .check fun hroot => .pure ⟨?_, hname⟩
  exact Nat.lt_of_not_le hroot

theorem gives_entry (records defs : Nat) :
    Gives (Image.decodeEntry records defs) fun entry => ∀ e, entry = some e → e < defs := by
  refine (Gives.any _).bind fun n _ => ?_
  split
  · exact .pure fun e he => by cases he
  · rename_i e
    by_cases hlt : e < defs
    · rw [if_pos hlt]
      refine .pure fun e' he => ?_
      cases he
      exact hlt
    · rw [if_neg hlt]
      exact .throw _

/-- **What is read from a file is well formed.** The bound on the file is one on its tables. -/
theorem Image.wellFormed_of_decode {bytes : Bytes} {image : Image}
    (hlt : bytes.length < UInt32.size) (h : decode bytes = .ok image) : image.WellFormed := by
  obtain ⟨c1, _, _, _, _, _, _, _, _, hheader, hcount, hrecords, hdefCount, hdefs, hprimCount, hprims,
    hchecked, hentry, -⟩ := decode_eq_ok.1 h
  -- the tables are read one after the other from what is left of the file
  have h1 := delimited_header.length_le hheader
  have h2 := delimited_varint.length_le hcount
  have h3 := size_of_repeated delimited_record (fun _ _ _ h => by cases h) hrecords
  have h4 := delimited_varint.length_le hdefCount
  have h5 := size_of_repeated (delimited_defEntry _) (fun _ _ _ h => by cases h) hdefs
  have h6 := delimited_varint.length_le hprimCount
  have h7 := size_of_repeated (fun _ => delimited_text) (fun _ _ _ h => by cases h) hprims
  have hrec := (Gives.repeated gives_record 0 _) _ _ _ hrecords
  have hdef := (Gives.repeated (gives_defEntry _) 0 _) _ _ _ hdefs
  have hname := (Gives.repeated (fun _ => gives_text) 0 _) _ _ _ hprims
  simp only [Nat.zero_add] at hrec
  have hbytes : c1.rest.length ≤ bytes.length := h1
  refine ⟨?_, ?_, ?_, fun i r hr => (hrec i r hr).1, checkTables_eq_ok.1 hchecked, ?_,
    gives_entry _ _ _ _ _ hentry, ?_, ?_, ?_⟩
  · omega
  · omega
  · omega
  · intro d hd
    obtain ⟨k, hk⟩ := getElem?_of_mem hd
    exact (hdef k d hk).1
  · intro r hr
    obtain ⟨k, hk⟩ := getElem?_of_mem hr
    exact (hrec k r hk).2
  · intro d hd
    obtain ⟨k, hk⟩ := getElem?_of_mem hd
    exact (hdef k d hk).2
  · intro s hs
    obtain ⟨k, hk⟩ := getElem?_of_mem hs
    exact hname k s hk

end GraphReduction
