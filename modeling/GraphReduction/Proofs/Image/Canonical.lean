import GraphReduction.Image.Decode
import GraphReduction.Proofs.Binary.Canonical

/-!
# Definitions files are canonical

Every part of an image has a shortest spelling, which is the one that is written, and the decoder
reads it back. So an image is read back from its file, and its file is the shortest one that it is
read from.
-/

namespace GraphReduction

open List
open Binary Decoder Fallible

variable {i n defs prims : Nat} {c' c : Cursor} {rest : Bytes} {r : Record} {records : List Record}

/-- An application at position `i` refers to earlier records. -/
def Record.RefersBack (i : Nat) : Record → Prop
  | .app fn arg => fn < i ∧ arg < i
  | _ => True

/-- A record refers to the tables of primitives and definitions. -/
def Record.InTables (prims defs : Nat) : Record → Prop
  | .prim index => index < prims
  | .global index => index < defs
  | _ => True

/-- The text of a literal is addressable. -/
def Record.TextFits : Record → Prop
  | .lit (.str s) => Addressable s
  | _ => True

/-- **An image whose references are in order**: applications refer back, every index is inside its
table, and the tables have fewer than `2 ^ 32` entries. -/
structure Image.WellFormed (image : Image) : Prop where
  records_lt : image.records.length < UInt32.size
  defs_lt : image.defs.length < UInt32.size
  prims_lt : image.prims.length < UInt32.size
  refersBack : ∀ i (r : Record), image.records[i]? = some r → r.RefersBack i
  inTables : ∀ r ∈ image.records, r.InTables image.prims.length image.defs.length
  roots : ∀ d ∈ image.defs, d.root < image.records.length
  entry : ∀ e, image.entry = some e → e < image.defs.length
  -- the texts are those of a machine with 64-bit addresses
  literals : ∀ r ∈ image.records, r.TextFits
  names : ∀ d ∈ image.defs, Addressable d.name
  primNames : ∀ s ∈ image.prims, Addressable s

/-- **References in order**: applications refer back, and every index is inside its table. The sizes
of the tables are left open. -/
structure Image.InOrder (image : Image) : Prop where
  refersBack : ∀ i (r : Record), image.records[i]? = some r → r.RefersBack i
  inTables : ∀ r ∈ image.records, r.InTables image.prims.length image.defs.length
  roots : ∀ d ∈ image.defs, d.root < image.records.length
  entry : ∀ e, image.entry = some e → e < image.defs.length

theorem Image.WellFormed.inOrder {image : Image} (h : image.WellFormed) : image.InOrder :=
  ⟨h.refersBack, h.inTables, h.roots, h.entry⟩

theorem lt_word_of_lt (h : n < UInt32.size) : n < UInt64.size :=
  h.trans (by decide)

/-!
## Records
-/

theorem canonical_backReference {j : Nat} (hj : j < i) (hi : i < UInt32.size) :
    Canonical (backReference i) j (Binary.varint (Image.distance i j)) := by
  have hdist : Image.distance i j = i - j := by
    unfold Image.distance
    rw [if_pos hj.le]
  rw [hdist]
  unfold backReference
  refine (canonical_varint (lt_word_of_lt (n := i - j) (by omega))).andThen ?_ fun k c c1 c' _ hk => ?_
  · rw [if_neg (by omega), show i - (i - j) = j by omega]
    exact .pure j
  · obtain ⟨hgood, hk⟩ := check_eq_ok.1 hk
    have hj' : j = i - k := congrArg Prod.fst (pure_eq_ok.1 hk)
    omega

theorem combinator_code {b : UInt8} {x : Combinator}
    (h : Combinator.decode ⟨b :: rest, n⟩ = .ok (x, c')) : b = x.code := by
  unfold Combinator.decode at h
  rw [bind_of_ok rfl, bind_of_ok rfl] at h
  apply UInt8.toNat_inj.1
  generalize hk : b.toNat = k at h
  match k, h with
  | 10, h =>
    obtain ⟨tag, c1, -, h⟩ := bind_eq_ok.1 h
    obtain ⟨arity, rfl⟩ := exists_of_map h
    rfl
  | 11, h =>
    obtain ⟨n, rfl⟩ := exists_of_map h
    rfl
  | 0, h | 1, h | 2, h | 3, h | 4, h | 5, h | 6, h | 7, h | 8, h | 9, h | 12, h | 13, h | 14, h =>
    cases h
    rfl
  | _ + 15, h => exact absurd h throw_ne_ok

theorem canonical_combinator (x : Combinator) : Canonical Combinator.decode x x.encode := by
  have hnil : ∀ n r, Combinator.decode ⟨[], n⟩ ≠ .ok r := fun n r h => by cases h
  have htag : ∀ b rest n c', Combinator.decode ⟨b :: rest, n⟩ = .ok (x, c') → b = x.code :=
    fun b rest n c' h => combinator_code h
  cases x with
  | con tag arity =>
    have htail : Canonical (do
        let tag ← varint32
        let arity ← varint32
        return Combinator.con tag arity) (.con tag arity)
        (Binary.varint tag.toNat ++ Binary.varint arity.toNat) := by
      refine (canonical_varint32 tag).bind ((canonical_varint32 arity).map ?_) ?_
      · intro arity' h
        exact (Combinator.con.inj h).2
      · intro tag' c c1 c' _ h
        obtain ⟨arity', heq⟩ := exists_of_map h
        exact (Combinator.con.inj heq).1.symm
    exact .tagged htail (fun _ _ => rfl) hnil htag
  | caseOf n =>
    refine .tagged ((canonical_varint32 n).map ?_) (fun _ _ => rfl) hnil htag
    intro n' h
    exact Combinator.caseOf.inj h
  | _ => exact .tagged (.pure _) (fun _ _ => rfl) hnil htag

theorem canonical_character (x : Char) : Canonical character x (Binary.varint x.toNat) := by
  have hval : x.val.toNat.isValidChar := x.valid
  unfold character
  refine .position fun m => ?_
  refine (canonical_varint32 x.val).andThen ?_ fun n c c1 c' hc h => ?_
  · rw [if_pos hval]
    have hx : Char.ofNat x.val.toNat = x := Char.ofNat_toNat x
    rw [hx]
    exact .pure x
  · by_cases hn : n.toNat.isValidChar
    · rw [if_pos hn] at h
      have heq : x = Char.ofNat n.toNat := congrArg Prod.fst (pure_eq_ok.1 h)
      have hofNat : Char.ofNat n.toNat = Char.ofNatAux n.toNat hn := dif_pos hn
      rw [heq, hofNat]
      exact (UInt32.toNat_inj.1 rfl)
    · rw [if_neg hn] at h
      exact absurd h throw_ne_ok

/-- The byte in front of a record. -/
def Record.tag : Record → UInt8
  | .app _ _ => 0
  | .comb _ => 1
  | .lit (.int _) => 2
  | .lit (.char _) => 3
  | .lit (.double _) => 4
  | .lit (.str _) => 5
  | .prim _ => 6
  | .global _ => 7

theorem record_tag {b : UInt8} (h : Record.decode i ⟨b :: rest, n⟩ = .ok (r, c')) : b = r.tag := by
  unfold Record.decode at h
  rw [bind_of_ok rfl, bind_of_ok rfl] at h
  apply UInt8.toNat_inj.1
  generalize hk : b.toNat = k at h
  match k, h with
  | 0, h =>
    obtain ⟨fn, c1, -, h⟩ := bind_eq_ok.1 h
    obtain ⟨arg, rfl⟩ := exists_of_map h
    rfl
  | 1, h | 2, h | 3, h | 4, h | 5, h | 6, h | 7, h =>
    obtain ⟨x, rfl⟩ := exists_of_map h
    rfl
  | _ + 8, h => exact absurd h throw_ne_ok

theorem canonical_double (x : Double) : Canonical (do
    let bits ← word 8
    return Record.lit (.double ⟨UInt64.ofNat bits⟩)) (.lit (.double x))
    (littleEndian 8 x.bits.toNat) := by
  have hbits : x.bits.toNat < 256 ^ 8 := x.bits.toNat_lt
  have hx : (⟨UInt64.ofNat x.bits.toNat⟩ : Double) = x := by rw [UInt64.ofNat_toNat]
  refine (canonical_word hbits).andThen ?_ fun n c c1 c' hn h => ?_
  · rw [hx]
    exact .pure _
  · have heq : Record.lit (.double x) = .lit (.double ⟨UInt64.ofNat n⟩) :=
      congrArg Prod.fst (pure_eq_ok.1 h)
    obtain rfl : x = ⟨UInt64.ofNat n⟩ := Literal.double.inj (Record.lit.inj heq)
    exact (UInt64.toNat_ofNat_of_lt' (word_lt hn)).symm

theorem canonical_index {make : Nat → Record} (hinj : ∀ j k, make j = make k → j = k) {index : Nat}
    (h : index < UInt32.size) : Canonical (do
      let index ← varint32
      return make index.toNat) (make index) (Binary.varint index) := by
  have hn : (UInt32.ofNat index).toNat = index := UInt32.toNat_ofNat_of_lt' h
  have hv := canonical_varint32 (UInt32.ofNat index)
  rw [hn] at hv
  refine hv.andThen ?_ fun n c c1 c' _ hc => ?_
  · rw [hn]
    exact .pure _
  · have heq : make index = make n.toNat := congrArg Prod.fst (pure_eq_ok.1 hc)
    rw [hinj _ _ heq, UInt32.ofNat_toNat]

/-- A record has one spelling: one case for each kind. -/
theorem canonical_record (hi : i < UInt32.size) (hback : r.RefersBack i) (hfits : r.TextFits)
    (htables : r.InTables prims defs) (hprims : prims < UInt32.size) (hdefs : defs < UInt32.size) :
    Canonical (Record.decode i) r (r.encode i) := by
  have hnil : ∀ n p, Record.decode i ⟨[], n⟩ ≠ .ok p := fun n p h => by cases h
  have htag : ∀ b rest n c', Record.decode i ⟨b :: rest, n⟩ = .ok (r, c') → b = r.tag :=
    fun b rest n c' h => record_tag h
  cases r with
  | app fn arg =>
    obtain ⟨hfn, harg⟩ := hback
    have htail : Canonical (do
        let fn ← backReference i
        let arg ← backReference i
        return Record.app fn arg) (.app fn arg)
        (Binary.varint (Image.distance i fn) ++ Binary.varint (Image.distance i arg)) := by
      refine (canonical_backReference hfn hi).bind ((canonical_backReference harg hi).map ?_) ?_
      · intro arg' h
        exact (Record.app.inj h).2
      · intro fn' c c1 c' _ h
        obtain ⟨arg', heq⟩ := exists_of_map h
        exact (Record.app.inj heq).1.symm
    exact .tagged htail (fun _ _ => rfl) hnil htag
  | comb x =>
    exact .tagged ((canonical_combinator x).map fun _ h => Record.comb.inj h) (fun _ _ => rfl) hnil
      htag
  | prim index =>
    exact .tagged (canonical_index (fun _ _ => Record.prim.inj) (htables.trans hprims))
      (fun _ _ => rfl) hnil htag
  | global index =>
    exact .tagged (canonical_index (fun _ _ => Record.global.inj) (htables.trans hdefs))
      (fun _ _ => rfl) hnil htag
  | lit l =>
    cases l with
    | int n =>
      have hn := (canonical_signed n).map (g := fun n => Record.lit (.int n)) fun _ h =>
        Literal.int.inj (Record.lit.inj h)
      exact .tagged hn (fun _ _ => rfl) hnil htag
    | char x =>
      have hx := (canonical_character x).map (g := fun x => Record.lit (.char x)) fun _ h =>
        Literal.char.inj (Record.lit.inj h)
      exact .tagged hx (fun _ _ => rfl) hnil htag
    | double x => exact .tagged (canonical_double x) (fun _ _ => rfl) hnil htag
    | str s =>
      have hs := (canonical_text hfits).map (g := fun s => Record.lit (.str s)) fun _ h =>
        Literal.str.inj (Record.lit.inj h)
      exact .tagged hs (fun _ _ => rfl) hnil htag

/-!
## Tables
-/

theorem canonical_defEntry {count : Nat} {d : DefEntry} (hname : Addressable d.name)
    (hroot : d.root < count) (hcount : count < UInt32.size) :
    Canonical (DefEntry.decode count i) d d.encode := by
  unfold DefEntry.decode DefEntry.encode
  rw [append_assoc]
  have hword : d.root < UInt64.size := lt_word_of_lt (hroot.trans hcount)
  refine (canonical_text hname).bind ((canonical_varint32 d.arity).bind
    ((canonical_varint hword).andThen ?_ ?_) ?_) ?_
  · rw [if_neg (by omega)]
    exact .pure d
  · intro root c c1 c' _ h
    have heq := pure_eq_ok.1 (check_eq_ok.1 h).2
    exact (congrArg (fun p => p.1.root) heq).symm
  · intro arity c c1 c' _ h
    obtain ⟨root, c2, -, h⟩ := bind_eq_ok.1 h
    have heq := pure_eq_ok.1 (check_eq_ok.1 h).2
    exact (congrArg (fun p => p.1.arity) heq).symm
  · intro name c c1 c' _ h
    obtain ⟨arity, c2, -, h⟩ := bind_eq_ok.1 h
    obtain ⟨root, c3, -, h⟩ := bind_eq_ok.1 h
    have heq := pure_eq_ok.1 (check_eq_ok.1 h).2
    exact (congrArg (fun p => p.1.name) heq).symm

theorem canonical_records (hcount : records.length < UInt32.size) (hprims : prims < UInt32.size)
    (hdefs : defs < UInt32.size) (hback : ∀ i (r : Record), records[i]? = some r → r.RefersBack i)
    (htables : ∀ r ∈ records, r.InTables prims defs) (hfits : ∀ r ∈ records, r.TextFits) :
    Canonical (repeated Record.decode 0 records.length) records (Record.encodeAll 0 records) := by
  refine canonical_repeated Record.encode Record.encodeAll (fun _ => rfl) (fun _ _ _ => rfl) records
    0 fun k r hr => ?_
  have hmem := mem_of_getElem? hr
  have hlt : k < records.length := (List.getElem?_eq_some_iff.1 hr).1
  rw [Nat.zero_add]
  exact canonical_record (hlt.trans hcount) (hback k r hr) (hfits r hmem) (htables r hmem) hprims
    hdefs

theorem canonical_defs {defs : List DefEntry} {count : Nat} (hcount : count < UInt32.size)
    (hroots : ∀ d ∈ defs, d.root < count) (hnames : ∀ d ∈ defs, Addressable d.name) :
    Canonical (repeated (DefEntry.decode count) 0 defs.length) defs
      (defs.flatMap DefEntry.encode) := by
  refine canonical_repeated (fun _ => DefEntry.encode) (fun _ ds => ds.flatMap DefEntry.encode)
    (fun _ => rfl) (fun _ _ _ => rfl) defs 0 fun k d hd => ?_
  have hmem := mem_of_getElem? hd
  exact canonical_defEntry (hnames d hmem) (hroots d hmem) hcount

theorem canonical_names {names : List String} (h : ∀ s ∈ names, Addressable s) :
    Canonical (repeated (fun _ => Decoder.text) 0 names.length) names
      (names.flatMap Binary.text) :=
  canonical_repeated (fun _ => Binary.text) (fun _ ss => ss.flatMap Binary.text) (fun _ => rfl)
    (fun _ _ _ => rfl) names 0 fun _ s hs => canonical_text (h s (mem_of_getElem? hs))

theorem checkTables_eq_ok :
    Record.checkTables prims defs i records = .ok () ↔
      ∀ r ∈ records, r.InTables prims defs := by
  induction records generalizing i with
  | nil => simp [Record.checkTables]
  | cons r rs ih =>
    rw [forall_mem_cons]
    cases r with
    | prim p =>
      by_cases hp : p < prims <;> simp [Record.checkTables, Record.InTables, hp, ih]
    | global d =>
      by_cases hd : d < defs <;> simp [Record.checkTables, Record.InTables, hd, ih]
    | _ => simp [Record.checkTables, Record.InTables, ih]

/-- The number that stands for an entry point. -/
def Image.entryCode : Option Nat → Nat
  | none => 0
  | some e => e + 1

theorem canonical_entry {records : Nat} {entry : Option Nat} (h : ∀ e, entry = some e → e < defs)
    (hdefs : defs < UInt32.size) :
    Canonical (Image.decodeEntry records defs) entry (Binary.varint (Image.entryCode entry)) := by
  unfold Image.decodeEntry
  have hword : Image.entryCode entry < UInt64.size := by
    cases entry with
    | none => decide
    | some e =>
      have hlt := h e rfl
      exact lt_word_of_lt (show e + 1 < UInt32.size by omega)
  refine (canonical_varint hword).andThen ?_ fun n c c1 c' _ hc => ?_
  · cases entry with
    | none => exact .pure none
    | some e =>
      simp only [Image.entryCode, if_pos (h e rfl)]
      exact .pure (some e)
  · cases n with
    | zero =>
      obtain rfl : entry = none := congrArg Prod.fst (pure_eq_ok.1 hc)
      rfl
    | succ e =>
      by_cases he : e < defs
      · simp only [if_pos he] at hc
        obtain rfl : entry = some e := congrArg Prod.fst (pure_eq_ok.1 hc)
        rfl
      · simp only [if_neg he] at hc
        exact absurd hc throw_ne_ok

theorem canonical_header : Canonical Image.decodeHeader ()
    (Image.magic ++ littleEndian 2 Image.version) := by
  unfold Image.decodeHeader
  refine (canonical_take Image.magic).bind ?_ fun start c c1 c' _ h => ?_
  · rw [if_neg (by simp)]
    have hword : Canonical (word 2) Image.version (littleEndian 2 Image.version) :=
      canonical_word (by decide)
    refine hword.andThen ?_ fun found c c1 c' _ h => ?_
    · rw [if_neg (by simp)]
      exact .pure ()
    · by_cases hf : found = Image.version
      · exact hf
      · rw [if_pos hf] at h
        exact absurd h throw_ne_ok
  · exact not_not.1 (check_eq_ok.1 h).1

theorem length_of_repeated {α : Type} {item : Nat → Decoder α} {xs : List α}
    (h : repeated item i n c = .ok (xs, c')) : xs.length = n := by
  induction n generalizing i c c' xs with
  | zero =>
    obtain rfl : xs = [] := congrArg Prod.fst (pure_eq_ok.1 h)
    rfl
  | succ n ih =>
    obtain ⟨x, c1, -, h⟩ := bind_eq_ok.1 h
    obtain ⟨ys, c2, hys, h⟩ := bind_eq_ok.1 h
    obtain rfl : xs = x :: ys := congrArg Prod.fst (pure_eq_ok.1 h)
    rw [length_cons, ih hys]

theorem decodeEnd_of_ok (h : Image.decodeEnd c = .ok ((), c')) : c.rest = Image.endMarker := by
  obtain ⟨marker, c1, htake, h⟩ := bind_eq_ok.1 h
  obtain ⟨hmarker, h⟩ := check_eq_ok.1 h
  obtain rfl := not_not.1 hmarker
  obtain ⟨left, c2, hleft, h⟩ := bind_eq_ok.1 h
  have heq : (left, c2) = (c1.rest.length, c1) := (Except.ok.inj hleft).symm
  obtain rfl : left = c1.rest.length := congrArg Prod.fst heq
  by_cases hpos : 0 < c1.rest.length
  · rw [if_pos hpos] at h
    exact absurd h throw_ne_ok
  · have hnil : c1.rest = [] := length_eq_zero_iff.1 (by omega)
    rw [(take_eq_ok htake).1, hnil, append_nil]

theorem decodeEnd_endMarker (n : Nat) :
    Image.decodeEnd ⟨Image.endMarker, n⟩ = .ok ((), ⟨[], n + Image.endMarker.length⟩) := rfl

theorem bind_check {β : Type} {x : Except FormatError Unit} {f : Unit → Decoder β}
    {r : β × Cursor} : (liftM x >>= f : Decoder β) c = .ok r ↔ x = .ok () ∧ f () c = .ok r := by
  cases x with
  | error e =>
    constructor
    · intro h
      cases h
    · rintro ⟨h, -⟩
      cases h
  | ok u =>
    have hbind : (liftM (.ok u : Except FormatError Unit) >>= f : Decoder β) c = f () c := rfl
    rw [hbind]
    exact ⟨fun h => ⟨rfl, h⟩, fun h => h.2⟩

namespace Image

variable {image : Image}

theorem encode_eq (image : Image) : image.encode = (magic ++ littleEndian 2 version) ++
    (Binary.varint image.records.length ++ (Record.encodeAll 0 image.records ++
      (Binary.varint image.defs.length ++ (image.defs.flatMap DefEntry.encode ++
        (Binary.varint image.prims.length ++ (image.prims.flatMap Binary.text ++
          (Binary.varint (entryCode image.entry) ++ endMarker))))))) := by
  simp only [encode, append_assoc]
  cases image.entry <;> rfl

/-- **An image is read part by part**: each table from where the one before it ends. -/
theorem decode_eq_ok {bytes : Bytes} : decode bytes = .ok image ↔
    ∃ c1 c2 c3 c4 c5 c6 c7 c8 c9, decodeHeader ⟨bytes, 0⟩ = .ok ((), c1) ∧
      Decoder.varint c1 = .ok (image.records.length, c2) ∧
      repeated Record.decode 0 image.records.length c2 = .ok (image.records, c3) ∧
      Decoder.varint c3 = .ok (image.defs.length, c4) ∧
      repeated (DefEntry.decode image.records.length) 0 image.defs.length c4 = .ok (image.defs, c5) ∧
      Decoder.varint c5 = .ok (image.prims.length, c6) ∧
      repeated (fun _ => Decoder.text) 0 image.prims.length c6 = .ok (image.prims, c7) ∧
      Record.checkTables image.prims.length image.defs.length 0 image.records = .ok () ∧
      decodeEntry image.records.length image.defs.length c7 = .ok (image.entry, c8) ∧
      decodeEnd c8 = .ok ((), c9) := by
  constructor
  · intro h
    obtain ⟨c, hc⟩ := exists_of_run h
    unfold decoder at hc
    obtain ⟨⟨⟩, c1, h1, hc⟩ := bind_eq_ok.1 hc
    obtain ⟨count, c2, h2, hc⟩ := bind_eq_ok.1 hc
    obtain ⟨records, c3, h3, hc⟩ := bind_eq_ok.1 hc
    obtain ⟨defCount, c4, h4, hc⟩ := bind_eq_ok.1 hc
    obtain ⟨defs, c5, h5, hc⟩ := bind_eq_ok.1 hc
    obtain ⟨primCount, c6, h6, hc⟩ := bind_eq_ok.1 hc
    obtain ⟨prims, c7, h7, hc⟩ := bind_eq_ok.1 hc
    obtain ⟨hchecked, hc⟩ := bind_check.1 hc
    obtain ⟨entry, c8, h8, hc⟩ := bind_eq_ok.1 hc
    obtain ⟨⟨⟩, c9, h9, hc⟩ := bind_eq_ok.1 hc
    obtain rfl : image = ⟨records, defs, prims, entry⟩ := congrArg Prod.fst (pure_eq_ok.1 hc)
    -- the sizes that were read are those of the tables
    obtain rfl := length_of_repeated h3
    obtain rfl := length_of_repeated h5
    obtain rfl := length_of_repeated h7
    exact ⟨c1, c2, c3, c4, c5, c6, c7, c8, c9, h1, h2, h3, h4, h5, h6, h7, hchecked, h8, h9⟩
  · rintro ⟨c1, c2, c3, c4, c5, c6, c7, c8, c9, h1, h2, h3, h4, h5, h6, h7, hchecked, h8, h9⟩
    have hc : decoder ⟨bytes, 0⟩ = .ok (image, c9) := by
      unfold decoder
      rw [bind_of_ok h1, bind_of_ok h2, bind_of_ok h3, bind_of_ok h4, bind_of_ok h5, bind_of_ok h6,
        bind_of_ok h7]
      refine bind_check.2 ⟨hchecked, ?_⟩
      rw [bind_of_ok h8, bind_of_ok h9]
      rfl
    unfold decode StateT.run
    rw [hc]
    rfl

namespace WellFormed

section

variable (h : image.WellFormed)
include h

theorem canonical_records :
    Canonical (repeated Record.decode 0 image.records.length) image.records
      (Record.encodeAll 0 image.records) :=
  GraphReduction.canonical_records h.records_lt h.prims_lt h.defs_lt h.refersBack h.inTables
    h.literals

theorem canonical_defs :
    Canonical (repeated (DefEntry.decode image.records.length) 0 image.defs.length) image.defs
      (image.defs.flatMap DefEntry.encode) :=
  GraphReduction.canonical_defs h.records_lt h.roots h.names

theorem canonical_prims :
    Canonical (repeated (fun _ => Decoder.text) 0 image.prims.length) image.prims
      (image.prims.flatMap Binary.text) := canonical_names h.primNames

theorem canonical_entry :
    Canonical (decodeEntry image.records.length image.defs.length) image.entry
      (Binary.varint (entryCode image.entry)) :=
  GraphReduction.canonical_entry h.entry h.defs_lt

theorem decode_encode : decode image.encode = .ok image := by
  rw [encode_eq]
  exact decode_eq_ok.2 ⟨_, _, _, _, _, _, _, _, _, canonical_header.reads _ _,
    (canonical_varint (lt_word_of_lt h.records_lt)).reads _ _, h.canonical_records.reads _ _,
    (canonical_varint (lt_word_of_lt h.defs_lt)).reads _ _, h.canonical_defs.reads _ _,
    (canonical_varint (lt_word_of_lt h.prims_lt)).reads _ _, h.canonical_prims.reads _ _,
    checkTables_eq_ok.2 h.inTables, h.canonical_entry.reads _ _, decodeEnd_endMarker _⟩

/-- **A file from which an image is read** is the one that is written for it, or longer. -/
theorem noShorter_of_decode {bytes : Bytes}
    (hd : decode bytes = .ok image) : NoShorter image.encode bytes := by
  obtain ⟨_, _, _, _, _, _, _, _, _, hheader, hcount, hrecords, hdefCount, hdefs, hprimCount, hprims,
    -, hentry, hend⟩ := decode_eq_ok.1 hd
  obtain ⟨u1, e1, n1⟩ := canonical_header.shortest _ _ hheader
  obtain ⟨u2, e2, n2⟩ := (canonical_varint (lt_word_of_lt h.records_lt)).shortest _ _ hcount
  obtain ⟨u3, e3, n3⟩ := h.canonical_records.shortest _ _ hrecords
  obtain ⟨u4, e4, n4⟩ := (canonical_varint (lt_word_of_lt h.defs_lt)).shortest _ _ hdefCount
  obtain ⟨u5, e5, n5⟩ := h.canonical_defs.shortest _ _ hdefs
  obtain ⟨u6, e6, n6⟩ := (canonical_varint (lt_word_of_lt h.prims_lt)).shortest _ _ hprimCount
  obtain ⟨u7, e7, n7⟩ := h.canonical_prims.shortest _ _ hprims
  obtain ⟨u8, e8, n8⟩ := h.canonical_entry.shortest _ _ hentry
  have hbytes : bytes = u1 ++ (u2 ++ (u3 ++ (u4 ++ (u5 ++ (u6 ++ (u7 ++ (u8 ++ endMarker))))))) := by
    rw [← decodeEnd_of_ok hend, ← e8, ← e7, ← e6, ← e5, ← e4, ← e3, ← e2, ← e1]
  rw [hbytes, encode_eq]
  exact n1.append (n2.append (n3.append (n4.append (n5.append (n6.append (n7.append
    (n8.append (.refl _))))))))

end

end WellFormed

/-- **The file of an image is canonical**: the image is read back from it, and every other file from
which the image is read is longer. -/
theorem decode_encode_shortest (h : image.WellFormed) :
    decode image.encode = .ok image ∧
      ∀ bytes, decode bytes = .ok image → bytes ≠ image.encode →
        image.encode.length < bytes.length := by
  refine ⟨h.decode_encode, fun bytes hd hne => ?_⟩
  rcases h.noShorter_of_decode hd with heq | hlt
  · exact absurd heq hne
  · exact hlt

/-- An image with a record of every kind. -/
def assortedImage : Image where
  records := [.comb (.con 1 2), .lit (.int Int64.minValue), .app 0 1, .lit (.char 'λ'),
    .lit (.double ⟨0xfff8000000000000⟩), .lit (.str "é\n"), .prim 0, .global 1, .app 7 6, .app 2 8]
  defs := [⟨"main", 0, 9⟩, ⟨"text", 300, 5⟩]
  prims := ["IO.getArgs"]
  entry := some 0

theorem wellFormed_assortedImage : assortedImage.WellFormed where
  records_lt := by decide
  defs_lt := by decide
  prims_lt := by decide
  refersBack := by
    intro i r hr
    have hi : i < 10 := (List.getElem?_eq_some_iff.1 hr).1
    interval_cases i <;> cases hr <;> simp [Record.RefersBack]
  inTables := by simp [assortedImage, Record.InTables]
  roots := by simp [assortedImage]
  entry := by simp [assortedImage]
  literals := by
    simp only [assortedImage, forall_mem_cons, Record.TextFits, true_and]
    exact ⟨by decide, by simp⟩
  names := by decide
  primNames := by decide

theorem decode_encode_shortest_assortedImage : assortedImage.WellFormed ∧
    decode assortedImage.encode = .ok assortedImage ∧
      ∀ bytes, decode bytes = .ok assortedImage → bytes ≠ assortedImage.encode →
        assortedImage.encode.length < bytes.length :=
  ⟨wellFormed_assortedImage, decode_encode_shortest wellFormed_assortedImage⟩

end Image

end GraphReduction
