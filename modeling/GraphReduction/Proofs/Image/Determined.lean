import GraphReduction.Proofs.Binary.Determined
import GraphReduction.Proofs.Image.Canonical
import GraphReduction.Cache.Entry

/-!
# What is read from the start of a file

* `Image.determines_decoder`: **from the file of an image only that image is read**, whatever its
  size, and no shorter part of the file is read at all.
* `CacheEntry.eq_of_decode`: **from the file of a cache entry, cut short or not, only that entry is
  read**, and only under the name of its module.
-/

namespace GraphReduction

open Binary Decoder

theorem determines_backReference {i j : Nat} (hj : j < i) :
    Determines (backReference i) (Binary.varint (Image.distance i j)) (· = j) := by
  have hdist : Image.distance i j = i - j := if_pos hj.le
  rw [hdist]
  refine (determines_varint _).andThen ?_
  rintro _ rfl
  exact .check fun _ => .pure (by omega)

theorem determines_combinator (x : Combinator) :
    Determines Combinator.decode x.encode (· = x) := by
  have hnil : ∀ n r, Combinator.decode ⟨[], n⟩ ≠ .ok r := fun n r h => by cases h
  cases x with
  | con tag arity =>
    have htail : Determines (do
        let tag ← varint32
        let arity ← varint32
        return Combinator.con tag arity)
        (Binary.varint tag.toNat ++ Binary.varint arity.toNat) (· = .con tag arity) := by
      refine (determines_varint32 _).bind fun tag' htag => (determines_varint32 _).map ?_
      intro arity' harity
      rw [UInt32.toNat_inj.1 htag, UInt32.toNat_inj.1 harity]
    exact .tagged htail (fun _ _ => rfl) hnil
  | caseOf n =>
    have htail : Determines (do
        let n ← varint32
        return Combinator.caseOf n) (Binary.varint n.toNat) (· = .caseOf n) := by
      refine (determines_varint32 _).map fun n' hn => ?_
      rw [UInt32.toNat_inj.1 hn]
    exact .tagged htail (fun _ _ => rfl) hnil
  | _ => exact .tagged (.pure rfl) (fun _ _ => rfl) hnil

theorem determines_character (x : Char) :
    Determines character (Binary.varint x.toNat) (· = x) := by
  refine .position fun start => (determines_varint32 _).andThen fun code hcode => ?_
  rw [hcode]
  exact .ite (fun _ => .pure (Char.ofNat_toNat x)) fun _ => .throw _

/-- A spelling is of one record only: one case for each kind. -/
theorem determines_record {i : Nat} {r : Record} (hback : r.RefersBack i) :
    Determines (Record.decode i) (r.encode i) (· = r) := by
  have hnil : ∀ n p, Record.decode i ⟨[], n⟩ ≠ .ok p := fun n p h => by cases h
  cases r with
  | app fn arg =>
    have htail : Determines (do
        let fn ← backReference i
        let arg ← backReference i
        return Record.app fn arg)
        (Binary.varint (Image.distance i fn) ++ Binary.varint (Image.distance i arg))
        (· = .app fn arg) := by
      refine (determines_backReference hback.1).bind ?_
      rintro _ rfl
      refine (determines_backReference hback.2).map ?_
      rintro _ rfl
      rfl
    exact .tagged htail (fun _ _ => rfl) hnil
  | comb x =>
    exact .tagged ((determines_combinator x).map fun _ h => congrArg Record.comb h) (fun _ _ => rfl)
      hnil
  | prim index =>
    exact .tagged ((determines_varint32 index).map fun _ h => congrArg Record.prim h)
      (fun _ _ => rfl) hnil
  | global index =>
    exact .tagged ((determines_varint32 index).map fun _ h => congrArg Record.global h)
      (fun _ _ => rfl) hnil
  | lit l =>
    cases l with
    | int n =>
      exact .tagged ((determines_signed n).map fun _ h => congrArg (Record.lit ∘ .int) h)
        (fun _ _ => rfl) hnil
    | char x =>
      exact .tagged ((determines_character x).map fun _ h => congrArg (Record.lit ∘ .char) h)
        (fun _ _ => rfl) hnil
    | double x =>
      have hbits : x.bits.toNat < 256 ^ 8 := x.bits.toNat_lt
      have hword : Determines (do
          let bits ← word 8
          return Record.lit (.double ⟨UInt64.ofNat bits⟩)) (littleEndian 8 x.bits.toNat)
          (· = .lit (.double x)) := by
        refine (determines_word hbits).map ?_
        rintro _ rfl
        rw [UInt64.ofNat_toNat]
      exact .tagged hword (fun _ _ => rfl) hnil
    | str s =>
      exact .tagged ((determines_text s).map fun _ h => congrArg (Record.lit ∘ .str) h)
        (fun _ _ => rfl) hnil

theorem determines_defEntry (count i : Nat) (d : DefEntry) :
    Determines (DefEntry.decode count i) d.encode (· = d) := by
  unfold DefEntry.encode
  rw [List.append_assoc]
  refine (determines_text d.name).bind ?_
  rintro _ rfl
  refine (determines_varint32 _).bind fun arity harity => (determines_varint d.root).andThen ?_
  rintro _ rfl
  refine .check fun _ => .pure ?_
  rw [UInt32.toNat_inj.1 harity]

namespace Image

theorem determines_header :
    Determines decodeHeader (magic ++ littleEndian 2 version) fun _ => True := by
  refine (determines_take magic).bind fun start _ => .check fun _ => ?_
  refine (determines_word (by decide)).andThen fun found _ => ?_
  exact .ite (fun _ => .throw _) fun _ => .pure trivial

theorem determines_entry (records defs : Nat) (entry : Option Nat) :
    Determines (decodeEntry records defs) (Binary.varint (entryCode entry)) (· = entry) := by
  refine (determines_varint _).andThen ?_
  rintro _ rfl
  cases entry with
  | none => exact .pure rfl
  | some e => exact .ite (fun _ => .pure rfl) fun _ => .throw _

theorem determines_end : Determines decodeEnd endMarker fun _ => True := by
  refine (determines_take endMarker).andThen fun marker _ => .check fun _ => .remaining fun left => ?_
  exact .ite (fun _ => .throw _) fun _ => .pure trivial

/-- **From the file of an image only that image is read.** -/
theorem determines_decoder {image : Image}
    (hback : ∀ i (r : Record), image.records[i]? = some r → r.RefersBack i) :
    Determines decoder image.encode (· = image) := by
  have hrecords : Determines (repeated Record.decode 0 image.records.length)
      (Record.encodeAll 0 image.records) (· = image.records) := by
    refine determines_repeated Record.encode Record.encodeAll (fun _ => rfl) (fun _ _ _ => rfl) _ 0
      fun k r hr => ?_
    rw [Nat.zero_add]
    exact determines_record (hback k r hr)
  have hdefs : Determines (repeated (DefEntry.decode image.records.length) 0 image.defs.length)
      (image.defs.flatMap DefEntry.encode) (· = image.defs) :=
    determines_repeated (fun _ => DefEntry.encode) (fun _ ds => ds.flatMap DefEntry.encode)
      (fun _ => rfl) (fun _ _ _ => rfl) _ 0 fun _ d _ => determines_defEntry _ _ d
  have hprims : Determines (repeated (fun _ => Decoder.text) 0 image.prims.length)
      (image.prims.flatMap Binary.text) (· = image.prims) :=
    determines_repeated (fun _ => Binary.text) (fun _ ss => ss.flatMap Binary.text) (fun _ => rfl)
      (fun _ _ _ => rfl) _ 0 fun _ s _ => determines_text s
  rw [encode_eq]
  refine determines_header.bind fun _ _ => (determines_varint image.records.length).bind ?_
  rintro _ rfl
  refine hrecords.bind fun records hrecords => (determines_varint image.defs.length).bind ?_
  rintro _ rfl
  refine hdefs.bind fun defs hdefs => (determines_varint image.prims.length).bind ?_
  rintro _ rfl
  refine hprims.bind fun prims hprims => ?_
  refine (Determines.lift (P := fun _ => True) fun _ _ => trivial).bind fun _ _ => ?_
  refine (determines_entry _ _ image.entry).bind fun entry hentry => determines_end.map fun _ _ => ?_
  rw [hrecords, hdefs, hprims, hentry]

end Image

namespace CacheEntry

theorem length_digest (message : Bytes) : (Sha256.digest message).length = Fingerprint.size := by
  simp [Sha256.digest, Sha256.wordBytes, length_littleEndian, Fingerprint.size]

/-- **From the file of an entry only that entry is read**, and only for its own module. -/
theorem determines_decoder {e : CacheEntry} {module : String} (module' : String)
    (hsize : e.fingerprint.bytes.length = Fingerprint.size)
    (hback : ∀ i (r : Record), e.image.records[i]? = some r → r.RefersBack i) :
    Determines (decoder module') (e.encode module) fun e' => module = module' ∧ e' = e := by
  simp only [encode, List.append_assoc]
  refine (determines_take magic).bind fun start _ => .check fun _ => ?_
  refine (determines_word (by decide)).bind fun found _ => .check fun _ => ?_
  rw [← hsize]
  refine (determines_take e.fingerprint.bytes).bind fun fingerprint hfingerprint => ?_
  refine (determines_text module).bind fun name hname => .check fun hmodule => ?_
  refine (determines_varint e.image.encode.length).bind ?_
  rintro _ rfl
  refine (determines_take e.image.encode).andThen ?_
  rintro _ rfl
  refine (Determines.lift (P := (· = e.image)) fun image himage => ?_).andThen fun image himage =>
    .remaining fun left => .check fun _ => .pure ?_
  · exact (Image.determines_decoder hback).of_run (List.prefix_refl _) himage
  · refine ⟨?_, ?_⟩
    · rw [← hname]
      exact not_not.1 hmodule
    · rw [hfingerprint, himage]

/-- **What is read from the file of an entry**, cut short or not, is that entry, and it is read for
its own module. -/
theorem eq_of_decode {e e' : CacheEntry} {module module' : String} {bytes : Bytes}
    (hsize : e.fingerprint.bytes.length = Fingerprint.size)
    (hback : ∀ i (r : Record), e.image.records[i]? = some r → r.RefersBack i)
    (hbytes : bytes <+: e.encode module) (h : decode module' bytes = .ok e') :
    module = module' ∧ e' = e :=
  (determines_decoder module' hsize hback).of_run hbytes h

end CacheEntry

end GraphReduction
