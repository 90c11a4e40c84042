import GraphReduction.Binary.Encode
import GraphReduction.Image.Basic

/-!
# The definitions file

The bytes of an image, in this order: a magic number and a version, the records, the definition
table, the names of primitives, the entry point plus one (zero for none), and an end marker. Each
table is preceded by its size. An application refers to its parts by their distance back, so the
records mean the same at any position.
-/

namespace GraphReduction

namespace Image

/-- `TRNR`. -/
def magic : Bytes := [0x54, 0x52, 0x4e, 0x52]

/-- `TEND`. -/
def endMarker : Bytes := [0x54, 0x45, 0x4e, 0x44]

def version : Nat := 1

/-- How far back position `j` is from position `i`, as a 64-bit word. -/
def distance (i j : Nat) : Nat :=
  if j ≤ i then i - j else UInt64.size - (j - i)

end Image

open Binary

def Combinator.encode (c : Combinator) : Bytes :=
  c.code :: match c with
    | .con tag arity => varint tag.toNat ++ varint arity.toNat
    | .caseOf n => varint n.toNat
    | _ => []

def Literal.encode : Literal → Bytes
  | int n => 2 :: varint (zigzag n.toInt)
  | char c => 3 :: varint c.toNat
  | double x => 4 :: littleEndian 8 x.bits.toNat
  | str s => 5 :: text s

/-- The bytes of the record at position `i`. -/
def Record.encode (i : Nat) : Record → Bytes
  | app fn arg => 0 :: (varint (Image.distance i fn) ++ varint (Image.distance i arg))
  | comb c => 1 :: c.encode
  | lit l => l.encode
  | prim index => 6 :: varint index
  | global index => 7 :: varint index

/-- The bytes of records, the first of which is at position `i`. -/
def Record.encodeAll (i : Nat) : List Record → Bytes
  | [] => []
  | r :: rs => r.encode i ++ Record.encodeAll (i + 1) rs

def DefEntry.encode (d : DefEntry) : Bytes :=
  text d.name ++ varint d.arity.toNat ++ varint d.root

/-- The bytes of an image. -/
def Image.encode (image : Image) : Bytes :=
  Image.magic ++ littleEndian 2 Image.version ++
    varint image.records.length ++ Record.encodeAll 0 image.records ++
    varint image.defs.length ++ image.defs.flatMap DefEntry.encode ++
    varint image.prims.length ++ image.prims.flatMap text ++
    varint (match image.entry with | none => 0 | some e => e + 1) ++ Image.endMarker

end GraphReduction
