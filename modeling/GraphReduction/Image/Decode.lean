import GraphReduction.Binary.Decode
import GraphReduction.Image.Encode

/-!
# Reading definitions files

Every reference is checked, so a decoded image can be loaded without looking at bounds again: an
application refers to earlier records, and every index is inside its table.
-/

namespace GraphReduction

open Decoder

/-- A reference from the record at position `i` back to an earlier one. -/
def Decoder.backReference (i : Nat) : Decoder Nat := do
  let distance ← varint
  if distance = 0 ∨ i < distance then throw (.badReference i .record distance)
  return i - distance

def Combinator.decode : Decoder Combinator := do
  let offset ← position
  let code ← byte
  match code.toNat with
  | 0 => return .S
  | 1 => return .K
  | 2 => return .I
  | 3 => return .B
  | 4 => return .C
  | 5 => return .A
  | 6 => return .Y
  | 7 => return .S'
  | 8 => return .B'
  | 9 => return .C'
  | 10 => do
    let tag ← varint32
    let arity ← varint32
    return .con tag arity
  | 11 => do
    let n ← varint32
    return .caseOf n
  | 12 => return .ioBind
  | 13 => return .ioThen
  | 14 => return .ioReturn
  | _ => throw (.unknownCombinator code offset)

/-- A character, by its code point. -/
def Decoder.character : Decoder Char := do
  let start ← position
  let code ← varint32
  if code.toNat.isValidChar then return Char.ofNat code.toNat
  throw (.malformed (.invalidCharacter code.toNat start))

/-- The record at position `i`. -/
def Record.decode (i : Nat) : Decoder Record := do
  let offset ← position
  let tag ← byte
  match tag.toNat with
  | 0 => do
    let fn ← backReference i
    let arg ← backReference i
    return .app fn arg
  | 1 => do
    let c ← Combinator.decode
    return .comb c
  | 2 => do
    let n ← signed
    return .lit (.int n)
  | 3 => do
    let c ← character
    return .lit (.char c)
  | 4 => do
    let bits ← word 8
    return .lit (.double ⟨UInt64.ofNat bits⟩)
  | 5 => do
    let s ← text
    return .lit (.str s)
  | 6 => do
    let index ← varint32
    return .prim index.toNat
  | 7 => do
    let index ← varint32
    return .global index.toNat
  | _ => throw (.unknownRecord tag offset)

/-- Entry number `i` of the definition table of a file with `count` records. -/
def DefEntry.decode (count i : Nat) : Decoder DefEntry := do
  let name ← text
  let arity ← varint32
  let root ← varint
  if count ≤ root then throw (.badReference i .definitionRoot root)
  return ⟨name, arity, root⟩

/-- Checks the table positions in records, the first of which is at position `i`. -/
def Record.checkTables (prims defs : Nat) (i : Nat) : List Record → Except FormatError Unit
  | [] => .ok ()
  | r :: rs =>
    match r with
    | .prim p =>
      if p < prims then Record.checkTables prims defs (i + 1) rs
      else .error (.badReference i .primitive p)
    | .global d =>
      if d < defs then Record.checkTables prims defs (i + 1) rs
      else .error (.badReference i .definition d)
    | _ => Record.checkTables prims defs (i + 1) rs

namespace Image

/-- The entry point of a file with `records` records and `defs` definitions. -/
def decodeEntry (records defs : Nat) : Decoder (Option Nat) := do
  match ← varint with
  | 0 => return none
  | e + 1 =>
    if e < defs then return some e
    throw (.badReference records .entry e)

/-- The magic number and the version. -/
def decodeHeader : Decoder Unit := do
  let start ← take magic.length
  if start ≠ magic then throw .badMagic
  let found ← word 2
  if found ≠ version then throw (.versionMismatch found version)

/-- The end marker, with nothing after it. -/
def decodeEnd : Decoder Unit := do
  let marker ← take endMarker.length
  if marker ≠ endMarker then throw (.malformed .missingEnd)
  let left ← remaining
  if 0 < left then throw (.malformed (.trailingBytes left))

def decoder : Decoder Image := do
  decodeHeader
  let count ← varint
  let records ← repeated Record.decode 0 count
  let defCount ← varint
  let defs ← repeated (DefEntry.decode count) 0 defCount
  let primCount ← varint
  let prims ← repeated (fun _ => text) 0 primCount
  Record.checkTables primCount defCount 0 records
  let entry ← decodeEntry count defCount
  decodeEnd
  return ⟨records, defs, prims, entry⟩

/-- The image in a definitions file. -/
def decode (bytes : Bytes) : Except FormatError Image :=
  (decoder.run ⟨bytes, 0⟩).map Prod.fst

end Image

end GraphReduction
