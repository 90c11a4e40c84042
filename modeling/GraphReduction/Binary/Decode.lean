import GraphReduction.Binary.Encode
import GraphReduction.Binary.FormatError

/-!
# Reading bytes

A decoder consumes bytes from the front and knows how many were consumed before, for the
positions in its errors. An input that ends too early is reported at its end.
-/

namespace GraphReduction

/-- The bytes still to be read, and the number of those before them. -/
structure Cursor where
  rest : Bytes
  offset : Nat

abbrev Decoder := StateT Cursor (Except FormatError)

namespace Binary

/-- The first `n` bytes and those after them, unless there are fewer. -/
def split? : Nat → Bytes → Option (Bytes × Bytes)
  | 0, bs => some ([], bs)
  | _ + 1, [] => none
  | n + 1, b :: bs => (split? n bs).map fun (front, back) => (b :: front, back)

/-- The number that bytes stand for, the least significant one first. -/
def ofLittleEndian : Bytes → Nat
  | [] => 0
  | b :: bs => b.toNat + 256 * ofLittleEndian bs

/-- The signed number that a natural one stands for. -/
def unzigzag (n : Nat) : Int :=
  if n % 2 = 0 then (n / 2 : Nat) else -((n / 2 : Nat) : Int) - 1

/-- Reads the digits of a number from digit number `i` on; `acc` is the value of those before.
Ten digits are enough for 64 bits, and the tenth is a single bit. -/
def varintDigits (start i acc offset : Nat) : Bytes → Except FormatError (Nat × Cursor)
  | [] => .error (.truncated offset)
  | b :: bs =>
    if i = 9 ∧ 1 < b.toNat then .error (.malformed (.varintOverflow start))
    else
      let acc := acc + b.toNat % 128 * Nat.pow 128 i
      if b.toNat < 128 then .ok (acc, ⟨bs, offset + 1⟩)
      else varintDigits start (i + 1) acc (offset + 1) bs

end Binary

namespace Decoder

open Binary

/-- The number of bytes consumed. -/
def position : Decoder Nat := fun c => .ok (c.offset, c)

/-- The number of bytes left. -/
def remaining : Decoder Nat := fun c => .ok (c.rest.length, c)

/-- The next `n` bytes. -/
def take (n : Nat) : Decoder Bytes := fun c =>
  match split? n c.rest with
  | none => .error (.truncated (c.offset + c.rest.length))
  | some (front, back) => .ok (front, ⟨back, c.offset + n⟩)

/-- The next byte. -/
def byte : Decoder UInt8 := fun c =>
  match c.rest with
  | [] => .error (.truncated c.offset)
  | b :: bs => .ok (b, ⟨bs, c.offset + 1⟩)

/-- A number of `width` bytes, the least significant one first. -/
def word (width : Nat) : Decoder Nat := do
  let bs ← take width
  return ofLittleEndian bs

/-- A number below `2 ^ 64` in base 128. -/
def varint : Decoder Nat := fun c => varintDigits c.offset 0 0 c.offset c.rest

/-- A number below `2 ^ 32` in base 128. -/
def varint32 : Decoder UInt32 := do
  let start ← position
  let n ← varint
  if n < UInt32.size then return UInt32.ofNat n
  throw (.malformed (.tooLarge n start))

/-- A signed number. -/
def signed : Decoder Int64 := do
  let n ← varint
  return Int64.ofInt (unzigzag n)

/-- A text. -/
def text : Decoder String := do
  let start ← position
  let size ← varint
  let bs ← take size
  match String.fromUTF8? ⟨bs.toArray⟩ with
  | some s => return s
  | none => throw (.malformed (.invalidText start))

/-- `n` items, each told its number, from number `i` on. -/
def repeated {α : Type} (item : Nat → Decoder α) (i : Nat) : Nat → Decoder (List α)
  | 0 => return []
  | n + 1 => do
    let x ← item i
    let xs ← repeated item (i + 1) n
    return x :: xs

end Decoder

end GraphReduction
