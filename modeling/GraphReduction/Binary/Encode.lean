/-!
# Writing bytes

Numbers are written in base 128 with the least significant digit first and a flag on every byte
but the last; signed numbers are folded into natural ones first. A text is its length in bytes
followed by its bytes.
-/

namespace GraphReduction

abbrev Bytes := List UInt8

namespace Binary

/-- The `width` lowest bytes of a number, the least significant one first. -/
def littleEndian : (width : Nat) → Nat → Bytes
  | 0, _ => []
  | width + 1, n => UInt8.ofNat (n % 256) :: littleEndian width (n / 256)

/-- A number in base 128. -/
def varint (n : Nat) : Bytes :=
  if n < 128 then [UInt8.ofNat n] else UInt8.ofNat (n % 128 + 128) :: varint (n / 128)
termination_by n

/-- The number that stands for a signed one: 0, -1, 1, -2, 2 become 0, 1, 2, 3, 4. -/
def zigzag (n : Int) : Nat :=
  if 0 ≤ n then 2 * n.toNat else 2 * (-n - 1).toNat + 1

def text (s : String) : Bytes :=
  varint s.toUTF8.size ++ s.toUTF8.toList

end Binary

end GraphReduction
