import GraphReduction.Number.Double

/-!
# The double nearest to a fraction

A decimal numeral is a fraction `num / den`. Its double is found in exact arithmetic: scale
so that the integer part has 53 bits, or fewer below the normal range, and round it to
nearest with a tie to the even neighbour.
-/

namespace GraphReduction

/-- `num / den` rounded to the nearest integer, a tie to the even one. -/
def roundHalfEven (num den : Nat) : Nat :=
  let q := num / den
  let r := num % den
  if den < 2 * r || (2 * r == den && q % 2 == 1) then q + 1 else q

/-- `num / den / 2 ^ e` as a fraction. -/
def scaleDown (num den : Nat) (e : Int) : Nat × Nat :=
  if 0 ≤ e then (num, den <<< e.toNat) else (num <<< (-e).toNat, den)

/-- The power of two that the last place of the double nearest to `num / den` counts. -/
def lastPlace (num den : Nat) : Int :=
  let guess : Int := (Nat.log2 num : Int) - Nat.log2 den - 52
  let (n, d) := scaleDown num den guess
  let e := if n / d < Double.hiddenBit then guess - 1 else guess
  max e (-1074)

namespace Double

/-- The double nearest to `num / den`, with the given sign. -/
def nearest (negative : Bool) (num den : Nat) : Double :=
  let sign : Nat := if negative then signBit else 0
  if num = 0 then ⟨UInt64.ofNat sign⟩
  else
    let e := lastPlace num den
    let (n, d) := scaleDown num den e
    let m := roundHalfEven n d
    let (m, e) := if m = 2 * hiddenBit then (hiddenBit, e + 1) else (m, e)
    let magnitude :=
      if m < hiddenBit then m
      else if 2047 ≤ e + 1075 then 2047 * hiddenBit
      else (e + 1075).toNat * hiddenBit + (m - hiddenBit)
    ⟨UInt64.ofNat (sign + magnitude)⟩

/-- The double nearest to `digits / 10 ^ places`. -/
def ofDecimal (negative : Bool) (digits places : Nat) : Double :=
  nearest negative digits (Nat.pow 10 places)

end Double

end GraphReduction
