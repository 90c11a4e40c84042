/-!
# Double precision numbers

A double is kept as its 64 bits, so two doubles are equal as values of this type exactly
when they are the same number with the same sign of zero or the same bit pattern of a NaN.
Arithmetic goes through `Float`; everything else reads the three fields of the bits.
-/

namespace GraphReduction

/-- An IEEE 754 binary64 number by its bits. -/
structure Double where
  bits : UInt64
deriving DecidableEq, Inhabited

namespace Double

def ofFloat (x : Float) : Double := ⟨x.toBits⟩

def toFloat (x : Double) : Float := Float.ofBits x.bits

/-- The number of values of the 52 fraction bits, and the weight of the bit above them. -/
def hiddenBit : Nat := 0x10000000000000

/-- The weight of the highest bit. -/
def signBit : Nat := 0x8000000000000000

def isNegative (x : Double) : Bool := x.bits.toNat / signBit == 1

/-- The eleven exponent bits. -/
def exponentBits (x : Double) : Nat := x.bits.toNat / hiddenBit % 2048

/-- The low 52 bits. -/
def fraction (x : Double) : Nat := x.bits.toNat % hiddenBit

def isNaN (x : Double) : Bool := x.exponentBits == 2047 && x.fraction != 0

def isInfinite (x : Double) : Bool := x.exponentBits == 2047 && x.fraction == 0

/-- The magnitude of a finite double is `significand * 2 ^ exponent`. -/
def significand (x : Double) : Nat :=
  if x.exponentBits = 0 then x.fraction else x.fraction + hiddenBit

/-- The power of two that `significand` counts. -/
def exponent (x : Double) : Int :=
  if x.exponentBits = 0 then -1074 else (x.exponentBits : Int) - 1075

def add (x y : Double) : Double := ofFloat (x.toFloat + y.toFloat)

def sub (x y : Double) : Double := ofFloat (x.toFloat - y.toFloat)

def mul (x y : Double) : Double := ofFloat (x.toFloat * y.toFloat)

def div (x y : Double) : Double := ofFloat (x.toFloat / y.toFloat)

/-- Equality as numbers: the zeros are equal, a NaN equals nothing. -/
def numEq (x y : Double) : Bool := x.toFloat == y.toFloat

def numLt (x y : Double) : Bool := x.toFloat < y.toFloat

def numLe (x y : Double) : Bool := x.toFloat ≤ y.toFloat

/-- The double nearest to an integer. -/
def ofInt64 (n : Int64) : Double := ofFloat n.toFloat

/-- The integer part of the magnitude of a finite double. -/
def wholePart (x : Double) : Nat :=
  if 0 ≤ x.exponent then x.significand <<< x.exponent.toNat
  else x.significand >>> (-x.exponent).toNat

/-- Rounds toward zero; what does not fit goes to the nearest end of the range, a NaN to `0`. -/
def toInt64 (x : Double) : Int64 :=
  if x.isNaN then 0
  else if x.isNegative then
    if x.isInfinite || signBit ≤ x.wholePart then Int64.minValue else Int64.ofInt (-x.wholePart)
  else
    if x.isInfinite || signBit ≤ x.wholePart then Int64.maxValue else Int64.ofInt x.wholePart

end Double

end GraphReduction
