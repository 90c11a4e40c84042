import GraphReduction.Number.Double

/-!
# The shortest decimal of a double

Among the decimals that read back as a given double, the shortest is the one with the fewest
digits, and of those the nearest. It is found in exact arithmetic: for one digit, two digits
and so on, the two neighbours of the number on that decimal grid are tried against the
interval of reals that round to it. The ends belong to the interval when the significand is
even. Of two hits the nearer wins, and a tie goes up.
-/

namespace GraphReduction

/-- The decimal `digits * 10 ^ exponent`. -/
structure Decimal where
  digits : Nat
  exponent : Int
deriving DecidableEq, Inhabited

/-- The reals that round to one double, as fractions over one denominator. -/
structure RoundingInterval where
  low : Nat
  value : Nat
  high : Nat
  den : Nat
  closed : Bool

/-- The interval of `m * 2 ^ q`. Below a power of two the neighbours are twice as close. -/
def RoundingInterval.ofBinary (m : Nat) (q : Int) : RoundingInterval :=
  let unit := if 0 ≤ q then 1 <<< q.toNat else 1
  let den := if 0 ≤ q then 1 else 1 <<< (-q).toNat
  let value := 4 * m * unit
  let below := if m = Double.hiddenBit && q != -1074 then 1 else 2
  ⟨value - below * unit, value, value + 2 * unit, 4 * den, m % 2 == 0⟩

/-- `num / den / 10 ^ k` as a fraction. -/
def scaleTen (num den : Nat) (k : Int) : Nat × Nat :=
  if 0 ≤ k then (num, den * Nat.pow 10 k.toNat) else (num * Nat.pow 10 (-k).toNat, den)

/-- Whether `10 ^ k ≤ num / den`. -/
def powTenLe (num den : Nat) (k : Int) : Bool :=
  let (n, d) := scaleTen num den k
  d ≤ n

/-- The exponent `k` with `10 ^ k ≤ num / den < 10 ^ (k + 1)`. The logarithm to base two is
off by less than one, so the first guess is off by at most one. -/
def leadingExponent (num den : Nat) : Int :=
  let guess := (((Nat.log2 num : Int) - Nat.log2 den) * 1233).fdiv 4096
  if powTenLe num den (guess + 1) then guess + 1
  else if powTenLe num den guess then guess
  else guess - 1

namespace RoundingInterval

/-- Whether `digits * 10 ^ k` lies in the interval. -/
def contains (I : RoundingInterval) (digits : Nat) (k : Int) : Bool :=
  let (low, d) := scaleTen I.low I.den k
  let (high, _) := scaleTen I.high I.den k
  let x := digits * d
  if I.closed then low ≤ x && x ≤ high else low < x && x < high

/-- The point of the grid of multiples of `10 ^ k` that stands for the interval, if any. -/
def onGrid? (I : RoundingInterval) (k : Int) : Option Decimal :=
  let (n, d) := scaleTen I.value I.den k
  let below := n / d
  match I.contains below k, I.contains (below + 1) k with
  | false, false => none
  | true, false => some ⟨below, k⟩
  | false, true => some ⟨below + 1, k⟩
  | true, true => if d ≤ 2 * (n % d) then some ⟨below + 1, k⟩ else some ⟨below, k⟩

/-- The first hit on the grids from `10 ^ k` down, `tries` of them. -/
def firstHit (I : RoundingInterval) (k : Int) : Nat → Decimal
  | 0 => ⟨0, 0⟩
  | tries + 1 => (I.onGrid? k).getD (I.firstHit (k - 1) tries)

end RoundingInterval

/-- Drops zeros at the end of the digits, at most `tries` of them. -/
def Decimal.trim (x : Decimal) : Nat → Decimal
  | 0 => x
  | tries + 1 =>
    if x.digits % 10 = 0 then Decimal.trim ⟨x.digits / 10, x.exponent + 1⟩ tries else x

/-- The shortest decimal of the magnitude of a finite double. Seventeen digits always
suffice. -/
def Double.shortest (x : Double) : Decimal :=
  if x.significand = 0 then ⟨0, 0⟩
  else
    let I := RoundingInterval.ofBinary x.significand x.exponent
    (I.firstHit (leadingExponent I.value I.den) 18).trim 18

end GraphReduction
