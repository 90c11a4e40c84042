import GraphReduction.Number.Shortest

/-!
# Printing a double

The digits are those of the shortest decimal. A style says which exponents are written out
positionally and whether a whole number keeps a point.
-/

namespace GraphReduction

/-- How the digits of a double are laid out. -/
structure DoubleStyle where
  /-- The exponents of the leading digit that are written positionally; all of them if absent. -/
  positional : Option (Int × Int)
  /-- Whether a whole number written positionally ends in `.0`. -/
  keepsPoint : Bool

/-- Literals and results: positional from `0.0001` to below `10 ^ 16`, and never without a point
or an exponent. -/
def DoubleStyle.literal : DoubleStyle := ⟨some (-4, 15), true⟩

/-- No exponent and no needless point. -/
def DoubleStyle.plain : DoubleStyle := ⟨none, false⟩

namespace Decimal

/-- The decimal written out, `ds` being its digits. -/
def positional (ds : List Char) (exponent : Int) (keepsPoint : Bool) : String :=
  let point : Int := ds.length + exponent
  if point ≤ 0 then
    "0." ++ String.ofList (List.replicate (-point).toNat '0' ++ ds)
  else if 0 ≤ exponent then
    String.ofList (ds ++ List.replicate exponent.toNat '0') ++ (if keepsPoint then ".0" else "")
  else
    String.ofList (ds.take point.toNat) ++ "." ++ String.ofList (ds.drop point.toNat)

/-- The decimal with an exponent mark, `ds` being its digits. -/
def scientific (ds : List Char) (leading : Int) : String :=
  let tail := ds.drop 1
  String.ofList (ds.take 1) ++ (if tail.isEmpty then "" else "." ++ String.ofList tail) ++ "e" ++
    toString leading

/-- The text of a decimal in a style. -/
def render (style : DoubleStyle) (x : Decimal) : String :=
  let ds := Nat.toDigits 10 x.digits
  let leading : Int := ds.length + x.exponent - 1
  match style.positional with
  | some (lowest, highest) =>
    if lowest ≤ leading && leading ≤ highest then positional ds x.exponent style.keepsPoint
    else scientific ds leading
  | none => positional ds x.exponent style.keepsPoint

end Decimal

/-- The text of a double in a style. -/
def Double.render (style : DoubleStyle) (x : Double) : String :=
  if x.isNaN then "NaN"
  else
    let magnitude := if x.isInfinite then "inf" else x.shortest.render style
    if x.isNegative then "-" ++ magnitude else magnitude

end GraphReduction
