import GraphReduction.Number.Layout
import GraphReduction.Text.CharClass

/-!
# Literals and how they are printed

Characters and strings are printed between quotes. The enclosing quote, the backslash and
the usual control characters are escaped with a backslash; what has no glyph of its own, or
would merge with the character before it, is written by code point. Hexadecimal numerals, as they
appear in addresses, code points and byte dumps, have lower case digits.
-/

namespace GraphReduction

namespace Text

/-- The hexadecimal digits of `n`, without leading zeros. -/
def hexDigits (n : Nat) : String :=
  String.ofList (Nat.toDigits 16 n)

/-- `0x` and the digits of `n`, filled with zeros to at least `width` digits. -/
def hexNumeral (n : Nat) (width : Nat) : String :=
  let digits := Nat.toDigits 16 n
  "0x" ++ String.ofList (List.replicate (width - digits.length) '0' ++ digits)

/-- A byte as two digits. -/
def hexByte (b : UInt8) : String :=
  String.ofList [Nat.digitChar (b.toNat / 16), Nat.digitChar (b.toNat % 16)]

/-- `c` as it stands inside a literal enclosed in `quote`. -/
def escape (quote c : Char) : String :=
  if c = '\x00' then "\\0"
  else if c = '\t' then "\\t"
  else if c = '\r' then "\\r"
  else if c = '\n' then "\\n"
  else if c = '\\' then "\\\\"
  else if c = quote then String.ofList ['\\', quote]
  else if isCombining c || !isPrintable c then "\\u\x7b" ++ hexDigits c.toNat ++ "\x7d"
  else c.toString

/-- A character between single quotes. -/
def quoteChar (c : Char) : String :=
  "'" ++ escape '\'' c ++ "'"

/-- A string between double quotes. -/
def quoteString (s : String) : String :=
  s.toList.foldl (fun acc c => acc ++ escape '"' c) "\"" ++ "\""

end Text

/-- The constants of a program text. -/
inductive Literal where
  | int (n : Int64)
  | char (c : Char)
  | double (x : Double)
  | str (s : String)
deriving DecidableEq, Inhabited

/-- The decimal numeral of a machine integer. -/
def renderInt (n : Int64) : String := toString n.toInt

def Literal.render : Literal → String
  | int n => renderInt n
  | char c => Text.quoteChar c
  | double x => x.render .literal
  | str s => Text.quoteString s

end GraphReduction
