import GraphReduction.Number.Nearest
import GraphReduction.Syntax.ReadError

/-!
# Scanning

A source text is cut into tokens from the left. The scanner for one token looks at the first
character and says how many of the following ones belong to the same lexeme, so a lexeme is
always the next piece of the source and the rest is always shorter. Blanks and comments are
lexemes without a token. Positions count characters, never bytes.
-/

namespace GraphReduction.Scan

/-- What one lexeme is, `none` for blanks and comments, and how many characters it has after
the first. A fault carries the same count. -/
abbrev Result := Except (Nat × LexicalFault) (Option TokenKind × Nat)

/-- The value of a list of decimal digits. -/
def digitsValue (ds : List Char) : Nat :=
  ds.foldl (fun n d => 10 * n + (d.toNat - '0'.toNat)) 0

/-- A machine integer, if the magnitude fits. -/
def intLiteral? (negative : Bool) (magnitude : Nat) : Option Int64 :=
  let n : Int := if negative then -magnitude else magnitude
  if Int64.minValue.toInt ≤ n && n ≤ Int64.maxValue.toInt then some (Int64.ofInt n) else none

/-- A number that starts with `first`, a digit or a minus sign. -/
def number (first : Char) (cs : List Char) : Result :=
  let negative := first == '-'
  let whole := cs.takeWhile Char.isDigit
  let leading := if negative then whole else first :: whole
  match cs.drop whole.length with
  | '.' :: rest =>
    let places := rest.takeWhile Char.isDigit
    let n := whole.length + 1
    if places.isEmpty then .error (n, .missingFraction)
    else
      .ok (some (.double (.ofDecimal negative (digitsValue (leading ++ places)) places.length)),
        n + places.length)
  | _ =>
    match intLiteral? negative (digitsValue leading) with
    | some n => .ok (some (.int n), whole.length)
    | none => .error (whole.length, .integerRange)

/-- The character that a backslash and `c` stand for. -/
def escaped? (c : Char) : Option Char :=
  if c = 'n' then some '\n'
  else if c = 't' then some '\t'
  else if c = 'r' then some '\r'
  else if c = '0' then some '\x00'
  else if c = '\\' then some '\\'
  else if c = '"' then some '"'
  else if c = '\'' then some '\''
  else none

/-- One character of a literal in `quote`, possibly escaped, and how many characters it takes. -/
def literalChar (quote : Char) : List Char → Except (Nat × LexicalFault) (Char × Nat)
  | [] => .error (0, .missingClosing quote)
  | '\n' :: _ => .error (1, .lineBreak)
  | '\\' :: [] => .error (1, .missingClosing quote)
  | '\\' :: e :: _ =>
    match escaped? e with
    | some c => .ok (c, 2)
    | none => .error (2, .unknownEscape e)
  | c :: _ => .ok (c, 1)

/-- The rest of a string literal, `n` characters after its opening quote; `read` holds the
characters so far, the last one first. -/
def stringBody (n : Nat) (read : List Char) : List Char → Result
  | [] => .error (n, .missingClosing '"')
  | '"' :: _ => .ok (some (.string (String.ofList read.reverse)), n + 1)
  | '\n' :: _ => .error (n + 1, .lineBreak)
  | '\\' :: [] => .error (n + 1, .missingClosing '"')
  | '\\' :: e :: cs =>
    match escaped? e with
    | some c => stringBody (n + 2) (c :: read) cs
    | none => .error (n + 2, .unknownEscape e)
  | c :: cs => stringBody (n + 1) (c :: read) cs

/-- The rest of a character literal. -/
def charBody (cs : List Char) : Result :=
  match cs with
  | '\'' :: _ => .error (0, .emptyChar)
  | cs => do
    let (c, n) ← literalChar '\'' cs
    match cs.drop n with
    | '\'' :: _ => .ok (some (.char c), n + 1)
    | _ :: _ => .error (n + 1, .missingClosing '\'')
    | [] => .error (n, .missingClosing '\'')

/-- Whether a character belongs to a name after `#`. -/
def inPrimitive (c : Char) : Bool :=
  !Text.isWhitespace c && c ∉ ['(', ')', '\x7b', '\x7d', ';']

/-- A name after `#`. -/
def primitive (cs : List Char) : Result :=
  let name := cs.takeWhile inPrimitive
  if name.isEmpty then .error (0, .emptyPrimitive)
  else .ok (some (.primitive (String.ofList name)), name.length)

/-- Whether a character belongs to a name after its first. -/
def inName (c : Char) : Bool :=
  Text.isAlphanumeric c || c == '_' || c == '\''

/-- A keyword or a name. Names that start in upper case are constructors. -/
def word (first : Char) (cs : List Char) : Result :=
  let tail := cs.takeWhile inName
  let kind := (TokenKind.ofKeyword? (String.ofList (first :: tail))).getD
    (if Text.isUppercase first then .constructor else .identifier)
  .ok (some kind, tail.length)

/-- What follows a minus sign: a comment, an arrow or a number. -/
def minus (cs : List Char) : Result :=
  match cs with
  | '-' :: _ => .ok (none, (cs.takeWhile (· != '\n')).length)
  | '>' :: _ => .ok (some .arrow, 1)
  | c :: _ => if c.isDigit then number '-' cs else .error (0, .strayMinus)
  | [] => .error (0, .strayMinus)

/-- The lexeme that starts with `first`. -/
def lexeme (first : Char) (cs : List Char) : Result :=
  if first = '(' then .ok (some .leftParen, 0)
  else if first = ')' then .ok (some .rightParen, 0)
  else if first = '\x7b' then .ok (some .leftBrace, 0)
  else if first = '\x7d' then .ok (some .rightBrace, 0)
  else if first = ';' then .ok (some .semicolon, 0)
  else if first = '|' then .ok (some .bar, 0)
  else if first = '=' then .ok (some .equal, 0)
  else if first = '\\' then .ok (some .backslash, 0)
  else if first = '-' then minus cs
  else if first = '#' then primitive cs
  else if first = ' ' || first = '\t' || first = '\r' || first = '\n' then .ok (none, 0)
  else if first = '"' then stringBody 0 [] cs
  else if first = '\'' then charBody cs
  else if first.isDigit then number first cs
  else if Text.isAlphabetic first || first == '_' then word first cs
  else .error (0, .unexpected first)

/-- The tokens of a text whose first character follows `column` others on its line. -/
def tokensFrom (line column : Nat) (cs : List Char) : Except ReadError (List Token) :=
  match cs with
  | [] => .ok [⟨.endOfInput, ⟨line, column + 1, column⟩, "EOF"⟩]
  | c :: cs =>
    match lexeme c cs with
    | .error (n, fault) => .error (.lexical ⟨line, column + 1, column + 1 + n⟩ fault)
    | .ok (kind, n) =>
      let rest := cs.drop n
      if c = '\n' then tokensFrom (line + 1) 0 rest
      else
        match kind with
        | none => tokensFrom line (column + 1 + n) rest
        | some kind =>
          let token : Token :=
            ⟨kind, ⟨line, column + 1, column + 1 + n⟩, String.ofList (c :: cs.take n)⟩
          (token :: ·) <$> tokensFrom line (column + 1 + n) rest
termination_by cs.length
decreasing_by all_goals simp only [List.length_drop, List.length_cons]; omega

end Scan

/-- The tokens of a source text, ending in `endOfInput`. -/
def tokenize (source : String) : Except ReadError (List Token) :=
  Scan.tokensFrom 1 0 source.toList

end GraphReduction
