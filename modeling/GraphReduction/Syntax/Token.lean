import GraphReduction.Text.Literal

/-!
# Tokens and their positions
-/

namespace GraphReduction

/-- The line of a token and its first and last column, all counted from one. The counters are not
bounded; in a text of fewer than `2 ^ 32 - 1` characters they fit in 32 bits (`position_le_length`). -/
structure Position where
  line : Nat
  startColumn : Nat
  endColumn : Nat
deriving DecidableEq, Inhabited

def Position.render (p : Position) : String :=
  "(" ++ toString p.line ++ ", " ++ toString p.startColumn ++ "-" ++ toString p.endColumn ++ ")"

inductive TokenKind where
  | int (n : Int64)
  | double (x : Double)
  | char (c : Char)
  | string (s : String)
  | identifier
  | constructor
  /-- A name that was written after `#`. -/
  | primitive (name : String)
  | kwData | kwDef | kwLet | kwLetRec | kwIn | kwCase | kwOf
  | backslash | arrow | equal | semicolon | bar | underscore
  | leftParen | rightParen | leftBrace | rightBrace
  | endOfInput
deriving DecidableEq, Inhabited

namespace TokenKind

/-- The words that are not names. -/
def ofKeyword? (word : String) : Option TokenKind :=
  if word = "data" then some kwData
  else if word = "def" then some kwDef
  else if word = "let" then some kwLet
  else if word = "letrec" then some kwLetRec
  else if word = "in" then some kwIn
  else if word = "case" then some kwCase
  else if word = "of" then some kwOf
  else if word = "_" then some underscore
  else none

/-- How a kind is named in messages. -/
def describe : TokenKind → String
  | int n => renderInt n
  | double x => x.render .plain
  | char c => Text.quoteChar c
  | string s => Text.quoteString s
  | identifier => "identifier"
  | constructor => "constructor"
  | primitive name => "#" ++ name
  | kwData => "data"
  | kwDef => "def"
  | kwLet => "let"
  | kwLetRec => "letrec"
  | kwIn => "in"
  | kwCase => "case"
  | kwOf => "of"
  | backslash => "\\"
  | arrow => "->"
  | equal => "="
  | semicolon => ";"
  | bar => "|"
  | underscore => "_"
  | leftParen => "("
  | rightParen => ")"
  | leftBrace => "\x7b"
  | rightBrace => "\x7d"
  | endOfInput => "end of input"

/-- The name of a kind with its payload, as token listings show it. -/
def label : TokenKind → String
  | int n => "Int(" ++ renderInt n ++ ")"
  | double x => "Double(" ++ x.render .literal ++ ")"
  | char c => "Char(" ++ Text.quoteChar c ++ ")"
  | string s => "String(" ++ Text.quoteString s ++ ")"
  | identifier => "Identifier"
  | constructor => "Constructor"
  | primitive name => "Primitive(" ++ Text.quoteString name ++ ")"
  | kwData => "Data"
  | kwDef => "Def"
  | kwLet => "Let"
  | kwLetRec => "LetRec"
  | kwIn => "In"
  | kwCase => "Case"
  | kwOf => "Of"
  | backslash => "Backslash"
  | arrow => "Arrow"
  | equal => "Equal"
  | semicolon => "Semicolon"
  | bar => "Bar"
  | underscore => "Underscore"
  | leftParen => "LeftParenthese"
  | rightParen => "RightParenthese"
  | leftBrace => "LeftBrace"
  | rightBrace => "RightBrace"
  | endOfInput => "Eof"

end TokenKind

/-- A token with its place and its piece of the source. -/
structure Token where
  kind : TokenKind
  pos : Position
  lexeme : String
deriving DecidableEq, Inhabited

/-- The line of a token in a listing. -/
def Token.render (t : Token) : String :=
  "<" ++ t.kind.label ++ ": " ++ t.lexeme ++ " @ " ++ t.pos.render ++ ">"

end GraphReduction
