import GraphReduction.Syntax.Token

/-!
# Why a program text is refused
-/

namespace GraphReduction

/-- What stops the scanner. -/
inductive LexicalFault where
  | strayMinus
  | emptyPrimitive
  | unexpected (c : Char)
  | missingFraction
  | integerRange
  | missingClosing (quote : Char)
  | lineBreak
  | unknownEscape (c : Char)
  | emptyChar

def LexicalFault.message : LexicalFault → String
  | strayMinus => "Expected '->', '--' or a number after '-'."
  | emptyPrimitive => "Expected primitive name after '#'."
  | unexpected c => "Unexpected character " ++ Text.quoteChar c ++ "."
  | missingFraction => "Expected floating point number."
  | integerRange => "Integer literal out of range."
  | missingClosing quote => "missing closing " ++ quote.toString ++ "."
  | lineBreak => "line break inside literal."
  | unknownEscape c => "Unknown escape sequence \\" ++ c.toString ++ "."
  | emptyChar => "Empty character literal."

/-- What a token was expected to be. -/
inductive Expectation where
  | token (kind : TokenKind)
  | declaration
  | arity
  | parameter
  | atom

def Expectation.message : Expectation → String
  | token kind => "Expected '" ++ kind.describe ++ "'."
  | declaration => "Expected 'data' or 'def'."
  | arity => "Expected a constructor arity."
  | parameter => "Expected lambda parameter."
  | atom => "Expected identifier, constructor, literal, primitive or grouped expression."

/-- What stops the parser. -/
inductive GrammarFault where
  | expected (what : Expectation) (found : Token)
  | constructorTwice (con : String)
  | unknownConstructor (con : String)
  | foreignConstructor (con type : String)
  | fieldCount (con : String) (fields bound : Nat)
  | emptyCase
  | unknownPrimitive (name : String)
  | unbound (name : String)

def GrammarFault.message : GrammarFault → String
  | expected what found =>
    what.message ++ " Found " ++ found.kind.describe ++ " '" ++ found.lexeme ++ "' instead."
  | constructorTwice con => "Constructor '" ++ con ++ "' is declared twice."
  | unknownConstructor con => "Unknown constructor '" ++ con ++ "'."
  | foreignConstructor con type =>
    "Constructor '" ++ con ++ "' does not belong to type '" ++ type ++ "'."
  | fieldCount con fields bound =>
    "Constructor '" ++ con ++ "' has " ++ toString fields ++ " fields but " ++ toString bound ++
      " are bound."
  | emptyCase => "Case needs at least one constructor alternative."
  | unknownPrimitive name => "Unknown primitive '#" ++ name ++ "'."
  | unbound name => "Unbound identifier '" ++ name ++ "'."

/-- Why a program text is refused, and where. -/
inductive ReadError where
  | lexical (pos : Position) (fault : LexicalFault)
  | grammar (pos : Position) (fault : GrammarFault)

def ReadError.message : ReadError → String
  | lexical pos fault => "Syntax error at " ++ pos.render ++ ": " ++ fault.message
  | grammar pos fault => "Parse error at " ++ pos.render ++ ": " ++ fault.message

end GraphReduction
