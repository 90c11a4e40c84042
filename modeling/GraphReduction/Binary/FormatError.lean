import GraphReduction.Text.Literal

/-!
# Format errors

Why bytes are not a definitions file, or a program has no definitions file.
-/

namespace GraphReduction

/-- The kinds of references between the parts of a definitions file. -/
inductive ReferenceKind where
  | record
  | definitionRoot
  | primitive
  | definition
  | entry
deriving DecidableEq

def ReferenceKind.describe : ReferenceKind → String
  | record => "record"
  | definitionRoot => "definition root"
  | primitive => "primitive"
  | definition => "definition"
  | entry => "entry"

inductive Malformation where
  | varintOverflow (offset : Nat)
  | tooLarge (value offset : Nat)
  | invalidText (offset : Nat)
  | invalidCharacter (code offset : Nat)
  | missingEnd
  | trailingBytes (count : Nat)
  | unknownDefinition (name : String)
  | variableLeft (name : String)
  | undefinedEntry (name : String)
  | otherModule (name : String)
  | bytesAfterImage (count : Nat)
deriving DecidableEq

def Malformation.describe : Malformation → String
  | varintOverflow offset => "varint at byte " ++ toString offset ++ " overflows 64 bits"
  | tooLarge value offset =>
    "value " ++ toString value ++ " at byte " ++ toString offset ++ " exceeds 32 bits"
  | invalidText offset => "invalid UTF-8 in string at byte " ++ toString offset
  | invalidCharacter code offset =>
    "invalid character " ++ Text.hexNumeral code 0 ++ " at byte " ++ toString offset
  | missingEnd => "missing end marker"
  | trailingBytes count => toString count ++ " trailing bytes after end marker"
  | unknownDefinition name => "reference to unknown definition `" ++ name ++ "`"
  | variableLeft name => "variable `" ++ name ++ "` left in a compiled definition"
  | undefinedEntry name => "entry point `" ++ name ++ "` is not defined"
  | otherModule name => "entry is for module `" ++ name ++ "`"
  | bytesAfterImage count => toString count ++ " trailing bytes after the image"

inductive FormatError where
  | truncated (offset : Nat)
  | badMagic
  | versionMismatch (found expected : Nat)
  | unknownRecord (tag : UInt8) (offset : Nat)
  | unknownCombinator (code : UInt8) (offset : Nat)
  | badReference (record : Nat) (kind : ReferenceKind) (target : Nat)
  | malformed (cause : Malformation)
deriving DecidableEq

def FormatError.message : FormatError → String
  | truncated offset => "definitions file truncated at byte " ++ toString offset
  | badMagic => "not a definitions file (bad magic)"
  | versionMismatch found expected =>
    "format version " ++ toString found ++ " is not supported (expected " ++
      toString expected ++ ")"
  | unknownRecord tag offset =>
    "unknown record tag " ++ Text.hexNumeral tag.toNat 2 ++ " at byte " ++ toString offset
  | unknownCombinator code offset =>
    "unknown combinator code " ++ Text.hexNumeral code.toNat 2 ++ " at byte " ++
      toString offset
  | badReference record kind target =>
    "record " ++ toString record ++ " refers to invalid " ++ kind.describe ++ " " ++
      toString target
  | malformed cause => "malformed definitions file: " ++ cause.describe

end GraphReduction
