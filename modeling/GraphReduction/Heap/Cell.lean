import GraphReduction.Combinator
import GraphReduction.Primitive
import GraphReduction.Text.Literal

/-!
# Cells

The graph is made of cells that refer to each other by number. A cell can be overwritten in
place, and everything that refers to it sees the change.
-/

namespace GraphReduction

/-- A value that is not built from other cells. -/
inductive Scalar where
  | int (n : Int64)
  | char (c : Char)
  | double (x : Double)
  | ptr (address : UInt64)
  /-- A string of which only the characters `unread` are still to come. -/
  | text (whole : String) (unread : List Char)
deriving DecidableEq, Inhabited

inductive Cell where
  | app (f a : Nat)
  | comb (c : Combinator)
  | prim (p : Primitive)
  /-- Stands for another cell. -/
  | ind (target : Nat)
  | scalar (s : Scalar)
  /-- Not in use, and linked to the next such cell. -/
  | free (next : Option Nat)
deriving DecidableEq

instance : Inhabited Cell := ⟨.free none⟩

/-- The address of raw memory as it is shown. -/
def renderPtr (address : UInt64) : String :=
  "<ptr " ++ Text.hexNumeral address.toNat 0 ++ ">"

namespace Scalar

/-- The position in bytes up to which a text has been read. -/
def bytesRead (whole : String) (unread : List Char) : Nat :=
  whole.utf8ByteSize - (String.ofList unread).utf8ByteSize

def ofLiteral : Literal → Scalar
  | .int n => int n
  | .char c => char c
  | .double x => double x
  | .str s => text s s.toList

def render : Scalar → String
  | int n => renderInt n
  | char c => Text.quoteChar c
  | double x => x.render .literal
  | ptr address => renderPtr address
  | text _ unread => Text.quoteString (String.ofList unread)

/-- The full contents of a scalar, for diagnostics. -/
def dump : Scalar → String
  | int n => "Int(" ++ renderInt n ++ ")"
  | char c => "Char(" ++ Text.quoteChar c ++ ")"
  | double x => "Double(" ++ x.render .literal ++ ")"
  | ptr address => "Ptr(" ++ toString address.toNat ++ ")"
  | text whole unread =>
    "Str \x7b text: " ++ Text.quoteString whole ++ ", at: " ++
      toString (bytesRead whole unread) ++ " \x7d"

end Scalar

namespace Cell

def int (n : Int64) : Cell := scalar (.int n)

def isFree : Cell → Bool
  | free _ => true
  | _ => false

def isInd : Cell → Bool
  | ind _ => true
  | _ => false

def dumpId (id : Nat) : String := "NodeId(" ++ toString id ++ ")"

def dumpComb : Combinator → String
  | .S' => "S_"
  | .B' => "B_"
  | .C' => "C_"
  | .con tag arity =>
    "Con \x7b tag: " ++ toString tag.toNat ++ ", arity: " ++ toString arity.toNat ++ " \x7d"
  | .caseOf n => "Case(" ++ toString n.toNat ++ ")"
  | .ioBind => "Bind"
  | .ioThen => "Then"
  | .ioReturn => "Return"
  | c => c.render

/-- The full contents of a cell, for diagnostics. -/
def dump : Cell → String
  | app f a => "App(" ++ dumpId f ++ ", " ++ dumpId a ++ ")"
  | comb c => "Comb(" ++ dumpComb c ++ ")"
  | prim p => "Prim(" ++ p.name ++ ")"
  | ind target => "Ind(" ++ dumpId target ++ ")"
  | scalar s => "Lit(" ++ s.dump ++ ")"
  | free none => "Free(None)"
  | free (some next) => "Free(Some(" ++ dumpId next ++ "))"

end Cell

end GraphReduction
