import GraphReduction.Combinator
import GraphReduction.Text.Literal

/-!
# Images

A program as a flat list of records, one per distinct node of its terms, in an order in which
the parts of an application come before it. Definitions refer to each other only through the
definition table, so recursive programs need no special treatment.

Positions are natural numbers here and 32-bit numbers in a file. They agree in images of at most
`2 ^ 32` records, primitives and definitions; in a larger one a 32-bit position would wrap around.
-/

namespace GraphReduction

inductive Record where
  /-- An application of one record to another, by their positions. -/
  | app (fn arg : Nat)
  | comb (c : Combinator)
  | lit (l : Literal)
  /-- A position in the table of primitive names. -/
  | prim (index : Nat)
  /-- A position in the definition table. -/
  | global (index : Nat)
deriving DecidableEq, Inhabited

/-- A definition whose body is the record at `root`. -/
structure DefEntry where
  name : String
  arity : UInt32
  root : Nat
deriving DecidableEq

structure Image where
  records : List Record
  defs : List DefEntry
  /-- The names of the primitives in use. -/
  prims : List String
  /-- The position of the definition that evaluation starts from. -/
  entry : Option Nat
deriving DecidableEq

/-- The position of the first definition of a name. -/
def Image.defIndex? (image : Image) (name : String) : Option Nat :=
  image.defs.findIdx? fun d => d.name == name

end GraphReduction
