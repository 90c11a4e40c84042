import GraphReduction.Heap.Cell

/-!
# Runtime errors

What stops an evaluation. A program that asks to exit is stopped in the same way, and whoever
runs it tells the two apart.
-/

namespace GraphReduction

/-- A graph that the machine cannot make sense of. -/
inductive GraphFault where
  /-- The free list leads to a cell in use. -/
  | freeListCorrupt (id : Nat)
  /-- A reference leads to a cell that is not in use. -/
  | unallocated (id : Nat)
  /-- A cell on the stack that has to be an application is none. -/
  | notAnApplication (cell : Cell)
  /-- A cell was about to stand for itself. -/
  | loop
  | cannotFire (c : Combinator)
  | actionReduced (p : Primitive)
  | nothingToNormalize
deriving DecidableEq

def GraphFault.describe : GraphFault → String
  | freeListCorrupt id => "free list points at live node #" ++ toString id
  | unallocated id => "reference to unallocated node #" ++ toString id
  | notAnApplication cell => "spine entry is not an application: " ++ cell.dump
  | loop => "<<loop>>"
  | cannotFire c => c.render ++ " can not fire"
  | actionReduced p => "action " ++ p.name ++ " reduced outside the I/O driver"
  | nothingToNormalize => "normal form requested for an empty stack"

inductive RuntimeError where
  | outOfMemory (cells : Nat)
  | stackOverflow (limit : Nat)
  | patternMatchFailure (tag alternatives : UInt32)
  | noMatch
  /-- A value in function position, as it is described to the user. -/
  | notAFunction (what : String)
  | typeMismatch (operation expected found : String)
  | divisionByZero
  | userError (text : String)
  | foreign (p : Primitive) (cause : String)
  | notAnAction (what : String)
  | malformed (fault : GraphFault)
  | exit (status : Int32)
deriving DecidableEq

def RuntimeError.message : RuntimeError → String
  | outOfMemory cells => "heap exhausted (" ++ toString cells ++ " cells) after garbage collection"
  | stackOverflow limit => "evaluation stack exhausted (limit " ++ toString limit ++ ")"
  | patternMatchFailure tag alternatives =>
    "pattern match failure: constructor tag " ++ toString tag.toNat ++ " with " ++
      toString alternatives.toNat ++ " alternatives"
  | noMatch => "pattern match failure: no alternative"
  | notAFunction what => "attempt to apply a non-function: " ++ what
  | typeMismatch operation expected found =>
    "`" ++ operation ++ "` expected " ++ expected ++ ", found " ++ found
  | divisionByZero => "division by zero"
  | userError text => "error: " ++ text
  | foreign p cause => "foreign call `" ++ p.name ++ "` failed: " ++ cause
  | notAnAction what => "not an IO action: " ++ what
  | malformed fault => "malformed graph: " ++ fault.describe
  | exit status => "program exited with status " ++ toString status.toInt

end GraphReduction
