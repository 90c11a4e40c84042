import GraphReduction.Heap.Basic

/-!
# Configuration

The limits of a run, where compiled modules are kept, and the program arguments.
-/

namespace GraphReduction

structure Config where
  /-- Capacity of the heap. -/
  heapCells : Nat := 1048576
  /-- Entries of the evaluation stack. -/
  stackLimit : Nat := 1048576
  /-- How deeply strict evaluations may nest. -/
  depthLimit : Nat := 10000
  /-- Collect at every safe point, and not only when the heap runs low. -/
  gcStress : Bool := false
  cacheDir : Option String := none
  args : List String := []
deriving DecidableEq

inductive ConfigError where
  | heapTooSmall (cells : Nat)
  | heapTooLarge (cells : Nat)
  | limitNotPositive
deriving DecidableEq

/-- The smallest heap that a program may be run with. -/
def Config.minHeapCells : Nat := 2 * Heap.reserve

def ConfigError.message : ConfigError → String
  | heapTooSmall cells =>
    "invalid configuration: heap of " ++ toString cells ++
      " cells is smaller than the minimum of " ++ toString Config.minHeapCells
  | heapTooLarge cells =>
    "invalid configuration: heap of " ++ toString cells ++ " cells exceeds the addressable " ++
      toString Heap.maxCapacity
  | limitNotPositive => "invalid configuration: stack and depth limits must be positive"

def Config.validate (c : Config) : Except ConfigError Unit :=
  if c.heapCells < Config.minHeapCells then .error (.heapTooSmall c.heapCells)
  else if Heap.maxCapacity < c.heapCells then .error (.heapTooLarge c.heapCells)
  else if c.stackLimit = 0 ∨ c.depthLimit = 0 then .error .limitNotPositive
  else .ok ()

end GraphReduction
