import GraphReduction.RuntimeError

/-!
# The heap

An arena of cells with a fixed capacity. Cells that a collection gave back are linked into a
free list, the lowest number first, and are handed out before the arena grows. Allocation never
collects.
-/

namespace GraphReduction

structure HeapStats where
  collections : Nat := 0
  reclaimed : Nat := 0
  /-- The largest number of cells ever in use. -/
  peakLive : Nat := 0
deriving DecidableEq

structure Heap where
  cells : Array Cell
  capacity : Nat
  /-- The first cell of the free list, and the length of the list. -/
  free : Option Nat
  freeCount : Nat
  stats : HeapStats

namespace Heap

/-- Cell numbers have 32 bits. -/
def maxCapacity : Nat := UInt32.size - 1

/-- Cells kept free at every safe point, so that the reduction step after it can complete. -/
def reserve : Nat := 64

def empty (capacity : Nat) : Heap :=
  ⟨#[], min capacity maxCapacity, none, 0, {}⟩

instance : Inhabited Heap := ⟨empty 0⟩

/-- The number of cells that can still be allocated. -/
def freeCells (h : Heap) : Nat := h.capacity - h.cells.size + h.freeCount

/-- The number of cells in use. -/
def live (h : Heap) : Nat := h.capacity - h.freeCells

def needsCollection (h : Heap) : Bool := h.freeCells < reserve

/-- The contents of a cell. A number outside the arena is a cell not in use. -/
def get (h : Heap) (id : Nat) : Cell := h.cells.getD id (.free none)

/-- Overwrites a cell. -/
def set (h : Heap) (id : Nat) (c : Cell) : Heap :=
  { h with cells := h.cells.setIfInBounds id c }

/-- Takes note of the number of cells in use. -/
def notePeak (h : Heap) : Heap :=
  { h with stats := { h.stats with peakLive := max h.stats.peakLive h.live } }

/-- A new cell with the given contents: the first of the free list, else the next of the
arena. -/
def alloc (c : Cell) : EStateM RuntimeError Heap Nat := fun h =>
  match h.free with
  | some id =>
    match h.get id with
    | .free next =>
      .ok id { h.set id c with free := next, freeCount := h.freeCount - 1 }.notePeak
    | _ => .error (.malformed (.freeListCorrupt id)) h
  | none =>
    if h.cells.size < h.capacity then
      let id := h.cells.size
      .ok id { h with cells := h.cells.push c }.notePeak
    else .error (.outOfMemory h.capacity) h

/-- Follows at most `moves` indirections. -/
def follow (cells : Array Cell) : (moves : Nat) → Nat → Nat
  | 0, id => id
  | moves + 1, id =>
    match cells.getD id (.free none) with
    | .ind next => if next = id then id else follow cells moves next
    | _ => id

/-- The cell that a cell stands for. A chain of indirections without an end is given up. -/
def resolve (h : Heap) (id : Nat) : Nat := follow h.cells (h.cells.size + 1) id

end Heap

end GraphReduction
