import GraphReduction.Heap.Basic

/-!
# Garbage collection

Everything that can be reached from the roots is marked, and applications on the way are made to
skip the indirections that they point through. All other cells go to the free list in ascending
order.
-/

namespace GraphReduction

namespace Heap

/-- Marking a cell leaves fewer unmarked ones. -/
theorem count_false_mark_lt {marks : Array Bool} {id : Nat} (h : marks[id]? = some false) :
    (marks.setIfInBounds id true).count false < marks.count false := by
  obtain ⟨hlt, hget⟩ := Array.getElem?_eq_some_iff.mp h
  have hpos : 0 < marks.count false := Array.count_pos_iff.mpr (hget ▸ Array.getElem_mem hlt)
  have hold : (if marks[id] == false then 1 else 0) = 1 := by rw [hget]; rfl
  have hnew : (if true == false then 1 else 0) = 0 := rfl
  rw [Array.setIfInBounds, dif_pos hlt, Array.count_set, hold, hnew]
  omega

/-- Marks what can be reached from a work list. -/
def mark (cells : Array Cell) (marks : Array Bool) : List Nat → Array Cell × Array Bool
  | [] => (cells, marks)
  | id :: work =>
    if h : marks[id]? = some false then
      have := count_false_mark_lt h
      match cells.getD id (.free none) with
      | .app f a =>
        let f' := follow cells (cells.size + 1) f
        let a' := follow cells (cells.size + 1) a
        let cells := if f' = f ∧ a' = a then cells else cells.setIfInBounds id (.app f' a')
        mark cells (marks.setIfInBounds id true) (a' :: f' :: work)
      | .ind target => mark cells (marks.setIfInBounds id true) (target :: work)
      | _ => mark cells (marks.setIfInBounds id true) work
    else mark cells marks work
termination_by work => (marks.count false, work.length)

/-- The state of a sweep. -/
structure Sweep where
  cells : Array Cell
  free : Option Nat
  freeCount : Nat
  reclaimed : Nat

/-- Puts the unmarked cells below `n` in front of the free list, the highest number first. -/
def sweep (marks : Array Bool) : (n : Nat) → Sweep → Sweep
  | 0, s => s
  | i + 1, s =>
    if marks.getD i false then sweep marks i s
    else
      let reclaimed := if (s.cells.getD i (.free none)).isFree then s.reclaimed else s.reclaimed + 1
      sweep marks i
        { cells := s.cells.setIfInBounds i (.free s.free)
          free := some i
          freeCount := s.freeCount + 1
          reclaimed }

/-- Gives back every cell that cannot be reached from the roots, and returns how many of them
were in use. -/
def collect (roots : List Nat) : StateM Heap Nat := fun h =>
  let n := h.cells.size
  let { cells, capacity, stats, .. } := h
  let (cells, marks) := mark cells (Array.replicate n false) roots
  let s := sweep marks n ⟨cells, none, 0, 0⟩
  (s.reclaimed,
    { cells := s.cells
      capacity
      free := s.free
      freeCount := s.freeCount
      stats :=
        { stats with
          collections := stats.collections + 1
          reclaimed := stats.reclaimed + s.reclaimed } })

end Heap

end GraphReduction
