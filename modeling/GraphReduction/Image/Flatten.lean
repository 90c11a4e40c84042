import GraphReduction.Binary.FormatError
import GraphReduction.Image.Basic
import GraphReduction.Program
import Std.Data.HashMap

/-!
# From programs to images

Every distinct node of a program becomes one record, after the records of its parts. There is
one record per definition referred to, however many nodes refer to it.
-/

namespace GraphReduction

/-- The records made so far, and where to find them again. -/
structure Flattening where
  records : Array Record
  /-- The record of a node, by its label. -/
  nodes : Std.HashMap Nat Nat
  /-- The record of a definition, by its position. -/
  globals : Std.HashMap Nat Nat
  /-- The primitives met so far. -/
  prims : List Primitive

abbrev FlattenM := StateT Flattening (Except FormatError)

namespace Flattening

def empty : Flattening := ⟨#[], ∅, ∅, []⟩

/-- The last position of a name. -/
def lastIndex? (name : Name) : List Name → Option Nat
  | [] => none
  | x :: xs =>
    match lastIndex? name xs with
    | some i => some (i + 1)
    | none => if x = name then some 0 else none

/-- Adds a record and gives its position, which has 32 bits for the first `2 ^ 32` records. -/
def push (r : Record) : FlattenM Nat := fun s =>
  .ok (s.records.size, { s with records := s.records.push r })

/-- The position of a primitive in the table of names, at whose end it is put if it is new. -/
def primIndex (p : Primitive) : FlattenM Nat := fun s =>
  match s.prims.findIdx? (· == p) with
  | some i => .ok (i, s)
  | none => .ok (s.prims.length, { s with prims := s.prims ++ [p] })

/-- The record of the definition at a position. -/
def globalRecord (i : Nat) : FlattenM Nat := do
  match (← get).globals[i]? with
  | some r => return r
  | none =>
    let r ← push (.global i)
    modify fun s => { s with globals := s.globals.insert i r }
    return r

/-- The record of a leaf. -/
def atom (names : List Name) : Atom → FlattenM Nat
  | .comb c => push (.comb c)
  | .lit l => push (.lit l)
  | .prim p => do
    let i ← primIndex p
    push (.prim i)
  | .global name =>
    match lastIndex? name names with
    | some i => globalRecord i
    | none => throw (.malformed (.unknownDefinition name))
  | .var x => throw (.malformed (.variableLeft x))

/-- Notes the record of a node. -/
def remember (label : Nat) (r : Nat) : FlattenM Nat := do
  modify fun s => { s with nodes := s.nodes.insert label r }
  return r

/-- The record of a term, made now unless its node has one already. -/
def term (names : List Name) : Term → FlattenM Nat
  | .leaf label x => do
    match (← get).nodes[label]? with
    | some r => return r
    | none =>
      let r ← atom names x
      remember label r
  | .app label f a => do
    match (← get).nodes[label]? with
    | some r => return r
    | none =>
      let f ← term names f
      let a ← term names a
      let r ← push (.app f a)
      remember label r

/-- The table entry of a definition, with its records made. -/
def definition (names : List Name) (d : Definition) : FlattenM DefEntry := do
  let root ← term names d.body
  return ⟨d.name, UInt32.ofNat d.arity, root⟩

end Flattening

/-- The image of a program. -/
def Program.toImage (p : Program) : Except FormatError Image := do
  let names := p.defs.map (·.name)
  let (defs, s) ← (p.defs.mapM (Flattening.definition names)).run .empty
  let entry ← match p.entry with
    | none => pure none
    | some name =>
      match Flattening.lastIndex? name names with
      | some i => pure (some i)
      | none => throw (.malformed (.undefinedEntry name))
  return ⟨s.records.toList, defs, s.prims.map (·.name), entry⟩

end GraphReduction
