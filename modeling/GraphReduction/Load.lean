import GraphReduction.Binary.FormatError
import GraphReduction.Heap.Basic
import GraphReduction.Image.Basic
import GraphReduction.Program
import Std.Data.HashMap

/-!
# Loading

A program becomes a graph in the heap, either from its image or directly from its terms. Every
definition gets one cell that all references to it point at. When the bodies exist, that cell is
made to stand for the body, so that a constant is evaluated at most once however often it is
used.
-/

namespace GraphReduction

inductive LoadError where
  | format (e : FormatError)
  | unresolvedPrimitive (name : String)
  | missingEntry
  /-- A definition that only stands for itself. -/
  | selfAlias (name : Name)
  | runtime (e : RuntimeError)
deriving DecidableEq

def LoadError.message : LoadError → String
  | format e => e.message
  | unresolvedPrimitive name => "primitive `" ++ name ++ "` is not known to this runtime"
  | missingEntry => "definitions file has no entry point"
  | selfAlias name => "definition `" ++ name ++ "` is an alias of itself"
  | runtime e => e.message

/-- The cells of the definitions of a loaded program. -/
structure Loaded where
  entry : Option Nat
  defs : List (Name × Nat)

/-- The cell of the first definition of a name. -/
def Loaded.get? (l : Loaded) (name : Name) : Option Nat :=
  (l.defs.find? fun d => d.1 == name).map Prod.snd

abbrev LoadM := EStateM LoadError Heap

namespace Load

/-- A new cell. -/
def alloc (c : Cell) : LoadM Nat := fun h =>
  match Heap.alloc c h with
  | .ok id h => .ok id h
  | .error e h => .error (.runtime e) h

def badReference {α : Type} (record : Nat) (kind : ReferenceKind) (target : Nat) : LoadM α :=
  throw (.format (.badReference record kind target))

/-- Placeholders for `n` definitions. -/
def placeholders : Nat → LoadM (List Nat)
  | 0 => return []
  | n + 1 => do
    let id ← alloc (.free none)
    let ids ← placeholders n
    return id :: ids

/-- Makes every placeholder stand for the body of its definition. -/
def patch (h : Heap) (cells roots : List Nat) : Heap :=
  (cells.zip roots).foldl (fun h (cell, root) => h.set cell (.ind root)) h

/-- The first definition whose cell stands for nothing but indirections. -/
def selfAlias? (h : Heap) (defs : List (Name × Nat)) : Option Name :=
  (defs.find? fun d => (h.get (h.resolve d.2)).isInd).map Prod.fst

/-- Links definitions to their bodies. -/
def link (names : List Name) (cells roots : List Nat) : LoadM (List (Name × Nat)) := do
  modify fun h => patch h cells roots
  let defs := names.zip cells
  match selfAlias? (← get) defs with
  | some name => throw (.selfAlias name)
  | none => return defs

/-!
## Images
-/

/-- The primitives that the names of an image stand for. -/
def primitives (resolve : String → Option Primitive) : List String → Except LoadError (List Primitive)
  | [] => .ok []
  | name :: names =>
    match resolve name with
    | none => .error (.unresolvedPrimitive name)
    | some p => (primitives resolve names).map (p :: ·)

/-- The cell of the record at position `i`; `done` are those of the records before it. -/
def record (prims : Array Primitive) (defs : Array Nat) (done : Array Nat) (i : Nat) :
    Record → LoadM Nat
  | .app fn arg =>
    match done[fn]?, done[arg]? with
    | some f, some a => alloc (.app f a)
    | none, _ => badReference i .record fn
    | some _, none => badReference i .record arg
  | .comb c => alloc (.comb c)
  | .lit l => alloc (.scalar (.ofLiteral l))
  | .prim index =>
    match prims[index]? with
    | some p => alloc (.prim p)
    | none => badReference i .primitive index
  | .global index =>
    match defs[index]? with
    | some cell => return cell
    | none => badReference i .definition index

/-- The cells of all records, after those of the records before them. -/
def records (prims : Array Primitive) (defs : Array Nat) (done : Array Nat) :
    List Record → LoadM (Array Nat)
  | [] => return done
  | r :: rs => do
    let cell ← record prims defs done done.size r
    records prims defs (done.push cell) rs

/-- The cells of the bodies of definitions, the first of which is at position `i`. -/
def roots (cells : Array Nat) (i : Nat) : List DefEntry → LoadM (List Nat)
  | [] => return []
  | d :: ds =>
    match cells[d.root]? with
    | none => badReference i .definitionRoot d.root
    | some root => do
      let rest ← roots cells (i + 1) ds
      return root :: rest

end Load

/-- Loads an image, finding its primitives through `resolve`. -/
def Image.load (image : Image) (resolve : String → Option Primitive) : LoadM Loaded := do
  match Load.primitives resolve image.prims with
  | .error e => throw e
  | .ok prims =>
    let cells ← Load.placeholders image.defs.length
    let bodies ← Load.records prims.toArray cells.toArray #[] image.records
    let roots ← Load.roots bodies 0 image.defs
    let defs ← Load.link (image.defs.map (·.name)) cells roots
    match image.entry with
    | none => return ⟨none, defs⟩
    | some e =>
      match cells[e]? with
      | some cell => return ⟨some cell, defs⟩
      | none => Load.badReference image.records.length .entry e

namespace Load

/-!
## Programs
-/

/-- The cells of the nodes built so far, by label. -/
abbrev BuildM := StateT (Std.HashMap Nat Nat) LoadM

/-- A new cell for the node with a label. -/
def node (label : Nat) (c : Cell) : BuildM Nat := do
  let id ← alloc c
  modify fun built => built.insert label id
  return id

/-- The cell of a term, made now unless its node has one already. A reference to a definition is
the cell of the definition. -/
def term (defs : List (Name × Nat)) : Term → BuildM Nat
  | .leaf label x => do
    match (← get)[label]? with
    | some id => return id
    | none =>
      match x with
      | .comb c => node label (.comb c)
      | .prim p => node label (.prim p)
      | .lit l => node label (.scalar (.ofLiteral l))
      | .global name =>
        match defs.lookup name with
        | some cell => return cell
        | none => throw (.format (.malformed (.unknownDefinition name)))
      | .var x => throw (.format (.malformed (.variableLeft x)))
  | .app label f a => do
    match (← get)[label]? with
    | some id => return id
    | none =>
      let f ← term defs f
      let a ← term defs a
      node label (.app f a)

/-- The cells of the bodies of definitions. -/
def bodies (defs : List (Name × Nat)) : List Definition → BuildM (List Nat)
  | [] => return []
  | d :: ds => do
    let root ← term defs d.body
    let rest ← bodies defs ds
    return root :: rest

end Load

/-- Builds the graph of a program without going through an image. -/
def Program.load (p : Program) : LoadM Loaded := do
  let names := p.defs.map (·.name)
  let cells ← Load.placeholders p.defs.length
  let roots ← (Load.bodies (names.zip cells) p.defs).run' ∅
  let defs ← Load.link names cells roots
  return ⟨p.entry.bind fun name => defs.lookup name, defs⟩

end GraphReduction
