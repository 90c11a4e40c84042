import GraphReduction.Config
import GraphReduction.Heap.Collect
import GraphReduction.Load
import GraphReduction.World
import Std.Data.TreeMap

/-!
# The reduction machine

The machine unwinds the spine of an expression on an explicit stack until it meets a combinator
or primitive, and overwrites the root of the redex in place. This module has its state and the
small operations that the rules are made of.

The stack, together with the cells of the definitions, is the root set of the collector, which
runs at safe points only: where every cell in use can be reached from these roots.
-/

namespace GraphReduction

structure Stats where
  /-- Rules fired. -/
  steps : Nat := 0
  ticks : Nat := 0
  /-- Ticks of each label. -/
  labels : Std.TreeMap Int Nat := ∅

def Stats.ticksFor (s : Stats) (label : Int) : Nat := s.labels.getD label 0

structure Machine where
  heap : Heap
  stack : Array Nat
  /-- Where the suspended spines start on the stack, the innermost last. -/
  frames : Array Nat
  /-- How many strict evaluations are nested. -/
  depth : Nat
  /-- The cells of definitions, which stay in use for the whole run. -/
  pinned : List Nat
  globals : List (Name × Nat)
  stackLimit : Nat
  depthLimit : Nat
  gcStress : Bool
  world : World
  /-- The operations on the world so far, the last one first. Nothing reads this log: it is there to
  say what a run has done. -/
  performed : List Operation
  stats : Stats

/-- Why an evaluation stops without a result: an error, or a bound on its length that was too
low. -/
inductive Halt where
  | error (e : RuntimeError)
  | outOfFuel

abbrev Run := EStateM Halt Machine

namespace Machine

def new (config : Config) (world : World) : Machine :=
  { heap := .empty config.heapCells
    stack := #[]
    frames := #[]
    depth := 0
    pinned := []
    globals := []
    stackLimit := config.stackLimit
    depthLimit := config.depthLimit
    gcStress := config.gcStress
    world
    performed := []
    stats := {} }

instance : Inhabited Machine := ⟨new {} default⟩

/-- The cell of the first definition of a name. -/
def global? (m : Machine) (name : Name) : Option Nat := m.globals.lookup name

/-!
## Loading
-/

/-- Takes note of loaded definitions and gives the entry point. -/
def pin (l : Loaded) (m : Machine) : Except LoadError Nat × Machine :=
  let m := { m with
    pinned := m.pinned ++ l.defs.map Prod.snd
    globals := m.globals ++ l.defs }
  match l.entry with
  | some e => (.ok e, m)
  | none => (.error .missingEntry, m)

/-- Runs a loading action on the heap of the machine. -/
def load (x : LoadM Loaded) (m : Machine) : Except LoadError Nat × Machine :=
  match x m.heap with
  | .ok l heap => pin l { m with heap }
  | .error e heap => (.error e, { m with heap })

/-- Loads a program and gives the cell of its entry point. -/
def loadProgram (p : Program) (m : Machine) : Except LoadError Nat × Machine := m.load p.load

/-- Loads an image and gives the cell of its entry point. -/
def loadImage (image : Image) (m : Machine) : Except LoadError Nat × Machine :=
  m.load (image.load Primitive.ofName?)

/-!
## Registers
-/

def fail {α : Type} (e : RuntimeError) : Run α := throw (.error e)

def malformed {α : Type} (fault : GraphFault) : Run α := fail (.malformed fault)

/-- Pushes a cell on the stack. -/
def push (id : Nat) : Run Unit := fun m =>
  if m.stackLimit ≤ m.stack.size then .error (.error (.stackOverflow m.stackLimit)) m
  else .ok () { m with stack := m.stack.push id }

/-- Enters a nested strict evaluation. -/
def enter : Run Unit := fun m =>
  if m.depthLimit ≤ m.depth then .error (.error (.stackOverflow m.depthLimit)) m
  else .ok () { m with depth := m.depth + 1 }

/-- Drops everything on the stack from a position on. -/
def truncate (size : Nat) : Run Unit := modify fun m => { m with stack := m.stack.shrink size }

/-- The stack entry at a position. -/
def entry (i : Nat) : Run Nat := fun m => .ok (m.stack.getD i 0) m

/-- Replaces the stack entry at a position. -/
def setEntry (i : Nat) (id : Nat) : Run Unit := modify fun m =>
  { m with stack := m.stack.setIfInBounds i id }

/-- The position of the top of the stack. -/
def top : Run Nat := fun m => .ok (m.stack.size - 1) m

/-- Sets the registers back to where they were when an evaluation began. -/
def restore (m : Machine) (stackSize frameCount depth : Nat) : Machine :=
  { m with
    stack := m.stack.shrink stackSize
    frames := m.frames.shrink frameCount
    depth }

/-- Runs a nested evaluation of a cell, pushed at the position that `body` is told, and restores
the registers, however it ends. Only an unwinding that fails leaves spines suspended; after a loop of
actions or a normalisation there is nothing to cut off the frames. -/
def nested {α : Type} (id : Nat) (body : Nat → Run α) : Run α := fun m =>
  let base := m.stack.size
  let frameCount := m.frames.size
  let depth := m.depth
  match (do enter; push id; body base : Run α) m with
  | .ok a m => .ok a (m.restore base frameCount depth)
  | .error e m => .error e (m.restore base frameCount depth)

/-!
## The heap
-/

def cell (id : Nat) : Run Cell := fun m => .ok (m.heap.get id) m

def setCell (id : Nat) (c : Cell) : Run Unit := modify fun m => { m with heap := m.heap.set id c }

/-- The cell that a cell stands for. -/
def resolve (id : Nat) : Run Nat := fun m => .ok (m.heap.resolve id) m

def alloc (c : Cell) : Run Nat := fun m =>
  match Heap.alloc c m.heap with
  | .ok id heap => .ok id { m with heap }
  | .error e heap => .error (.error e) { m with heap }

/-- A new application cell. -/
def app (f a : Nat) : Run Nat := alloc (.app f a)

/-- Collects with everything on the stack and all definitions as roots. -/
def collect : Run Unit := modify fun m =>
  let roots := m.stack.toList ++ m.pinned
  { m with heap := (Heap.collect roots m.heap).2 }

/-- Makes sure that `cells` cells can be allocated without a collection. -/
def reserve (cells : Nat) : Run Unit := do
  let needed := max cells Heap.reserve
  let m ← get
  if m.gcStress || m.heap.freeCells < needed then
    collect
    let m ← get
    if m.heap.freeCells < needed then fail (.outOfMemory m.heap.capacity)

/-- Collects if the heap runs low. -/
def safePoint : Run Unit := reserve Heap.reserve

/-!
## Spines
-/

/-- Argument `i`, counting from one, of the head at stack position `top`. -/
def arg (top i : Nat) : Run Nat := do
  match ← cell (← entry (top - i)) with
  | .app _ a => return a
  | other => malformed (.notAnApplication other)

/-- The head of an application spine and the arguments on it, in front of `args`, with at most
`fuel` of them followed. -/
def spineFrom (h : Heap) : (fuel : Nat) → Nat → List Nat → Nat × List Nat
  | 0, id, args => (id, args)
  | fuel + 1, id, args =>
    match h.get id with
    | .app f a => spineFrom h fuel (h.resolve f) (a :: args)
    | _ => (id, args)

/-- The head and the arguments of the application spine of a cell. A spine has no more
applications than there are cells. -/
def spineOf (h : Heap) (id : Nat) : Nat × List Nat :=
  spineFrom h (h.cells.size + 1) (h.resolve id) []

def spine (id : Nat) : Run (Nat × List Nat) := fun m => .ok (spineOf m.heap id) m

/-- The head of a spine with at most `limit` arguments, and their number. -/
def boundedSpine (h : Heap) : (limit : Nat) → Nat → (args : Nat) → Option (Cell × Nat)
  | limit, id, args =>
    match h.get id, limit with
    | .app _ _, 0 => none
    | .app f _, limit + 1 => boundedSpine h limit (h.resolve f) (args + 1)
    | c, _ => some (c, args)
termination_by structural limit => limit

/-- Whether unwinding a cell would stop without firing a rule. A spine that does not fit on the
stack is left to unwinding, which reports it. -/
def isWhnfIn (m : Machine) (id : Nat) : Bool :=
  match boundedSpine m.heap m.stackLimit (m.heap.resolve id) 0 with
  | some (.comb c, args) => (c.arity.map fun n => decide (args < n)).getD true
  | some (.prim p, args) => p.isAction || args < p.arity
  | some (.scalar _, args) => args == 0
  | _ => false

def isWhnf (id : Nat) : Run Bool := fun m => .ok (m.isWhnfIn id) m

/-- Whether a cell holds an action, applied or not. -/
def isActionIn (h : Heap) (id : Nat) : Bool :=
  match h.get (spineOf h id).1 with
  | .comb c => c.isAction
  | .prim p => p.isAction
  | _ => false

/-- What a cell holds, for an error message. -/
def describeIn (h : Heap) (id : Nat) : String :=
  let (head, args) := spineOf h id
  let text := match h.get head with
    | .comb c => c.render
    | .prim p => p.name
    | .scalar s => s.render
    | .app .. | .ind _ | .free _ => "<node>"
  if args.isEmpty then text
  else text ++ " applied to " ++ toString args.length ++ " arguments"

def describe (id : Nat) : Run String := fun m => .ok (describeIn m.heap id) m

/-- Makes a redex stand for another cell. -/
def updateInd (redex target : Nat) : Run Unit := do
  let target ← resolve target
  if target = redex then malformed .loop
  setCell redex (.ind target)

/-!
## Scalars
-/

def mismatch {α : Type} (p : Primitive) (expected : String) (id : Nat) : Run α := do
  fail (.typeMismatch p.name expected (← describe id))

def intValue (p : Primitive) (id : Nat) : Run Int64 := do
  let v ← resolve id
  match ← cell v with
  | .scalar (.int n) => return n
  | _ => mismatch p "an integer" v

def charValue (p : Primitive) (id : Nat) : Run Char := do
  let v ← resolve id
  match ← cell v with
  | .scalar (.char c) => return c
  | _ => mismatch p "a character" v

def doubleValue (p : Primitive) (id : Nat) : Run Double := do
  let v ← resolve id
  match ← cell v with
  | .scalar (.double x) => return x
  | _ => mismatch p "a double" v

def ptrValue (p : Primitive) (id : Nat) : Run UInt64 := do
  let v ← resolve id
  match ← cell v with
  | .scalar (.ptr address) => return address
  | _ => mismatch p "a pointer" v

end Machine

end GraphReduction
