import GraphReduction.Diagram.Graph
import GraphReduction.Program
import Std.Data.HashMap

/-!
# Drawing programs

Every definition is a box with an edge to its body. A shared node is drawn once with one edge per
use, and a reference to a definition leads to its box, so the picture shows the graph that a run
starts from.
-/

namespace GraphReduction

namespace Diagram

/-- The graph drawn so far. -/
structure Drawing where
  graph : Graph
  /-- The names of the nodes drawn, by label. -/
  drawn : Std.HashMap Nat String
  /-- The names of the boxes of definitions. -/
  boxes : List (Name × String)

abbrev DrawM := StateM Drawing

/-- Adds a node and gives its name. -/
def addNode (label : String) (shape : Option String) : DrawM String := fun d =>
  let id := "node" ++ toString (d.graph.nodes.size + 1)
  (id, { d with graph := { d.graph with nodes := d.graph.nodes.push ⟨id, some label, shape⟩ } })

def addEdge (e : Edge) : DrawM Unit := modify fun d =>
  { d with graph := { d.graph with edges := d.graph.edges.push e } }

/-- Takes note of the name of a node. -/
def remember (label : Nat) (id : String) : DrawM String := do
  modify fun d => { d with drawn := d.drawn.insert label id }
  return id

/-- Draws a leaf, except for a reference to a definition, which has its box. -/
def drawAtom : Atom → DrawM String
  | .comb c => addNode c.render none
  | .prim p => addNode p.name (some "diamond")
  | .lit l => addNode l.render (some "plain")
  | .var x => addNode x none
  | .global name => do
    match (← get).boxes.lookup name with
    | some id => return id
    | none => addNode name (some "box")

/-- Draws a term unless its node is there already, and gives the name of the node. -/
def drawTerm : Term → DrawM String
  | .leaf label x => do
    match (← get).drawn[label]? with
    | some id => return id
    | none =>
      let id ← drawAtom x
      remember label id
  | .app label f a => do
    match (← get).drawn[label]? with
    | some id => return id
    | none =>
      let id ← addNode "@" (some "circle")
      let f ← drawTerm f
      let a ← drawTerm a
      addEdge ⟨id, f, some "f"⟩
      addEdge ⟨id, a, some "x"⟩
      remember label id

/-- Draws the boxes of definitions. Of two definitions of a name the later one is referred to. -/
def drawBoxes : List Definition → DrawM Unit
  | [] => return ()
  | d :: ds => do
    let id ← addNode (d.name ++ " / " ++ toString d.arity) (some "box")
    modify fun s => { s with boxes := (d.name, id) :: s.boxes }
    drawBoxes ds

/-- Draws the bodies of definitions. -/
def drawBodies : List Definition → DrawM Unit
  | [] => return ()
  | d :: ds => do
    let body ← drawTerm d.body
    if let some id := (← get).boxes.lookup d.name then addEdge ⟨id, body, none⟩
    drawBodies ds

end Diagram

/-- The graph of a program. -/
def Program.draw (p : Program) (graphName : String) : Diagram.Graph :=
  let start : Diagram.Drawing := ⟨⟨graphName, #[], #[]⟩, ∅, []⟩
  let ((), d) := (do Diagram.drawBoxes p.defs; Diagram.drawBodies p.defs : Diagram.DrawM Unit) start
  d.graph

end GraphReduction
