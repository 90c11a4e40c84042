import GraphReduction.Term

/-!
# Programs

The compiled form of a module: one closed term per top-level name.
-/

namespace GraphReduction

structure Definition where
  name : Name
  /-- The number of arguments that the body needs before its spine can fire. -/
  arity : Nat
  body : Term

structure Program where
  module : String
  defs : List Definition
  /-- The definition that evaluation starts from. -/
  entry : Option Name

namespace Program

/-- The name of the definition that a run evaluates. -/
def entryPoint : Name := "main"

/-- The first definition of a name. -/
def get? (p : Program) (name : Name) : Option Definition :=
  p.defs.find? fun d => d.name == name

/-- The position of the first definition of a name. -/
def indexOf? (p : Program) (name : Name) : Option Nat :=
  p.defs.findIdx? fun d => d.name == name

def render (p : Program) : String :=
  String.join (p.defs.map fun d =>
    d.name ++ "/" ++ toString d.arity ++ " = " ++ d.body.render ++ "\n")

end Program

/-!
## Arities

The arity of a definition is found at the head of its spine, through definitions that stand for
others. A chain of definitions that runs into a cycle never fires and has arity 0.
-/

/-- The arity of a spine, looking through at most `fuel` definitions. -/
def spineArity (defs : List Definition) : Nat → Term → Nat
  | 0, _ => 0
  | fuel + 1, t =>
    let (head, args) := t.spine
    let needed := match head with
      | .comb c => c.arity.getD 0
      | .prim p => if p.isAction then 0 else p.arity
      | .global name =>
        match defs.findRev? fun d => d.name == name with
        | some d => spineArity defs fuel d.body
        | none => 0
      | .lit _ | .var _ => 0
    needed - args

/-- Definitions with their arities filled in. -/
def annotateArities (defs : List Definition) : List Definition :=
  defs.map fun d => { d with arity := spineArity defs (defs.length + 1) d.body }

end GraphReduction
