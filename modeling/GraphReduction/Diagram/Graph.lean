/-!
# Directed graphs as DOT text
-/

namespace GraphReduction

namespace Diagram

structure Node where
  id : String
  label : Option String
  shape : Option String

structure Edge where
  source : String
  target : String
  label : Option String

structure Graph where
  name : String
  nodes : Array Node
  edges : Array Edge

/-- A label as it stands between quotes. -/
def escape (s : String) : String :=
  String.join (s.toList.map fun c =>
    if c = '\\' then "\\\\" else if c = '"' then "\\\"" else if c = '\n' then "\\n"
    else String.singleton c)

def Node.render (n : Node) : String :=
  match n.label, n.shape with
  | some label, some shape => n.id ++ " [ label=\"" ++ escape label ++ "\" shape=" ++ shape ++ " ];"
  | some label, none => n.id ++ " [ label=\"" ++ escape label ++ "\" ];"
  | none, some shape => n.id ++ " [ shape=" ++ shape ++ " ];"
  | none, none => n.id ++ ";"

def Edge.render (e : Edge) : String :=
  let arrow := e.source ++ " -> " ++ e.target
  match e.label with
  | some label => arrow ++ " [ label=\"" ++ label ++ "\" ];"
  | none => arrow ++ ";"

def Graph.render (g : Graph) : String :=
  "digraph " ++ g.name ++ " \x7b\n" ++
    String.join (g.nodes.toList.map fun n => "\t" ++ n.render ++ "\n") ++
    String.join (g.edges.toList.map fun e => "\t" ++ e.render ++ "\n") ++ "\x7d"

end Diagram

end GraphReduction
