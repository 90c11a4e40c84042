import GraphReduction.Syntax.Expr
import Std.Data.HashSet

/-!
# Combinator terms

The code of a definition: combinators, primitives, top-level names and literals under
application. A term is a graph written as a tree. Every node has a label, and two nodes with the
same label are one shared node, so a term says what is shared and not only what it computes.
Variables occur only while a term is being built.
-/

namespace GraphReduction

inductive Atom where
  | comb (c : Combinator)
  | prim (p : Primitive)
  | global (name : Name)
  | lit (l : Literal)
  | var (x : Name)
deriving DecidableEq, Inhabited

def Atom.render : Atom → String
  | comb c => c.render
  | prim p => p.name
  | global name => name
  | lit l => l.render
  | var x => "Id:" ++ x

inductive Term where
  | leaf (label : Nat) (atom : Atom)
  | app (label : Nat) (f a : Term)
deriving Inhabited

/-- A computation that takes unused labels from a counter. -/
abbrev Fresh := StateM Nat

namespace Term

def label : Term → Nat
  | leaf n _ => n
  | app n _ _ => n

/-- A new node for an atom. -/
def newLeaf (x : Atom) : Fresh Term := fun n => (leaf n x, n + 1)

/-- A new application node. -/
def newApp (f a : Term) : Fresh Term := fun n => (app n f a, n + 1)

/-- New application nodes for `f` applied to arguments from left to right. -/
def newApps (f : Term) : List Term → Fresh Term
  | [] => return f
  | a :: args => do
    let fa ← newApp f a
    fa.newApps args

/-- A new node for a combinator, applied to arguments. -/
def newComb (c : Combinator) (args : List Term) : Fresh Term := do
  let head ← newLeaf (.comb c)
  head.newApps args

def render : Term → String
  | leaf _ x => x.render
  | app _ f a => "(" ++ f.render ++ " @ " ++ a.render ++ ")"

/-- The head of the application spine, and the number of arguments on it. -/
def spine : Term → Atom × Nat
  | leaf _ x => (x, 0)
  | app _ f _ => let (head, n) := f.spine; (head, n + 1)

def isVar (x : Name) : Term → Bool
  | leaf _ (.var y) => x = y
  | _ => false

def isApp : Term → Bool
  | app .. => true
  | leaf .. => false

/-- The first variable of a term, from left to right. -/
def findVar : Term → Option Name
  | leaf _ (.var x) => some x
  | leaf .. => none
  | app _ f a => f.findVar.or a.findVar

/-- Adds the labels of a term to a set. A node that is there already is not entered again. -/
def addLabels (seen : Std.HashSet Nat) : Term → Std.HashSet Nat
  | leaf n _ => seen.insert n
  | app n f a => if seen.contains n then seen else a.addLabels (f.addLabels (seen.insert n))

/-- The number of distinct nodes of a term. -/
def nodeCount (t : Term) : Nat := (t.addLabels ∅).size

end Term

end GraphReduction
