import GraphReduction.Combinator
import GraphReduction.Primitive
import GraphReduction.Text.Literal

/-!
# Expressions and modules

A lambda calculus with literals, primitives, constructors, `let`, `letrec`, and a case that
dispatches on constructor tags. Local variables and top-level names are told apart when a
program is read. A module is a list of data declarations and top-level bindings.
-/

namespace GraphReduction

abbrev Name := String

/-- An alternative of a case: the tag it is for, the names it gives to the fields, and its
right hand side. -/
structure Alt (α : Type) where
  tag : UInt32
  binders : List Name
  body : α

inductive Expr where
  | var (x : Name)
  | global (x : Name)
  | lit (l : Literal)
  | prim (p : Primitive)
  | comb (c : Combinator)
  | con (tag arity : UInt32)
  | app (f a : Expr)
  | lam (x : Name) (body : Expr)
  | letIn (x : Name) (rhs body : Expr)
  | letRec (binds : List (Name × Expr)) (body : Expr)
  /-- `arities` holds the number of fields of every constructor of the scrutinee's type. -/
  | caseOf (scrut : Expr) (arities : List UInt32) (alts : List (Alt Expr)) (other : Option Expr)

instance : Inhabited Expr := ⟨.var ""⟩

namespace Expr

/-- `f` applied to arguments from left to right. -/
def apply (f : Expr) (args : List Expr) : Expr := args.foldl app f

/-- One lambda per parameter around `body`. -/
def lams (params : List Name) (body : Expr) : Expr := params.foldr lam body

mutual

/-- The text of an expression, fully parenthesised. -/
def render : Expr → String
  | var x => x
  | global x => x
  | lit l => l.render
  | prim p => "#" ++ p.name
  | comb c => "#" ++ c.render
  | con tag arity => (Combinator.con tag arity).render
  | app f a => "(" ++ f.render ++ " @ " ++ a.render ++ ")"
  | lam x body => "(\\" ++ x ++ " -> " ++ body.render ++ ")"
  | letIn x rhs body => "(let " ++ x ++ " = " ++ rhs.render ++ " in " ++ body.render ++ ")"
  | letRec binds body =>
    "(letrec " ++ "; ".intercalate (renderBinds binds) ++ " in " ++ body.render ++ ")"
  | caseOf scrut _ alts other =>
    "(case " ++ scrut.render ++ " of \x7b" ++ renderAlts alts ++ renderOther other ++ " \x7d)"

def renderBinds : List (Name × Expr) → List String
  | [] => []
  | (x, rhs) :: binds => (x ++ " = " ++ rhs.render) :: renderBinds binds

def renderAlts : List (Alt Expr) → String
  | [] => ""
  | ⟨tag, binders, body⟩ :: alts =>
    " " ++ toString tag.toNat ++ String.join (binders.map (" " ++ ·)) ++ " -> " ++ body.render ++
      ";" ++ renderAlts alts

def renderOther : Option Expr → String
  | none => ""
  | some e => " _ -> " ++ e.render ++ ";"

end

mutual

/-- The variables that occur free in an expression, one entry per occurrence, `bound` being the
enclosing binders. -/
def freeOccurrences (bound : List Name) : Expr → List Name
  | var x => if x ∈ bound then [] else [x]
  | global _ | lit _ | prim _ | comb _ | con .. => []
  | app f a => f.freeOccurrences bound ++ a.freeOccurrences bound
  | lam x body => body.freeOccurrences (x :: bound)
  | letIn x rhs body => rhs.freeOccurrences bound ++ body.freeOccurrences (x :: bound)
  | letRec binds body =>
    let bound := binds.map Prod.fst ++ bound
    freeInBinds bound binds ++ body.freeOccurrences bound
  | caseOf scrut _ alts other =>
    scrut.freeOccurrences bound ++ freeInAlts bound alts ++ freeInOther bound other

def freeInBinds (bound : List Name) : List (Name × Expr) → List Name
  | [] => []
  | (_, rhs) :: binds => rhs.freeOccurrences bound ++ freeInBinds bound binds

def freeInAlts (bound : List Name) : List (Alt Expr) → List Name
  | [] => []
  | ⟨_, binders, body⟩ :: alts => body.freeOccurrences (binders ++ bound) ++ freeInAlts bound alts

def freeInOther (bound : List Name) : Option Expr → List Name
  | none => []
  | some e => e.freeOccurrences bound

end

end Expr

/-- Inserts a name into an ascending list, unless it is there. -/
def insertName (x : Name) : List Name → List Name
  | [] => [x]
  | y :: ys => if x < y then x :: y :: ys else if x = y then y :: ys else y :: insertName x ys

/-- Each name once, in ascending order. -/
def sortedNames (xs : List Name) : List Name := xs.foldr insertName []

/-- The free variables of an expression, in ascending order. -/
def Expr.freeVars (e : Expr) : List Name := sortedNames (e.freeOccurrences [])

/-- `data name = Con₀ k₀ | Con₁ k₁ …`. The tag of a constructor is its position. -/
structure DataDecl where
  name : Name
  constructors : List (Name × UInt32)

/-- The number of fields of each constructor. -/
def DataDecl.arities (d : DataDecl) : List UInt32 := d.constructors.map Prod.snd

/-- A top-level definition `name params = body`. -/
structure Binding (α : Type) where
  name : Name
  params : List Name
  body : α

structure Module where
  name : String
  datatypes : List DataDecl
  defs : List (Binding Expr)

/-- The first definition of a name. -/
def Module.get? (m : Module) (name : Name) : Option (Binding Expr) :=
  m.defs.find? fun d => d.name == name

end GraphReduction
