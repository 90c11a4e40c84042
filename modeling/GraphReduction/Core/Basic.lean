import GraphReduction.Syntax.Expr

/-!
# Core expressions

Expressions without `letrec`. Recursion happens only through top-level names and the fixed
point combinator, so compilation to combinators has no case for it.
-/

namespace GraphReduction

inductive Core where
  | var (x : Name)
  | global (x : Name)
  | lit (l : Literal)
  | prim (p : Primitive)
  | comb (c : Combinator)
  | con (tag arity : UInt32)
  | app (f a : Core)
  | lam (x : Name) (body : Core)
  | letIn (x : Name) (rhs body : Core)
  | caseOf (scrut : Core) (arities : List UInt32) (alts : List (Alt Core)) (other : Option Core)

instance : Inhabited Core := ⟨.var ""⟩

namespace Core

mutual

/-- A core expression is an expression. -/
def toExpr : Core → Expr
  | var x => .var x
  | global x => .global x
  | lit l => .lit l
  | prim p => .prim p
  | comb c => .comb c
  | con tag arity => .con tag arity
  | app f a => .app f.toExpr a.toExpr
  | lam x body => .lam x body.toExpr
  | letIn x rhs body => .letIn x rhs.toExpr body.toExpr
  | caseOf scrut arities alts other =>
    .caseOf scrut.toExpr arities (altsToExpr alts) (otherToExpr other)

def altsToExpr : List (Alt Core) → List (Alt Expr)
  | [] => []
  | ⟨tag, binders, body⟩ :: alts => ⟨tag, binders, body.toExpr⟩ :: altsToExpr alts

def otherToExpr : Option Core → Option Expr
  | none => none
  | some e => some e.toExpr

end

/-- The free variables, in ascending order. -/
def freeVars (e : Core) : List Name := e.toExpr.freeVars

/-- `f` applied to arguments from left to right. -/
def apply (f : Core) (args : List Core) : Core := args.foldl app f

/-- One `let` per binding around `body`, the first one outermost. -/
def lets (binds : List (Name × Core)) (body : Core) : Core :=
  binds.foldr (fun (x, rhs) body => letIn x rhs body) body

def isLam : Core → Bool
  | lam .. => true
  | _ => false

/-- The parameters of the leading lambdas, and what is below them. -/
def peel : Core → List Name × Core
  | lam x body => let (xs, e) := body.peel; (x :: xs, e)
  | e => ([], e)

mutual

/-- Replaces variables. Binders are not looked at: it is for expressions whose binders are
distinct from each other and from every variable of the replacements. -/
def substitute (σ : Name → Option Core) : Core → Core
  | var x => (σ x).getD (var x)
  | app f a => app (f.substitute σ) (a.substitute σ)
  | lam x body => lam x (body.substitute σ)
  | letIn x rhs body => letIn x (rhs.substitute σ) (body.substitute σ)
  | caseOf scrut arities alts other =>
    caseOf (scrut.substitute σ) arities (substituteAlts σ alts) (substituteOther σ other)
  | e => e

def substituteAlts (σ : Name → Option Core) : List (Alt Core) → List (Alt Core)
  | [] => []
  | ⟨tag, binders, body⟩ :: alts => ⟨tag, binders, body.substitute σ⟩ :: substituteAlts σ alts

def substituteOther (σ : Name → Option Core) : Option Core → Option Core
  | none => none
  | some e => some (e.substitute σ)

end

end Core

end GraphReduction
