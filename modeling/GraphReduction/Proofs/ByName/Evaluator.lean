import GraphReduction.Proofs.Calculus.Reduction
import GraphReduction.Syntax.Expr

/-!
# Evaluation by name

What a module means, without graphs or combinators: closed expressions are evaluated to weak head
normal form by substitution.

* A function is applied to its argument as it is, and `let` is substitution.
* `letrec` unfolds: a name of the group stands for its right hand side under the whole group.
* A case applies the alternative of the scrutinee's tag to the fields of the scrutinee. `Fallback` says
  for which of the other tags the default is taken. A case on `2 ^ 32` constructors or more has no value.
* Primitives work on integers and characters.

Everything else has no value.
-/

namespace GraphReduction

namespace Expr

/-- A substitution where `xs` are bound. -/
def hide (xs : List Name) (s : Name → Option Expr) (y : Name) : Option Expr :=
  if y ∈ xs then none else s y

mutual

/-- Replaces the free occurrences of variables. What replaces them has to be closed. -/
def subst (s : Name → Option Expr) : Expr → Expr
  | var x => (s x).getD (var x)
  | app f a => app (f.subst s) (a.subst s)
  | lam x body => lam x (body.subst (hide [x] s))
  | letIn x rhs body => letIn x (rhs.subst s) (body.subst (hide [x] s))
  | letRec binds body =>
    letRec (substBinds (hide (binds.map Prod.fst) s) binds)
      (body.subst (hide (binds.map Prod.fst) s))
  | caseOf scrut arities alts other =>
    caseOf (scrut.subst s) arities (substAlts s alts) (substOther s other)
  | e => e

def substBinds (s : Name → Option Expr) : List (Name × Expr) → List (Name × Expr)
  | [] => []
  | (x, rhs) :: binds => (x, rhs.subst s) :: substBinds s binds

def substAlts (s : Name → Option Expr) : List (Alt Expr) → List (Alt Expr)
  | [] => []
  | ⟨tag, binders, body⟩ :: alts =>
    ⟨tag, binders, body.subst (hide binders s)⟩ :: substAlts s alts

def substOther (s : Name → Option Expr) : Option Expr → Option Expr
  | none => none
  | some e => some (e.subst s)

end

/-- One variable is replaced. -/
def single (x : Name) (a : Expr) (y : Name) : Option Expr := if y = x then some a else none

/-- A name of a group becomes its right hand side under the group. Of several right hand sides the
last one counts. -/
def unfolding (binds : List (Name × Expr)) (y : Name) : Option Expr :=
  (binds.reverse.lookup y).map (letRec binds)

end Expr

/-- The tags without an alternative for which the default of a case is taken. -/
inductive Fallback where
  | anyTag
  /-- Those that the type of the case lists with as many fields as the scrutinee has. -/
  | listedTag
deriving DecidableEq

/-- Whether the default is taken for a constructor with `n` fields. -/
def Fallback.covers (arities : List UInt32) (tag : UInt32) (n : Nat) : Fallback → Bool
  | anyTag => true
  | listedTag => (arities[tag.toNat]?).map UInt32.toNat == some n

/-- What a case becomes for a constructor. -/
def Fallback.select (fallback : Fallback) (arities : List UInt32) (alts : List (Alt Expr))
    (other : Option Expr) (tag : UInt32) (fields : List Expr) : Option Expr :=
  match alts.find? (·.tag == tag) with
  | some alt => some ((Expr.lams alt.binders alt.body).apply fields)
  | none => if fallback.covers arities tag fields.length then other else none

/-- An expression in weak head normal form. -/
inductive Weak where
  | int (n : Int64)
  | char (c : Char)
  | con (tag arity : UInt32) (fields : List Expr)
  | prim (p : Primitive) (args : List Expr)
  | lam (x : Name) (body : Expr)

namespace Weak

def toExpr : Weak → Expr
  | int n => .lit (.int n)
  | char c => .lit (.char c)
  | con tag arity fields => Expr.apply (.con tag arity) fields
  | prim p args => Expr.apply (.prim p) args
  | lam x body => .lam x body

def ofLiteral? : Literal → Option Weak
  | .int n => some (int n)
  | .char c => some (char c)
  | _ => none

def toLiteral? : Weak → Option Literal
  | int n => some (.int n)
  | char c => some (.char c)
  | _ => none

/-- What a primitive gives. -/
def ofResult? : Literal ⊕ Bool → Option Weak
  | .inl l => ofLiteral? l
  | .inr b => some (con (if b then 1 else 0) 0 [])

end Weak

section Evaluation

variable (fallback : Fallback) (defs : Name → Option Expr)

/-- The weak head normal form of a closed expression, found with at most `fuel` levels of nested
evaluation. -/
def evaluateWeak : (fuel : Nat) → Expr → Option Weak
  | 0, _ => none
  | fuel + 1, e =>
    match e with
    | .var _ | .comb _ => none
    | .lit l => Weak.ofLiteral? l
    | .prim p => some (.prim p [])
    | .con tag arity => some (.con tag arity [])
    | .lam x body => some (.lam x body)
    | .global x => (defs x).bind (evaluateWeak fuel)
    | .letIn x rhs body => evaluateWeak fuel (body.subst (Expr.single x rhs))
    | .letRec binds body => evaluateWeak fuel (body.subst (Expr.unfolding binds))
    | .app f a =>
      match evaluateWeak fuel f with
      | some (.lam x body) => evaluateWeak fuel (body.subst (Expr.single x a))
      | some (.con tag arity fields) =>
        if fields.length < arity.toNat then some (.con tag arity (fields ++ [a])) else none
      | some (.prim p args) =>
        if args.length + 1 < p.arity then some (.prim p (args ++ [a]))
        else do
          let lits ← (args ++ [a]).mapM fun e => (evaluateWeak fuel e).bind Weak.toLiteral?
          (p.result? lits).bind Weak.ofResult?
      | _ => none
    | .caseOf scrut arities alts other =>
      match evaluateWeak fuel scrut with
      | some (.con tag arity fields) =>
        if fields.length = arity.toNat ∧ arities.length < UInt32.size then
          (fallback.select arities alts other tag fields).bind (evaluateWeak fuel)
        else none
      | _ => none

/-- The first-order value of a closed expression: an integer, a character, or a constructor with all
its fields, which have such values. -/
def evaluateValue : (fuel : Nat) → Expr → Option Value
  | 0, _ => none
  | fuel + 1, e =>
    match evaluateWeak fallback defs fuel e with
    | some (.int n) => some (.int n)
    | some (.char c) => some (.char c)
    | some (.con tag arity fields) =>
      if fields.length = arity.toNat then
        (fields.mapM (evaluateValue fuel)).map (Value.con tag)
      else none
    | _ => none

end Evaluation

/-- The function that a name is defined as. -/
def Module.definition? (m : Module) (x : Name) : Option Expr :=
  (m.get? x).map fun d => Expr.lams d.params d.body

/-- The value of the entry point of a module. -/
def Module.value? (m : Module) (fallback : Fallback) (fuel : Nat) : Option Value :=
  evaluateValue fallback m.definition? fuel (.global Program.entryPoint)

end GraphReduction
