import GraphReduction.Core.Basic
import GraphReduction.Core.Rename

/-!
# Lifting recursive groups

Every `letrec` is removed, innermost first.

* A group of functions becomes top-level definitions `owner$name$n`. The variables that the
  group captures are their leading parameters, in ascending order, and every use of a member
  becomes the new name applied to them.
* Any other group is tied with the fixed point combinator: a single binding as
  `let x = Y (\x -> e)`, a larger group through a tuple whose members are selected by `case`, so
  that each member is still one shared node.

A `let` of a function stays where it is: abstracting it keeps more sharing.
-/

namespace GraphReduction

/-- The last number given out, and the definitions lifted out of the current one so far. -/
structure LiftState where
  counter : Nat
  lifted : List (Binding Core)

abbrev LiftM := StateM LiftState

namespace Lift

/-- A step that only gives out names. -/
def naming {α : Type} (x : StateM Nat α) : LiftM α := fun s =>
  let (a, counter) := x s.counter
  (a, { s with counter })

def fresh (base : Name) : LiftM Name := naming (freshName base)

/-- As many fresh names from one base as the list is long. -/
def freshNames (bases : List Name) : LiftM (List Name) := bases.mapM fresh

/-- The first of the pairs that replaces `x`. -/
def assigned (pairs : List (Name × Core)) (x : Name) : Option Core := pairs.lookup x

/-- The top-level names of the members of a function group. -/
def globalNames (owner : Name) : List Name → LiftM (List Name)
  | [] => return []
  | x :: xs => do
    let n ← naming fun n => (n + 1, n + 1)
    let gs ← globalNames owner xs
    return (owner ++ "$" ++ baseName x ++ "$" ++ toString n) :: gs

/-- The variables that a group captures from outside. -/
def captured (binds : List (Name × Core)) : List Name :=
  let names := binds.map Prod.fst
  sortedNames ((binds.flatMap fun b => b.2.freeVars).filter (· ∉ names))

/-- Moves a group of functions to the top level. -/
def liftGroup (owner : Name) (binds : List (Name × Core)) (body : Core) : LiftM Core := do
  let outer := captured binds
  let globals ← globalNames owner (binds.map Prod.fst)
  let calls := globals.map fun g => Core.apply (.global g) (outer.map .var)
  let σ := assigned ((binds.map Prod.fst).zip calls)
  let lifted := (globals.zip binds).map fun (g, (_, rhs)) =>
    let (params, body) := (rhs.substitute σ).peel
    (⟨g, outer ++ params, body⟩ : Binding Core)
  modify fun s => { s with lifted := s.lifted ++ lifted }
  return body.substitute σ

/-- `case t of { Con0/n y₁ … yₙ -> yᵢ }`. -/
def select (n i : Nat) (tuple : Name) : LiftM Core := do
  let ys ← freshNames (List.replicate n "$y")
  return .caseOf (.var tuple) [UInt32.ofNat n] [⟨0, ys, .var (ys.getD i "")⟩] none

/-- Selectors for the members of a tuple, from the `i`-th on. -/
def selectors (n : Nat) (tuple : Name) (i : Nat) : List Name → LiftM (List (Name × Core))
  | [] => return []
  | x :: xs => do
    let e ← select n i tuple
    let rest ← selectors n tuple (i + 1) xs
    return (x, e) :: rest

/-- Ties a group that binds values with the fixed point combinator. -/
def tieGroup (binds : List (Name × Core)) (body : Core) : LiftM Core := do
  match binds with
  | [(x, rhs)] =>
    if x ∉ rhs.freeVars then return .letIn x rhs body
    let inner ← fresh (baseName x)
    let rhs := rhs.substitute (assigned [(x, .var inner)])
    return .letIn x (.app (.comb .Y) (.lam inner rhs)) body
  | _ =>
    let n := binds.length
    let names := binds.map Prod.fst
    let tuple ← fresh "$t"
    let innerTuple ← fresh "$t"
    let innerNames ← freshNames (names.map baseName)
    let σ := assigned (names.zip (innerNames.map .var))
    let fields := binds.map fun (_, rhs) => rhs.substitute σ
    let inside ← selectors n innerTuple 0 innerNames
    let tied := Core.lets inside (.apply (.con 0 (UInt32.ofNat n)) fields)
    let outside ← selectors n tuple 0 names
    return .letIn tuple (.app (.comb .Y) (.lam innerTuple tied)) (Core.lets outside body)

mutual

/-- Removes every `letrec` of an expression inside the definition `owner`. -/
def lift (owner : Name) : Expr → LiftM Core
  | .var x => return .var x
  | .global x => return .global x
  | .lit l => return .lit l
  | .prim p => return .prim p
  | .comb c => return .comb c
  | .con tag arity => return .con tag arity
  | .app f a => do
    let f ← lift owner f
    let a ← lift owner a
    return .app f a
  | .lam x body => do
    let body ← lift owner body
    return .lam x body
  | .letIn x rhs body => do
    let rhs ← lift owner rhs
    let body ← lift owner body
    return .letIn x rhs body
  | .letRec binds body => do
    let binds ← liftBinds owner binds
    let body ← lift owner body
    if binds.all fun b => b.2.isLam then liftGroup owner binds body else tieGroup binds body
  | .caseOf scrut arities alts other => do
    let scrut ← lift owner scrut
    let alts ← liftAlts owner alts
    let other ← liftOther owner other
    return .caseOf scrut arities alts other

def liftBinds (owner : Name) : List (Name × Expr) → LiftM (List (Name × Core))
  | [] => return []
  | (x, rhs) :: binds => do
    let rhs ← lift owner rhs
    let binds ← liftBinds owner binds
    return (x, rhs) :: binds

def liftAlts (owner : Name) : List (Alt Expr) → LiftM (List (Alt Core))
  | [] => return []
  | ⟨tag, binders, body⟩ :: alts => do
    let body ← lift owner body
    let alts ← liftAlts owner alts
    return ⟨tag, binders, body⟩ :: alts

def liftOther (owner : Name) : Option Expr → LiftM (Option Core)
  | none => return none
  | some e => do
    let e ← lift owner e
    return some e

end

/-- A definition followed by those lifted out of it. -/
def liftBinding (b : Binding Expr) : StateM Nat (List (Binding Core)) := fun n =>
  let (b, n) := b.rename n
  let (body, s) := lift b.name b.body ⟨n, []⟩
  (⟨b.name, b.params, body⟩ :: s.lifted, s.counter)

/-- Definitions in order, each followed by those lifted out of it. -/
def liftBindings : List (Binding Expr) → StateM Nat (List (Binding Core))
  | [] => return []
  | b :: bs => do
    let ds ← liftBinding b
    let es ← liftBindings bs
    return ds ++ es

end Lift

/-- The definitions of a module without `letrec`. -/
def Module.lift (m : Module) : List (Binding Core) :=
  (Lift.liftBindings m.defs 0).1

end GraphReduction
