import GraphReduction.Syntax.Expr

/-!
# Unique binders

Every binder of a definition is renamed to `x~n` with a number of its own, so that nothing can
be captured later. Numbers are given out in the order in which the binders are met: a `let`
after its right hand side, the members of a `letrec` together before the right hand sides.
-/

namespace GraphReduction

/-- The next unique name made from `base`. -/
def freshName (base : Name) : StateM Nat Name := fun n =>
  (base ++ "~" ++ toString (n + 1), n + 1)

/-- The part of a name before the number. -/
def baseName (x : Name) : Name :=
  String.ofList (x.toList.takeWhile (· != '~'))

/-- What the names in scope are renamed to, innermost first. -/
abbrev Renaming := List (Name × Name)

/-- Gives fresh names to binders, the first one first. -/
def freshBinders (ρ : Renaming) : List Name → StateM Nat (List Name × Renaming)
  | [] => return ([], ρ)
  | x :: xs => do
    let y ← freshName x
    let (ys, ρ) ← freshBinders ((x, y) :: ρ) xs
    return (y :: ys, ρ)

namespace Expr

mutual

/-- Renames every binder of an expression. A variable that nothing binds keeps its name. -/
def rename (ρ : Renaming) : Expr → StateM Nat Expr
  | var x => return var ((ρ.lookup x).getD x)
  | app f a => do
    let f ← f.rename ρ
    let a ← a.rename ρ
    return app f a
  | lam x body => do
    let y ← freshName x
    let body ← body.rename ((x, y) :: ρ)
    return lam y body
  | letIn x rhs body => do
    let rhs ← rhs.rename ρ
    let y ← freshName x
    let body ← body.rename ((x, y) :: ρ)
    return letIn y rhs body
  | letRec binds body => do
    let (ys, ρ) ← freshBinders ρ (binds.map Prod.fst)
    let rhss ← renameBinds ρ binds
    let body ← body.rename ρ
    return letRec (ys.zip rhss) body
  | caseOf scrut arities alts other => do
    let scrut ← scrut.rename ρ
    let alts ← renameAlts ρ alts
    let other ← renameOther ρ other
    return caseOf scrut arities alts other
  | e => return e

def renameBinds (ρ : Renaming) : List (Name × Expr) → StateM Nat (List Expr)
  | [] => return []
  | (_, rhs) :: binds => do
    let rhs ← rhs.rename ρ
    let rhss ← renameBinds ρ binds
    return rhs :: rhss

def renameAlts (ρ : Renaming) : List (Alt Expr) → StateM Nat (List (Alt Expr))
  | [] => return []
  | ⟨tag, binders, body⟩ :: alts => do
    let (binders, ρ') ← freshBinders ρ binders
    let body ← body.rename ρ'
    let alts ← renameAlts ρ alts
    return ⟨tag, binders, body⟩ :: alts

def renameOther (ρ : Renaming) : Option Expr → StateM Nat (Option Expr)
  | none => return none
  | some e => do
    let e ← e.rename ρ
    return some e

end

end Expr

/-- Renames the parameters and binders of a definition, which keeps its own name. -/
def Binding.rename (b : Binding Expr) : StateM Nat (Binding Expr) := do
  let (params, ρ) ← freshBinders [] b.params
  let body ← b.body.rename ρ
  return ⟨b.name, params, body⟩

end GraphReduction
