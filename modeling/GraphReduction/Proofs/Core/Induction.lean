import GraphReduction.Core.Basic
import Mathlib.Tactic.Common

/-!
# Induction over expressions

Bindings, alternatives and defaults are lists and options of expressions. The principles here have an
assumption for each member of these instead of one for each way to build them.
-/

namespace GraphReduction

open List

variable {x : Name} {xs : List Name}

@[elab_as_elim, induction_eliminator]
theorem Expr.induct {motive : Expr → Prop} (var : ∀ x, motive (.var x))
    (global : ∀ x, motive (.global x)) (lit : ∀ l, motive (.lit l)) (prim : ∀ p, motive (.prim p))
    (comb : ∀ c, motive (.comb c)) (con : ∀ tag arity, motive (.con tag arity))
    (app : ∀ f a, motive f → motive a → motive (.app f a))
    (lam : ∀ x body, motive body → motive (.lam x body))
    (letIn : ∀ x rhs body, motive rhs → motive body → motive (.letIn x rhs body))
    (letRec : ∀ binds body, (∀ b ∈ binds, motive b.2) → motive body → motive (.letRec binds body))
    (caseOf : ∀ scrut arities alts other, motive scrut → (∀ alt ∈ alts, motive alt.body) →
      (∀ e, other = some e → motive e) → motive (.caseOf scrut arities alts other))
    (e : Expr) : motive e :=
  @Expr.rec motive (fun binds => ∀ b ∈ binds, motive b.2) (fun alts => ∀ alt ∈ alts, motive alt.body)
    (fun other => ∀ e, other = some e → motive e) (fun b => motive b.2) (fun alt => motive alt.body)
    var global lit prim comb con app lam letIn letRec caseOf
    (forall_mem_nil _) (fun _ _ h hs => forall_mem_cons.2 ⟨h, hs⟩)
    (forall_mem_nil _) (fun _ _ h hs => forall_mem_cons.2 ⟨h, hs⟩)
    (fun _ h => nomatch h) (fun _ h _ heq => Option.some.inj heq ▸ h) (fun _ _ h => h)
    (fun _ _ _ h => h) e

@[elab_as_elim, induction_eliminator]
theorem Core.induct {motive : Core → Prop} (var : ∀ x, motive (.var x))
    (global : ∀ x, motive (.global x)) (lit : ∀ l, motive (.lit l)) (prim : ∀ p, motive (.prim p))
    (comb : ∀ c, motive (.comb c)) (con : ∀ tag arity, motive (.con tag arity))
    (app : ∀ f a, motive f → motive a → motive (.app f a))
    (lam : ∀ x body, motive body → motive (.lam x body))
    (letIn : ∀ x rhs body, motive rhs → motive body → motive (.letIn x rhs body))
    (caseOf : ∀ scrut arities alts other, motive scrut → (∀ alt ∈ alts, motive alt.body) →
      (∀ e, other = some e → motive e) → motive (.caseOf scrut arities alts other))
    (e : Core) : motive e :=
  @Core.rec motive (fun alts => ∀ alt ∈ alts, motive alt.body)
    (fun other => ∀ e, other = some e → motive e) (fun alt => motive alt.body)
    var global lit prim comb con app lam letIn caseOf (forall_mem_nil _)
    (fun _ _ h hs => forall_mem_cons.2 ⟨h, hs⟩) (fun _ h => nomatch h)
    (fun _ h _ heq => Option.some.inj heq ▸ h) (fun _ _ _ h => h) e

namespace Core

theorem altsToExpr_eq (alts : List (Alt Core)) :
    altsToExpr alts = alts.map fun alt => ⟨alt.tag, alt.binders, alt.body.toExpr⟩ := by
  induction alts with
  | nil => rfl
  | cons alt alts ih => rw [altsToExpr, ih, map_cons]

theorem otherToExpr_eq (other : Option Core) : otherToExpr other = other.map toExpr := by
  cases other <;> rfl

theorem substituteAlts_eq (σ : Name → Option Core) (alts : List (Alt Core)) :
    substituteAlts σ alts = alts.map fun alt => ⟨alt.tag, alt.binders, alt.body.substitute σ⟩ := by
  induction alts with
  | nil => rfl
  | cons alt alts ih => rw [substituteAlts, ih, map_cons]

theorem substituteOther_eq (σ : Name → Option Core) (other : Option Core) :
    substituteOther σ other = other.map (substitute σ) := by
  cases other <;> rfl

end Core

namespace Expr

variable {bound : List Name}

theorem mem_freeInBinds {binds : List (Name × Expr)} :
    x ∈ freeInBinds bound binds ↔ ∃ b ∈ binds, x ∈ b.2.freeOccurrences bound := by
  induction binds with
  | nil => simp [freeInBinds]
  | cons b binds ih => simp [freeInBinds, ih]

theorem mem_freeInAlts {alts : List (Alt Expr)} :
    x ∈ freeInAlts bound alts ↔
      ∃ alt ∈ alts, x ∈ alt.body.freeOccurrences (alt.binders ++ bound) := by
  induction alts with
  | nil => simp [freeInAlts]
  | cons alt alts ih => simp [freeInAlts, ih]

theorem mem_freeInOther {other : Option Expr} :
    x ∈ freeInOther bound other ↔ ∃ e, other = some e ∧ x ∈ e.freeOccurrences bound := by
  cases other <;> simp [freeInOther]

end Expr

theorem mem_insertName {y : Name} : y ∈ insertName x xs ↔ y = x ∨ y ∈ xs := by
  induction xs with
  | nil => simp [insertName]
  | cons z xs ih =>
    rw [insertName]
    split
    · simp
    split
    · rename_i h
      rw [h, mem_cons]
      tauto
    · rw [mem_cons, ih, mem_cons]
      tauto

theorem mem_sortedNames {y : Name} : y ∈ sortedNames xs ↔ y ∈ xs := by
  induction xs with
  | nil => simp [sortedNames]
  | cons x xs ih =>
    rw [sortedNames, foldr_cons, mem_insertName, mem_cons]
    exact or_congr Iff.rfl ih

end GraphReduction
