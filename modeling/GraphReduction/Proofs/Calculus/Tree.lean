import GraphReduction.Term
import Mathlib

/-!
# Trees

A term without its labels: what it computes, and not what it shares. Rules are applied to trees
anywhere.
-/

namespace GraphReduction

inductive Tree where
  | atom (x : Atom)
  | app (f a : Tree)
deriving DecidableEq, Inhabited

/-- The tree of a term. -/
def Term.tree : Term → Tree
  | .leaf _ x => .atom x
  | .app _ f a => .app f.tree a.tree

namespace Tree

def var (x : Name) : Tree := .atom (.var x)

def comb (c : Combinator) : Tree := .atom (.comb c)

/-- `f` applied to arguments from left to right. -/
def apps (f : Tree) (args : List Tree) : Tree := args.foldl app f

@[simp] theorem apps_nil (f : Tree) : f.apps [] = f := rfl

@[simp] theorem apps_cons (f a : Tree) (args : List Tree) :
    f.apps (a :: args) = (app f a).apps args := rfl

theorem apps_append (f : Tree) (as bs : List Tree) : f.apps (as ++ bs) = (f.apps as).apps bs :=
  List.foldl_append

/-- The variables of a tree, one entry per occurrence. -/
def vars : Tree → List Name
  | .atom (.var x) => [x]
  | .atom _ => []
  | .app f a => f.vars ++ a.vars

/-- Replaces every variable. -/
def subst (σ : Name → Tree) : Tree → Tree
  | .atom (.var x) => σ x
  | .atom x => .atom x
  | .app f a => .app (f.subst σ) (a.subst σ)

/-- One variable is replaced. -/
def replacing (x : Name) (a : Tree) : Name → Tree := Function.update var x a

@[simp] theorem subst_var_tree (σ : Name → Tree) (x : Name) : (var x).subst σ = σ x := rfl

@[simp] theorem subst_app (σ : Name → Tree) (f a : Tree) :
    (app f a).subst σ = app (f.subst σ) (a.subst σ) := rfl

theorem subst_apps (σ : Name → Tree) (f : Tree) (args : List Tree) :
    (f.apps args).subst σ = (f.subst σ).apps (args.map (subst σ)) := by
  induction args generalizing f with
  | nil => rfl
  | cons a args ih => exact ih (app f a)

theorem subst_congr {σ τ : Name → Tree} {t : Tree} (h : ∀ x ∈ t.vars, σ x = τ x) :
    t.subst σ = t.subst τ := by
  induction t with
  | atom x =>
    cases x with
    | var x => exact h x (by simp [vars])
    | _ => rfl
  | app f a ihf iha =>
    rw [subst_app, subst_app, ihf fun x hx => h x (by simp [vars, hx]),
      iha fun x hx => h x (by simp [vars, hx])]

theorem subst_id (t : Tree) : t.subst var = t := by
  induction t with
  | atom x => cases x <;> rfl
  | app f a ihf iha => rw [subst_app, ihf, iha]

theorem subst_eq_self {σ : Name → Tree} {t : Tree} (h : ∀ x ∈ t.vars, σ x = var x) :
    t.subst σ = t := by
  rw [subst_congr h, subst_id]

/-!
## Conversion
-/

/-- The rules of the combinators that come from abstraction. -/
inductive Contracts : Tree → Tree → Prop
  | S (f g x : Tree) : Contracts ((comb .S).apps [f, g, x]) (app (app f x) (app g x))
  | K (x y : Tree) : Contracts ((comb .K).apps [x, y]) x
  | I (x : Tree) : Contracts ((comb .I).apps [x]) x
  | B (f g x : Tree) : Contracts ((comb .B).apps [f, g, x]) (app f (app g x))
  | C (f x y : Tree) : Contracts ((comb .C).apps [f, x, y]) (app (app f y) x)
  | S' (c f g x : Tree) :
    Contracts ((comb .S').apps [c, f, g, x]) (app (app c (app f x)) (app g x))
  | B' (c f g x : Tree) : Contracts ((comb .B').apps [c, f, g, x]) (app c (app f (app g x)))
  | C' (c f g x : Tree) : Contracts ((comb .C').apps [c, f, g, x]) (app (app c (app f x)) g)

theorem Contracts.subst {s t : Tree} (h : Contracts s t) (σ : Name → Tree) :
    Contracts (s.subst σ) (t.subst σ) := by
  cases h <;> constructor

/-- Equality by rules that are applied anywhere. -/
inductive Conv (R : Tree → Tree → Prop) : Tree → Tree → Prop
  | rule {s t : Tree} : R s t → Conv R s t
  | refl (t : Tree) : Conv R t t
  | symm {s t : Tree} : Conv R s t → Conv R t s
  | trans {s t u : Tree} : Conv R s t → Conv R t u → Conv R s u
  | app {f g a b : Tree} : Conv R f g → Conv R a b → Conv R (.app f a) (.app g b)

namespace Conv

variable {R R' : Tree → Tree → Prop} {s t : Tree}

theorem of_eq (h : s = t) : Conv R s t := h ▸ .refl s

theorem mono (hR : ∀ s t, R s t → R' s t) (h : Conv R s t) : Conv R' s t := by
  induction h with
  | rule hst => exact .rule (hR _ _ hst)
  | refl t => exact .refl t
  | symm _ ih => exact .symm ih
  | trans _ _ ih1 ih2 => exact .trans ih1 ih2
  | app _ _ ihf iha => exact .app ihf iha

theorem fn {f g : Tree} (h : Conv R f g) (a : Tree) : Conv R (.app f a) (.app g a) :=
  .app h (.refl a)

theorem arg (f : Tree) {a b : Tree} (h : Conv R a b) : Conv R (.app f a) (.app f b) :=
  .app (.refl f) h

theorem apps (h : Conv R s t) (args : List Tree) : Conv R (s.apps args) (t.apps args) := by
  induction args generalizing s t with
  | nil => exact h
  | cons a args ih => exact ih (h.fn a)

theorem spine {as bs : List Tree} (h : Conv R s t) (hargs : List.Forall₂ (Conv R) as bs) :
    Conv R (s.apps as) (t.apps bs) := by
  induction hargs generalizing s t with
  | nil => exact h
  | cons ha _ ih => exact ih (.app h ha)

theorem subst (hR : ∀ s t σ, R s t → R (Tree.subst σ s) (Tree.subst σ t)) (h : Conv R s t)
    (σ : Name → Tree) : Conv R (s.subst σ) (t.subst σ) := by
  induction h with
  | rule hst => exact .rule (hR _ _ σ hst)
  | refl t => exact .refl _
  | symm _ ih => exact .symm ih
  | trans _ _ ih1 ih2 => exact .trans ih1 ih2
  | app _ _ ihf iha => exact .app ihf iha

end Conv

end Tree

/-- The variables of a term, one entry per occurrence. -/
def Term.vars (t : Term) : List Name := t.tree.vars

theorem Term.findVar_eq_none {t : Term} : t.findVar = none ↔ t.vars = [] := by
  induction t with
  | leaf label x => cases x <;> simp [findVar, vars, tree, Tree.vars]
  | app label f a ihf iha =>
    have happ : (app label f a).vars = f.vars ++ a.vars := rfl
    rw [findVar, Option.or_eq_none_iff, ihf, iha, happ, List.append_eq_nil_iff]

end GraphReduction
