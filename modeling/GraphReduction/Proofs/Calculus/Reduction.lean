import GraphReduction.Proofs.Calculus.Tree
import GraphReduction.Proofs.Lists
import GraphReduction.Proofs.Machine.Contraction

/-!
# Reduction of trees

The rules of all combinators, of top-level names and of the primitives on integers and characters,
as rewriting of trees. A parallel step contracts any number of redexes at once, and evaluation
contracts those that a head waits for, until there is a weak head normal form.
-/

namespace GraphReduction

open List

variable {n : Nat} {c : Combinator} {p : Primitive}

/-- What a primitive on integers and characters computes: a literal or a truth value. Division by
zero has no result, and neither has `chr` of a number that is no code point. -/
def Primitive.result? : Primitive → List Literal → Option (Literal ⊕ Bool)
  | .add, [.int x, .int y] => some (.inl (.int (x + y)))
  | .sub, [.int x, .int y] => some (.inl (.int (x - y)))
  | .mul, [.int x, .int y] => some (.inl (.int (x * y)))
  | .quot, [.int x, .int y] => if y = 0 then none else some (.inl (.int (x / y)))
  | .rem, [.int x, .int y] => if y = 0 then none else some (.inl (.int (x % y)))
  | .neg, [.int x] => some (.inl (.int (-x)))
  | .eq, [.int x, .int y] => some (.inr (x == y))
  | .ne, [.int x, .int y] => some (.inr (x != y))
  | .lt, [.int x, .int y] => some (.inr (x < y))
  | .le, [.int x, .int y] => some (.inr (x ≤ y))
  | .gt, [.int x, .int y] => some (.inr (x > y))
  | .ge, [.int x, .int y] => some (.inr (x ≥ y))
  | .ord, [.char c] => some (.inl (.int (Int64.ofNat c.toNat)))
  | .chr, [.int n] => (Machine.charOf? n).map fun c => .inl (.char c)
  | _, _ => none

theorem Primitive.length_of_result? {lits : List Literal} {r : Literal ⊕ Bool}
    (h : p.result? lits = some r) : lits.length = p.arity ∧ p.isAction = false := by
  unfold result? at h
  split at h <;> first | exact ⟨rfl, rfl⟩ | cases h

/-- Whether an atom applied to `n` arguments is in weak head normal form. -/
def Atom.rests : Atom → Nat → Bool
  | .comb c, n => (c.arity.map fun k => decide (n < k)).getD true
  | .prim p, n => p.isAction || decide (n < p.arity)
  | .lit _, n => n == 0
  | .global _, _ | .var _, _ => false

/-- The first argument of a shape's head, and the shapes that it is applied to. -/
def Shape.spine : Shape → Shape × List Shape
  | .app f a => (f.spine.1, f.spine.2 ++ [a])
  | s => (s, [])

theorem Combinator.contractum_spine {s : Shape} (hs : c.contractum = some s)
    (hn : c.arity = some n) : ∃ i, i < n ∧ s.spine.1 = .arg i := by
  cases c <;> cases hs <;> cases hn <;> exact ⟨_, by decide, rfl⟩

namespace Tree

variable {t w s t' w' : Tree} {args rest args' as : List Tree} {x : Atom} {α β : Type} {l : Literal}
  {R : Tree → Tree → Prop} {bs : List β}

/-- The tree of a result of a primitive. -/
def ofResult : Literal ⊕ Bool → Tree
  | .inl l => .atom (.lit l)
  | .inr b => comb (.ofBool b)

/-- The tree of a shape. -/
def shape (args : List Tree) (redex : Tree) : Shape → Tree
  | .arg i => args.getD i default
  | .redex => redex
  | .app f a => .app (shape args redex f) (shape args redex a)

/-!
## Spines
-/

theorem exists_spine (t : Tree) : ∃ x args, t = (atom x).apps args := by
  induction t with
  | atom x => exact ⟨x, [], rfl⟩
  | app f a ihf _ =>
    obtain ⟨x, args, rfl⟩ := ihf
    exact ⟨x, args ++ [a], by rw [apps_append]; rfl⟩

theorem apps_concat (f a : Tree) (args : List Tree) : f.apps (args ++ [a]) = app (f.apps args) a :=
  apps_append f args [a]

theorem apps_atom_inj {x y : Atom} {as bs : List Tree} :
    (atom x).apps as = (atom y).apps bs ↔ x = y ∧ as = bs := by
  refine ⟨fun h => ?_, fun ⟨hx, has⟩ => hx ▸ has ▸ rfl⟩
  induction as using reverseRecOn generalizing bs with
  | nil =>
    rcases eq_nil_or_concat bs with rfl | ⟨bs, b, rfl⟩
    · cases h
      exact ⟨rfl, rfl⟩
    · rw [concat_eq_append, apps_concat] at h
      cases h
  | append_singleton as a ih =>
    rcases eq_nil_or_concat bs with rfl | ⟨bs, b, rfl⟩
    · rw [apps_concat] at h
      cases h
    · rw [concat_eq_append, apps_concat, apps_concat] at h
      injection h with hf ha
      obtain ⟨rfl, rfl⟩ := ih hf
      exact ⟨rfl, by rw [ha, concat_eq_append]⟩

theorem apps_eq_atom {y : Atom} :
    (atom x).apps as = atom y ↔ x = y ∧ as = [] := @apps_atom_inj x y as []

theorem shape_eq_apps (args : List Tree) (redex : Tree) (s : Shape) :
    shape args redex s = (shape args redex s.spine.1).apps (s.spine.2.map (shape args redex)) := by
  induction s with
  | arg _ | redex => rfl
  | app f a ihf _ =>
    show app (shape args redex f) (shape args redex a) = _
    rw [Shape.spine, map_append, map_singleton, apps_concat, ← ihf]

/-!
## Parallel steps
-/

variable (Δ : Name → Option Tree)

/-- Contracts any number of redexes at once. `Δ` has the bodies of the top-level names. -/
inductive Par : Tree → Tree → Prop
  | atom (x : Atom) : Par (.atom x) (.atom x)
  | app {f f' a a' : Tree} : Par f f' → Par a a' → Par (.app f a) (.app f' a')
  | comb {c : Combinator} {s : Shape} {args args' : List Tree} : c.contractum = some s →
    c.arity = some args.length → args.length = args'.length →
    (∀ (i : Nat) a a', args[i]? = some a → args'[i]? = some a' → Par a a') →
    Par ((comb c).apps args) (shape args' ((comb c).apps args') s)
  | global {x : Name} {t : Tree} : Δ x = some t → Par (.atom (.global x)) t
  | case {n tag arity : UInt32} {fields fields' alts alts' : List Tree} {alt' : Tree} :
    fields.length = arity.toNat → alts.length = n.toNat → fields.length = fields'.length →
    alts.length = alts'.length →
    (∀ (i : Nat) a a', fields[i]? = some a → fields'[i]? = some a' → Par a a') →
    (∀ (i : Nat) a a', alts[i]? = some a → alts'[i]? = some a' → Par a a') →
    alts'[tag.toNat]? = some alt' →
    Par ((comb (.caseOf n)).apps ((comb (.con tag arity)).apps fields :: alts)) (alt'.apps fields')
  | prim {p : Primitive} {lits : List Literal} {r : Literal ⊕ Bool} : p.result? lits = some r →
    Par ((atom (.prim p)).apps (lits.map fun l => .atom (.lit l))) (ofResult r)

variable {Δ}

namespace Par

theorem refl (t : Tree) : Par Δ t t := by
  induction t with
  | atom x => exact .atom x
  | app f a ihf iha => exact .app ihf iha

theorem refls (ts : List Tree) : Forall₂ (Par Δ) ts ts := forall₂_same.2 fun t _ => refl t

theorem apps {f f' : Tree} (hf : Par Δ f f') (h : Forall₂ (Par Δ) args args') :
    Par Δ (f.apps args) (f'.apps args') := by
  induction h generalizing f f' with
  | nil => exact hf
  | cons ha _ ih => exact ih (.app hf ha)

theorem shape {redex redex' : Tree} (h : Forall₂ (Par Δ) args args') (hr : Par Δ redex redex')
    (s : Shape) : Par Δ (shape args redex s) (shape args' redex' s) := by
  induction s with
  | arg i =>
    show Par Δ (args.getD i default) (args'.getD i default)
    induction h generalizing i with
    | nil => exact refl _
    | cons ha _ ih =>
      cases i with
      | zero => exact ha
      | succ i => exact ih i
  | redex => exact hr
  | app f a ihf iha => exact .app ihf iha

theorem contract (c : Combinator) (args : List Tree) {s : Shape} (hs : c.contractum = some s)
    (hn : c.arity = some args.length) :
    Par Δ ((Tree.comb c).apps args) (Tree.shape args ((Tree.comb c).apps args) s) :=
  .comb hs hn rfl fun i a a' ha ha' => by
    rw [ha] at ha'
    cases ha'
    exact refl a

end Par

/-- Equality by the rules, the definitions and the primitives. -/
abbrev Same (Δ : Name → Option Tree) : Tree → Tree → Prop := Conv (Par Δ)

theorem par_of_contracts (h : Contracts s t) : Par Δ s t := by
  cases h with
  | S f g x => exact Par.contract .S [f, g, x] rfl rfl
  | K _ y => exact Par.contract .K [t, y] rfl rfl
  | I _ => exact Par.contract .I [t] rfl rfl
  | B f g x => exact Par.contract .B [f, g, x] rfl rfl
  | C f x y => exact Par.contract .C [f, x, y] rfl rfl
  | S' c f g x => exact Par.contract .S' [c, f, g, x] rfl rfl
  | B' c f g x => exact Par.contract .B' [c, f, g, x] rfl rfl
  | C' c f g x => exact Par.contract .C' [c, f, g, x] rfl rfl

theorem Conv.same (h : Conv Contracts s t) : Same Δ s t :=
  h.mono fun _ _ => par_of_contracts

/-!
## Evaluation
-/

/-- A tree in weak head normal form. -/
def Whnf (t : Tree) : Prop := ∃ x args, t = (atom x).apps args ∧ x.rests args.length = true

variable (Δ)

/-- Evaluation to weak head normal form, with a derivation of height at most `n`. -/
inductive Eval : Nat → Tree → Tree → Prop
  | whnf {t : Tree} (n : Nat) : Whnf t → Eval n t t
  | comb {n : Nat} {c : Combinator} {s : Shape} {args rest : List Tree} {w : Tree} :
    c.contractum = some s → c.arity = some args.length →
    Eval n ((shape args ((comb c).apps args) s).apps rest) w →
    Eval (n + 1) (((comb c).apps args).apps rest) w
  | global {n : Nat} {x : Name} {t : Tree} {rest : List Tree} {w : Tree} : Δ x = some t →
    Eval n (t.apps rest) w → Eval (n + 1) ((atom (.global x)).apps rest) w
  | case {n : Nat} {k tag arity : UInt32} {scrut alt : Tree} {fields alts rest : List Tree}
      {w : Tree} : Eval n scrut ((comb (.con tag arity)).apps fields) →
    fields.length = arity.toNat → alts.length = k.toNat → alts[tag.toNat]? = some alt →
    Eval n ((alt.apps fields).apps rest) w →
    Eval (n + 1) (((comb (.caseOf k)).apps (scrut :: alts)).apps rest) w
  | prim {n : Nat} {p : Primitive} {args : List Tree} {lits : List Literal} {r : Literal ⊕ Bool}
      {rest : List Tree} {w : Tree} : p.result? lits = some r → args.length = lits.length →
    (∀ (i : Nat) a l, args[i]? = some a → lits[i]? = some l → Eval n a (.atom (.lit l))) →
    Eval n ((ofResult r).apps rest) w → Eval (n + 1) (((atom (.prim p)).apps args).apps rest) w

variable {Δ}

theorem Eval.whnf_right (h : Eval Δ n t w) : Whnf w := by
  induction h with
  | whnf _ hw => exact hw
  | comb _ _ _ ih => exact ih
  | global _ _ ih => exact ih
  | case _ _ _ _ _ _ ih => exact ih
  | prim _ _ _ _ _ ih => exact ih

theorem Eval.succ (h : Eval Δ n t w) : Eval Δ (n + 1) t w := by
  induction h with
  | whnf n hw => exact .whnf _ hw
  | comb hs hn _ ih => exact .comb hs hn ih
  | global hx _ ih => exact .global hx ih
  | case _ hf ha halt _ ihs ih => exact .case ihs hf ha halt ih
  | prim hr hlen _ _ ihs ih => exact .prim hr hlen ihs ih

theorem Eval.mono {k : Nat} (h : Eval Δ n t w) (hk : n ≤ k) : Eval Δ k t w := by
  induction hk with
  | refl => exact h
  | step _ ih => exact ih.succ

theorem whnf_atom : Whnf ((atom x).apps args) ↔ x.rests args.length = true := by
  constructor
  · rintro ⟨y, bs, heq, hr⟩
    obtain ⟨rfl, rfl⟩ := apps_atom_inj.1 heq
    exact hr
  · exact fun h => ⟨x, args, rfl, h⟩

/-- How a head with arguments is evaluated further. -/
inductive Fires (Δ : Name → Option Tree) (n : Nat) (w : Tree) : Atom → List Tree → Prop
  | comb {c : Combinator} {s : Shape} {args rest : List Tree} : c.contractum = some s →
    c.arity = some args.length → Eval Δ n ((shape args ((comb c).apps args) s).apps rest) w →
    Fires Δ n w (.comb c) (args ++ rest)
  | global {x : Name} {t : Tree} {rest : List Tree} : Δ x = some t → Eval Δ n (t.apps rest) w →
    Fires Δ n w (.global x) rest
  | case {k tag arity : UInt32} {scrut alt : Tree} {fields alts rest : List Tree} :
    Eval Δ n scrut ((comb (.con tag arity)).apps fields) → fields.length = arity.toNat →
    alts.length = k.toNat → alts[tag.toNat]? = some alt →
    Eval Δ n ((alt.apps fields).apps rest) w →
    Fires Δ n w (.comb (.caseOf k)) (scrut :: (alts ++ rest))
  | prim {p : Primitive} {args : List Tree} {lits : List Literal} {r : Literal ⊕ Bool}
      {rest : List Tree} : p.result? lits = some r → args.length = lits.length →
    (∀ (i : Nat) a l, args[i]? = some a → lits[i]? = some l → Eval Δ n a (.atom (.lit l))) →
    Eval Δ n ((ofResult r).apps rest) w → Fires Δ n w (.prim p) (args ++ rest)

theorem Fires.eval (h : Fires Δ n w x args) : Eval Δ (n + 1) ((atom x).apps args) w := by
  cases h with
  | comb hs hn he =>
    rw [apps_append]
    exact .comb hs hn he
  | global hx he => exact .global hx he
  | case hscrut hf ha halt he =>
    rw [← cons_append, apps_append]
    exact .case hscrut hf ha halt he
  | prim hr hlen hargs he =>
    rw [apps_append]
    exact .prim hr hlen hargs he

/-- A spine is at rest, or its head fires. -/
theorem Eval.spine_cases (h : Eval Δ n ((atom x).apps args) w) :
    (x.rests args.length = true ∧ w = (atom x).apps args) ∨
      ∃ k, n = k + 1 ∧ Fires Δ k w x args := by
  generalize ht : (atom x).apps args = t at h
  cases h with
  | whnf n hw =>
    subst ht
    exact .inl ⟨whnf_atom.1 hw, rfl⟩
  | comb hs hn he =>
    rw [Tree.comb, ← apps_append] at ht
    obtain ⟨rfl, rfl⟩ := apps_atom_inj.1 ht
    exact .inr ⟨_, rfl, .comb hs hn he⟩
  | global hx he =>
    obtain ⟨rfl, rfl⟩ := apps_atom_inj.1 ht
    exact .inr ⟨_, rfl, .global hx he⟩
  | case hscrut hf ha halt he =>
    rw [Tree.comb, ← apps_append] at ht
    obtain ⟨rfl, rfl⟩ := apps_atom_inj.1 ht
    exact .inr ⟨_, rfl, .case hscrut hf ha halt he⟩
  | prim hr hlen hargs he =>
    rw [← apps_append] at ht
    obtain ⟨rfl, rfl⟩ := apps_atom_inj.1 ht
    exact .inr ⟨_, rfl, .prim hr hlen hargs he⟩

/-!
## Steps and evaluations
-/

theorem rests_comb (hn : c.arity = some n) (k : Nat) : (Atom.comb c).rests k = decide (k < n) := by
  simp [Atom.rests, hn]

theorem rests_of_le {k : Nat} (h : x.rests n = true) (hk : k ≤ n) : x.rests k = true := by
  cases x with
  | comb c =>
    cases hn : c.arity with
    | none => simp [Atom.rests, hn]
    | some a =>
      rw [rests_comb hn, decide_eq_true_eq] at h ⊢
      omega
  | prim p =>
    simp only [Atom.rests, Bool.or_eq_true, decide_eq_true_eq] at h ⊢
    exact h.imp_right fun hlt => by omega
  | lit l =>
    simp only [Atom.rests, beq_iff_eq] at h ⊢
    omega
  | global | var => cases h

/-- A spine at rest reduces in its arguments only. -/
theorem Par.of_rests {x : Atom} {args : List Tree} {t : Tree}
    (h : Par Δ ((Tree.atom x).apps args) t) (hr : x.rests args.length = true) :
    ∃ args', t = (Tree.atom x).apps args' ∧ Forall₂ (Par Δ) args args' := by
  generalize hs : (Tree.atom x).apps args = s at h
  -- a contracted redex would have all the arguments that its head fires on
  induction h generalizing args with
  | atom y =>
    obtain ⟨rfl, rfl⟩ := apps_eq_atom.1 hs
    exact ⟨[], rfl, .nil⟩
  | @app f f' a a' _ ha ihf _ =>
    obtain ⟨y, bs, rfl⟩ := exists_spine f
    rw [← apps_concat] at hs
    obtain ⟨rfl, rfl⟩ := apps_atom_inj.1 hs
    rw [length_append] at hr
    obtain ⟨bs', rfl, hbs⟩ := ihf (rests_of_le hr (by omega)) rfl
    exact ⟨bs' ++ [a'], (apps_concat _ _ _).symm, rel_append hbs (.cons ha .nil)⟩
  | comb _ hn _ _ _ =>
    obtain ⟨rfl, rfl⟩ := apps_atom_inj.1 hs
    rw [rests_comb hn, decide_eq_true_eq] at hr
    omega
  | global _ =>
    obtain ⟨rfl, rfl⟩ := apps_eq_atom.1 hs
    cases hr
  | @case n tag arity fields fields' alts alts' alt' _ halts _ _ _ _ _ _ _ =>
    obtain ⟨rfl, rfl⟩ := apps_atom_inj.1 hs
    rw [rests_comb (c := .caseOf n) rfl, decide_eq_true_eq, length_cons] at hr
    omega
  | @prim p lits r hp =>
    obtain ⟨rfl, rfl⟩ := apps_atom_inj.1 hs
    obtain ⟨hlen, haction⟩ := Primitive.length_of_result? hp
    simp [Atom.rests, haction, hlen] at hr

theorem Par.of_lit (h : Par Δ (.atom (.lit l)) t) : t = .atom (.lit l) := by
  obtain ⟨args, rfl, hargs⟩ := @of_rests Δ (.lit l) [] t h rfl
  cases hargs
  rfl

theorem Eval.of_rests {n : Nat} {x : Atom} {args : List Tree} {w : Tree}
    (h : Eval Δ n ((Tree.atom x).apps args) w) (hr : x.rests args.length = true) :
    w = (Tree.atom x).apps args := by
  rcases h.spine_cases with ⟨-, hw⟩ | ⟨k, -, hf⟩
  · exact hw
  · exfalso
    cases hf with
    | comb _ hn _ =>
      rw [rests_comb hn, decide_eq_true_eq, length_append] at hr
      omega
    | global _ _ => cases hr
    | @case k _ _ _ _ _ _ _ _ _ halts _ _ =>
      rw [rests_comb (c := .caseOf k) rfl, decide_eq_true_eq, length_cons,
        length_append] at hr
      omega
    | prim hp hlen _ _ =>
      obtain ⟨hl, haction⟩ := Primitive.length_of_result? hp
      simp only [Atom.rests, haction, Bool.false_or, decide_eq_true_eq, length_append] at hr
      omega

theorem Eval.of_lit (h : Eval Δ n (.atom (.lit l)) w) :
    w = .atom (.lit l) := @of_rests Δ n (.lit l) [] w h rfl

theorem Eval.of_contractum {s : Shape} (hs : c.contractum = some s)
    (hn : c.arity = some args.length) (h : Eval Δ n (((Tree.comb c).apps args).apps rest) w) :
    ∃ k, n = k + 1 ∧ Eval Δ k ((shape args ((Tree.comb c).apps args) s).apps rest) w := by
  rw [Tree.comb, ← apps_append] at h
  rcases h.spine_cases with ⟨hr, -⟩ | ⟨k, hk, hf⟩
  · rw [rests_comb hn, decide_eq_true_eq, length_append] at hr
    omega
  generalize hall : args ++ rest = all at hf
  cases hf with
  | comb hs' hn' he =>
    obtain ⟨rfl, rfl⟩ := append_inj hall (Option.some.inj (hn.symm.trans hn'))
    rw [hs] at hs'
    cases hs'
    exact ⟨k, hk, he⟩
  | case _ _ _ _ _ => cases hs

theorem Eval.of_global {x : Name} (hx : Δ x = some t)
    (h : Eval Δ n ((Tree.atom (.global x)).apps rest) w) :
    ∃ k, n = k + 1 ∧ Eval Δ k (t.apps rest) w := by
  rcases h.spine_cases with ⟨hr, -⟩ | ⟨k, hk, hf⟩
  · cases hr
  cases hf with
  | global hx' he =>
    rw [hx] at hx'
    cases hx'
    exact ⟨k, hk, he⟩

/-- **A case is evaluated through its scrutinee**, which is a constructor with an alternative. -/
theorem Eval.of_case {k : UInt32} {scrut : Tree} {alts : List Tree} (ha : alts.length = k.toNat)
    (h : Eval Δ n (((Tree.comb (.caseOf k)).apps (scrut :: alts)).apps rest) w) :
    ∃ j tag arity fields alt, n = j + 1 ∧
      Eval Δ j scrut ((Tree.comb (.con tag arity)).apps fields) ∧ fields.length = arity.toNat ∧
      alts[tag.toNat]? = some alt ∧ Eval Δ j ((alt.apps fields).apps rest) w := by
  rw [Tree.comb, ← apps_append] at h
  rcases h.spine_cases with ⟨hr, -⟩ | ⟨j, hj, hf⟩
  · rw [rests_comb (c := .caseOf k) rfl, decide_eq_true_eq, length_append,
      length_cons] at hr
    omega
  generalize hall : scrut :: alts ++ rest = all at hf
  cases hf with
  | comb hs _ _ => cases hs
  | case hscrut hf ha' halt he =>
    obtain ⟨rfl, happ⟩ := cons_eq_cons.1 hall
    obtain ⟨rfl, rfl⟩ := append_inj happ (ha.trans ha'.symm)
    exact ⟨j, _, _, _, _, hj, hscrut, hf, halt, he⟩

/-- **A primitive is evaluated through its arguments**, which are literals with a result. -/
theorem Eval.of_prim (hlen : args.length = p.arity) (haction : p.isAction = false)
    (h : Eval Δ n (((Tree.atom (.prim p)).apps args).apps rest) w) :
    ∃ j lits r, n = j + 1 ∧ p.result? lits = some r ∧ args.length = lits.length ∧
      (∀ (i : Nat) a l, args[i]? = some a → lits[i]? = some l → Eval Δ j a (.atom (.lit l))) ∧
      Eval Δ j ((ofResult r).apps rest) w := by
  rw [← apps_append] at h
  rcases h.spine_cases with ⟨hr, -⟩ | ⟨j, hj, hf⟩
  · simp only [Atom.rests, haction, Bool.false_or, decide_eq_true_eq, length_append] at hr
    omega
  generalize hall : args ++ rest = all at hf
  cases hf with
  | prim hp hlen' hargs he =>
    have hl := (Primitive.length_of_result? hp).1
    obtain ⟨rfl, rfl⟩ := append_inj hall (by omega)
    exact ⟨j, _, _, hj, hp, hlen', hargs, he⟩

theorem exists_append_of_forall₂ {bs cs : List Tree} (h : Forall₂ R (as ++ bs) cs) :
    ∃ as' bs', cs = as' ++ bs' ∧ Forall₂ R as as' ∧ Forall₂ R bs bs' := by
  refine ⟨cs.take as.length, cs.drop as.length, (take_append_drop _ _).symm, ?_, ?_⟩
  · have htake := forall₂_take as.length h
    rwa [take_left] at htake
  · have hdrop := forall₂_drop as.length h
    rwa [drop_left] at hdrop

/-- What is known of the evaluation after a parallel step, from one of height `n` before it. -/
def Forward (Δ : Name → Option Tree) (n : Nat) : Prop :=
  ∀ a a' rest rest', Par Δ a a' → Forall₂ (Par Δ) rest rest' → ∀ w,
    Eval Δ n (a.apps rest) w → ∃ w', Eval Δ n (a'.apps rest') w' ∧ Par Δ w w'

/-- A head still fires when its arguments are reduced. -/
theorem Fires.forward (ih : Forward Δ n) (h : Fires Δ n w x args)
    (hargs : Forall₂ (Par Δ) args args') : ∃ w', Fires Δ n w' x args' ∧ Par Δ w w' := by
  cases h with
  | @comb c s args rest hs hn he =>
    obtain ⟨as', rest', rfl, has, hrest⟩ := exists_append_of_forall₂ hargs
    obtain ⟨w', he', hw⟩ := ih _ _ _ _ (Par.shape has (.apps (.refl _) has) s) hrest w he
    exact ⟨w', .comb hs (by rw [hn, has.length_eq]) he', hw⟩
  | global hx he =>
    obtain ⟨w', he', hw⟩ := ih _ _ _ _ (.refl _) hargs w he
    exact ⟨w', .global hx he', hw⟩
  | @case k tag arity scrut alt fields alts rest hscrut hf ha halt he =>
    obtain ⟨scrut', altsrest', hscrut', haltsrest, rfl⟩ := forall₂_cons_left_iff.1 hargs
    obtain ⟨alts', rest', rfl, halts, hrest⟩ := exists_append_of_forall₂ haltsrest
    obtain ⟨v, hv, hcon⟩ := ih scrut scrut' [] [] hscrut' .nil _ hscrut
    obtain ⟨fields', rfl, hfields⟩ := hcon.of_rests rfl
    obtain ⟨alt', halt', hpar⟩ := exists_getElem?_of_forall₂ halts halt
    obtain ⟨w', he', hw⟩ := ih _ _ _ _ (hpar.apps hfields) hrest w he
    exact ⟨w', .case hv (by rw [← hfields.length_eq, hf]) (by rw [← halts.length_eq, ha]) halt' he', hw⟩
  | @prim p args lits r rest hp hlen hlits he =>
    obtain ⟨as', rest', rfl, has, hrest⟩ := exists_append_of_forall₂ hargs
    obtain ⟨w', he', hw⟩ := ih _ _ _ _ (.refl _) hrest w he
    refine ⟨w', .prim hp (by rw [← has.length_eq, hlen]) (fun i a' l ha' hl => ?_) he', hw⟩
    have hlt : i < args.length := by
      rw [has.length_eq]
      exact (List.getElem?_eq_some_iff.1 ha').1
    have ha := getElem?_eq_getElem hlt
    obtain ⟨v, hv, hlit⟩ :=
      ih _ _ [] [] (getElem?_of_forall₂ has i _ _ ha ha') .nil _ (hlits i _ l ha hl)
    obtain rfl := hlit.of_lit
    exact hv

/-- Evaluation commutes with parallel reduction: one more unit of fuel. -/
theorem forward_succ (ih : Forward Δ n) : Forward Δ (n + 1) := by
  intro a a' rest rest' h hrest w he
  have hmono : ∀ {t : Tree}, (∃ w', Eval Δ n t w' ∧ Par Δ w w') →
      ∃ w', Eval Δ (n + 1) t w' ∧ Par Δ w w' := fun ⟨w', he', hw⟩ => ⟨w', he'.succ, hw⟩
  -- a contracted redex is evaluated through its right hand side, which is lower
  induction h generalizing rest rest' with
  | atom x =>
    rcases he.spine_cases with ⟨hr, rfl⟩ | ⟨k, hk, hf⟩
    · exact ⟨_, .whnf _ (whnf_atom.2 (by rw [← hrest.length_eq]; exact hr)), .apps (.refl _) hrest⟩
    · obtain rfl : n = k := Nat.succ.inj hk
      obtain ⟨w', hf', hw⟩ := hf.forward ih hrest
      exact ⟨w', hf'.eval, hw⟩
  | app _ ha ihf _ => exact ihf _ _ (.cons ha hrest) he
  | @comb c s args args' hs hn hlen hargs _ =>
    have hargs := forall₂_of_getElem? hlen hargs
    obtain ⟨k, hk, he⟩ := he.of_contractum hs hn
    obtain rfl : n = k := Nat.succ.inj hk
    exact hmono (ih _ _ _ _ (Par.shape hargs (.apps (.refl _) hargs) s) hrest w he)
  | global hx =>
    obtain ⟨k, hk, he⟩ := he.of_global hx
    obtain rfl : n = k := Nat.succ.inj hk
    exact hmono (ih _ _ _ _ (.refl _) hrest w he)
  | @case k tag arity fields fields' alts alts' alt' _ ha hlf hla hfields halts halt' _ _ =>
    obtain ⟨j, tag2, arity2, fields2, alt, hj, hscrut, -, halt, healt⟩ := he.of_case ha
    obtain rfl : n = j := Nat.succ.inj hj
    obtain ⟨heq, rfl⟩ := apps_atom_inj.1 (hscrut.of_rests rfl)
    cases heq
    obtain ⟨alt2, halt2, hpar⟩ := exists_getElem?_of_forall₂ (forall₂_of_getElem? hla halts) halt
    rw [halt'] at halt2
    cases halt2
    exact hmono (ih _ _ _ _ (hpar.apps (forall₂_of_getElem? hlf hfields)) hrest w healt)
  | @prim p lits r hp =>
    obtain ⟨hlen, haction⟩ := Primitive.length_of_result? hp
    obtain ⟨j, lits2, r2, hj, hp2, hlen2, hlits, he⟩ :=
      he.of_prim (by rw [length_map, hlen]) haction
    obtain rfl : n = j := Nat.succ.inj hj
    -- literals are evaluated already
    have heq : lits2 = lits := by
      rw [length_map] at hlen2
      refine ext_getElem? fun i => ?_
      rcases Nat.lt_or_ge i lits.length with hi | hi
      · have hi2 : i < lits2.length := by omega
        have hlit := hlits i (.atom (.lit lits[i])) lits2[i] (by simp [hi]) (by simp [hi2])
        have hl := Atom.lit.inj (Tree.atom.inj hlit.of_lit)
        rw [getElem?_eq_getElem hi, getElem?_eq_getElem hi2, hl]
      · rw [getElem?_eq_none hi, getElem?_eq_none (by omega)]
    subst heq
    rw [hp] at hp2
    cases hp2
    exact hmono (ih _ _ _ _ (.refl _) hrest w he)

theorem forward (n : Nat) : Forward Δ n := by
  induction n with
  | zero =>
    intro a a' rest rest' h hrest w he
    obtain ⟨x, args, heq⟩ := exists_spine (a.apps rest)
    have hpar := h.apps hrest
    rw [heq] at he hpar
    rcases he.spine_cases with ⟨hr, rfl⟩ | ⟨k, hk, -⟩
    · obtain ⟨args', heq', hargs⟩ := hpar.of_rests hr
      rw [heq']
      exact ⟨_, .whnf 0 (whnf_atom.2 (by rw [← hargs.length_eq]; exact hr)), .apps (.refl _) hargs⟩
    · cases hk
  | succ n ih => exact forward_succ ih

/-- **A parallel step does not make an evaluation higher.** -/
theorem Par.eval (h : Par Δ t t') (he : Eval Δ n t w) :
    ∃ w', Eval Δ n t' w' ∧ Par Δ w w' := forward n t t' [] [] h .nil w he

/-!
### Backwards
-/

theorem exists_append_of_forall₂_right {bs cs : List Tree} (h : Forall₂ R cs (as ++ bs)) :
    ∃ as' bs', cs = as' ++ bs' ∧ Forall₂ R as' as ∧ Forall₂ R bs' bs := by
  obtain ⟨as', bs', rfl, has, hbs⟩ := exists_append_of_forall₂ h.flip
  exact ⟨as', bs', rfl, has.flip, hbs.flip⟩

theorem Par.to_rests {v : Tree} {x : Atom} {args' : List Tree} (hv : Whnf v)
    (h : Par Δ v ((Tree.atom x).apps args')) :
    ∃ args, v = (Tree.atom x).apps args ∧ Forall₂ (Par Δ) args args' := by
  obtain ⟨y, args, rfl, hr⟩ := hv
  obtain ⟨args2, heq, hargs⟩ := h.of_rests hr
  obtain ⟨rfl, rfl⟩ := apps_atom_inj.1 heq
  exact ⟨args, rfl, hargs⟩

theorem Par.to_lit {v : Tree} (hv : Whnf v) (h : Par Δ v (.atom (.lit l))) :
    v = .atom (.lit l) := by
  obtain ⟨args, rfl, hargs⟩ := @to_rests Δ v (.lit l) [] hv h
  cases hargs
  rfl

theorem exists_height {P : Nat → Nat → Prop} (hmono : ∀ i k j, k ≤ j → P i k → P i j)
    (h : ∀ i, i < n → ∃ k, P i k) : ∃ k, ∀ i, i < n → P i k := by
  induction n with
  | zero => exact ⟨0, fun i hi => absurd hi (Nat.not_lt_zero i)⟩
  | succ n ih =>
    obtain ⟨k, hk⟩ := ih fun i hi => h i (by omega)
    obtain ⟨j, hj⟩ := h n (by omega)
    refine ⟨max k j, fun i hi => ?_⟩
    rcases Nat.lt_or_ge i n with hlt | hge
    · exact hmono i k _ (Nat.le_max_left k j) (hk i hlt)
    · obtain rfl : i = n := by omega
      exact hmono i j _ (Nat.le_max_right k j) hj

/-- What is known of the evaluation before a parallel step, from one of height `n` after it. -/
def Backward (Δ : Name → Option Tree) (n : Nat) : Prop :=
  ∀ a a' rest rest', Par Δ a a' → Forall₂ (Par Δ) rest rest' → ∀ w',
    Eval Δ n (a'.apps rest') w' → ∃ k w, Eval Δ k (a.apps rest) w ∧ Par Δ w w'

/-- A head that fires on reduced arguments fires on the original ones. -/
theorem Fires.backward (ih : Backward Δ n) (h : Fires Δ n w' x args')
    (hargs : Forall₂ (Par Δ) args args') : ∃ k w, Fires Δ k w x args ∧ Par Δ w w' := by
  cases h with
  | @comb c s args' rest' hs hn he =>
    obtain ⟨as, rest, rfl, has, hrest⟩ := exists_append_of_forall₂_right hargs
    obtain ⟨k, w, he', hw⟩ := ih _ _ _ _ (Par.shape has (.apps (.refl _) has) s) hrest w' he
    exact ⟨k, w, .comb hs (by rw [hn, has.length_eq]) he', hw⟩
  | global hx he =>
    obtain ⟨k, w, he', hw⟩ := ih _ _ _ _ (.refl _) hargs w' he
    exact ⟨k, w, .global hx he', hw⟩
  | @case c tag arity scrut' alt' fields' alts' rest' hscrut hf ha halt he =>
    obtain ⟨scrut, altsrest, hscrut', haltsrest, rfl⟩ := forall₂_cons_right_iff.1 hargs
    obtain ⟨alts, rest, rfl, halts, hrest⟩ := exists_append_of_forall₂_right haltsrest
    obtain ⟨j, v, hv, hcon⟩ := ih scrut scrut' [] [] hscrut' .nil _ hscrut
    obtain ⟨fields, rfl, hfields⟩ := Par.to_rests hv.whnf_right hcon
    obtain ⟨alt, halt', hpar⟩ := exists_getElem?_of_forall₂ halts.flip halt
    obtain ⟨k, w, he', hw⟩ := ih _ _ _ _ (Par.apps hpar hfields) hrest w' he
    refine ⟨max j k, w, .case (hv.mono (Nat.le_max_left j k)) ?_ ?_ halt'
      (he'.mono (Nat.le_max_right j k)), hw⟩
    · rw [hfields.length_eq, hf]
    · rw [halts.length_eq, ha]
  | @prim p args' lits r rest' hp hlen hlits he =>
    obtain ⟨as, rest, rfl, has, hrest⟩ := exists_append_of_forall₂_right hargs
    obtain ⟨k, w, he', hw⟩ := ih _ _ _ _ (.refl _) hrest w' he
    have hheights : ∃ j, ∀ i, i < as.length → ∀ a l, as[i]? = some a → lits[i]? = some l →
        Eval Δ j a (.atom (.lit l)) := by
      refine exists_height (fun i k j hkj h a l ha hl => (h a l ha hl).mono hkj) fun i hi => ?_
      have hi' : i < args'.length := by rw [← has.length_eq]; exact hi
      have hil : i < lits.length := by omega
      have ha := getElem?_eq_getElem hi
      have ha' := getElem?_eq_getElem hi'
      have hl := getElem?_eq_getElem hil
      obtain ⟨j, v, hv, hlit⟩ :=
        ih _ _ [] [] (getElem?_of_forall₂ has i _ _ ha ha') .nil _ (hlits i _ _ ha' hl)
      obtain rfl := Par.to_lit hv.whnf_right hlit
      refine ⟨j, fun a l ha2 hl2 => ?_⟩
      rw [ha] at ha2
      rw [hl] at hl2
      cases ha2
      cases hl2
      exact hv
    obtain ⟨j, hj⟩ := hheights
    refine ⟨max j k, w, .prim hp (by rw [has.length_eq, hlen]) (fun i a l ha hl => ?_)
      (he'.mono (Nat.le_max_right j k)), hw⟩
    exact (hj i (List.getElem?_eq_some_iff.1 ha).1 a l ha hl).mono (Nat.le_max_left j k)

theorem backward_spine (ih : ∀ k, k < n → Backward Δ k) (hargs : Forall₂ (Par Δ) args args')
    (he : Eval Δ n ((atom x).apps args') w') :
    ∃ k w, Eval Δ k ((atom x).apps args) w ∧ Par Δ w w' := by
  rcases he.spine_cases with ⟨hr, rfl⟩ | ⟨k, rfl, hf⟩
  · exact ⟨0, _, .whnf _ (whnf_atom.2 (by rw [hargs.length_eq]; exact hr)), .apps (.refl _) hargs⟩
  · obtain ⟨j, w, hf', hw⟩ := hf.backward (ih k (Nat.lt_succ_self k)) hargs
    exact ⟨j + 1, w, hf'.eval, hw⟩

/-- What the step does not change has the same spine before and after it. -/
theorem backward_refl (ih : ∀ k, k < n → Backward Δ k) (t : Tree) {rest' : List Tree}
    (hrest : Forall₂ (Par Δ) rest rest') (he : Eval Δ n (t.apps rest') w') :
    ∃ k w, Eval Δ k (t.apps rest) w ∧ Par Δ w w' := by
  obtain ⟨x, args, rfl⟩ := exists_spine t
  rw [← apps_append] at he ⊢
  exact backward_spine ih (rel_append (Par.refls args) hrest) he

/-- Evaluation can be pulled back along parallel reduction. -/
theorem backward (n : Nat) : Backward Δ n := by
  induction n using Nat.strong_induction_on with
  | _ n ih =>
  intro a a' rest rest' h hrest w' he
  -- a right hand side has one of the arguments at its head, which has a smaller derivation
  induction h generalizing rest rest' with
  | atom x => exact backward_spine ih hrest he
  | app _ ha ihf _ => exact ihf _ _ (.cons ha hrest) he
  | @comb c s args args' hs hn hlen hargs ihargs =>
    have hargs := forall₂_of_getElem? hlen hargs
    obtain ⟨i, hi, hhead⟩ := Combinator.contractum_spine hs hn
    have hget : ∀ {l : List Tree} {r : Tree}, i < l.length → shape l r s.spine.1 = l[i]?.getD default := by
      intro l r _
      rw [hhead]
      exact getD_eq_getElem?_getD
    have hi' : i < args'.length := by omega
    have hspine : Forall₂ (Par Δ) (s.spine.2.map (shape args ((Tree.comb c).apps args)))
        (s.spine.2.map (shape args' ((Tree.comb c).apps args'))) :=
      forall₂_map_left_iff.2 (forall₂_map_right_iff.2
        (forall₂_same.2 fun t _ => Par.shape hargs (.apps (.refl _) hargs) t))
    rw [shape_eq_apps, ← apps_append, hget hi', getElem?_eq_getElem hi'] at he
    obtain ⟨k, w, he', hw⟩ := ihargs i args[i] args'[i] (getElem?_eq_getElem hi)
      (getElem?_eq_getElem hi') _ _ (rel_append hspine hrest) he
    refine ⟨k + 1, w, .comb hs hn ?_, hw⟩
    rw [shape_eq_apps, ← apps_append, hget hi, getElem?_eq_getElem hi]
    exact he'
  | @global x t hx =>
    obtain ⟨k, w, he', hw⟩ := backward_refl ih t hrest he
    exact ⟨k + 1, w, .global hx he', hw⟩
  | @case c tag arity fields fields' alts alts' alt' hf ha hlf hla hfields halts halt' _ ihalts =>
    have hfields := forall₂_of_getElem? hlf hfields
    obtain ⟨alt, halt, -⟩ := exists_getElem?_of_forall₂ (forall₂_of_getElem? hla halts).flip halt'
    rw [← apps_append] at he
    obtain ⟨k, w, he', hw⟩ := ihalts _ alt alt' halt halt' _ _ (rel_append hfields hrest) he
    rw [apps_append] at he'
    exact ⟨k + 1, w, .case (.whnf k (whnf_atom.2 rfl)) hf ha halt he', hw⟩
  | @prim p lits r hp =>
    obtain ⟨k, w, he', hw⟩ := backward_refl ih (ofResult r) hrest he
    refine ⟨k + 1, w, .prim hp (length_map _) (fun i a l ha hl => ?_) he', hw⟩
    rw [getElem?_map, hl] at ha
    cases ha
    exact .whnf k ⟨.lit l, [], rfl, rfl⟩

/-- **What can be evaluated after a parallel step can be evaluated before it.** -/
theorem Par.eval_back (h : Par Δ t t') (he : Eval Δ n t' w') :
    ∃ k w, Eval Δ k t w ∧ Par Δ w w' := backward n t t' [] [] h .nil w' he

/-!
## First-order values
-/

variable (Δ)

/-- A tree has a first-order value: an integer, a character, or a constructor of such values. -/
inductive Yields : Tree → Value → Prop
  | int {n : Nat} {t : Tree} {k : Int64} : Eval Δ n t (.atom (.lit (.int k))) → Yields t (.int k)
  | char {n : Nat} {t : Tree} {c : Char} : Eval Δ n t (.atom (.lit (.char c))) → Yields t (.char c)
  | con {n : Nat} {t : Tree} {tag arity : UInt32} {fields : List Tree} {vs : List Value} :
    Eval Δ n t ((comb (.con tag arity)).apps fields) → fields.length = arity.toNat →
    fields.length = vs.length →
    (∀ (i : Nat) a v, fields[i]? = some a → vs[i]? = some v → Yields a v) → Yields t (.con tag vs)

variable {Δ}

theorem Par.yields {v : Value} (h : Par Δ t t') (hv : Yields Δ t v) : Yields Δ t' v := by
  induction hv generalizing t' with
  | int he =>
    obtain ⟨w', he', hw⟩ := h.eval he
    obtain rfl := hw.of_lit
    exact .int he'
  | char he =>
    obtain ⟨w', he', hw⟩ := h.eval he
    obtain rfl := hw.of_lit
    exact .char he'
  | con he hf hvs _ ih =>
    obtain ⟨w', he', hw⟩ := h.eval he
    obtain ⟨fields', rfl, hfields⟩ := hw.of_rests rfl
    refine .con he' (by rw [← hfields.length_eq, hf]) (by rw [← hfields.length_eq, hvs]) ?_
    intro i a' v ha' hv
    obtain ⟨a, ha, hpar⟩ := exists_getElem?_of_forall₂ hfields.flip ha'
    exact ih i a v ha hv hpar

theorem Par.yields_back {v : Value} (h : Par Δ t t') (hv : Yields Δ t' v) : Yields Δ t v := by
  induction hv generalizing t with
  | int he =>
    obtain ⟨k, w, he', hw⟩ := h.eval_back he
    obtain rfl := Par.to_lit he'.whnf_right hw
    exact .int he'
  | char he =>
    obtain ⟨k, w, he', hw⟩ := h.eval_back he
    obtain rfl := Par.to_lit he'.whnf_right hw
    exact .char he'
  | con he hf hvs _ ih =>
    obtain ⟨k, w, he', hw⟩ := h.eval_back he
    obtain ⟨fields, rfl, hfields⟩ := Par.to_rests he'.whnf_right hw
    refine .con he' (by rw [hfields.length_eq, hf]) (by rw [hfields.length_eq, hvs]) ?_
    intro i a v ha hv
    obtain ⟨a', ha', hpar⟩ := exists_getElem?_of_forall₂ hfields ha
    exact ih i a' v ha' hv hpar

theorem eqvGen_congr {C : Tree → Tree} (hC : ∀ s t, Par Δ s t → Par Δ (C s) (C t))
    (h : Relation.EqvGen (Par Δ) s t) : Relation.EqvGen (Par Δ) (C s) (C t) := by
  induction h with
  | rel s t h => exact .rel _ _ (hC s t h)
  | refl t => exact .refl _
  | symm _ _ _ ih => exact .symm _ _ ih
  | trans _ _ _ _ _ ih1 ih2 => exact .trans _ _ _ ih1 ih2

theorem Conv.eqvGen (h : Same Δ s t) : Relation.EqvGen (Par Δ) s t := by
  induction h with
  | rule h => exact .rel _ _ h
  | refl t => exact .refl t
  | symm _ ih => exact .symm _ _ ih
  | trans _ _ ih1 ih2 => exact .trans _ _ _ ih1 ih2
  | @app f g a b _ _ ihf iha =>
    have hfn := eqvGen_congr (C := fun f => .app f a) (fun _ _ h => .app h (.refl a)) ihf
    have harg := eqvGen_congr (C := fun a => .app g a) (fun _ _ h => .app (.refl g) h) iha
    exact .trans _ _ _ hfn harg

/-- **Convertible trees have the same first-order values.** -/
theorem Conv.yields (h : Same Δ s t) (v : Value) : Yields Δ s v ↔ Yields Δ t v := by
  have heqv := Conv.eqvGen h
  clear h
  induction heqv with
  | rel s t h => exact ⟨h.yields, h.yields_back⟩
  | refl t => exact Iff.rfl
  | symm s t _ ih => exact ih.symm
  | trans s t u _ _ ih1 ih2 => exact ih1.trans ih2

end Tree

end GraphReduction
