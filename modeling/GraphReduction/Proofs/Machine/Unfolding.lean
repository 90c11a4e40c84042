import GraphReduction.Proofs.Calculus.Reduction
import GraphReduction.Proofs.Machine.Reading

/-!
# Graphs and their trees

Every cell of a graph has a tree that comes, in any number of steps, to what the cell holds. Rules
overwrite cells and the trees stay as they are, but for the rule of `Y`, which ties a knot: there the
tree of the redex is reduced along with it.
-/

namespace GraphReduction

open List

namespace Tree

variable {Δ : Name → Option Tree} {s t t' w : Tree} {n : Nat}

/-- Any number of parallel steps. -/
abbrev Red (Δ : Name → Option Tree) : Tree → Tree → Prop := Relation.ReflTransGen (Par Δ)

namespace Red

variable {x : Atom} {args : List Tree}

theorem app {f f' a a' : Tree} (hf : Red Δ f f') (ha : Red Δ a a') :
    Red Δ (.app f a) (.app f' a') := by
  have hfn : Red Δ (.app f a) (.app f' a) := by
    induction hf with
    | refl => exact .refl
    | tail _ hp ih => exact ih.tail (.app hp (.refl a))
  refine hfn.trans ?_
  induction ha with
  | refl => exact .refl
  | tail _ hp ih => exact ih.tail (.app (.refl f') hp)

theorem spine {as bs : List Tree} (h : Red Δ t t') (hargs : Forall₂ (Red Δ) as bs) :
    Red Δ (t.apps as) (t'.apps bs) := by
  induction hargs generalizing t t' with
  | nil => exact h
  | cons ha _ ih => exact ih (h.app ha)

theorem apps (h : Red Δ t t') (args : List Tree) : Red Δ (t.apps args) (t'.apps args) :=
  h.spine (forall₂_same.2 fun _ _ => .refl)

/-- **Reduction does not make an evaluation higher.** -/
theorem eval (h : Red Δ t t') (he : Eval Δ n t w) : ∃ w', Eval Δ n t' w' ∧ Red Δ w w' := by
  induction h with
  | refl => exact ⟨w, he, .refl⟩
  | tail _ hp ih =>
    obtain ⟨w1, he1, hw1⟩ := ih
    obtain ⟨w2, he2, hw2⟩ := hp.eval he1
    exact ⟨w2, he2, hw1.tail hw2⟩

theorem yields {v : Value} (h : Red Δ t t') (hv : Yields Δ t v) : Yields Δ t' v := by
  induction h with
  | refl => exact hv
  | tail _ hp ih => exact hp.yields ih

theorem of_rests {x : Atom} {args : List Tree} (h : Red Δ ((atom x).apps args) t)
    (hr : x.rests args.length = true) :
    ∃ args', t = (atom x).apps args' ∧ Forall₂ (Red Δ) args args' := by
  induction h with
  | refl => exact ⟨args, rfl, forall₂_same.2 fun _ _ => .refl⟩
  | tail _ hp ih =>
    obtain ⟨args1, rfl, h1⟩ := ih
    obtain ⟨args2, rfl, h2⟩ := hp.of_rests (by rw [← h1.length_eq]; exact hr)
    refine ⟨args2, rfl, forall₂_of_getElem? (h1.length_eq.trans h2.length_eq) fun i a b ha hb => ?_⟩
    obtain ⟨c, hc, hac⟩ := exists_getElem?_of_forall₂ h1 ha
    exact hac.tail (getElem?_of_forall₂ h2 i c b hc hb)

/-- **What a tree is evaluated to** has the spine that the tree reduces to, if that is at rest. -/
theorem eval_rests (h : Red Δ t ((atom x).apps args)) (hr : x.rests args.length = true)
    (he : Eval Δ n t w) : Red Δ w ((atom x).apps args) := by
  obtain ⟨w', he', hw⟩ := h.eval he
  rwa [he'.of_rests hr] at hw

theorem eval_lit {l : Literal} (h : Red Δ t ((atom x).apps args)) (hr : x.rests args.length = true)
    (he : Eval Δ n t (.atom (.lit l))) : x = .lit l ∧ args = [] := by
  obtain ⟨args', heq, hargs⟩ := @of_rests Δ _ (.lit l) [] (h.eval_rests hr he) rfl
  cases hargs
  exact apps_eq_atom.1 heq

theorem eval_con {tag arity : UInt32} {fields : List Tree} (h : Red Δ t ((atom x).apps args))
    (hr : x.rests args.length = true) (he : Eval Δ n t ((comb (.con tag arity)).apps fields)) :
    x = .comb (.con tag arity) ∧ Forall₂ (Red Δ) fields args := by
  obtain ⟨args', heq, hargs⟩ := of_rests (h.eval_rests hr he) rfl
  obtain ⟨rfl, rfl⟩ := apps_atom_inj.1 heq
  exact ⟨rfl, hargs⟩

end Red

/-- A tree with a weak head normal form. -/
def Evaluates (Δ : Name → Option Tree) (t : Tree) : Prop := ∃ n w, Eval Δ n t w

theorem Evaluates.red (h : Evaluates Δ t) (hred : Red Δ t t') : Evaluates Δ t' := by
  obtain ⟨n, w, he⟩ := h
  obtain ⟨w', he', -⟩ := hred.eval he
  exact ⟨n, w', he'⟩

theorem Yields.evaluates {v : Value} (h : Yields Δ t v) : Evaluates Δ t := by
  cases h with
  | int he | char he => exact ⟨_, _, he⟩
  | con he => exact ⟨_, _, he⟩

theorem Evaluates.exists_least (h : Evaluates Δ t) :
    ∃ n w, Eval Δ n t w ∧ ∀ k w', k < n → ¬ Eval Δ k t w' := by
  classical
  have hn : ∃ n, ∃ w, Eval Δ n t w := h
  obtain ⟨w, hw⟩ := Nat.find_spec hn
  exact ⟨Nat.find hn, w, hw, fun k w' hk he => Nat.find_min hn hk ⟨w', he⟩⟩

/-- Of the right hand sides, only that of `Y` has the redex in it. -/
theorem shape_contractum {c : Combinator} {s : Shape} (hs : c.contractum = some s) (hY : c ≠ .Y)
    (args : List Tree) (r r' : Tree) : shape args r s = shape args r' s := by
  cases c <;> first | exact absurd rfl hY | cases hs <;> rfl

/-- The reading of cells as trees, which may take steps. -/
def reading (Δ : Name → Option Tree) : Reading Tree where
  app := .app
  leaf
    | .comb c, t => Red Δ t (comb c)
    | .prim p, t => Red Δ t (.atom (.prim p))
    | .scalar s, t => ∃ l, Scalar.ofLiteral l = s ∧ Red Δ t (.atom (.lit l))
    | _, _ => True
  le := Red Δ
  refl _ := .refl
  trans := .trans
  mono := Red.app

theorem shape_reading {s : Shape} {args : List Nat} {σ : Nat → Tree} {r : Tree}
    (hs : s.Fits args.length) :
    (reading Δ).shape (fun i => σ (args.getD i 0)) r s = shape (args.map σ) r s := by
  induction s with
  | arg i =>
    have hi : i < args.length := hs
    show σ (args.getD i 0) = (args.map σ).getD i default
    simp [getD_eq_getElem?_getD, hi]
  | redex => rfl
  | app f a ihf iha => exact congrArg₂ app (ihf hs.1) (iha hs.2)

end Tree

open GraphReduction.Tree (Red Evaluates)

namespace Machine

/-!
## Trees of cells
-/

/-- A tree comes to what a cell holds, where the cells that it refers to have the trees `σ`. -/
abbrev Shows (Δ : Name → Option Tree) : (Nat → Tree) → Tree → Cell → Prop := (Tree.reading Δ).Shows

/-- **The trees `σ` reduce to what the cells hold**, for the cells in `G` of a sound machine. -/
abbrev Unfolds (Δ : Name → Option Tree) (m : Machine) (G : Nat → Prop) (σ : Nat → Tree) : Prop :=
  ReadAs (Tree.reading Δ) m G σ

variable {Δ : Name → Option Tree} {m m' : Machine} {G G' : Nat → Prop} {σ σ' : Nat → Tree}
  {x y redex : Nat} {args : List Nat} {t : Tree} {c : Cell}

theorem Shows.atom (h : Shows Δ σ t c) {n : Nat} (hr : rests c n = true) :
    ∃ a : Atom, Red Δ t (.atom a) ∧ a.rests n = true ∧
      (∀ l, a = .lit l → c = .scalar (.ofLiteral l)) ∧ ∀ d, a = .comb d → c = .comb d := by
  cases c with
  | comb d => exact ⟨.comb d, h, hr, by simp, by simp⟩
  | prim p => exact ⟨.prim p, h, hr, by simp, by simp⟩
  | scalar s =>
    obtain ⟨l, rfl, h⟩ := h
    exact ⟨.lit l, h, hr, by simp, by simp⟩
  | app | ind | free => cases hr

namespace Unfolds

section

variable (h : Unfolds Δ m G σ)
include h

theorem rests (hx : G x) (hu : Unwinds m.heap.get x args y)
    (hr : Machine.rests (m.heap.get y) args.length = true) :
    ∃ a : Atom, Red Δ (σ x) ((Tree.atom a).apps (args.map σ)) ∧
      a.rests (args.map σ).length = true ∧
      (∀ l, a = .lit l → m.heap.get y = .scalar (.ofLiteral l)) ∧
      ∀ d, a = .comb d → m.heap.get y = .comb d := by
  obtain ⟨hy, -, hred⟩ := h.unwinds hx hu
  obtain ⟨a, ha, hra, hlit, hcomb⟩ := Shows.atom (h.shows y hy) hr
  exact ⟨a, .trans hred (Red.apps ha _), by rw [length_map]; exact hra, hlit, hcomb⟩

theorem congr (hheap : m'.heap = m.heap) (hroots : ∀ x ∈ m'.roots, G x) :
    Unfolds Δ m' G σ :=
  ⟨h.sound.congr hheap hroots, fun x hx => by rw [hheap]; exact h.shows x hx⟩

theorem shrink (n : Nat) :
    Unfolds Δ { m with stack := m.stack.shrink n } G σ := by
  refine h.congr rfl fun y hy => h.sound.roots y ?_
  simp only [roots, Array.toList_shrink, mem_append] at hy ⊢
  exact hy.imp_left mem_of_mem_take

theorem push (hx : G x) :
    Unfolds Δ { m with stack := m.stack.push x } G σ := by
  refine h.congr rfl fun y hy => ?_
  simp only [roots, Array.toList_push, mem_append, mem_singleton] at hy
  rcases hy with (hy | rfl) | hy
  · exact h.sound.roots y (mem_append_left _ hy)
  · exact hx
  · exact h.sound.roots y (mem_append_right _ hy)

theorem setEntry (i : Nat) (hx : G x) :
    Unfolds Δ { m with stack := m.stack.setIfInBounds i x } G σ := by
  refine h.congr rfl fun y hy => ?_
  simp only [roots, Array.toList_setIfInBounds, mem_append] at hy
  rcases hy with hy | hy
  · rcases mem_or_eq_of_mem_set hy with hy | rfl
    · exact h.sound.roots y (mem_append_left _ hy)
    · exact hx
  · exact h.sound.roots y (mem_append_right _ hy)

end

theorem reserve (h : Unfolds Δ m G σ) (n : Nat) :
    Meets (Machine.reserve n) m (fun _ m' => ∃ G', Unfolds Δ m' G' σ) fun e _ => e.Exhausted := by
  refine meets_reserve h.sound (fun _ _ => ⟨G, h⟩) (fun h' hc _ _ => ⟨_, h.collect hc⟩) ?_
  exact fun _ _ _ => trivial

/-- **Tying a knot**: `Y` makes the redex the argument of its function. -/
theorem knot (h : Unfolds Δ m G σ) {f : Nat} (hf : G f) (hr : G redex)
    (ht : Red Δ (σ redex) ((Tree.comb .Y).apps [σ f])) :
    Unfolds Δ { m with heap := m.heap.set redex (.app f redex) } G
      (Function.update σ redex ((Tree.comb .Y).apps [σ f])) := by
  refine h.setCell hr ht (h.sound.update hr rfl rfl (by simp [Cell.children, hf, hr])) ?_
  show Red Δ _ (.app _ (Function.update σ redex _ redex))
  rw [Function.update_self]
  refine Relation.ReflTransGen.head (Tree.Par.contract .Y [σ f] rfl rfl) ?_
  -- the function may be the redex itself, whose tree is reduced as well
  exact Red.app (Reading.le_update (R := Tree.reading Δ) ht f) .refl

end Unfolds

end Machine

end GraphReduction
