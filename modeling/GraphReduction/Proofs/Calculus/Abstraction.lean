import GraphReduction.Abstraction
import GraphReduction.Proofs.Calculus.Tree

/-!
# Abstraction gives functions

`[x]e` has the variables of `e` but not `x`, and applied to `a` it is convertible with `e` where `x`
is replaced by `a`. The rule for an application looks at the shape of the abstracted parts, so each
of the rules is a lemma of its own about parts that abstract already.
-/

namespace GraphReduction

open List

variable {σ : Name → Tree} {xs : List Name} {as : List Tree} {x : Name}

namespace Term

open GraphReduction.Tree (Conv Contracts replacing)

@[simp] theorem tree_newApps (f : Term) (args : List Term) (n : Nat) :
    (f.newApps args n).1.tree = f.tree.apps (args.map tree) := by
  induction args generalizing f n with
  | nil => rfl
  | cons a args ih => exact ih (.app n f a) (n + 1)

@[simp] theorem tree_newComb (c : Combinator) (args : List Term) (n : Nat) :
    (newComb c args n).1.tree = (Tree.comb c).apps (args.map tree) :=
  tree_newApps (.leaf n (.comb c)) args (n + 1)

theorem tree_of_compositionParts? {t p q : Term} (h : t.compositionParts? = some (p, q)) :
    t.tree = (Tree.comb .B).apps [p.tree, q.tree] := by
  unfold compositionParts? at h
  split at h
  · cases h
    rfl
  · cases h

/-- `t` is a function of `x` that gives `e`, which has `x` in it. -/
structure Abstracts (x : Name) (e t : Tree) : Prop where
  occurs : x ∈ e.vars
  mem_vars : ∀ y, y ∈ t.vars ↔ y ∈ e.vars ∧ y ≠ x
  conv : ∀ a, Conv Contracts (.app t a) (e.subst (replacing x a))

section Rules

variable {x : Name} {e f a f' a' p q : Tree}

theorem replacing_self (x : Name) (a : Tree) : replacing x a x = a := by
  unfold Tree.replacing
  rw [Function.update_self]

theorem subst_replacing_of_notMem (h : x ∉ e.vars) (a : Tree) : e.subst (replacing x a) = e := by
  refine Tree.subst_eq_self fun y hy => ?_
  have hne : y ≠ x := fun hyx => h (hyx ▸ hy)
  unfold Tree.replacing
  rw [Function.update_of_ne hne]

theorem Abstracts.composition (h : Abstracts x e ((Tree.comb .B).apps [p, q])) (a : Tree) :
    Conv Contracts (.app p (.app q a)) (e.subst (replacing x a)) :=
  (Conv.rule (.B p q a)).symm.trans (h.conv a)

theorem Abstracts.var (x : Name) : Abstracts x (.var x) (.comb .I) := by
  refine ⟨by simp [Tree.var, Tree.vars], fun y => ?_, fun a => ?_⟩
  · simp [Tree.var, Tree.comb, Tree.vars]
  · rw [Tree.subst_var_tree, replacing_self]
    exact .rule (.I a)

theorem Abstracts.eta (hf : x ∉ f.vars) : Abstracts x (.app f (.var x)) f := by
  refine ⟨by simp [Tree.var, Tree.vars], fun y => ?_, fun a => ?_⟩
  · simp only [Tree.vars, Tree.var, mem_append, mem_singleton]
    constructor
    · intro hy
      exact ⟨Or.inl hy, fun hyx => hf (hyx ▸ hy)⟩
    · rintro ⟨hy | hy, hne⟩
      · exact hy
      · exact absurd hy hne
  · rw [Tree.subst_app, subst_replacing_of_notMem hf, Tree.subst_var_tree, replacing_self]
    exact .refl _

theorem mem_vars_of_notMem (h : x ∉ e.vars) (y : Name) : y ∈ e.vars ↔ y ∈ e.vars ∧ y ≠ x :=
  ⟨fun hy => ⟨hy, fun hyx => h (hyx ▸ hy)⟩, And.left⟩

/-- **A rule for an application**: what takes the place of a part has its variables but for `x`. -/
theorem Abstracts.app {t : Tree} (hx : x ∈ f.vars ∨ x ∈ a.vars)
    (hf : ∀ y, y ∈ f'.vars ↔ y ∈ f.vars ∧ y ≠ x) (ha : ∀ y, y ∈ a'.vars ↔ y ∈ a.vars ∧ y ≠ x)
    (ht : ∀ y, y ∈ t.vars ↔ y ∈ f'.vars ∨ y ∈ a'.vars)
    (hconv : ∀ z, Conv Contracts (.app t z) ((Tree.app f a).subst (replacing x z))) :
    Abstracts x (.app f a) t := by
  refine ⟨mem_append.2 hx, fun y => ?_, hconv⟩
  rw [ht, hf, ha, Tree.vars, mem_append, or_and_right]

theorem Abstracts.B (hf : x ∉ f.vars) (ha : Abstracts x a a') :
    Abstracts x (.app f a) ((Tree.comb .B).apps [f, a']) := by
  refine .app (.inr ha.occurs) (mem_vars_of_notMem hf) ha.mem_vars (by simp [Tree.comb, Tree.vars]) fun z => ?_
  rw [Tree.subst_app, subst_replacing_of_notMem hf]
  exact (Conv.rule (.B f a' z)).trans ((ha.conv z).arg f)

theorem Abstracts.B' (hf : x ∉ f.vars) (ha : Abstracts x a ((Tree.comb .B).apps [p, q])) :
    Abstracts x (.app f a) ((Tree.comb .B').apps [f, p, q]) := by
  refine .app (.inr ha.occurs) (mem_vars_of_notMem hf) ha.mem_vars (by simp [Tree.comb, Tree.vars]) fun z => ?_
  rw [Tree.subst_app, subst_replacing_of_notMem hf]
  exact (Conv.rule (.B' f p q z)).trans ((ha.composition z).arg f)

theorem Abstracts.C (hf : Abstracts x f f') (ha : x ∉ a.vars) :
    Abstracts x (.app f a) ((Tree.comb .C).apps [f', a]) := by
  refine .app (.inl hf.occurs) hf.mem_vars (mem_vars_of_notMem ha) (by simp [Tree.comb, Tree.vars]) fun z => ?_
  rw [Tree.subst_app, subst_replacing_of_notMem ha]
  exact (Conv.rule (.C f' a z)).trans ((hf.conv z).fn a)

theorem Abstracts.C' (hf : Abstracts x f ((Tree.comb .B).apps [p, q])) (ha : x ∉ a.vars) :
    Abstracts x (.app f a) ((Tree.comb .C').apps [p, q, a]) := by
  refine .app (.inl hf.occurs) hf.mem_vars (mem_vars_of_notMem ha)
    (by simp [Tree.comb, Tree.vars, or_assoc]) fun z => ?_
  rw [Tree.subst_app, subst_replacing_of_notMem ha]
  exact (Conv.rule (.C' p q a z)).trans ((hf.composition z).fn a)

theorem Abstracts.S (hf : Abstracts x f f') (ha : Abstracts x a a') :
    Abstracts x (.app f a) ((Tree.comb .S).apps [f', a']) :=
  .app (.inl hf.occurs) hf.mem_vars ha.mem_vars (by simp [Tree.comb, Tree.vars]) fun z =>
    (Conv.rule (.S f' a' z)).trans (.app (hf.conv z) (ha.conv z))

theorem Abstracts.S' (hf : Abstracts x f ((Tree.comb .B).apps [p, q])) (ha : Abstracts x a a') :
    Abstracts x (.app f a) ((Tree.comb .S').apps [p, q, a']) :=
  .app (.inl hf.occurs) hf.mem_vars ha.mem_vars (by simp [Tree.comb, Tree.vars, or_assoc]) fun z =>
    (Conv.rule (.S' p q a' z)).trans (.app (hf.composition z) (ha.conv z))

end Rules

/-!
## Abstraction of a variable
-/

/-- What abstraction gives: nothing if the variable does not occur, else a function of it. -/
def AbstractsTo (x : Name) (e : Tree) : Option Term → Prop
  | none => x ∉ e.vars
  | some t => Abstracts x e t.tree

theorem eq_var_of_isVar {a : Term} (h : a.isVar x = true) : a.tree = .var x := by
  cases a with
  | leaf label y =>
    cases y with
    | var y =>
      obtain rfl : x = y := by simpa [isVar] using h
      rfl
    | _ => simp [isVar] at h
  | app label f a => simp [isVar] at h

theorem abstractsTo_newComb {e : Tree} {c : Combinator} {args : List Term}
    (h : Abstracts x e ((Tree.comb c).apps (args.map tree))) (n : Nat) :
    AbstractsTo x e ((some <$> newComb c args : Fresh (Option Term)) n).1 := by
  show Abstracts x e (newComb c args n).1.tree
  rw [tree_newComb]
  exact h

/-- **Abstraction of a variable**, by the shapes of the abstracted parts. -/
theorem abstractsTo_abstractVar (x : Name) (e : Term) (n : Nat) :
    AbstractsTo x e.tree (e.abstractVar x n).1 := by
  induction e generalizing n with
  | leaf label y =>
    cases y with
    | var y =>
      by_cases hxy : x = y
      · subst hxy
        have hsome : ((Term.leaf label (.var x)).abstractVar x n).1 = some (newComb .I [] n).1 := by
          simp only [abstractVar, if_pos]
          rfl
        rw [hsome]
        exact Abstracts.var x
      · have hnone : ((Term.leaf label (.var y)).abstractVar x n).1 = none := by
          simp only [abstractVar, if_neg hxy]
          rfl
        rw [hnone]
        show x ∉ [y]
        simpa using hxy
    | _ => exact not_mem_nil
  | app label f a ihf iha =>
    have hf := ihf n
    have ha := iha (f.abstractVar x n).2
    unfold abstractVar
    simp only [bind, StateT.bind]
    cases hrf : f.abstractVar x n with
    | mk rf n1 =>
    rw [hrf] at hf ha
    cases hra : a.abstractVar x n1 with
    | mk ra n2 =>
    simp only [hra] at ha ⊢
    -- the rule is chosen by which parts have the variable, and by their shapes
    cases rf with
    | none =>
      cases ra with
      | none =>
        show x ∉ f.tree.vars ++ a.tree.vars
        rw [mem_append]
        rintro (hx | hx)
        · exact hf hx
        · exact ha hx
      | some a' =>
        by_cases hvar : a.isVar x = true
        · simp only [if_pos hvar]
          show Abstracts x (.app f.tree a.tree) f.tree
          rw [eq_var_of_isVar hvar]
          exact .eta hf
        · simp only [if_neg hvar]
          cases hparts : a'.compositionParts? with
          | some parts =>
            have ha : Abstracts x a.tree a'.tree := ha
            rw [tree_of_compositionParts? hparts] at ha
            exact abstractsTo_newComb (Abstracts.B' hf ha) n2
          | none => exact abstractsTo_newComb (Abstracts.B hf ha) n2
    | some f' =>
      cases hparts : f'.compositionParts? with
      | some parts =>
        have hf : Abstracts x f.tree f'.tree := hf
        rw [tree_of_compositionParts? hparts] at hf
        cases ra with
        | none => simpa only [hparts] using abstractsTo_newComb (Abstracts.C' hf ha) n2
        | some a' => simpa only [hparts] using abstractsTo_newComb (Abstracts.S' hf ha) n2
      | none =>
        cases ra with
        | none => simpa only [hparts] using abstractsTo_newComb (Abstracts.C hf ha) n2
        | some a' => simpa only [hparts] using abstractsTo_newComb (Abstracts.S hf ha) n2

/-!
## Functions of one variable and of several
-/

section Brackets

variable (x : Name) (e : Term) (n : Nat)

/-- Abstracting `x` removes it, and the result applied to `a` substitutes `a`. -/
theorem bracket_cases : (∀ y, y ∈ (e.bracket x n).1.vars ↔ y ∈ e.vars ∧ y ≠ x) ∧
    ∀ a, Conv Contracts (.app (e.bracket x n).1.tree a) (e.tree.subst (replacing x a)) := by
  have h := abstractsTo_abstractVar x e n
  unfold bracket
  simp only [bind, StateT.bind]
  cases hr : e.abstractVar x n with
  | mk r n1 =>
  rw [hr] at h
  cases r with
  | some t => exact ⟨h.mem_vars, h.conv⟩
  | none =>
    have h : x ∉ e.tree.vars := h
    have htree : (newComb .K [e] n1).1.tree = (Tree.comb .K).apps [e.tree] := tree_newComb ..
    refine ⟨fun y => ?_, fun a => ?_⟩
    · show y ∈ (newComb .K [e] n1).1.tree.vars ↔ _
      rw [htree]
      constructor
      · intro hy
        have hy : y ∈ e.vars := hy
        exact ⟨hy, fun hyx => h (hyx ▸ hy)⟩
      · exact fun hy => hy.1
    · show Conv Contracts (.app (newComb .K [e] n1).1.tree a) _
      rw [htree, subst_replacing_of_notMem h]
      exact .rule (.K e.tree a)

theorem mem_vars_bracket (y : Name) : y ∈ (e.bracket x n).1.vars ↔ y ∈ e.vars ∧ y ≠ x :=
  (bracket_cases x e n).1 y

theorem bracket_subst (σ : Name → Tree) (a : Tree) :
    Conv Contracts (.app ((e.bracket x n).1.tree.subst σ) a)
      (e.tree.subst (Function.update σ x a)) := by
  have hvar : Conv Contracts (.app (e.bracket x n).1.tree (.var x)) e.tree := by
    have h := (bracket_cases x e n).2 (.var x)
    rwa [Tree.subst_eq_self (t := e.tree) fun y _ => ?_] at h
    unfold Tree.replacing
    rw [Function.update_eq_self]
  have h := hvar.subst (fun _ _ σ h => h.subst σ) (Function.update σ x a)
  rw [Tree.subst_app, Tree.subst_var_tree, Function.update_self] at h
  -- the abstraction has no `x`, so its value there does not matter
  have hbracket : (e.bracket x n).1.tree.subst (Function.update σ x a) =
      (e.bracket x n).1.tree.subst σ := by
    refine Tree.subst_congr fun y hy => ?_
    rw [Function.update_of_ne ((mem_vars_bracket x e n y).1 hy).2]
  rwa [hbracket] at h

end Brackets

end Term

/-- Gives the arguments to the variables one after another, so that a later one counts. -/
def Tree.assign (σ : Name → Tree) : List Name → List Tree → Name → Tree
  | x :: xs, a :: as => assign (Function.update σ x a) xs as
  | _, _ => σ

theorem Tree.assign_eq_lookup (σ : Name → Tree) (xs : List Name) (as : List Tree) (y : Name) :
    assign σ xs as y = ((xs.zip as).reverse.lookup y).getD (σ y) := by
  induction xs generalizing σ as with
  | nil => cases as <;> rfl
  | cons x xs ih =>
    cases as with
    | nil => rfl
    | cons a as =>
      rw [assign, ih, zip_cons_cons, reverse_cons, lookup_append]
      cases (xs.zip as).reverse.lookup y with
      | some b => rfl
      | none =>
        by_cases hyx : y = x
        · subst hyx
          simp [lookup]
        · rw [Function.update_of_ne hyx]
          simp [lookup, beq_eq_false_iff_ne.2 hyx]

theorem Tree.assign_of_notMem {y : Name} (h : y ∉ xs) : assign σ xs as y = σ y := by
  induction xs generalizing σ as with
  | nil => cases as <;> rfl
  | cons x xs ih =>
    obtain ⟨hne, hnot⟩ := not_or.1 (mem_cons.not.1 h)
    cases as with
    | nil => rfl
    | cons a as => rw [assign, ih hnot, Function.update_of_ne hne]

theorem Tree.assign_of_mem {τ : Name → Tree} {y : Name} (hlen : as.length = xs.length)
    (h : y ∈ xs) : assign σ xs as y = assign τ xs as y := by
  induction xs generalizing σ τ as with
  | nil => exact absurd h not_mem_nil
  | cons x xs ih =>
    cases as with
    | nil => cases hlen
    | cons a as =>
      by_cases hy : y ∈ xs
      · exact ih (Nat.succ.inj hlen) hy
      · obtain rfl := (mem_cons.1 h).resolve_right hy
        rw [assign, assign, assign_of_notMem hy, assign_of_notMem hy, Function.update_self,
          Function.update_self]

theorem Tree.assign_of_getElem? {i : Nat} {a : Tree} (hnodup : xs.Nodup) (hx : xs[i]? = some x)
    (ha : as[i]? = some a) : assign σ xs as x = a := by
  induction xs generalizing σ as i with
  | nil => cases hx
  | cons y xs ih =>
    obtain ⟨hnot, hnodup⟩ := nodup_cons.1 hnodup
    cases as with
    | nil => cases ha
    | cons b as =>
      cases i with
      | zero =>
        cases hx
        cases ha
        rw [assign, assign_of_notMem hnot, Function.update_self]
      | succ i => exact ih hnodup hx ha

theorem Tree.assign_map (σ : Name → Tree) (xs : List Name) : assign σ xs (xs.map σ) = σ := by
  induction xs with
  | nil => rfl
  | cons x xs ih => rw [map_cons, assign, Function.update_eq_self, ih]

/-- Variables are replaced all at once by the arguments at their positions. Of several positions
of a variable the last one counts. -/
def Tree.simultaneous (xs : List Name) (as : List Tree) (y : Name) : Tree :=
  ((xs.zip as).reverse.lookup y).getD (.var y)

namespace Term

open GraphReduction.Tree (Conv Contracts)

theorem mem_vars_bracketAll (xs : List Name) (e : Term) (n : Nat) (y : Name) :
    y ∈ (e.bracketAll xs n).1.vars ↔ y ∈ e.vars ∧ y ∉ xs := by
  induction xs with
  | nil => simp [bracketAll, pure, StateT.pure]
  | cons x xs ih =>
    have hcons : (e.bracketAll (x :: xs) n).1 =
        ((e.bracketAll xs n).1.bracket x (e.bracketAll xs n).2).1 := rfl
    rw [hcons, mem_vars_bracket, ih, mem_cons]
    tauto

theorem bracketAll_subst (xs : List Name) (e : Term) (n : Nat) (σ : Name → Tree) (as : List Tree)
    (hlen : as.length = xs.length) :
    Conv Contracts (((e.bracketAll xs n).1.tree.subst σ).apps as)
      (e.tree.subst (Tree.assign σ xs as)) := by
  induction xs generalizing σ as with
  | nil =>
    obtain rfl : as = [] := length_eq_zero_iff.1 hlen
    exact .refl _
  | cons x xs ih =>
    cases as with
    | nil => cases hlen
    | cons a as =>
      have hbracket := bracket_subst x (e.bracketAll xs n).1 (e.bracketAll xs n).2 σ a
      exact (hbracket.apps as).trans (ih (Function.update σ x a) as (Nat.succ.inj hlen))

/-- **Abstraction is a function.** A variable is abstracted exactly if it occurs, `[x]e` has the
other variables of `e`, and applied to an argument it gives `e` with the argument in place of `x`.
Several abstractions give `e` with all arguments in place, and leave no variable exactly if they
abstract all of them. -/
theorem abstraction_applied (e : Term) :
    (∀ x n, (e.abstractVar x n).1 = none ↔ x ∉ e.vars) ∧
    (∀ x n y, y ∈ (e.bracket x n).1.vars ↔ y ∈ e.vars ∧ y ≠ x) ∧
    (∀ x n a, Conv Contracts (.app (e.bracket x n).1.tree a)
      (e.tree.subst (Tree.replacing x a))) ∧
    (∀ xs n as, as.length = xs.length → Conv Contracts ((e.bracketAll xs n).1.tree.apps as)
      (e.tree.subst (Tree.simultaneous xs as))) ∧
    ∀ xs n, (e.bracketAll xs n).1.findVar = none ↔ ∀ y ∈ e.vars, y ∈ xs := by
  refine ⟨fun x n => ?_, fun x => mem_vars_bracket x e, fun x n => (bracket_cases x e n).2,
    fun xs n as hlen => ?_, fun xs n => ?_⟩
  · have h := abstractsTo_abstractVar x e n
    cases hr : (e.abstractVar x n).1 with
    | none =>
      rw [hr] at h
      exact ⟨fun _ => h, fun _ => rfl⟩
    | some t =>
      rw [hr] at h
      have hoccurs : x ∈ e.vars := h.occurs
      constructor
      · intro hsome
        cases hsome
      · exact fun hnot => absurd hoccurs hnot
  · have h := bracketAll_subst xs e n .var as hlen
    rw [Tree.subst_id] at h
    have hassign : Tree.assign .var xs as = Tree.simultaneous xs as :=
      funext fun y => Tree.assign_eq_lookup .var xs as y
    rwa [hassign] at h
  · rw [findVar_eq_none, List.eq_nil_iff_forall_not_mem]
    constructor
    · intro h y hy
      by_contra hnot
      exact h y ((mem_vars_bracketAll xs e n y).2 ⟨hy, hnot⟩)
    · intro h y hy
      have hboth := (mem_vars_bracketAll xs e n y).1 hy
      exact hboth.2 (h y hboth.1)

/-- Of two arguments for one variable the later one counts. -/
theorem abstraction_applied_repeated :
    let e : Term := .app 0 (.app 1 (.leaf 2 (.prim .sub)) (.leaf 3 (.var "x"))) (.leaf 4 (.var "y"))
    let as : List Tree := [.comb .K, .comb .S, .comb .I]
    as.length = ["x", "y", "x"].length ∧
      Conv Contracts ((e.bracketAll ["x", "y", "x"] 5).1.tree.apps as)
        (.app (.app (.atom (.prim .sub)) (.comb .I)) (.comb .S)) := by
  refine ⟨rfl, ?_⟩
  exact (abstraction_applied _).2.2.2.1 ["x", "y", "x"] 5 _ rfl

end Term

end GraphReduction
