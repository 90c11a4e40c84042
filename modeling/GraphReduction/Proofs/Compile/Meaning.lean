import GraphReduction.Proofs.ByName.Meaning
import GraphReduction.Proofs.Compile.Scope
import GraphReduction.Proofs.Core.Names

/-!
# Compilation keeps the meaning

The term of an expression, with trees in place of its variables, means the expression. A case is the
one construct whose compilation looks at names: a default that several slots share is bound to one that
no binder has.
-/

namespace GraphReduction

open List
open GraphReduction.Tree (Same Conv Contracts assign)

variable {α : Type}

/-- The trees that top-level names stand for. -/
def Program.tree? (p : Program) (x : Name) : Option Tree := (p.get? x).map (·.body.tree)

namespace Compile

variable {Δ : Name → Option Tree} {P : Name → Prop} {size : Nat} {Γ Γ' : List Name} {ctx : Context}
  {arities : List UInt32} {alts : List (Alt Core)} {slots : List (Option Term)} {names : List Name}

theorem Compiles.imp {E E' : CompileError → Prop} {x : CompileM α} {Q R : α → Prop}
    (h : Compiles E x Q) (hE : ∀ e, E e → E' e) (hQ : ∀ a, Q a → R a) : Compiles E' x R := by
  intro s
  have h := h s
  cases hr : (x s).1 with
  | ok a =>
    rw [hr] at h
    exact hQ a h
  | error e =>
    rw [hr] at h
    exact hE e h

/-!
## Tables
-/

/-- **A default behind one `K` per field** is the default, whatever the fields are. -/
theorem constantIn_subst (σ : Name → Tree) (t : Term) (k n : Nat) (as : List Tree)
    (has : as.length = k) :
    Conv Contracts (((constantIn t k n).1.tree.subst σ).apps as) (t.tree.subst σ) := by
  induction k generalizing t n as with
  | zero =>
    obtain rfl := length_eq_zero_iff.1 has
    exact .refl _
  | succ k ih =>
    obtain ⟨init, last, rfl⟩ : ∃ init last, as = init ++ [last] :=
      (eq_nil_or_concat as).resolve_left (by rintro rfl; cases has) |>.imp fun _ h => by
        simpa using h
    have hinit : init.length = k := by simpa using has
    have hstep := ih (Term.newComb .K [t] n).1 (Term.newComb .K [t] n).2 init hinit
    rw [Tree.apps_concat]
    refine (hstep.fn last).trans ?_
    rw [Term.tree_newComb]
    exact .rule (.K _ _)

theorem forall₂_mapM {β : Type} (f : α → Fresh β) (xs : List α) (n : Nat) :
    Forall₂ (fun a b => ∃ k, b = (f a k).1) xs (xs.mapM f n).1 := by
  induction xs generalizing n with
  | nil => exact .nil
  | cons a xs ih =>
    rw [mapM_cons]
    exact .cons ⟨n, rfl⟩ (ih (f a n).2)

/-- What is in the slots of a case, one for each constructor of its type. -/
structure Table (Δ : Name → Option Tree) (σ : Name → Tree) (arities : List UInt32)
    (alts : List (Alt Core)) (slots : List (Option Term)) : Prop where
  length : slots.length = arities.length
  free : ∀ i, i ∉ alts.map (·.tag.toNat) → i < arities.length → slots[i]? = some none
  alternative : ∀ alt ∈ alts, ∃ k t, arities[alt.tag.toNat]? = some k ∧
    alt.binders.length = k.toNat ∧ slots[alt.tag.toNat]? = some (some t) ∧
    ∀ as, as.length = alt.binders.length →
      alt.body.toExpr.Means Δ (assign σ alt.binders as) ((t.tree.subst σ).apps as)

/-- The assembled case means what the alternatives in its table mean. -/
theorem means_assembleCase {σ : Name → Tree} {scrut : Core} {other : Option Core} {scrut' : Term}
    {other' : Option Term} (hscrut : scrut.toExpr.Means Δ σ (scrut'.tree.subst σ)) (hslots : Table Δ σ arities alts slots)
    (hother : ∀ e, other = some e → ∃ d, other' = some d ∧ e.toExpr.Means Δ σ (d.tree.subst σ))
    (n : Nat) : (Core.caseOf scrut arities alts other).toExpr.Means Δ σ
      ((assembleCase scrut' arities slots other' n).1.tree.subst σ) := by
  set f : Option Term × UInt32 → Fresh Term := fun p => slotTerm other' p.2 p.1
  set head := Term.newComb (.caseOf (UInt32.ofNat arities.length)) [scrut'] n
  set ts := ((slots.zip arities).mapM f head.2).1 with hts
  have htree : (assembleCase scrut' arities slots other' n).1.tree =
      (Tree.comb (.caseOf (UInt32.ofNat arities.length))).apps (scrut'.tree :: ts.map Term.tree) := by
    show (head.1.newApps ts _).1.tree = _
    rw [Term.tree_newApps, Term.tree_newComb]
    rfl
  have hall : Forall₂ (fun p t => ∃ k, t = (f p k).1) (slots.zip arities) ts :=
    forall₂_mapM f _ _
  have hlen : ts.length = arities.length := by
    rw [← hall.length_eq, length_zip, hslots.length, Nat.min_self]
  -- the term in each slot
  have hget : ∀ (i : Nat) k slot, arities[i]? = some k → slots[i]? = some slot →
      ∃ j, (ts.map fun t => t.tree.subst σ)[i]? =
        some ((slotTerm other' k slot j).1.tree.subst σ) := by
    intro i k slot hk hslot
    obtain ⟨t, ht, j, rfl⟩ := exists_getElem?_of_forall₂ hall
      (show (slots.zip arities)[i]? = some (slot, k) by rw [getElem?_zip_eq_some]; exact ⟨hslot, hk⟩)
    exact ⟨j, by rw [getElem?_map, ht]; rfl⟩
  rw [Core.toExpr, Core.altsToExpr_eq, Core.otherToExpr_eq]
  refine ⟨scrut'.tree.subst σ, ts.map fun t => t.tree.subst σ, hscrut, by rw [length_map, hlen],
    ?_, Expr.meansAlts_iff.2 fun alt halt => ?_,
    Expr.meansOther_iff.2 fun e he i k slot hi hk hslot as has => ?_⟩
  · rw [htree, Tree.subst_apps, map_cons, map_map]
    exact .refl _
  · obtain ⟨alt, hmem, rfl⟩ := mem_map.1 halt
    obtain ⟨k, t, hk, hbinders, hslot, hbody⟩ := hslots.alternative alt hmem
    obtain ⟨j, hj⟩ := hget _ k _ hk hslot
    exact ⟨k, _, hk, hbinders, hj, hbody⟩
  · obtain ⟨e', he', rfl⟩ := Option.map_eq_some_iff.1 he
    obtain ⟨d, rfl, hd⟩ := hother e' he'
    rw [map_map] at hi
    obtain ⟨j, hj⟩ := hget i k none hk (hslots.free i hi (List.getElem?_eq_some_iff.1 hk).1)
    rw [hj] at hslot
    cases hslot
    exact hd.conv (Conv.same (constantIn_subst σ d k.toNat j as has)).symm

/-- **The slots of the alternatives.** A slot that is filled stays as it is. -/
theorem means_slotsOf (halts : ∀ alt ∈ alts, Compiles (fun _ => True) (expr ctx alt.body) fun t =>
      ∀ σ, alt.body.toExpr.Means Δ σ (t.tree.subst σ)) (hlen : slots.length = arities.length) :
    Compiles (fun _ => True) (slotsOf ctx arities slots alts) fun slots' =>
      slots'.length = arities.length ∧
      (∀ (i : Nat), i ∉ alts.map (·.tag.toNat) → slots'[i]? = slots[i]?) ∧
      (∀ (i : Nat) t, slots[i]? = some (some t) → slots'[i]? = some (some t)) ∧
      ∀ alt ∈ alts, ∃ k t, arities[alt.tag.toNat]? = some k ∧ alt.binders.length = k.toNat ∧
        slots'[alt.tag.toNat]? = some (some t) ∧ ∀ σ as, as.length = alt.binders.length →
          alt.body.toExpr.Means Δ (assign σ alt.binders as) ((t.tree.subst σ).apps as) := by
  induction alts generalizing slots with
  | nil => exact .pure ⟨hlen, fun _ _ => rfl, fun _ _ h => h, forall_mem_nil _⟩
  | cons alt alts ih =>
    obtain ⟨halt, halts⟩ := forall_mem_cons.1 halts
    -- the slot exists, has the arity of the alternative, and is still empty
    have hcheck : Compiles (fun _ => True)
        (ExceptT.mk (Pure.pure (checkAlt arities slots alt)) : CompileM Unit) fun _ =>
          ∃ k, arities[alt.tag.toNat]? = some k ∧ alt.binders.length = k.toNat ∧
            (slots[alt.tag.toNat]?).join = none := by
      intro s
      have hrun : ((ExceptT.mk (Pure.pure (checkAlt arities slots alt)) : CompileM Unit) s).1 =
          checkAlt arities slots alt := rfl
      rw [hrun]
      cases he : checkAlt arities slots alt with
      | error e => trivial
      | ok _ =>
        unfold checkAlt at he
        split at he
        · cases he
        · rename_i k hk
          split at he
          · cases he
          · rename_i hbinders
            split at he
            · cases he
            · rename_i hfree
              exact ⟨k, hk, not_not.1 hbinders, by simpa using hfree⟩
    refine hcheck.bind fun _ hchecked => halt.bind fun body hbody =>
      (Compiles.labelling (Q := fun t => ∀ σ as, as.length = alt.binders.length →
        alt.body.toExpr.Means Δ (assign σ alt.binders as) ((t.tree.subst σ).apps as))
        fun n σ as has => ?_).bind fun t ht =>
      (ih halts (length_set.trans hlen : (slots.set alt.tag.toNat (some t)).length = _)).imp
        (fun _ h => h) ?_
    · exact (hbody _).conv (Conv.same (Term.bracketAll_subst alt.binders body n σ as has)).symm
    · rintro slots' ⟨hlen', hother, hkept, hfilled⟩
      obtain ⟨k, hk, hbinders, hfree⟩ := hchecked
      have hlt : alt.tag.toNat < slots.length := by
        rw [hlen]
        exact (List.getElem?_eq_some_iff.1 hk).1
      refine ⟨hlen', fun i hi => ?_, fun i t' hi => ?_, forall_mem_cons.2 ⟨?_, hfilled⟩⟩
      · rw [map_cons, mem_cons, not_or] at hi
        rw [hother i hi.2, getElem?_set_ne (Ne.symm hi.1)]
      · refine hkept i t' ?_
        rwa [getElem?_set_ne]
        rintro rfl
        rw [hi] at hfree
        cases hfree
      · refine ⟨k, t, hk, hbinders, hkept _ t ?_, ht⟩
        rw [getElem?_set_self hlt]

/-!
## Expressions
-/

/-- **The term of an expression means it**, with any trees in place of its variables. -/
theorem means_expr {c : Core} (h : c.Scoped (· ∈ ctx.globals) size Γ) (hc : c.Tidy P Γ')
    (hP : ∀ x, P x → ∀ k : Nat, x ≠ "$d~" ++ toString k) (hΓ : ∀ x ∈ Γ, P x) :
    Compiles (fun _ => True) (expr ctx c) fun t => ∀ σ, c.toExpr.Means Δ σ (t.tree.subst σ) := by
  induction c generalizing Γ Γ' with
  | var x => exact .labelling fun _ σ => .refl _
  | global x =>
    unfold expr
    split
    · exact .labelling fun _ σ => .refl _
    · exact .throw trivial
  | lit l =>
    refine .labelling fun n σ => ?_
    cases l <;> exact .refl _
  | prim _ | comb _ | con _ _ => exact .labelling fun _ σ => .refl _
  | app f a ihf iha =>
    cases h with
    | app hf ha =>
      exact (ihf hf hc.app.1 hΓ).bind fun f' hf' => (iha ha hc.app.2 hΓ).bind fun a' ha' =>
        .labelling fun _ σ => ⟨_, _, hf' σ, ha' σ, .refl _⟩
  | lam x body ih =>
    cases h with
    | lam hbody =>
      obtain ⟨⟨hx, -⟩, hcb⟩ := hc.lam
      refine (ih hbody hcb (forall_mem_cons.2 ⟨hx, hΓ⟩)).bind fun body' hbody' =>
        .labelling fun n σ a => ?_
      exact (hbody' _).conv (Conv.same (Term.bracket_subst x body' n σ a)).symm
  | letIn x rhs body ihr ihb =>
    cases h with
    | letIn hrhs hbody =>
      obtain ⟨hcr, ⟨hx, -⟩, hcb⟩ := hc.letIn
      refine (ihb hbody hcb (forall_mem_cons.2 ⟨hx, hΓ⟩)).bind fun body' hbody' =>
        (Compiles.labelling (Q := fun f => ∀ σ a, Same Δ (.app (f.tree.subst σ) a)
          (body'.tree.subst (Function.update σ x a))) fun n σ a =>
            Conv.same (Term.bracket_subst x body' n σ a)).bind fun f hf =>
        (ihr hrhs hcr hΓ).bind fun rhs' hrhs' => .labelling fun _ σ => ?_
      exact ⟨_, hrhs' σ, (hbody' _).conv (hf σ _).symm⟩
  | caseOf scrut arities alts other ihs iha iho =>
    obtain ⟨hscrut, hfits, halts, hother⟩ := Core.scoped_caseOf.1 h
    obtain ⟨hcs, hca, hco⟩ := hc.caseOf
    have hslots := means_slotsOf (Δ := Δ) (fun alt halt => iha alt halt
        (halts alt halt) (hca alt halt).2 fun x hx => (mem_append.1 hx).elim
          (fun hx => ((hca alt halt).1 x hx).1) (hΓ x))
      (length_replicate :
        (replicate arities.length (none : Option Term)).length = arities.length)
    have hdefault : Compiles (fun _ => True) (otherOf ctx other) fun d => ∀ e, other = some e →
        ∃ t, d = some t ∧ ∀ σ, e.toExpr.Means Δ σ (t.tree.subst σ) := by
      cases other with
      | none => exact .pure fun e he => by cases he
      | some e =>
        exact (iho e rfl (hother e rfl) (hco e rfl) hΓ).bind fun t ht =>
          .pure fun e' he' => ⟨t, rfl, Option.some.inj he' ▸ ht⟩
    refine hslots.bind fun slots hfacts => hdefault.bind fun d hd => ?_
    obtain ⟨hlen, hfree, -, hfilled⟩ := hfacts
    have htable : ∀ σ, Table Δ σ arities alts slots := by
      refine fun σ => ⟨hlen, fun i hi hlt => ?_, fun alt halt => ?_⟩
      · rw [hfree i hi, getElem?_replicate, if_pos hlt]
      · obtain ⟨k, t, hk, hb, ht, hbody⟩ := hfilled alt halt
        exact ⟨k, t, hk, hb, ht, hbody σ⟩
    cases d with
    | none =>
      refine (ihs hscrut hcs hΓ).bind fun scrut' hscrut' => .labelling fun n σ =>
        means_assembleCase (hscrut' σ) (htable σ) (fun e he => ?_) n
      obtain ⟨t, ht, -⟩ := hd e he
      cases ht
    | some d =>
      dsimp only
      split
      · have hfresh : Compiles (fun _ => True) freshDefault fun x =>
            ∃ k : Nat, x = "$d~" ++ toString k := fun s => ⟨_, rfl⟩
        refine hfresh.bind fun x hmade => (Compiles.labelling (Q := fun v : Term =>
          v.tree = .var x) fun _ => rfl).bind fun v hv => (ihs hscrut hcs hΓ).bind
          fun scrut' hscrut' => .labelling fun n σ => ?_
        obtain ⟨k, hx⟩ := hmade
        set t := assembleCase scrut' arities slots (some v) n
        -- the name of the default is none of those in scope
        have hsame : ∀ (e : Core), e.Scoped (· ∈ ctx.globals) size Γ → ∀ u,
            e.toExpr.Means Δ σ u ↔
              e.toExpr.Means Δ (Function.update σ x (d.tree.subst σ)) u := by
          intro e he u
          have hne : ∀ y ∈ Γ, Same Δ (σ y) (Function.update σ x (d.tree.subst σ) y) := by
            intro y hy
            rw [Function.update_of_ne]
            · exact .refl _
            · rw [hx]
              exact hP y (hΓ y hy) k
          exact ⟨fun hm => hm.congr_scoped he hne, fun hm => hm.congr_scoped he fun y hy => (hne y hy).symm⟩
        set τ := Function.update σ x (d.tree.subst σ)
        have hdefault : ∀ e, other = some e →
            ∃ d', some v = some d' ∧ e.toExpr.Means Δ τ (d'.tree.subst τ) := by
          intro e he
          obtain ⟨d', hd', he'⟩ := hd e he
          cases hd'
          refine ⟨v, rfl, ?_⟩
          rw [hv, Tree.subst_var_tree, show τ x = d.tree.subst σ from Function.update_self ..]
          exact (hsame e (hother e he) _).1 (he' σ)
        have hcase := means_assembleCase (hscrut' τ) (htable τ) hdefault n
        refine ((hsame _ h _).2 hcase).conv (Conv.same ?_).symm
        exact Term.bracket_subst x t.1 t.2 σ (d.tree.subst σ)
      · refine (ihs hscrut hcs hΓ).bind fun scrut' hscrut' => .labelling fun n σ =>
          means_assembleCase (hscrut' σ) (htable σ) (fun e he => ?_) n
        obtain ⟨t, ht, he'⟩ := hd e he
        exact ⟨t, ht, he' σ⟩

/-!
## Programs
-/

theorem means_binding {b : Binding Core} (h : b.body.Scoped (· ∈ names) size b.params)
    (hb : b.body.Tidy P b.params)
    (hP : ∀ x, P x → ∀ k : Nat, x ≠ "$d~" ++ toString k) (hparams : ∀ x ∈ b.params, P x) :
    Compiles (fun _ => True) (binding names b) fun d =>
      d.name = b.name ∧ ∀ ρ, (Expr.lams b.params b.body.toExpr).Means Δ ρ d.body.tree := by
  have hexpr : Compiles (fun _ => True) (expr ⟨names, b.name⟩ b.body) _ :=
    means_expr (Δ := Δ) h hb hP hparams
  refine hexpr.bind fun body hbody => (Compiles.labelling (Q := fun t : Term => ∀ σ,
    (Expr.lams b.params b.body.toExpr).Means Δ σ (t.tree.subst σ)) fun n σ =>
      Expr.means_lams.2 fun as has => ?_).bind fun t ht => ?_
  · exact (hbody _).conv (Conv.same (Term.bracketAll_subst b.params body n σ as has)).symm
  · split
    · exact .throw trivial
    · rename_i hclosed
      refine .pure ⟨rfl, fun ρ => ?_⟩
      have hvars : t.vars = [] := Term.findVar_eq_none.1 hclosed
      have hsubst : t.tree.subst ρ = t.tree :=
        Tree.subst_eq_self fun x hx => absurd (hvars ▸ hx : x ∈ []) not_mem_nil
      exact hsubst ▸ ht ρ

theorem means_definitions {bs : List (Binding Core)}
    (h : ∀ b ∈ bs, b.body.Scoped (· ∈ names) size b.params)
    (hb : ∀ b ∈ bs, b.body.Tidy P b.params ∧ ∀ x ∈ b.params, P x)
    (hP : ∀ x, P x → ∀ k : Nat, x ≠ "$d~" ++ toString k) :
    Compiles (fun _ => True) (bs.mapM (binding names)) (Forall₂ (fun b d => d.name = b.name ∧
      ∀ Δ ρ, (Expr.lams b.params b.body.toExpr).Means Δ ρ d.body.tree) bs) := by
  refine Compiles.mapM fun b hmem s => ?_
  have hmeans := fun Δ => means_binding (Δ := Δ) (h b hmem) (hb b hmem).1 hP (hb b hmem).2 s
  cases hr : (binding names b s).1 with
  | error e => trivial
  | ok d =>
    rw [hr] at hmeans
    exact ⟨(hmeans fun _ => none).1, fun Δ => (hmeans Δ).2⟩

end Compile

theorem find?_of_nodup {f : α → Name} {l : List α} (hnodup : (l.map f).Nodup) {a : α} (ha : a ∈ l) :
    (l.find? fun b => f b == f a) = some a := by
  induction l with
  | nil => exact absurd ha not_mem_nil
  | cons b l ih =>
    obtain ⟨hnot, hnodup⟩ := nodup_cons.1 hnodup
    rcases mem_cons.1 ha with rfl | ha
    · rw [find?_cons_of_pos (by simp)]
    · have hne : f b ≠ f a := fun heq => hnot (heq ▸ mem_map_of_mem ha)
      rw [find?_cons_of_neg (by simpa using hne), ih hnodup ha]

/-- **Every definition of a compiled module means what it was compiled from**, if no two of them have
the same name. -/
theorem Module.defines_of_compile {m : Module} {c : Compiler} {p : Program} {P : Name → Prop}
    {size : Nat} (h : ∀ b ∈ m.lift, b.body.Scoped (· ∈ m.lift.map (·.name)) size b.params)
    (hb : ∀ b ∈ m.lift, b.body.Tidy P b.params ∧ ∀ x ∈ b.params, P x)
    (hP : ∀ x, P x → ∀ k : Nat, x ≠ "$d~" ++ toString k) (hnodup : (m.lift.map (·.name)).Nodup)
    (hp : (c.compile m).1 = .ok p) : ∀ b ∈ m.lift, b.Defines p.tree? := by
  obtain ⟨-, defs, s, hdefs, hdefined⟩ := definitions_of_compile hp
  have hmeans := Compile.means_definitions h hb hP ⟨0, c.defaults⟩
  rw [hdefs] at hmeans
  -- arities do not matter for what a definition means
  have hprogram : Forall₂ (fun b d => d.name = b.name ∧
      ∀ Δ ρ, (Expr.lams b.params b.body.toExpr).Means Δ ρ d.body.tree) m.lift p.defs := by
    rw [hdefined]
    exact forall₂_map_right_iff.2 hmeans
  intro b hmem ρ
  obtain ⟨i, hi⟩ := mem_iff_getElem?.1 hmem
  obtain ⟨d, hd, hname, hmeans⟩ := exists_getElem?_of_forall₂ hprogram hi
  have hnames : p.defs.map (·.name) = m.lift.map (·.name) := by
    rw [← forall₂_eq_eq_eq, forall₂_map_left_iff, forall₂_map_right_iff]
    exact hprogram.flip.imp fun d b hd => hd.1
  have hget : p.get? b.name = some d := by
    rw [← hname]
    exact find?_of_nodup (hnames ▸ hnodup) (mem_of_getElem? hd)
  have htree : p.tree? b.name = some d.body.tree := by
    unfold Program.tree?
    rw [hget]
    rfl
  exact (hmeans _ ρ).conv (Conv.rule (.global htree)).symm

end GraphReduction
