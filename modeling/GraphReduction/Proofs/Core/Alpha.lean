import GraphReduction.Proofs.Core.Names

/-!
# Local names

Two expressions without recursive groups are alike up to local names if they have the same shape and
every variable refers to the same binder on both sides. Renaming gives the binders new names in the
same order on both sides, so corresponding binders get the same number, and the expressions stay alike.
-/

namespace GraphReduction

open List

/-- The binders in scope on the two sides, innermost first. -/
abbrev BinderPairs := List (Name × Name)

/-- `x` and `y` refer to the same binder, or are the same free name. -/
def SameBinder : BinderPairs → Name → Name → Prop
  | [], x, y => x = y
  | (a, b) :: Γ, x, y => x = a ∧ y = b ∨ x ≠ a ∧ y ≠ b ∧ SameBinder Γ x y

instance SameBinder.decidable : (Γ : BinderPairs) → (x y : Name) → Decidable (SameBinder Γ x y)
  | [], x, y => inferInstanceAs (Decidable (x = y))
  | (a, b) :: Γ, x, y =>
    have := SameBinder.decidable Γ x y
    inferInstanceAs (Decidable (x = a ∧ y = b ∨ x ≠ a ∧ y ≠ b ∧ SameBinder Γ x y))

/-- The scope under several binders, the last of which is the innermost. -/
def BinderPairs.under (Γ : BinderPairs) (xs ys : List Name) : BinderPairs :=
  (xs.zip ys).reverse ++ Γ

@[simp] theorem BinderPairs.under_cons (Γ : BinderPairs) (x y : Name) (xs ys : List Name) :
    Γ.under (x :: xs) (y :: ys) = BinderPairs.under ((x, y) :: Γ) xs ys := by
  simp [BinderPairs.under]

theorem BinderPairs.forall_under {R : Name → Name → Prop} {Γ : BinderPairs}
    (hΓ : ∀ p ∈ Γ, R p.1 p.2) {xs ys : List Name} (h : Forall₂ R xs ys) :
    ∀ p ∈ Γ.under xs ys, R p.1 p.2 := by
  induction h generalizing Γ with
  | nil => exact hΓ
  | cons hxy _ ih =>
    rw [under_cons]
    exact ih (forall_mem_cons.2 ⟨hxy, hΓ⟩)

theorem BinderPairs.fst_under {xs ys : List Name} (h : xs.length = ys.length) (Γ : BinderPairs)
    {x : Name} : x ∈ (Γ.under xs ys).map Prod.fst ↔ x ∈ xs ∨ x ∈ Γ.map Prod.fst := by
  rw [BinderPairs.under, map_append, map_reverse, map_fst_zip h.le,
    mem_append, mem_reverse]

/-- **Two expressions differ in local names only.** Corresponding binders are related by `R`, and the
expressions have no recursive groups. -/
inductive Expr.Alpha (R : Name → Name → Prop) : BinderPairs → Expr → Expr → Prop where
  | var {Γ x y} : SameBinder Γ x y → Alpha R Γ (.var x) (.var y)
  | global {Γ} (x) : Alpha R Γ (.global x) (.global x)
  | lit {Γ} (l) : Alpha R Γ (.lit l) (.lit l)
  | prim {Γ} (p) : Alpha R Γ (.prim p) (.prim p)
  | comb {Γ} (c) : Alpha R Γ (.comb c) (.comb c)
  | con {Γ} (tag arity) : Alpha R Γ (.con tag arity) (.con tag arity)
  | app {Γ f a f' a'} : Alpha R Γ f f' → Alpha R Γ a a' → Alpha R Γ (.app f a) (.app f' a')
  | lam {Γ x y body body'} : R x y → Alpha R ((x, y) :: Γ) body body' →
      Alpha R Γ (.lam x body) (.lam y body')
  | letIn {Γ x y rhs rhs' body body'} : Alpha R Γ rhs rhs' → R x y →
      Alpha R ((x, y) :: Γ) body body' → Alpha R Γ (.letIn x rhs body) (.letIn y rhs' body')
  | caseOf {Γ scrut scrut' alts alts' other other'} (arities) : Alpha R Γ scrut scrut' →
      alts.length = alts'.length → (∀ p ∈ alts.zip alts', p.1.tag = p.2.tag) →
      (∀ p ∈ alts.zip alts', Forall₂ R p.1.binders p.2.binders) →
      (∀ p ∈ alts.zip alts', Alpha R (Γ.under p.1.binders p.2.binders) p.1.body p.2.body) →
      other.isSome = other'.isSome →
      (∀ e e', other = some e → other' = some e' → Alpha R Γ e e') →
      Alpha R Γ (.caseOf scrut arities alts other) (.caseOf scrut' arities alts' other')

/-- Two definitions of one name that differ in local names only. -/
structure Binding.Alpha (R : Name → Name → Prop) (b b' : Binding Expr) : Prop where
  name : b.name = b'.name
  params : Forall₂ R b.params b'.params
  body : b.body.Alpha R (BinderPairs.under [] b.params b'.params) b'.body

/-- Two modules that differ in local names only. -/
structure Module.Alpha (R : Name → Name → Prop) (m m' : Module) : Prop where
  name : m.name = m'.name
  datatypes : m.datatypes = m'.datatypes
  defs : Forall₂ (Binding.Alpha R) m.defs m'.defs

/-- No definition has a free variable. -/
def Module.Closed (m : Module) : Prop := ∀ d ∈ m.defs, d.body.freeOccurrences d.params = []

/-!
## Renaming
-/

/-- What the names in scope are renamed to on the two sides, with numbers up to `n`. -/
inductive Renamed : Nat → Renaming → Renaming → BinderPairs → BinderPairs → Prop where
  | nil (n) : Renamed n [] [] [] []
  | later {n k ρ ρ' Γ Δ} : Renamed n ρ ρ' Γ Δ → n ≤ k → Renamed k ρ ρ' Γ Δ
  | bind {n ρ ρ' Γ Δ} (x y) : Renamed n ρ ρ' Γ Δ →
      Renamed (n + 1) ((x, (freshName x n).1) :: ρ) ((y, (freshName y n).1) :: ρ') ((x, y) :: Γ)
        (((freshName x n).1, (freshName y n).1) :: Δ)

theorem numbered_inj {x y : Name} {j k : Nat}
    (h : x ++ "~" ++ toString j = y ++ "~" ++ toString k) : x = y ∧ j = k := by
  have hlist := congrArg String.toList h
  rw [toList_numbered, toList_numbered] at hlist
  obtain rfl : j = k := number_unique rfl hlist
  exact ⟨String.toList_injective (append_cancel_right hlist), rfl⟩

/-- **Names that refer to the same binder get the same number.** -/
theorem Renamed.sameBinder {n : Nat} {ρ ρ' : Renaming} {Γ Δ : BinderPairs} (h : Renamed n ρ ρ' Γ Δ)
    {x y : Name} (hxy : SameBinder Γ x y) (hx : x ∈ Γ.map Prod.fst) :
    ∃ k ≤ n, ρ.lookup x = some (x ++ "~" ++ toString k) ∧
      ρ'.lookup y = some (y ++ "~" ++ toString k) ∧
      SameBinder Δ (x ++ "~" ++ toString k) (y ++ "~" ++ toString k) := by
  induction h with
  | nil n => exact absurd hx not_mem_nil
  | later _ hn ih =>
    obtain ⟨k, hk, hsame⟩ := ih hxy hx
    exact ⟨k, hk.trans hn, hsame⟩
  | @bind n ρ ρ' Γ Δ a b _ ih =>
    rcases hxy with ⟨rfl, rfl⟩ | ⟨hxa, hyb, hxy⟩
    · exact ⟨n + 1, le_rfl, lookup_cons_self, lookup_cons_self, .inl ⟨rfl, rfl⟩⟩
    · obtain ⟨k, hk, hρ, hρ', hsame⟩ := ih hxy ((mem_cons.1 hx).resolve_left hxa)
      refine ⟨k, hk.trans (Nat.le_succ n), ?_, ?_, .inr ⟨fun heq => ?_, fun heq => ?_, hsame⟩⟩
      · rw [lookup_cons, beq_eq_false_iff_ne.2 hxa]
        exact hρ
      · rw [lookup_cons, beq_eq_false_iff_ne.2 hyb]
        exact hρ'
      · exact hxa (numbered_inj heq).1
      · exact hyb (numbered_inj heq).1

section Rename

variable {R R' : Name → Name → Prop}

theorem Renamed.freshBinders
    (hR : ∀ x y (k : Nat), R x y → R' (x ++ "~" ++ toString k) (y ++ "~" ++ toString k))
    {xs ys : List Name} (hxy : Forall₂ R xs ys) {n : Nat}
    {ρ ρ' : Renaming} {Γ Δ : BinderPairs} (h : Renamed n ρ ρ' Γ Δ) :
    ∃ us vs τ τ' k, freshBinders ρ xs n = ((us, τ), k) ∧ freshBinders ρ' ys n = ((vs, τ'), k) ∧
      n ≤ k ∧ Forall₂ R' us vs ∧ Renamed k τ τ' (Γ.under xs ys) (Δ.under us vs) := by
  induction hxy generalizing n ρ ρ' Γ Δ with
  | nil => exact ⟨[], [], ρ, ρ', n, rfl, rfl, le_rfl, .nil, h⟩
  | @cons x y xs ys hxy _ ih =>
    obtain ⟨us, vs, τ, τ', k, hxs, hys, hn, hR', hk⟩ := ih (h.bind x y)
    refine ⟨(freshName x n).1 :: us, (freshName y n).1 :: vs, τ, τ', k, ?_, ?_,
      (Nat.le_succ n).trans hn, .cons (hR x y (n + 1) hxy) hR', ?_⟩
    · exact congrArg (fun r => (((freshName x n).1 :: r.1.1, r.1.2), r.2)) hxs
    · exact congrArg (fun r => (((freshName y n).1 :: r.1.1, r.1.2), r.2)) hys
    · rw [BinderPairs.under_cons, BinderPairs.under_cons]
      exact hk

namespace Expr

/-- The two expressions stay alike when they are renamed from the same number on. -/
def AlphaRenamed (R : Name → Name → Prop) (Γ : BinderPairs) (e e' : Expr) : Prop :=
  ∀ {n : Nat} {ρ ρ' : Renaming} {Δ : BinderPairs}, Renamed n ρ ρ' Γ Δ →
    ∃ u v k, e.rename ρ n = (u, k) ∧ e'.rename ρ' n = (v, k) ∧ n ≤ k ∧ u.Alpha R Δ v

/-- The alternatives of a case are renamed alike, one after the other. -/
theorem alpha_renameAlts
    (hR : ∀ x y (k : Nat), R x y → R' (x ++ "~" ++ toString k) (y ++ "~" ++ toString k))
    {Γ : BinderPairs} {alts alts' : List (Alt Expr)} (hlength : alts.length = alts'.length)
    (htags : ∀ p ∈ alts.zip alts', p.1.tag = p.2.tag)
    (hbinders : ∀ p ∈ alts.zip alts', Forall₂ R p.1.binders p.2.binders)
    (h : ∀ p ∈ alts.zip alts', AlphaRenamed R' (Γ.under p.1.binders p.2.binders) p.1.body p.2.body)
    {n : Nat} {ρ ρ' : Renaming} {Δ : BinderPairs} (hρ : Renamed n ρ ρ' Γ Δ) :
    ∃ us vs k, renameAlts ρ alts n = (us, k) ∧ renameAlts ρ' alts' n = (vs, k) ∧ n ≤ k ∧
      us.length = vs.length ∧ (∀ p ∈ us.zip vs, p.1.tag = p.2.tag) ∧
      (∀ p ∈ us.zip vs, Forall₂ R' p.1.binders p.2.binders) ∧
      ∀ p ∈ us.zip vs, p.1.body.Alpha R' (Δ.under p.1.binders p.2.binders) p.2.body := by
  induction alts generalizing alts' n with
  | nil =>
    obtain rfl : alts' = [] := length_eq_zero_iff.1 hlength.symm
    exact ⟨[], [], n, rfl, rfl, le_rfl, rfl, nofun, nofun, nofun⟩
  | cons alt alts ih =>
    cases alts' with
    | nil => cases hlength
    | cons alt' alts' =>
    obtain ⟨htag, htags⟩ := forall_mem_cons.1 htags
    obtain ⟨hbinder, hbinders⟩ := forall_mem_cons.1 hbinders
    obtain ⟨hbody, hbodies⟩ := forall_mem_cons.1 h
    obtain ⟨xs, ys, τ, τ', i, hxs, hys, hni, hxy, hτ⟩ := hρ.freshBinders hR hbinder
    obtain ⟨u, v, j, hu, hv, hij, huv⟩ := hbody hτ
    obtain ⟨us, vs, k, hus, hvs, hjk, hlen, htags', hbinders', hbodies'⟩ :=
      ih (Nat.succ.inj hlength) htags hbinders hbodies (hρ.later (hni.trans hij))
    refine ⟨⟨alt.tag, xs, u⟩ :: us, ⟨alt'.tag, ys, v⟩ :: vs, k, ?_, ?_, hni.trans (hij.trans hjk),
      congrArg Nat.succ hlen, forall_mem_cons.2 ⟨htag, htags'⟩,
      forall_mem_cons.2 ⟨hxy, hbinders'⟩, forall_mem_cons.2 ⟨huv, hbodies'⟩⟩
    · simp only [renameAlts, bind, StateT.bind, hxs, hu, hus]
      rfl
    · simp only [renameAlts, bind, StateT.bind, hys, hv, hvs]
      rfl

/-- Renaming apart sends two alpha-equal expressions to alpha-equal ones. -/
theorem Alpha.rename
    (hR : ∀ x y (k : Nat), R x y → R' (x ++ "~" ++ toString k) (y ++ "~" ++ toString k))
    {Γ : BinderPairs} {e e' : Expr} (h : e.Alpha R Γ e') {B : List Name}
    (hB : ∀ x ∈ B, x ∈ Γ.map Prod.fst) (hfree : e.freeOccurrences B = []) :
    AlphaRenamed R' Γ e e' := by
  -- a further binder on both sides
  have hunder : ∀ {Γ : BinderPairs} {B : List Name} (x y : Name), (∀ z ∈ B, z ∈ Γ.map Prod.fst) →
      ∀ z ∈ x :: B, z ∈ ((x, y) :: Γ).map Prod.fst := fun x y hB =>
    forall_mem_cons.2 ⟨mem_cons_self, fun z hz => mem_cons_of_mem _ (hB z hz)⟩
  induction h generalizing B with
  | @var Γ x y hxy =>
    intro n ρ ρ' Δ hρ
    have hx : x ∈ B := by
      by_contra hx
      rw [freeOccurrences, if_neg hx] at hfree
      cases hfree
    obtain ⟨k, -, hx, hy, hsame⟩ := hρ.sameBinder hxy (hB x hx)
    refine ⟨_, _, n, rfl, rfl, le_rfl, .var ?_⟩
    rw [hx, hy]
    exact hsame
  | global x => exact @fun n _ _ _ _ => ⟨_, _, n, rfl, rfl, le_rfl, .global x⟩
  | lit l => exact @fun n _ _ _ _ => ⟨_, _, n, rfl, rfl, le_rfl, .lit l⟩
  | prim p => exact @fun n _ _ _ _ => ⟨_, _, n, rfl, rfl, le_rfl, .prim p⟩
  | comb c => exact @fun n _ _ _ _ => ⟨_, _, n, rfl, rfl, le_rfl, .comb c⟩
  | con tag arity => exact @fun n _ _ _ _ => ⟨_, _, n, rfl, rfl, le_rfl, .con tag arity⟩
  | @app Γ f a f' a' _ _ ihf iha =>
    obtain ⟨hff, hfa⟩ := append_eq_nil_iff.1 hfree
    intro n ρ ρ' Δ hρ
    obtain ⟨f, g, i, hf, hg, hni, hfg⟩ := ihf hB hff hρ
    obtain ⟨a, b, j, ha, hb, hij, hab⟩ := iha hB hfa (hρ.later hni)
    refine ⟨_, _, j, ?_, ?_, hni.trans hij, .app hfg hab⟩
    · simp only [Expr.rename, bind, StateT.bind, hf, ha]
      rfl
    · simp only [Expr.rename, bind, StateT.bind, hg, hb]
      rfl
  | @lam Γ x y body body' hxy _ ih =>
    intro n ρ ρ' Δ hρ
    obtain ⟨u, v, k, hu, hv, hnk, huv⟩ := ih (hunder x y hB) hfree (hρ.bind x y)
    refine ⟨_, _, k, ?_, ?_, (Nat.le_succ n).trans hnk, .lam (hR x y (n + 1) hxy) huv⟩
    · exact congrArg (fun r => (Expr.lam (freshName x n).1 r.1, r.2)) hu
    · exact congrArg (fun r => (Expr.lam (freshName y n).1 r.1, r.2)) hv
  | @letIn Γ x y rhs rhs' body body' _ hxy _ ihr ihb =>
    obtain ⟨hfr, hfb⟩ := append_eq_nil_iff.1 hfree
    intro n ρ ρ' Δ hρ
    obtain ⟨r, q, i, hr, hq, hni, hrq⟩ := ihr hB hfr hρ
    obtain ⟨u, v, k, hu, hv, hik, huv⟩ := ihb (hunder x y hB) hfb ((hρ.later hni).bind x y)
    refine ⟨_, _, k, ?_, ?_, hni.trans ((Nat.le_succ i).trans hik),
      .letIn hrq (hR x y (i + 1) hxy) huv⟩
    · simp only [Expr.rename, bind, StateT.bind, hr]
      exact congrArg (fun b => (Expr.letIn (freshName x i).1 r b.1, b.2)) hu
    · simp only [Expr.rename, bind, StateT.bind, hq]
      exact congrArg (fun b => (Expr.letIn (freshName y i).1 q b.1, b.2)) hv
  | @caseOf Γ scrut scrut' alts alts' other other' arities _ hlength htags hbinders _ hsome _ ihs iha
      iho =>
    rw [freeOccurrences, append_eq_nil_iff, append_eq_nil_iff] at hfree
    obtain ⟨⟨hfs, hfa⟩, hfo⟩ := hfree
    intro n ρ ρ' Δ hρ
    obtain ⟨s, t, i, hs, ht, hni, hst⟩ := ihs hB hfs hρ
    have halts : ∀ p ∈ alts.zip alts',
        AlphaRenamed R' (Γ.under p.1.binders p.2.binders) p.1.body p.2.body := by
      intro p hp
      refine iha p hp (B := p.1.binders ++ B) (fun x hx => ?_) ?_
      · rw [BinderPairs.fst_under (hbinders p hp).length_eq]
        exact (mem_append.1 hx).imp_right (hB x)
      · rw [eq_nil_iff_forall_not_mem]
        intro x hx
        rw [eq_nil_iff_forall_not_mem] at hfa
        exact hfa x (mem_freeInAlts.2 ⟨p.1, (of_mem_zip hp).1, hx⟩)
    obtain ⟨us, vs, j, hus, hvs, hij, hlen, htags', hbinders', hbodies'⟩ :=
      alpha_renameAlts hR hlength htags hbinders halts (hρ.later hni)
    have hother : ∃ o o' k, renameOther ρ other j = (o, k) ∧ renameOther ρ' other' j = (o', k) ∧
        j ≤ k ∧ o.isSome = o'.isSome ∧ ∀ e e', o = some e → o' = some e' → e.Alpha R' Δ e' := by
      cases other with
      | none =>
        cases other' with
        | none => exact ⟨none, none, j, rfl, rfl, le_rfl, rfl, fun _ _ h => by cases h⟩
        | some e' => cases hsome
      | some e =>
        cases other' with
        | none => cases hsome
        | some e' =>
          obtain ⟨u, v, k, hu, hv, hjk, huv⟩ :=
            iho e e' rfl rfl hB hfo (hρ.later (hni.trans hij))
          refine ⟨some u, some v, k, ?_, ?_, hjk, rfl, ?_⟩
          · simp only [renameOther, bind, StateT.bind, hu]
            rfl
          · simp only [renameOther, bind, StateT.bind, hv]
            rfl
          · rintro _ _ ⟨⟩ ⟨⟩
            exact huv
    obtain ⟨o, o', k, ho, ho', hjk, hsome', hother⟩ := hother
    refine ⟨_, _, k, ?_, ?_, hni.trans (hij.trans hjk),
      .caseOf arities hst hlen htags' hbinders' hbodies' hsome' hother⟩
    · simp only [Expr.rename, bind, StateT.bind, hs, hus, ho]
      rfl
    · simp only [Expr.rename, bind, StateT.bind, ht, hvs, ho']
      rfl

end Expr

/-- **Definitions that are alike are so after renaming**, if they are closed. -/
theorem Binding.Alpha.rename
    (hR : ∀ x y (k : Nat), R x y → R' (x ++ "~" ++ toString k) (y ++ "~" ++ toString k))
    {b b' : Binding Expr} (h : b.Alpha R b') (hfree : b.body.freeOccurrences b.params = []) (n : Nat) :
    ∃ c c' k, b.rename n = (c, k) ∧ b'.rename n = (c', k) ∧ c.Alpha R' c' := by
  obtain ⟨us, vs, τ, τ', i, hus, hvs, -, hR', hτ⟩ := (Renamed.nil n).freshBinders hR h.params
  have hB : ∀ x ∈ b.params, x ∈ (BinderPairs.under [] b.params b'.params).map Prod.fst := fun x hx =>
    (BinderPairs.fst_under h.params.length_eq []).2 (.inl hx)
  obtain ⟨u, v, k, hu, hv, -, huv⟩ := h.body.rename hR hB hfree hτ
  refine ⟨⟨b.name, us, u⟩, ⟨b'.name, vs, v⟩, k, ?_, ?_, h.name, hR', huv⟩
  · simp only [Binding.rename, bind, StateT.bind, hus, hu]
    rfl
  · simp only [Binding.rename, bind, StateT.bind, hvs, hv]
    rfl

end Rename

end GraphReduction
