import GraphReduction.Core.Lift
import GraphReduction.Proofs.Core.Induction
import GraphReduction.Proofs.Syntax.Scope

/-!
# Scopes

Renaming and substitution keep every variable in scope. Binders need not be distinct for that: a
substitution that ignores binders may put an expression under one that captures a variable, but it does
not put a variable where nothing binds it.
-/

namespace GraphReduction

open List

variable {D : Name → Prop} {size : Option Nat} {Γ Γ' : List Name} {c : Core} {ρ : Renaming}
  {e : Expr} {x : Name} {b : Binding Expr} {binds : List (Name × Expr)} {alts : List (Alt Expr)}

/-!
## Free variables
-/

namespace Expr

variable {B : List Name}

/-- A free name of a scoped expression is in scope. -/
theorem ScopedIn.mem_of_free (h : e.ScopedIn D size (B ++ Γ)) (hx : x ∈ e.freeOccurrences B) :
    x ∈ Γ := by
  induction e generalizing B with
  | var y =>
    cases h with
    | var hy =>
      simp only [freeOccurrences] at hx
      split at hx
      · cases hx
      · rename_i hnot
        obtain rfl := mem_singleton.1 hx
        exact (mem_append.1 hy).resolve_left hnot
  | global y | lit y | prim y | comb y | con _ _ => cases hx
  | app f a ihf iha =>
    cases h with
    | app hf ha =>
      rcases mem_append.1 hx with hx | hx
      · exact ihf hf hx
      · exact iha ha hx
  | lam y body ih =>
    cases h with
    | lam hbody => exact ih (B := y :: B) hbody hx
  | letIn y rhs body ihr ihb =>
    cases h with
    | letIn hrhs hbody =>
      rcases mem_append.1 hx with hx | hx
      · exact ihr hrhs hx
      · exact ihb (B := y :: B) hbody hx
  | letRec binds body ihbinds ihbody =>
    cases h with
    | letRec _ hbinds hbody =>
      rw [← append_assoc] at hbinds hbody
      rcases mem_append.1 hx with hx | hx
      · obtain ⟨b, hb, hx⟩ := mem_freeInBinds.1 hx
        exact ihbinds b hb (hbinds b hb) hx
      · exact ihbody hbody hx
  | caseOf scrut arities alts other ihs iha iho =>
    cases h with
    | caseOf hscrut _ halts hother =>
      rcases mem_append.1 hx with hx | hx
      · rcases mem_append.1 hx with hx | hx
        · exact ihs hscrut hx
        · obtain ⟨alt, halt, hx⟩ := mem_freeInAlts.1 hx
          refine iha alt halt (B := alt.binders ++ B) ?_ hx
          rw [append_assoc]
          exact halts alt halt
      · obtain ⟨e, he, hx⟩ := mem_freeInOther.1 hx
        exact iho e he (hother e he) hx

/-- Only the free names have to be in scope. -/
theorem ScopedIn.of_free (h : e.ScopedIn D size Γ) (hfree : ∀ x ∈ e.freeOccurrences B, x ∈ Γ') :
    e.ScopedIn D size (B ++ Γ') := by
  induction h generalizing B with
  | @var _ x _ =>
    refine .var (mem_append.2 ?_)
    by_cases hx : x ∈ B
    · exact .inl hx
    · exact .inr (hfree x (by rw [freeOccurrences, if_neg hx]; exact mem_singleton_self x))
  | global _ | lit _ | prim _ | comb _ | con _ _ => constructor <;> assumption
  | app _ _ ihf iha =>
    exact .app (ihf fun x hx => hfree x (mem_append_left _ hx))
      (iha fun x hx => hfree x (mem_append_right _ hx))
  | @lam _ y _ _ ih => exact .lam (ih (B := y :: B) hfree)
  | @letIn _ y _ _ _ _ ihr ihb =>
    exact .letIn (ihr fun x hx => hfree x (mem_append_left _ hx))
      (ihb (B := y :: B) fun x hx => hfree x (mem_append_right _ hx))
  | @letRec _ binds _ hlen _ _ ihbinds ihbody =>
    refine .letRec hlen (fun b hb => ?_) ?_ <;> rw [← append_assoc]
    · exact ihbinds b hb fun x hx =>
        hfree x (mem_append_left _ (mem_freeInBinds.2 ⟨b, hb, hx⟩))
    · exact ihbody fun x hx => hfree x (mem_append_right _ hx)
  | caseOf _ hfits _ _ ihs iha iho =>
    refine .caseOf (ihs fun x hx => ?_) hfits (fun alt halt => ?_) fun e he => iho e he fun x hx => ?_
    · exact hfree x (mem_append_left _ (mem_append_left _ hx))
    · rw [← append_assoc]
      exact iha alt halt fun x hx => hfree x
        (mem_append_left _ (mem_append_right _ (mem_freeInAlts.2 ⟨alt, halt, hx⟩)))
    · exact hfree x (mem_append_right _ (mem_freeInOther.2 ⟨e, he, hx⟩))

end Expr

/-!
## Renaming
-/

/-- `ρ` gives every name of `Γ` one of `Γ'`. -/
def Renaming.Maps (ρ : Renaming) (Γ Γ' : List Name) : Prop :=
  ∀ x ∈ Γ, ∃ y, ρ.lookup x = some y ∧ y ∈ Γ'

theorem Renaming.Maps.cons {ρ : Renaming} (h : ρ.Maps Γ Γ') (x y : Name) :
    Renaming.Maps ((x, y) :: ρ) (x :: Γ) (y :: Γ') := by
  intro z hz
  by_cases hzx : z = x
  · exact ⟨y, by rw [hzx, lookup_cons, beq_self_eq_true], mem_cons_self⟩
  · obtain ⟨w, hw, hmem⟩ := h z ((mem_cons.1 hz).resolve_left hzx)
    exact ⟨w, by rw [lookup_cons, beq_eq_false_iff_ne.2 hzx]; exact hw, mem_cons_of_mem _ hmem⟩

theorem Renaming.Maps.mono {Δ Δ' : List Name} (h : ρ.Maps Γ Γ') (hsub : Δ ⊆ Γ) (hsub' : Γ' ⊆ Δ') :
    ρ.Maps Δ Δ' := by
  intro x hx
  obtain ⟨y, hy, hmem⟩ := h x (hsub hx)
  exact ⟨y, hy, hsub' hmem⟩

theorem freshBinders_spec (ρ : Renaming) (xs : List Name) (n : Nat) :
    (freshBinders ρ xs n).1.1.length = xs.length ∧ ∀ Γ Γ', ρ.Maps Γ Γ' →
      Renaming.Maps (freshBinders ρ xs n).1.2 (xs ++ Γ) ((freshBinders ρ xs n).1.1 ++ Γ') := by
  induction xs generalizing ρ n with
  | nil => exact ⟨rfl, fun _ _ h => h⟩
  | cons x xs ih =>
    obtain ⟨hlen, hmaps⟩ := ih ((x, (freshName x n).1) :: ρ) (freshName x n).2
    refine ⟨congrArg (· + 1) hlen, fun Γ Γ' h => (hmaps _ _ (h.cons x _)).mono ?_ ?_⟩
    · intro y hy
      simp only [cons_append, mem_cons, mem_append] at hy ⊢
      tauto
    · intro y hy
      rcases mem_append.1 hy with hy | hy
      · exact mem_append_left _ (mem_cons_of_mem _ hy)
      · rcases mem_cons.1 hy with rfl | hy
        · exact mem_append_left _ mem_cons_self
        · exact mem_append_right _ hy

namespace Expr

theorem length_renameBinds (ρ : Renaming) (binds : List (Name × Expr)) (n : Nat) :
    (renameBinds ρ binds n).1.length = binds.length := by
  induction binds generalizing n with
  | nil => rfl
  | cons b binds ih => exact congrArg (· + 1) (ih (b.2.rename ρ n).2)

theorem mem_renameBinds {n : Nat} (h : e ∈ (renameBinds ρ binds n).1) :
    ∃ b ∈ binds, ∃ k, e = (b.2.rename ρ k).1 := by
  induction binds generalizing n with
  | nil => cases h
  | cons b binds ih =>
    rcases mem_cons.1 h with rfl | h
    · exact ⟨b, mem_cons_self, n, rfl⟩
    · obtain ⟨b', hb', k, hk⟩ := ih h
      exact ⟨b', mem_cons_of_mem _ hb', k, hk⟩

theorem mem_renameAlts {n : Nat} {alt : Alt Expr} (h : alt ∈ (renameAlts ρ alts n).1) :
    ∃ alt' ∈ alts, ∃ k k', alt.tag = alt'.tag ∧
      alt.binders = (freshBinders ρ alt'.binders k).1.1 ∧
      alt.body = (alt'.body.rename (freshBinders ρ alt'.binders k).1.2 k').1 := by
  induction alts generalizing n with
  | nil => cases h
  | cons alt' alts ih =>
    rcases mem_cons.1 h with rfl | h
    · exact ⟨alt', mem_cons_self, n, _, rfl, rfl, rfl⟩
    · obtain ⟨alt'', hmem, hrest⟩ := ih h
      exact ⟨alt'', mem_cons_of_mem _ hmem, hrest⟩

/-- Renaming apart keeps an expression scoped. -/
theorem ScopedIn.rename (h : e.ScopedIn D size Γ) (hρ : ρ.Maps Γ Γ') (n : Nat) :
    (e.rename ρ n).1.ScopedIn D size Γ' := by
  induction h generalizing ρ Γ' n with
  | @var _ x hx =>
    obtain ⟨y, hy, hmem⟩ := hρ x hx
    have heq : ((Expr.var x).rename ρ n).1 = .var y := by
      show Expr.var ((ρ.lookup x).getD x) = _
      rw [hy]
      rfl
    rw [heq]
    exact .var hmem
  | global _ | lit _ | prim _ | comb _ | con _ _ => constructor <;> assumption
  | app _ _ ihf iha => exact .app (ihf hρ n) (iha hρ _)
  | lam _ ih => exact .lam (ih (hρ.cons _ _) _)
  | letIn _ _ ihr ihb => exact .letIn (ihr hρ n) (ihb (hρ.cons _ _) _)
  | @letRec _ binds body hlen _ _ ihbinds ihbody =>
    obtain ⟨hnames, hmaps⟩ := freshBinders_spec ρ (binds.map Prod.fst) n
    have hmaps := hmaps _ _ hρ
    set ys := (freshBinders ρ (binds.map Prod.fst) n).1.1 with hys
    set ρ' := (freshBinders ρ (binds.map Prod.fst) n).1.2
    set k := (freshBinders ρ (binds.map Prod.fst) n).2
    have hrhss := length_renameBinds ρ' binds k
    set rhss := (renameBinds ρ' binds k).1 with hrhss_eq
    have hys_len : ys.length = rhss.length := by rw [hrhss, hnames, length_map]
    have hfst : (ys.zip rhss).map Prod.fst = ys := map_fst_zip hys_len.le
    show (Expr.letRec (ys.zip rhss) _).ScopedIn D size Γ'
    refine .letRec ?_ (fun b hb => ?_) ?_ <;> try rw [hfst]
    · rw [length_zip, hys_len, hrhss, Nat.min_self]
      exact hlen
    · obtain ⟨b', hb', k', hk'⟩ := mem_renameBinds (of_mem_zip hb).2
      rw [hk']
      exact ihbinds b' hb' hmaps k'
    · exact ihbody hmaps _
  | @caseOf _ scrut arities alts other _ hfits _ _ ihs iha iho =>
    refine .caseOf (ihs hρ n) (fun s hs alt halt => ?_) (fun alt halt => ?_) fun e he => ?_
    · obtain ⟨alt', hmem, k, k', htag, hbinders, -⟩ := mem_renameAlts halt
      rw [htag, hbinders, (freshBinders_spec ρ alt'.binders k).1]
      exact hfits s hs alt' hmem
    · obtain ⟨alt', hmem, k, k', -, hbinders, hbody⟩ := mem_renameAlts halt
      rw [hbinders, hbody]
      exact iha alt' hmem ((freshBinders_spec ρ alt'.binders k).2 _ _ hρ) k'
    · cases other with
      | none => cases he
      | some e' =>
        cases he
        exact iho e' rfl hρ _

end Expr

theorem Binding.scoped_rename (h : b.body.ScopedIn D size b.params) (n : Nat) :
    (b.rename n).1.body.ScopedIn D size (b.rename n).1.params := by
  have hempty : Renaming.Maps [] [] [] := forall_mem_nil _
  have hmaps := (freshBinders_spec [] b.params n).2 [] [] hempty
  rw [append_nil, append_nil] at hmaps
  exact h.rename hmaps _

/-!
## Substitution
-/

namespace Core

/-- **A core expression in its scope.** -/
abbrev ScopedIn (D : Name → Prop) (size : Option Nat) (Γ : List Name) (c : Core) : Prop :=
  c.toExpr.ScopedIn D size Γ

/-- A core expression in its scope, that comes from a text of length `size`. -/
abbrev Scoped (D : Name → Prop) (size : Nat) (Γ : List Name) (c : Core) : Prop := c.ScopedIn D size Γ

theorem scoped_caseOf {scrut : Core} {arities : List UInt32} {alts : List (Alt Core)}
    {other : Option Core} : (caseOf scrut arities alts other).ScopedIn D size Γ ↔
      scrut.ScopedIn D size Γ ∧
      (∀ s ∈ size, ∀ alt ∈ alts, ∃ k, arities[alt.tag.toNat]? = some k ∧
        (s < UInt32.size → alt.binders.length = k.toNat)) ∧
      (∀ alt ∈ alts, alt.body.ScopedIn D size (alt.binders ++ Γ)) ∧
      ∀ e, other = some e → e.ScopedIn D size Γ := by
  unfold ScopedIn
  rw [toExpr, altsToExpr_eq, otherToExpr_eq]
  constructor
  · intro h
    cases h with
    | caseOf hscrut hfits halts hother =>
      exact ⟨hscrut, fun s hs alt h => hfits s hs _ (mem_map_of_mem h),
        fun alt h => halts _ (mem_map_of_mem h), fun e he => hother _ (by rw [he]; rfl)⟩
  · rintro ⟨hscrut, hfits, halts, hother⟩
    refine .caseOf hscrut (fun s hs alt h => ?_) (fun alt h => ?_) fun e he => ?_
    · obtain ⟨alt', halt, rfl⟩ := mem_map.1 h
      exact hfits s hs alt' halt
    · obtain ⟨alt', halt, rfl⟩ := mem_map.1 h
      exact halts alt' halt
    · obtain ⟨e', he', rfl⟩ := Option.map_eq_some_iff.1 he
      exact hother e' he'

/-- **Substitution keeps expressions in scope.** What is put in place of a variable has to be in scope
under every binder that it may come under. -/
theorem ScopedIn.substitute (h : c.ScopedIn D size Γ) {σ : Name → Option Core}
    (hΓ : ∀ x ∈ Γ, σ x = none → x ∈ Γ')
    (hσ : ∀ x e, σ x = some e → ∀ Δ, Γ' ⊆ Δ → e.ScopedIn D size Δ) :
    (c.substitute σ).ScopedIn D size Γ' := by
  -- the two conditions under a binder, or several
  have hbinders : ∀ {Γ Γ' : List Name} (xs : List Name), (∀ x ∈ Γ, σ x = none → x ∈ Γ') →
      ∀ x ∈ xs ++ Γ, σ x = none → x ∈ xs ++ Γ' := by
    intro Γ Γ' xs hΓ x hx hnone
    rcases mem_append.1 hx with hx | hx
    · exact mem_append_left _ hx
    · exact mem_append_right _ (hΓ x hx hnone)
  have hweaken : ∀ {Γ' : List Name} (xs : List Name),
      (∀ x e, σ x = some e → ∀ Δ, Γ' ⊆ Δ → e.ScopedIn D size Δ) →
      ∀ x e, σ x = some e → ∀ Δ, xs ++ Γ' ⊆ Δ → e.ScopedIn D size Δ :=
    fun xs hσ x e he Δ hsub => hσ x e he Δ fun y hy => hsub (mem_append_right _ hy)
  induction c generalizing Γ Γ' with
  | var x =>
    cases h with
    | var hx =>
      rw [Core.substitute]
      cases hs : σ x with
      | none => exact .var (hΓ x hx hs)
      | some e => exact hσ x e hs Γ' (List.Subset.refl _)
  | global x =>
    cases h with
    | global hx => exact .global hx
  | lit _ | prim _ | comb _ | con _ _ => constructor
  | app f a ihf iha =>
    cases h with
    | app hf ha => exact .app (ihf hf hΓ hσ) (iha ha hΓ hσ)
  | lam x body ih =>
    cases h with
    | lam hbody => exact .lam (ih hbody (hbinders [x] hΓ) (hweaken [x] hσ))
  | letIn x rhs body ihr ihb =>
    cases h with
    | letIn hrhs hbody =>
      exact .letIn (ihr hrhs hΓ hσ) (ihb hbody (hbinders [x] hΓ) (hweaken [x] hσ))
  | caseOf scrut arities alts other ihs iha iho =>
    obtain ⟨hscrut, hfits, halts, hother⟩ := scoped_caseOf.1 h
    rw [Core.substitute, substituteAlts_eq, substituteOther_eq]
    refine scoped_caseOf.2 ⟨ihs hscrut hΓ hσ, fun s hs alt halt => ?_, fun alt halt => ?_,
      fun e he => ?_⟩
    · obtain ⟨alt', hmem, rfl⟩ := mem_map.1 halt
      exact hfits s hs alt' hmem
    · obtain ⟨alt', hmem, rfl⟩ := mem_map.1 halt
      exact iha alt' hmem (halts alt' hmem) (hbinders alt'.binders hΓ) (hweaken alt'.binders hσ)
    · obtain ⟨e', he', rfl⟩ := Option.map_eq_some_iff.1 he
      exact iho e' he' (hother e' he') hΓ hσ

theorem ScopedIn.apply {f : Core} (hf : f.ScopedIn D size Γ) {args : List Core}
    (h : ∀ a ∈ args, a.ScopedIn D size Γ) : (f.apply args).ScopedIn D size Γ := by
  induction args generalizing f with
  | nil => exact hf
  | cons a args ih =>
    obtain ⟨ha, hargs⟩ := forall_mem_cons.1 h
    exact ih (f := .app f a) (.app hf ha) hargs

theorem ScopedIn.peel (h : c.ScopedIn D size Γ) : c.peel.2.ScopedIn D size (c.peel.1 ++ Γ) := by
  induction c generalizing Γ with
  | lam x body ih =>
    cases h with
    | lam hbody =>
      refine (ih hbody).mono fun y hy => ?_
      simp only [Core.peel, cons_append, mem_append, mem_cons] at hy ⊢
      tauto
  | _ => exact h

theorem ScopedIn.lets {binds : List (Name × Core)} {body : Core}
    (hbinds : ∀ b ∈ binds, b.2.ScopedIn D size Γ)
    (hbody : body.ScopedIn D size (binds.map Prod.fst ++ Γ)) :
    (Core.lets binds body).ScopedIn D size Γ := by
  induction binds generalizing Γ with
  | nil => exact hbody
  | cons b binds ih =>
    obtain ⟨hb, hbinds⟩ := forall_mem_cons.1 hbinds
    refine .letIn hb (ih (fun b hb => (hbinds b hb).mono (subset_cons_self _ _))
      (hbody.mono fun y hy => ?_))
    simp only [map_cons, cons_append, mem_append, mem_cons] at hy ⊢
    tauto

theorem ScopedIn.mem_of_freeVars (h : c.ScopedIn D size Γ) (hx : x ∈ c.freeVars) :
    x ∈ Γ := Expr.ScopedIn.mem_of_free (B := []) h (mem_sortedNames.1 hx)

theorem ScopedIn.of_freeVars (h : c.ScopedIn D size Γ) (hfree : ∀ x ∈ c.freeVars, x ∈ Γ') :
    c.ScopedIn D size Γ' := Expr.ScopedIn.of_free (B := []) h fun x hx => hfree x (mem_sortedNames.2 hx)

end Core

end GraphReduction
