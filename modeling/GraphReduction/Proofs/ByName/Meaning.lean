import GraphReduction.Proofs.ByName.Evaluator
import GraphReduction.Proofs.Calculus.Abstraction
import GraphReduction.Proofs.Core.Scope

/-!
# What expressions mean as trees

`e.Means Δ σ t` says that the tree `t` behaves as the expression `e` does when its variables are the
trees of `σ`. It is not a function of `e`: a group of recursive definitions means any trees that solve
its equations, be it through top-level names or through the fixed point combinator.
-/

namespace GraphReduction

open List
open GraphReduction.Tree (Same Conv Yields assign)

variable {x y : Name} {binds : List (Name × Expr)} {body a f : Expr} {arities : List UInt32}
  {D : Name → Prop} {Γ : List Name} {args : List Expr} {α β : Type} {slots : List Tree}
  {alts : List (Alt Expr)} {other : Option Expr}

namespace Expr

/-- The tree of a literal. A string is unpacked lazily. -/
def literalTree : Literal → Tree
  | .str s => .app (.atom (.prim .unpack)) (.atom (.lit (.str s)))
  | l => .atom (.lit l)

section

variable (Δ : Name → Option Tree)

mutual

/-- **The tree `t` means an expression**, where its variables are the trees of `σ`. -/
def Means : Expr → (Name → Tree) → Tree → Prop
  | var x, σ, t => Same Δ t (σ x)
  | global x, _, t => Same Δ t (.atom (.global x))
  | lit l, _, t => Same Δ t (literalTree l)
  | prim p, _, t => Same Δ t (.atom (.prim p))
  | comb c, _, t => Same Δ t (.comb c)
  | con tag arity, _, t => Same Δ t (.comb (.con tag arity))
  | app f a, σ, t => ∃ u v, f.Means σ u ∧ a.Means σ v ∧ Same Δ t (.app u v)
  | lam x body, σ, t => ∀ a, body.Means (Function.update σ x a) (.app t a)
  | letIn x rhs body, σ, t => ∃ u, rhs.Means σ u ∧ body.Means (Function.update σ x u) t
  | letRec binds body, σ, t =>
    ∃ τ, (∀ y, y ∉ binds.map Prod.fst → τ y = σ y) ∧ meansBinds τ binds ∧ body.Means τ t
  | caseOf scrut arities alts other, σ, t =>
    ∃ u slots, scrut.Means σ u ∧ slots.length = arities.length ∧
      Same Δ t ((Tree.comb (.caseOf (UInt32.ofNat arities.length))).apps (u :: slots)) ∧
      meansAlts σ arities slots alts ∧
      meansOther σ arities slots (alts.map (·.tag.toNat)) other

/-- The trees of `τ` solve the equations of a group. Of several equations for a name the last one
counts. -/
def meansBinds (τ : Name → Tree) : List (Name × Expr) → Prop
  | [] => True
  | (x, rhs) :: binds => (x ∉ binds.map Prod.fst → rhs.Means τ (τ x)) ∧ meansBinds τ binds

/-- The alternatives are in the slots of their tags, as functions of the fields. -/
def meansAlts (σ : Name → Tree) (arities : List UInt32) (slots : List Tree) :
    List (Alt Expr) → Prop
  | [] => True
  | ⟨tag, binders, body⟩ :: alts =>
    (∃ k slot, arities[tag.toNat]? = some k ∧ binders.length = k.toNat ∧
      slots[tag.toNat]? = some slot ∧ ∀ as, as.length = binders.length →
        body.Means (assign σ binders as) (slot.apps as)) ∧
    meansAlts σ arities slots alts

/-- The default is in the other slots, whatever the fields are. -/
def meansOther (σ : Name → Tree) (arities : List UInt32) (slots : List Tree) (tags : List Nat) :
    Option Expr → Prop
  | none => True
  | some e => ∀ i k slot, i ∉ tags → arities[i]? = some k → slots[i]? = some slot →
    ∀ as : List Tree, as.length = k.toNat → e.Means σ (slot.apps as)

end

end

variable {Δ : Name → Option Tree} {σ σ' τ : Name → Tree} {t t' : Tree} {e : Expr}
  {s : Name → Option Expr} {xs : List Name} {rhs : Expr}

/-!
## Bindings and alternatives
-/

theorem mem_of_lookup_reverse (h : binds.reverse.lookup x = some rhs) :
    x ∈ binds.map Prod.fst ∧ (x, rhs) ∈ binds := by
  have hmem := mem_reverse.1 (mem_of_lookup h)
  exact ⟨mem_map_of_mem hmem, hmem⟩

theorem lookup_reverse_eq_none : binds.reverse.lookup x = none ↔ x ∉ binds.map Prod.fst := by
  rw [lookup_eq_none, map_reverse, mem_reverse]

theorem lookup_map (f : α → β) (binds : List (Name × α)) (x : Name) :
    (binds.map fun b => (b.1, f b.2)).lookup x = (binds.lookup x).map f := by
  induction binds with
  | nil => rfl
  | cons b binds ih =>
    rw [map_cons, lookup_cons, lookup_cons]
    split <;> simp [ih]

/-- Of several equations for a name, the last one counts. -/
theorem meansBinds_iff : meansBinds Δ τ binds ↔
    ∀ x rhs, binds.reverse.lookup x = some rhs → rhs.Means Δ τ (τ x) := by
  induction binds with
  | nil => simp [meansBinds]
  | cons b binds ih =>
    rw [meansBinds, ih, reverse_cons]
    simp only [lookup_append]
    constructor
    · rintro ⟨hb, hbinds⟩ x rhs h
      cases hrest : binds.reverse.lookup x with
      | some rhs' =>
        rw [hrest] at h
        cases h
        exact hbinds x rhs hrest
      | none =>
        rw [hrest, Option.none_or, lookup_cons] at h
        split at h
        · rename_i hx
          obtain rfl := eq_of_beq hx
          cases h
          exact hb (lookup_reverse_eq_none.1 hrest)
        · cases h
    · intro h
      refine ⟨fun hb => h b.1 b.2 ?_, fun x rhs hx => h x rhs (by rw [hx]; rfl)⟩
      rw [lookup_reverse_eq_none.2 hb, Option.none_or, lookup_cons, beq_self_eq_true]

theorem meansAlts_iff :
    meansAlts Δ σ arities slots alts ↔ ∀ alt ∈ alts, ∃ k slot, arities[alt.tag.toNat]? = some k ∧
      alt.binders.length = k.toNat ∧ slots[alt.tag.toNat]? = some slot ∧
      ∀ as, as.length = alt.binders.length →
        alt.body.Means Δ (assign σ alt.binders as) (slot.apps as) := by
  induction alts with
  | nil => simp [meansAlts]
  | cons alt alts ih => rw [meansAlts, ih, forall_mem_cons]

theorem meansOther_iff {tags : List Nat} : meansOther Δ σ arities slots tags other ↔
      ∀ e, other = some e → ∀ i k slot, i ∉ tags → arities[i]? = some k → slots[i]? = some slot →
        ∀ as : List Tree, as.length = k.toNat → e.Means Δ σ (slot.apps as) := by
  cases other with
  | none | some _ => simp [meansOther]

theorem substBinds_eq (s : Name → Option Expr) (binds : List (Name × Expr)) :
    substBinds s binds = binds.map fun b => (b.1, b.2.subst s) := by
  induction binds with
  | nil => rfl
  | cons b binds ih => rw [substBinds, ih, map_cons]

theorem substAlts_eq (s : Name → Option Expr) (alts : List (Alt Expr)) :
    substAlts s alts = alts.map fun alt => ⟨alt.tag, alt.binders, alt.body.subst (hide alt.binders s)⟩ := by
  induction alts with
  | nil => rfl
  | cons alt alts ih => rw [substAlts, ih, map_cons]

theorem substOther_eq (s : Name → Option Expr) (other : Option Expr) :
    substOther s other = other.map (subst s) := by
  cases other <;> rfl

/-!
## Equal trees
-/

theorem Means.conv (h : e.Means Δ σ t) (ht : Same Δ t t') : e.Means Δ σ t' := by
  induction e generalizing σ t t' with
  | var _ | global _ | lit _ | prim _ | comb _ | con _ _ => exact ht.symm.trans h
  | app f a _ _ =>
    obtain ⟨u, v, hf, ha, happ⟩ := h
    exact ⟨u, v, hf, ha, ht.symm.trans happ⟩
  | lam x body ih => exact fun a => ih (h a) (ht.fn a)
  | letIn x rhs body _ ih =>
    obtain ⟨u, hrhs, hbody⟩ := h
    exact ⟨u, hrhs, ih hbody ht⟩
  | letRec binds body _ ih =>
    obtain ⟨τ, hτ, hbinds, hbody⟩ := h
    exact ⟨τ, hτ, hbinds, ih hbody ht⟩
  | caseOf scrut arities alts other _ _ _ =>
    obtain ⟨u, slots, hscrut, hlen, heq, halts⟩ := h
    exact ⟨u, slots, hscrut, hlen, ht.symm.trans heq, halts⟩

theorem same_assign {ys : List Name} {as : List Tree} (hlen : as.length = ys.length)
    (h : x ∉ ys → Same Δ (σ x) (σ' x)) : Same Δ (assign σ ys as x) (assign σ' ys as x) := by
  by_cases hx : x ∈ ys
  · rw [Tree.assign_of_mem hlen hx]
    exact .refl _
  · rw [Tree.assign_of_notMem hx, Tree.assign_of_notMem hx]
    exact h hx

/-!
## Substitution
-/

theorem hide_eq_some : hide xs s y = some a ↔ y ∉ xs ∧ s y = some a := by
  unfold hide
  split <;> simp [*]

theorem hide_eq_none : hide xs s y = none ↔ y ∈ xs ∨ s y = none := by
  unfold hide
  split <;> simp [*]

theorem map_fst_substBinds (s : Name → Option Expr) (binds : List (Name × Expr)) :
    (substBinds s binds).map Prod.fst = binds.map Prod.fst := by
  rw [substBinds_eq, map_map]
  rfl

theorem subst_none (e : Expr) : e.subst (fun _ => none) = e := by
  have hhide : ∀ xs, hide xs (fun _ => none) = fun _ => none := fun _ => funext fun _ => ite_self none
  induction e with
  | var _ | global _ | lit _ | prim _ | comb _ | con _ _ => rfl
  | app f a ihf iha => rw [Expr.subst, ihf, iha]
  | lam x body ih => rw [Expr.subst, hhide, ih]
  | letIn x rhs body ihr ihb => rw [Expr.subst, hhide, ihr, ihb]
  | letRec binds body ihbinds ihbody =>
    rw [Expr.subst, hhide, ihbody, substBinds_eq, map_congr_left fun b hb => by rw [ihbinds b hb], map_id']
  | caseOf scrut arities alts other ihs iha iho =>
    rw [Expr.subst, ihs, substAlts_eq, substOther_eq,
      map_congr_left fun alt halt => by rw [hhide, iha alt halt], map_id']
    cases other with
    | none => rfl
    | some e => rw [Option.map_some, iho e rfl]

/-- **What stands for `x` means its tree of `τ`**: what `s` puts in its place, or else its tree of `σ`. -/
def Stands (Δ : Name → Option Tree) (s : Name → Option Expr) (σ τ : Name → Tree) (x : Name) : Prop :=
  (s x = none → Same Δ (τ x) (σ x)) ∧ ∀ a, s x = some a → ∀ ρ, a.Means Δ ρ (τ x)

theorem Stands.hide {τ' : Name → Tree} (hin : x ∈ xs → σ' x = τ' x)
    (hout : x ∉ xs → σ' x = σ x ∧ τ' x = τ x) (h : x ∉ xs → Stands Δ s σ τ x) :
    Stands Δ (hide xs s) σ' τ' x := by
  by_cases hx : x ∈ xs
  · exact ⟨fun _ => .of_eq (hin hx).symm, fun a ha => absurd hx (hide_eq_some.1 ha).1⟩
  · obtain ⟨hσ, hτ⟩ := hout hx
    rw [Stands, hσ, hτ]
    exact ⟨fun hs => (h hx).1 ((hide_eq_none.1 hs).resolve_left hx),
      fun a ha => (h hx).2 a (hide_eq_some.1 ha).2⟩

theorem Stands.update {u : Tree} (h : x ∉ [y] → Stands Δ s σ τ x) :
    Stands Δ (Expr.hide [y] s) (Function.update σ y u) (Function.update τ y u) x := by
  refine .hide (fun hx => ?_) (fun hx => ?_) h
  · rw [mem_singleton.1 hx, Function.update_self, Function.update_self]
  · have hne : x ≠ y := by simpa using hx
    exact ⟨Function.update_of_ne hne .., Function.update_of_ne hne ..⟩

/-- **Substitution.** What replaces a variable means its tree wherever it comes to stand. Only the
variables that are used matter: those in `B` are bound further out. -/
theorem Means.subst_bound {B : List Name} (h : e.Means Δ τ t)
    (hs : ∀ x, x ∈ B ∨ x ∈ e.freeOccurrences B → Stands Δ s σ τ x) : (e.subst s).Means Δ σ t := by
  -- what is not bound further in is bound or free outside
  have hunder : ∀ {ys bound fvs : List Name} {x : Name}, x ∈ ys ++ bound ∨ x ∈ fvs →
      x ∉ ys → x ∈ bound ∨ x ∈ fvs := fun h hx => h.imp_left fun h => (mem_append.1 h).resolve_left hx
  induction e generalizing σ τ t s B with
  | var x =>
    obtain ⟨hnone, hsome⟩ := hs x <| by
      by_cases hx : x ∈ B
      · exact .inl hx
      · exact .inr (by rw [freeOccurrences, if_neg hx]; exact mem_singleton_self x)
    rw [Expr.subst]
    cases hsx : s x with
    | none => exact Conv.trans h (hnone hsx)
    | some a => exact (hsome a hsx σ).conv (Conv.symm h)
  | global _ | lit _ | prim _ | comb _ | con _ _ => exact h
  | app f a ihf iha =>
    obtain ⟨u, v, hf, ha, happ⟩ := h
    exact ⟨u, v, ihf hf fun x hx => hs x (hx.imp_right (mem_append_left _)),
      iha ha fun x hx => hs x (hx.imp_right (mem_append_right _)), happ⟩
  | lam y body ih =>
    exact fun a => ih (B := [y] ++ B) (h a) fun x hx => .update fun hne => hs x (hunder hx hne)
  | letIn y rhs body ihr ihb =>
    obtain ⟨u, hrhs, hbody⟩ := h
    exact ⟨u, ihr hrhs fun x hx => hs x (hx.imp_right (mem_append_left _)),
      ihb (B := [y] ++ B) hbody fun x hx => .update fun hne =>
        hs x ((hunder hx hne).imp_right (mem_append_right _))⟩
  | letRec binds body ihbinds ihbody =>
    obtain ⟨τ', hτ', hbinds, hbody⟩ := h
    -- the same solution, among the trees of `σ`
    let σ' : Name → Tree := fun y => if y ∈ binds.map Prod.fst then τ' y else σ y
    have hs' : ∀ x, (x ∉ binds.map Prod.fst → Stands Δ s σ τ x) →
        Stands Δ (Expr.hide (binds.map Prod.fst) s) σ' τ' x := fun x =>
      .hide (fun hx => if_pos hx) fun hx => ⟨if_neg hx, hτ' x hx⟩
    refine ⟨σ', fun y hy => if_neg (map_fst_substBinds _ binds ▸ hy),
      meansBinds_iff.2 fun x rhs hx => ?_, ?_⟩
    · rw [substBinds_eq, ← map_reverse, lookup_map] at hx
      obtain ⟨rhs', hx', rfl⟩ := Option.map_eq_some_iff.1 hx
      obtain ⟨hmem, hb⟩ := mem_of_lookup_reverse hx'
      rw [show σ' x = τ' x from if_pos hmem]
      refine ihbinds _ hb (B := binds.map Prod.fst ++ B) (meansBinds_iff.1 hbinds x rhs' hx')
        fun y hy => hs' y fun hnot => hs y ((hunder hy hnot).imp_right fun hy => ?_)
      exact mem_append_left _ (mem_freeInBinds.2 ⟨_, hb, hy⟩)
    · exact ihbody (B := binds.map Prod.fst ++ B) hbody fun y hy => hs' y fun hnot =>
        hs y ((hunder hy hnot).imp_right (mem_append_right _))
  | caseOf scrut arities alts other ihs iha iho =>
    obtain ⟨u, slots, hscrut, hlen, heq, halts, hother⟩ := h
    rw [Expr.subst, substAlts_eq, substOther_eq]
    refine ⟨u, slots, ihs hscrut fun x hx => hs x (hx.imp_right fun hx => ?_), hlen, heq,
      meansAlts_iff.2 fun alt halt => ?_, meansOther_iff.2 fun e he i k slot hi hk hslot as has => ?_⟩
    · exact mem_append_left _ (mem_append_left _ hx)
    · obtain ⟨alt', hmem, rfl⟩ := mem_map.1 halt
      obtain ⟨k, slot, hk, hbinders, hslot, hbody⟩ := meansAlts_iff.1 halts alt' hmem
      refine ⟨k, slot, hk, hbinders, hslot, fun as has => ?_⟩
      refine iha alt' hmem (B := alt'.binders ++ B) (hbody as has) fun x hx =>
        .hide (fun hx => Tree.assign_of_mem has hx)
          (fun hx => ⟨Tree.assign_of_notMem hx, Tree.assign_of_notMem hx⟩)
          fun hnot => hs x ((hunder hx hnot).imp_right fun hx => ?_)
      exact mem_append_left _ (mem_append_right _ (mem_freeInAlts.2 ⟨alt', hmem, hx⟩))
    · obtain ⟨e', he', rfl⟩ := Option.map_eq_some_iff.1 he
      rw [map_map] at hi
      refine iho e' he' (meansOther_iff.1 hother e' he' i k slot hi hk hslot as has) fun x hx =>
        hs x (hx.imp_right fun hx => ?_)
      exact mem_append_right _ (mem_freeInOther.2 ⟨e', he', hx⟩)

theorem Means.subst (h : e.Means Δ τ t) (hnone : ∀ y, s y = none → σ y = τ y)
    (hsome : ∀ y a, s y = some a → ∀ ρ, a.Means Δ ρ (τ y)) : (e.subst s).Means Δ σ t :=
  h.subst_bound (B := []) fun y _ => ⟨fun hy => .of_eq (hnone y hy).symm, hsome y⟩

/-- **A meaning depends on the free variables only**, and on these up to equality. -/
theorem Means.congr (h : e.Means Δ σ t)
    (hσ : ∀ x ∈ e.freeOccurrences [], Same Δ (σ x) (σ' x)) : e.Means Δ σ' t := by
  rw [← subst_none e]
  refine h.subst_bound (B := []) fun x hx => ⟨fun _ => hσ x (hx.resolve_left not_mem_nil), fun a ha => ?_⟩
  cases ha

theorem Means.congr_scoped {size : Option Nat} (h : e.Means Δ σ t) (he : e.ScopedIn D size Γ)
    (hσ : ∀ x ∈ Γ, Same Δ (σ x) (σ' x)) : e.Means Δ σ' t :=
  h.congr fun x hx => hσ x (he.mem_of_free (B := []) hx)

/-- Substituting closed expressions leaves only the names not replaced. -/
theorem ScopedIn.subst {size : Nat} {Γ' : List Name} (h : e.Scoped D size Γ)
    (hΓ : ∀ y ∈ Γ, s y = none → y ∈ Γ') (hs : ∀ y a, s y = some a → a.Scoped D size []) :
    (e.subst s).Scoped D size Γ' := by
  have hhide : ∀ {s : Name → Option Expr} {Γ Γ' : List Name} (xs : List Name),
      (∀ y ∈ Γ, s y = none → y ∈ Γ') → ∀ y ∈ xs ++ Γ, hide xs s y = none → y ∈ xs ++ Γ' := by
    intro s Γ Γ' xs hΓ y hy hnone
    by_cases hmem : y ∈ xs
    · exact mem_append_left _ hmem
    · exact mem_append_right _ (hΓ y ((mem_append.1 hy).resolve_left hmem)
        ((hide_eq_none.1 hnone).resolve_left hmem))
  have hclosed : ∀ {s : Name → Option Expr} {xs : List Name},
      (∀ y a, s y = some a → a.Scoped D size []) →
        ∀ y a, hide xs s y = some a → a.Scoped D size [] :=
    fun hs y a ha => hs y a (hide_eq_some.1 ha).2
  induction h generalizing Γ' s with
  | @var _ x hx =>
    rw [Expr.subst]
    cases hsx : s x with
    | none => exact .var (hΓ x hx hsx)
    | some a => exact (hs x a hsx).mono (nil_subset _)
  | global _ | lit _ | prim _ | comb _ | con _ _ => constructor <;> assumption
  | app _ _ ihf iha => exact .app (ihf hΓ hs) (iha hΓ hs)
  | @lam _ x _ _ ih => exact .lam (ih (hhide [x] hΓ) (hclosed hs))
  | @letIn _ x _ _ _ _ ihr ihb => exact .letIn (ihr hΓ hs) (ihb (hhide [x] hΓ) (hclosed hs))
  | @letRec _ binds body hlen _ _ ihbinds ihbody =>
    refine .letRec (by rwa [substBinds_eq, length_map]) (fun b hb => ?_) ?_ <;> rw [map_fst_substBinds]
    · rw [substBinds_eq] at hb
      obtain ⟨b', hb', rfl⟩ := mem_map.1 hb
      exact ihbinds b' hb' (hhide _ hΓ) (hclosed hs)
    · exact ihbody (hhide _ hΓ) (hclosed hs)
  | @caseOf _ scrut arities alts other _ hfits _ _ ihs iha iho =>
    rw [Expr.subst, substAlts_eq, substOther_eq]
    refine .caseOf (ihs hΓ hs) (fun s hs alt halt => ?_) (fun alt halt => ?_) fun e he => ?_
    · obtain ⟨alt', hmem, rfl⟩ := mem_map.1 halt
      exact hfits s hs alt' hmem
    · obtain ⟨alt', hmem, rfl⟩ := mem_map.1 halt
      exact iha alt' hmem (hhide _ hΓ) (hclosed hs)
    · obtain ⟨e', he', rfl⟩ := Option.map_eq_some_iff.1 he
      exact iho e' he' hΓ hs

/-!
## Functions and arguments
-/

theorem apply_append (f : Expr) (args : List Expr) (a : Expr) :
    f.apply (args ++ [a]) = .app (f.apply args) a := foldl_append

/-- An application means the head's tree applied to the arguments' trees. -/
theorem means_apply : (f.apply args).Means Δ σ t ↔
    ∃ u vs, f.Means Δ σ u ∧ Forall₂ (fun a v => a.Means Δ σ v) args vs ∧
      Same Δ t (u.apps vs) := by
  induction args using reverseRecOn generalizing t with
  | nil =>
    constructor
    · exact fun h => ⟨t, [], h, .nil, .refl t⟩
    · rintro ⟨u, vs, hf, hvs, ht⟩
      cases hvs
      exact hf.conv ht.symm
  | append_singleton args a ih =>
    rw [apply_append]
    constructor
    · rintro ⟨u, v, hu, hv, ht⟩
      obtain ⟨w, vs, hf, hvs, hw⟩ := ih.1 hu
      refine ⟨w, vs ++ [v], hf, rel_append hvs (.cons hv .nil), ?_⟩
      rw [Tree.apps_concat]
      exact ht.trans (hw.fn v)
    · rintro ⟨u, vs', hf, hall, ht⟩
      obtain ⟨vs, rest, rfl, hvs, hrest⟩ : ∃ vs rest, vs' = vs ++ rest ∧
          Forall₂ (fun a v => a.Means Δ σ v) args vs ∧
          Forall₂ (fun a v => a.Means Δ σ v) [a] rest := by
        refine ⟨vs'.take args.length, vs'.drop args.length, (take_append_drop _ _).symm, ?_, ?_⟩
        · simpa using forall₂_take args.length hall
        · simpa using forall₂_drop args.length hall
      cases hrest with
      | cons hv hnil =>
        cases hnil
        rw [Tree.apps_concat] at ht
        exact ⟨_, _, ih.2 ⟨u, vs, hf, hvs, .refl _⟩, hv, ht⟩

theorem means_lams : (lams xs body).Means Δ σ t ↔
    ∀ as, as.length = xs.length → body.Means Δ (assign σ xs as) (t.apps as) := by
  induction xs generalizing σ t with
  | nil =>
    constructor
    · intro h as has
      obtain rfl := length_eq_zero_iff.1 has
      exact h
    · exact fun h => h [] rfl
  | cons x xs ih =>
    constructor
    · intro h as has
      cases as with
      | nil => cases has
      | cons a as => exact ih.1 (h a) as (Nat.succ.inj has)
    · exact fun h a => ih.2 fun as has => h (a :: as) (congrArg (· + 1) has)

end Expr

/-!
## Evaluation
-/

section Evaluation

variable {Δ : Name → Option Tree} {σ : Name → Tree} {t : Tree} {e : Expr} {size : Nat}
  {defs : Name → Option Expr} {tag : UInt32} {w : Weak} {scrut : Expr} {fields : List Expr}
  {r : Literal ⊕ Bool} {fuel : Nat} {xs : List α} {ys : List β}

/-- An expression without free variables. -/
abbrev Expr.Closed (size : Nat) (e : Expr) : Prop := e.Scoped (fun _ => True) size []

theorem Expr.ScopedIn.apply (hf : f.Scoped D size Γ) (hargs : ∀ a ∈ args, a.Scoped D size Γ) :
    (f.apply args).Scoped D size Γ := by
  induction args generalizing f with
  | nil => exact hf
  | cons a args ih =>
    obtain ⟨ha, hargs⟩ := forall_mem_cons.1 hargs
    exact ih (f := .app f a) (.app hf ha) hargs

theorem Expr.ScopedIn.of_apply (h : (f.apply args).Scoped D size Γ) :
    f.Scoped D size Γ ∧ ∀ a ∈ args, a.Scoped D size Γ := by
  induction args generalizing f with
  | nil => exact ⟨h, forall_mem_nil _⟩
  | cons a args ih =>
    obtain ⟨hfa, hargs⟩ := ih (f := .app f a) h
    cases hfa with
    | app hf ha => exact ⟨hf, forall_mem_cons.2 ⟨ha, hargs⟩⟩

theorem Expr.Means.anywhere (h : e.Means Δ σ t) (he : e.Closed size) (ρ : Name → Tree) :
    e.Means Δ ρ t := h.congr_scoped he (forall_mem_nil _)

theorem Expr.single_eq_some {b : Expr} : Expr.single x a y = some b ↔ y = x ∧ a = b := by
  unfold Expr.single
  split <;> simp [*]

theorem Expr.Means.beta {u : Tree} (hbody : body.Means Δ (Function.update σ x u) t)
    (ha : a.Means Δ σ u) (hclosed : a.Closed size) :
    (body.subst (Expr.single x a)).Means Δ σ t := by
  refine hbody.subst (fun y hy => ?_) fun y b hy => ?_
  · unfold Expr.single at hy
    split at hy
    · cases hy
    · rename_i hne
      rw [Function.update_of_ne hne]
  · obtain ⟨rfl, rfl⟩ := Expr.single_eq_some.1 hy
    rw [Function.update_self]
    exact ha.anywhere hclosed

theorem Expr.ScopedIn.beta (hbody : body.Scoped (fun _ => True) size [x]) (ha : a.Closed size) :
    (body.subst (Expr.single x a)).Closed size := by
  refine hbody.subst (fun y hy hnone => ?_) fun y b hy => ?_
  · obtain rfl := mem_singleton.1 hy
    simp [Expr.single] at hnone
  · obtain ⟨-, rfl⟩ := Expr.single_eq_some.1 hy
    exact ha

theorem Expr.ScopedIn.unfolding (h : (Expr.letRec binds body).Closed size)
    (he : Expr.unfolding binds y = some e) : e.Closed size := by
  obtain ⟨rhs, hrhs, rfl⟩ := Option.map_eq_some_iff.1 he
  cases h with
  | letRec hlen hbinds _ =>
    exact .letRec hlen hbinds (hbinds _ (Expr.mem_of_lookup_reverse hrhs).2)

theorem Expr.ScopedIn.unfold (h : (Expr.letRec binds body).Closed size) :
    (body.subst (Expr.unfolding binds)).Closed size := by
  cases id h with
  | letRec _ _ hbody =>
    refine hbody.subst (fun y hy hnone => ?_) fun y e he => h.unfolding he
    rw [append_nil] at hy
    exact absurd hy (Expr.lookup_reverse_eq_none.1 (Option.map_eq_none_iff.1 hnone))

/-- **A group unfolds.** The solution of its equations is the meaning of each member under the
group. -/
theorem Expr.Means.unfold (h : (Expr.letRec binds body).Means Δ σ t)
    (hclosed : (Expr.letRec binds body).Closed size) :
    (body.subst (Expr.unfolding binds)).Means Δ σ t := by
  obtain ⟨τ, hτ, hbinds, hbody⟩ := h
  refine hbody.subst (fun y hy => ?_) fun y e he => ?_
  · exact (hτ y (Expr.lookup_reverse_eq_none.1 (Option.map_eq_none_iff.1 hy))).symm
  · have hmember := hclosed.unfolding he
    obtain ⟨rhs, hrhs, rfl⟩ := Option.map_eq_some_iff.1 he
    have hmeans : (Expr.letRec binds rhs).Means Δ σ (τ y) :=
      ⟨τ, hτ, hbinds, Expr.meansBinds_iff.1 hbinds y rhs hrhs⟩
    exact hmeans.anywhere hmember

theorem Tree.same_case {u slot : Tree} {n arity : UInt32} {vs : List Tree}
    (hu : Same Δ u ((Tree.comb (.con tag arity)).apps vs)) (hvs : vs.length = arity.toNat)
    (hslots : slots.length = n.toNat) (hslot : slots[tag.toNat]? = some slot) :
    Same Δ ((Tree.comb (.caseOf n)).apps (u :: slots)) (slot.apps vs) := by
  rw [Tree.apps_cons]
  refine (Conv.apps (hu.arg _) slots).trans (.rule ?_)
  rw [← Tree.apps_cons]
  refine .case hvs hslots rfl rfl (fun i a a' ha ha' => ?_) (fun i a a' ha ha' => ?_) hslot
  all_goals
    rw [ha] at ha'
    cases ha'
    exact .refl a

/-- **A case takes the alternative of its scrutinee**, or the default in a slot without one. -/
theorem Expr.Means.select {arity : UInt32} (h : (Expr.caseOf scrut arities alts other).Means Δ σ t)
    (hscrut : ∀ u, scrut.Means Δ σ u → (Expr.apply (.con tag arity) fields).Means Δ σ u)
    (hlen : fields.length = arity.toNat) (hsize : arities.length < UInt32.size)
    (he : Fallback.listedTag.select arities alts other tag fields = some e) : e.Means Δ σ t := by
  obtain ⟨u, slots, hu, hslots, ht, halts, hother⟩ := h
  obtain ⟨c, vs, hc, hvs, huc⟩ := Expr.means_apply.1 (hscrut u hu)
  have hcon : Same Δ u ((Tree.comb (.con tag arity)).apps vs) := huc.trans (Conv.apps hc vs)
  have hvlen : vs.length = arity.toNat := by rw [← hvs.length_eq, hlen]
  -- the slot of the tag, applied to the fields
  have hfires : ∀ slot, slots[tag.toNat]? = some slot → Same Δ t (slot.apps vs) := fun slot hslot =>
    ht.trans (Tree.same_case hcon hvlen
      (by rw [UInt32.toNat_ofNat_of_lt' hsize, hslots]) hslot)
  unfold Fallback.select at he
  cases hfind : alts.find? (·.tag == tag) with
  | some alt =>
    rw [hfind] at he
    cases he
    obtain ⟨k, slot, -, -, hslot, hbody⟩ :=
      Expr.meansAlts_iff.1 halts alt (mem_of_find?_eq_some hfind)
    have htag : alt.tag = tag := by simpa using find?_some hfind
    rw [htag] at hslot
    exact Expr.means_apply.2 ⟨slot, vs, Expr.means_lams.2 hbody, hvs, hfires slot hslot⟩
  | none =>
    rw [hfind] at he
    obtain ⟨hcovers, rfl⟩ := Option.ite_none_right_eq_some.1 he
    obtain ⟨k, hk, hkn⟩ := Option.map_eq_some_iff.1 (eq_of_beq hcovers)
    have hlt : tag.toNat < slots.length := by
      rw [hslots]
      exact (List.getElem?_eq_some_iff.1 hk).1
    have hslot := getElem?_eq_getElem hlt
    refine (Expr.meansOther_iff.1 hother e rfl _ k _ (fun hmem => ?_) hk hslot vs ?_).conv
      (hfires _ hslot).symm
    · obtain ⟨alt, halt, htag⟩ := mem_map.1 hmem
      exact absurd (UInt32.toNat_inj.1 htag) (by simpa using find?_eq_none.1 hfind alt halt)
    · rw [hkn, hvs.length_eq]

theorem forall₂_of_mapM {f : α → Option β} (h : xs.mapM f = some ys) :
    Forall₂ (fun x y => x ∈ xs ∧ f x = some y) xs ys := by
  induction xs generalizing ys with
  | nil =>
    cases h
    exact .nil
  | cons x xs ih =>
    rw [mapM_cons] at h
    obtain ⟨y, hy, h⟩ := Option.bind_eq_some_iff.1 h
    obtain ⟨ys', hys, h⟩ := Option.bind_eq_some_iff.1 h
    cases h
    exact .cons ⟨mem_cons_self, hy⟩
      ((ih hys).imp fun _ _ h => ⟨mem_cons_of_mem _ h.1, h.2⟩)

theorem Expr.Means.primitive {p : Primitive} {lits : List Literal}
    (h : (Expr.apply (.prim p) args).Means Δ σ t)
    (hargs : Forall₂ (fun a l => ∀ v, a.Means Δ σ v → Same Δ v (.atom (.lit l))) args lits)
    (hr : p.result? lits = some r) (hw : Weak.ofResult? r = some w) : w.toExpr.Means Δ σ t := by
  obtain ⟨u, vs, hu, hvs, ht⟩ := Expr.means_apply.1 h
  have hlits : Forall₂ (Same Δ) vs (lits.map fun l => .atom (.lit l)) :=
    forall₂_map_right_iff.2 (forall₂_join hvs hargs fun _ v _ hv hl => hl v hv)
  have hres : Same Δ t (Tree.ofResult r) := ht.trans ((Conv.spine hu hlits).trans (.rule (.prim hr)))
  cases r with
  | inl l =>
    cases l with
    | int | char =>
      cases hw
      exact hres
    | _ => cases hw
  | inr b =>
    cases hw
    cases b <;> exact hres

theorem closed_ofResult (hw : Weak.ofResult? r = some w) : w.toExpr.Closed size := by
  cases r with
  | inl l =>
    cases l with
    | int | char =>
      cases hw
      exact .lit _
    | _ => cases hw
  | inr b =>
    cases hw
    exact .con _ _

theorem closed_select {fallback : Fallback} (h : (Expr.caseOf scrut arities alts other).Closed size)
    (hfields : ∀ a ∈ fields, a.Closed size)
    (he : fallback.select arities alts other tag fields = some e) : e.Closed size := by
  cases h with
  | caseOf _ _ halts hother =>
    unfold Fallback.select at he
    split at he
    · rename_i alt hfind
      cases he
      exact (halts alt (mem_of_find?_eq_some hfind)).lams.apply hfields
    · obtain ⟨-, rfl⟩ := Option.ite_none_right_eq_some.1 he
      exact hother e rfl

/-- Weak evaluation keeps the meaning: induction on the fuel. -/
theorem means_evaluateWeak
    (hdefs : ∀ x e, defs x = some e → e.Closed size ∧ ∀ ρ, e.Means Δ ρ (.atom (.global x)))
    (hw : evaluateWeak .listedTag defs fuel e = some w) (hclosed : e.Closed size)
    (h : e.Means Δ σ t) : w.toExpr.Closed size ∧ w.toExpr.Means Δ σ t := by
  induction fuel generalizing e w t with
  | zero => cases hw
  | succ fuel ih =>
    cases e with
    | var _ | comb _ => cases hw
    | lit l =>
      cases l with
      | int | char =>
        cases hw
        exact ⟨hclosed, h⟩
      | _ => cases hw
    | prim p =>
      cases hw
      exact ⟨hclosed, h⟩
    | con tag arity =>
      cases hw
      exact ⟨hclosed, h⟩
    | lam x body =>
      cases hw
      exact ⟨hclosed, h⟩
    | global x =>
      obtain ⟨e, he, hw⟩ := Option.bind_eq_some_iff.1 hw
      obtain ⟨hclosed', hmeans⟩ := hdefs x e he
      exact ih hw hclosed' ((hmeans σ).conv (Conv.symm h))
    | letIn x rhs body =>
      obtain ⟨u, hrhs, hbody⟩ := h
      cases hclosed with
      | letIn hr hb => exact ih hw (hb.beta hr) (hbody.beta hrhs hr)
    | letRec binds body => exact ih hw hclosed.unfold (h.unfold hclosed)
    | app f a =>
      obtain ⟨u, v, hf, ha, ht⟩ := h
      cases hclosed with
      | app hfc hac =>
        rw [evaluateWeak] at hw
        split at hw
        · rename_i x body hfw
          obtain ⟨hlc, hlam⟩ := ih hfw hfc hf
          cases hlc with
          | lam hbc =>
            exact ih hw (hbc.beta hac) (((hlam v).conv ht.symm).beta ha hac)
        · rename_i tag arity fields hfw
          obtain ⟨hcc, hcon⟩ := ih hfw hfc hf
          obtain ⟨-, hw⟩ := Option.ite_none_right_eq_some.1 hw
          cases hw
          rw [Weak.toExpr, Expr.apply_append]
          exact ⟨.app hcc hac, u, v, hcon, ha, ht⟩
        · rename_i p args hfw
          obtain ⟨hpc, hprim⟩ := ih hfw hfc hf
          -- a primitive collects its arguments, and evaluates them once it has them all
          have hclosed : (Expr.apply (.prim p) (args ++ [a])).Closed size := by
            rw [Expr.apply_append]
            exact .app hpc hac
          have hmeans : (Expr.apply (.prim p) (args ++ [a])).Means Δ σ t := by
            rw [Expr.apply_append]
            exact ⟨u, v, hprim, ha, ht⟩
          split at hw
          · cases hw
            exact ⟨hclosed, hmeans⟩
          · obtain ⟨lits, hlits, hw⟩ := Option.bind_eq_some_iff.1 hw
            obtain ⟨r, hr, hw⟩ := Option.bind_eq_some_iff.1 hw
            refine ⟨closed_ofResult hw, hmeans.primitive ?_ hr hw⟩
            refine (forall₂_of_mapM hlits).imp fun b l hb v hv => ?_
            obtain ⟨w', hw', hl⟩ := Option.bind_eq_some_iff.1 hb.2
            have hmeans := (ih hw' (hclosed.of_apply.2 b hb.1) hv).2
            cases w' <;> cases hl <;> exact hmeans
        · cases hw
    | caseOf scrut arities alts other =>
      cases id hclosed with
      | caseOf hsc _ halts hother =>
        rw [evaluateWeak] at hw
        split at hw
        · rename_i tag arity fields hsw
          split at hw
          · rename_i hfits
            obtain ⟨e, he, hw⟩ := Option.bind_eq_some_iff.1 hw
            obtain ⟨u, -, hu, -⟩ := id h
            have hfields := (ih hsw hsc hu).1.of_apply.2
            exact ih hw (closed_select hclosed hfields he)
              (h.select (fun u hu => (ih hsw hsc hu).2) hfits.1 hfits.2 he)
          · cases hw
        · cases hw

/-- **A tree that means a closed expression has its value.** -/
theorem yields_evaluateValue
    (hdefs : ∀ x e, defs x = some e → e.Closed size ∧ ∀ ρ, e.Means Δ ρ (.atom (.global x)))
    {v : Value} (hv : evaluateValue .listedTag defs fuel e = some v) (hclosed : e.Closed size)
    (h : e.Means Δ σ t) : Yields Δ t v := by
  induction fuel generalizing e t v with
  | zero => cases hv
  | succ fuel ih =>
    rw [evaluateValue] at hv
    have hlit : ∀ l v, Yields Δ (.atom (.lit l)) v → Same Δ t (.atom (.lit l)) → Yields Δ t v :=
      fun l v hv ht => (ht.yields v).2 hv
    split at hv
    · rename_i n hw
      cases hv
      exact hlit _ _ (.int (.whnf 0 ⟨.lit (.int n), [], rfl, rfl⟩))
        (means_evaluateWeak hdefs hw hclosed h).2
    · rename_i c hw
      cases hv
      exact hlit _ _ (.char (.whnf 0 ⟨.lit (.char c), [], rfl, rfl⟩))
        (means_evaluateWeak hdefs hw hclosed h).2
    · rename_i tag arity fields hw
      split at hv
      · rename_i hlen
        obtain ⟨vs, hvs, rfl⟩ := Option.map_eq_some_iff.1 hv
        obtain ⟨hc, hmeans⟩ := means_evaluateWeak hdefs hw hclosed h
        obtain ⟨u, ts, hu, hts, ht⟩ := Expr.means_apply.1 hmeans
        have hsame : Same Δ t ((Tree.comb (.con tag arity)).apps ts) := ht.trans (Conv.apps hu ts)
        refine (hsame.yields _).2 (.con (.whnf 0 (Tree.whnf_atom.2 rfl)) ?_ ?_ ?_)
        · rw [← hts.length_eq, hlen]
        · rw [← hts.length_eq, (forall₂_of_mapM hvs).length_eq]
        · refine getElem?_of_forall₂ (forall₂_join hts (forall₂_of_mapM hvs) ?_)
          rintro a s v ha ⟨hmem, hv⟩
          exact ih hv (hc.of_apply.2 a hmem) ha
      · cases hv
    · cases hv

end Evaluation

/-- The top-level name of a definition means it. -/
def Binding.Defines (Δ : Name → Option Tree) (b : Binding Core) : Prop :=
  ∀ ρ, (Expr.lams b.params b.body.toExpr).Means Δ ρ (.atom (.global b.name))

end GraphReduction
