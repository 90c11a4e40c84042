import GraphReduction.Proofs.ByName.Meaning
import GraphReduction.Proofs.Core.Names

/-!
# Renaming keeps the meaning

What a renamed expression means, the expression means too, when each variable has the tree of its new
name. New names have higher numbers than those in scope, so giving a tree to one of them changes no
other variable.
-/

namespace GraphReduction

open List
open GraphReduction.Tree (Same assign)

variable {N : Naming} {Δ : Name → Option Tree} {ρ : Renaming} {n k : Nat} {Γ Γ' : List Name} {σ σ' : Name → Tree}

/-- **The variables of `Γ` have the trees of their new names**, whose numbers are up to `n`. -/
def Follows (N : Naming) (n : Nat) (ρ : Renaming) (Γ : List Name) (σ σ' : Name → Tree) : Prop :=
  ∀ x ∈ Γ, ∃ y, ρ.lookup x = some y ∧ Numbered N n y ∧ σ x = σ' y

namespace Follows

theorem mono (h : Follows N n ρ Γ σ σ') (hn : n ≤ k) (hsub : Γ' ⊆ Γ) : Follows N k ρ Γ' σ σ' := by
  intro x hx
  obtain ⟨y, hy, hnum, heq⟩ := h x (hsub hx)
  exact ⟨y, hy, hnum.mono hn, heq⟩

theorem cons (h : Follows N n ρ Γ σ σ') (hn : n ≤ k) (x : Name) {y : Name} (hy : Made N n k y) (a : Tree) :
    Follows N k ((x, y) :: ρ) (x :: Γ) (Function.update σ x a) (Function.update σ' y a) := by
  intro z hz
  by_cases hzx : z = x
  · subst hzx
    refine ⟨y, ?_, hy.1, ?_⟩
    · rw [lookup_cons, beq_self_eq_true]
    · rw [Function.update_self, Function.update_self]
  · obtain ⟨w, hw, hnum, heq⟩ := h z ((mem_cons.1 hz).resolve_left hzx)
    refine ⟨w, ?_, hnum.mono hn, ?_⟩
    · rw [lookup_cons, beq_eq_false_iff_ne.2 hzx]
      exact hw
    · rw [Function.update_of_ne hzx, Function.update_of_ne, heq]
      rintro rfl
      exact hy.2 hnum

theorem binders {xs : List Name} (hxs : ∀ x ∈ xs, N.binder x) (h : Follows N n ρ Γ σ σ')
    {as : List Tree} (has : as.length = xs.length) :
    Follows N (freshBinders ρ xs n).2 (freshBinders ρ xs n).1.2 (xs ++ Γ) (assign σ xs as)
      (assign σ' (freshBinders ρ xs n).1.1 as) := by
  induction xs generalizing ρ n Γ σ σ' as with
  | nil => cases as <;> exact h
  | cons x xs ih =>
    obtain ⟨hx, hxs⟩ := forall_mem_cons.1 hxs
    cases as with
    | nil => cases has
    | cons a as =>
      refine (ih hxs (h.cons (Nat.le_succ n) x (made_freshName hx n) a) (Nat.succ.inj has)).mono
        le_rfl fun y hy => ?_
      simp only [cons_append, mem_cons, mem_append] at hy ⊢
      tauto

theorem params {xs : List Name} (hxs : ∀ x ∈ xs, N.binder x) (σ : Name → Tree)
    {as : List Tree} (has : as.length = xs.length) (n : Nat) :
    Follows N (freshBinders [] xs n).2 (freshBinders [] xs n).1.2 xs (assign σ xs as)
      (assign σ (freshBinders [] xs n).1.1 as) := by
  have hempty : Follows N n [] [] σ σ := forall_mem_nil _
  exact (hempty.binders hxs has).mono le_rfl fun x hx => mem_append_left _ hx

end Follows

theorem lookup_freshBinders {xs : List Name} {x : Name} (h : x ∉ xs) (ρ : Renaming) (n : Nat) :
    (freshBinders ρ xs n).1.2.lookup x = ρ.lookup x := by
  induction xs generalizing ρ n with
  | nil => rfl
  | cons y xs ih =>
    obtain ⟨hne, hnot⟩ := not_or.1 (mem_cons.not.1 h)
    show (freshBinders ((y, (freshName y n).1) :: ρ) xs (n + 1)).1.2.lookup x = _
    rw [ih hnot, lookup_cons, beq_eq_false_iff_ne.2 hne]

namespace Expr

/-- The last right hand side of a name, and the new name of that position. -/
theorem getElem?_of_lookup_reverse {binds : List (Name × Expr)} {x : Name} {rhs : Expr}
    (h : binds.reverse.lookup x = some rhs) (ρ : Renaming) (n : Nat) : ∃ (i : Nat) (y : Name),
      binds[i]? = some (x, rhs) ∧ (freshBinders ρ (binds.map Prod.fst) n).1.1[i]? = some y ∧
        (freshBinders ρ (binds.map Prod.fst) n).1.2.lookup x = some y := by
  induction binds generalizing ρ n with
  | nil => cases h
  | cons b binds ih =>
    rw [reverse_cons, lookup_append] at h
    cases hrest : binds.reverse.lookup x with
    | some rhs' =>
      rw [hrest] at h
      cases h
      obtain ⟨i, y, hi, hy, hlookup⟩ := ih hrest ((b.1, (freshName b.1 n).1) :: ρ) (n + 1)
      exact ⟨i + 1, y, hi, hy, hlookup⟩
    | none =>
      rw [hrest, Option.none_or, lookup_cons] at h
      split at h
      · rename_i hx
        obtain rfl := eq_of_beq hx
        cases h
        refine ⟨0, (freshName b.1 n).1, rfl, rfl, ?_⟩
        show (freshBinders ((b.1, (freshName b.1 n).1) :: ρ) (binds.map Prod.fst) (n + 1)).1.2.lookup
          b.1 = _
        rw [lookup_freshBinders (lookup_reverse_eq_none.1 hrest), lookup_cons, beq_self_eq_true]
      · cases h

theorem getElem?_renameBinds {binds : List (Name × Expr)} {i : Nat} {b : Name × Expr}
    (hle : ∀ b ∈ binds, ∀ n, n ≤ (b.2.rename ρ n).2) (hi : binds[i]? = some b) (n : Nat) :
    ∃ k, n ≤ k ∧ (renameBinds ρ binds n).1[i]? = some (b.2.rename ρ k).1 := by
  induction binds generalizing i n with
  | nil => cases hi
  | cons b' binds ih =>
    obtain ⟨hb, hbinds⟩ := forall_mem_cons.1 hle
    cases i with
    | zero =>
      cases hi
      exact ⟨n, le_rfl, rfl⟩
    | succ i =>
      obtain ⟨k, hk, hget⟩ := ih hbinds hi (b'.2.rename ρ n).2
      exact ⟨k, (hb n).trans hk, hget⟩

theorem mem_renameAlts_of_mem {alts : List (Alt Expr)} {alt : Alt Expr}
    (hbinders : ∀ alt ∈ alts, ∀ x ∈ alt.binders, N.binder x)
    (hle : ∀ alt ∈ alts, ∀ ρ n, n ≤ (alt.body.rename ρ n).2) (halt : alt ∈ alts) (n : Nat) :
    ∃ k, n ≤ k ∧ ⟨alt.tag, (freshBinders ρ alt.binders k).1.1,
      (alt.body.rename (freshBinders ρ alt.binders k).1.2 (freshBinders ρ alt.binders k).2).1⟩ ∈
        (renameAlts ρ alts n).1 := by
  induction alts generalizing n with
  | nil => cases halt
  | cons alt' alts ih =>
    obtain ⟨hbinder, hbinders⟩ := forall_mem_cons.1 hbinders
    obtain ⟨hle', hles⟩ := forall_mem_cons.1 hle
    rcases mem_cons.1 halt with rfl | halt
    · exact ⟨n, le_rfl, mem_cons_self⟩
    · obtain ⟨k, hk, hmem⟩ := ih hbinders hles halt
        (alt'.body.rename (freshBinders ρ alt'.binders n).1.2 (freshBinders ρ alt'.binders n).2).2
      exact ⟨k, (made_freshBinders ρ hbinder n).1.trans ((hle' _ _).trans hk),
        mem_cons_of_mem _ hmem⟩

theorem tags_renameAlts (ρ : Renaming) (alts : List (Alt Expr)) (n : Nat) :
    (renameAlts ρ alts n).1.map (·.tag.toNat) = alts.map (·.tag.toNat) := by
  induction alts generalizing n with
  | nil => rfl
  | cons alt alts ih => exact congrArg (alt.tag.toNat :: ·) (ih _)

variable {D : Name → Prop} {size : Option Nat} {e : Expr} {t : Tree}

/-- Renaming apart keeps the meaning: by the shape of `e`. -/
theorem means_of_rename (hspelled : e.Spelled N.binder)
    (hscoped : e.ScopedIn D size Γ) (hσ : Follows N n ρ Γ σ σ') (h : (e.rename ρ n).1.Means Δ σ' t) :
    e.Means Δ σ t := by
  induction hspelled generalizing ρ n Γ σ σ' t with
  | var x =>
    cases hscoped with
    | var hx =>
      obtain ⟨y, hy, -, heq⟩ := hσ x hx
      change Same Δ t (σ' ((ρ.lookup x).getD x)) at h
      rw [hy, Option.getD_some, ← heq] at h
      exact h
  | global _ | lit _ | prim _ | comb _ | con _ _ => exact h
  | @app f a hf ha ihf iha =>
    cases hscoped with
    | app hsf hsa =>
      obtain ⟨u, v, hu, hv, ht⟩ := h
      have hle := (grown_rename hf ρ n).le
      exact ⟨u, v, ihf hsf hσ hu, iha hsa (hσ.mono hle (List.Subset.refl _)) hv, ht⟩
  | @lam x body hx hbody ih =>
    cases hscoped with
    | lam hsbody =>
      exact fun a => ih hsbody (hσ.cons (Nat.le_succ n) x (made_freshName hx n) a) (h a)
  | @letIn x rhs body hrhs hx hbody ihr ihb =>
    cases hscoped with
    | letIn hsrhs hsbody =>
      obtain ⟨u, hu, ht⟩ := h
      have hle := (grown_rename hrhs ρ n).le
      exact ⟨u, ihr hsrhs hσ hu, ihb hsbody ((hσ.mono hle (List.Subset.refl _)).cons (Nat.le_succ _) x
        (made_freshName hx _) u) ht⟩
  | @letRec binds body hnames hbinds hbody ihbinds ihbody =>
    cases hscoped with
    | letRec _ hsbinds hsbody =>
      have hbase : ∀ x ∈ binds.map Prod.fst, N.binder x := fun x hx => by
        obtain ⟨b, hb, rfl⟩ := mem_map.1 hx
        exact hnames b hb
      obtain ⟨hle, hnodup, hmade⟩ := made_freshBinders ρ hbase n
      have hlen := (freshBinders_spec ρ (binds.map Prod.fst) n).1
      have hlookup := @getElem?_of_lookup_reverse binds
      have hkeep := fun {x} hx => @lookup_freshBinders (binds.map Prod.fst) x hx ρ n
      obtain ⟨τ', hτ', hsolves, hbody'⟩ := h
      set ys := (freshBinders ρ (binds.map Prod.fst) n).1.1
      set ρ' := (freshBinders ρ (binds.map Prod.fst) n).1.2
      set k := (freshBinders ρ (binds.map Prod.fst) n).2
      have hlen' := length_renameBinds ρ' binds k
      set rhss := (renameBinds ρ' binds k).1
      have hfst : (ys.zip rhss).map Prod.fst = ys :=
        map_fst_zip (by rw [hlen, hlen', length_map])
      rw [hfst] at hτ'
      -- a name has the tree of its new name, as in the renamed group
      let τ : Name → Tree := fun x =>
        if x ∈ binds.map Prod.fst then τ' ((ρ'.lookup x).getD x) else σ x
      have hτ : Follows N k ρ' (binds.map Prod.fst ++ Γ) τ τ' := by
        intro x hx
        by_cases hmem : x ∈ binds.map Prod.fst
        · obtain ⟨rhs, hrhs⟩ := Option.ne_none_iff_exists'.1 fun hnone =>
            lookup_reverse_eq_none.1 hnone hmem
          obtain ⟨i, y, -, hy, hlook⟩ := hlookup hrhs ρ n
          refine ⟨y, hlook, (hmade y (mem_of_getElem? hy)).1, ?_⟩
          rw [show τ x = _ from if_pos hmem, hlook]
          rfl
        · obtain ⟨y, hy, hnum, heq⟩ := hσ x ((mem_append.1 hx).resolve_left hmem)
          refine ⟨y, (hkeep hmem).trans hy, hnum.mono hle, ?_⟩
          rw [show τ x = _ from if_neg hmem, hτ' y fun hmem => (hmade y hmem).2 hnum, heq]
      refine ⟨τ, fun x hx => if_neg hx, meansBinds_iff.2 fun x rhs hrhs => ?_, ?_⟩
      · obtain ⟨i, y, hi, hy, hlook⟩ := hlookup hrhs ρ n
        have hb := mem_of_getElem? hi
        obtain ⟨j, hj, hget⟩ := getElem?_renameBinds
          (fun b hb n => (grown_rename (hbinds b hb) ρ' n).le) hi k
        have hmem : (y, (rhs.rename ρ' j).1) ∈ ys.zip rhss :=
          mem_of_getElem? (getElem?_zip_eq_some.2 ⟨hy, hget⟩)
        have hlast : (ys.zip rhss).reverse.lookup y = some (rhs.rename ρ' j).1 := by
          refine lookup_of_mem ?_ (mem_reverse.2 hmem)
          rw [map_reverse, hfst]
          exact nodup_reverse.2 hnodup
        have hτx : τ x = τ' y := by
          rw [show τ x = _ from if_pos (mem_map_of_mem (f := Prod.fst) hb), hlook]
          rfl
        rw [hτx]
        exact ihbinds _ hb (hsbinds _ hb) (hτ.mono hj (List.Subset.refl _))
          (meansBinds_iff.1 hsolves y _ hlast)
      · refine ihbody hsbody (hτ.mono ?_ (List.Subset.refl _)) hbody'
        exact (grown_renameBinds (fun b hb n => grown_rename (hbinds b hb) ρ' n) k).le
  | @caseOf scrut arities alts other hscrut hbinders halts hother ihs iha iho =>
    cases hscoped with
    | caseOf hsscrut hfits hsalts hsother =>
      obtain ⟨u, slots, hu, hslots, ht, halts', hother'⟩ := h
      have hle := (grown_rename hscrut ρ n).le
      have hle' := (grown_renameAlts (ρ := ρ) hbinders
        (fun alt halt ρ n => grown_rename (halts alt halt) ρ n) (scrut.rename ρ n).2).le
      refine ⟨u, slots, ihs hsscrut hσ hu, hslots, ht, meansAlts_iff.2 fun alt halt => ?_,
        meansOther_iff.2 fun e he i a slot hi ha hslot as has => ?_⟩
      · obtain ⟨j, hj, hmem⟩ := mem_renameAlts_of_mem (ρ := ρ) hbinders
          (fun alt halt ρ n => (grown_rename (halts alt halt) ρ n).le) halt (scrut.rename ρ n).2
        obtain ⟨a, slot, ha, hlen, hslot, hbody⟩ := meansAlts_iff.1 halts' _ hmem
        have hcount := (freshBinders_spec ρ alt.binders j).1
        refine ⟨a, slot, ha, hcount.symm.trans hlen, hslot, fun as has => ?_⟩
        refine iha alt halt (hsalts alt halt) ?_ (hbody as (has.trans hcount.symm))
        exact (hσ.mono (hle.trans hj) (List.Subset.refl _)).binders (hbinders alt halt) has
      · subst he
        have hmeans := meansOther_iff.1 hother' _ rfl i a slot
          (by rw [tags_renameAlts]; exact hi) ha hslot as has
        exact iho e rfl (hsother e rfl) (hσ.mono (hle.trans hle') (List.Subset.refl _)) hmeans

end Expr

end GraphReduction
