import GraphReduction.Proofs.Core.Renaming

/-!
# Lifting keeps the meaning

A group of recursive definitions is replaced by calls of top-level names or by a fixed point. Either
way the trees that the names of the group then stand for solve its equations.
-/

namespace GraphReduction

open List
open GraphReduction.Tree (Same Conv assign)

variable {N : Naming} {Δ : Name → Option Tree} {P : Name → Prop}
  {D : Name → Prop} {size : Option Nat} {n k : Nat} {Γ Γ' : List Name} {σ τ : Name → Tree}
  {t : Tree} {x : Name} {xs : List Name}

/-!
## Substitution
-/

namespace Core

variable {s : Name → Option Core}

/-- **The trees of `τ` are those of what replaces variables under `σ`.** What replaces them uses
variables in scope only. -/
structure Replaces (Δ : Name → Option Tree) (s : Name → Option Core) (Γ : List Name)
    (σ τ : Name → Tree) : Prop where
  kept : ∀ x, s x = none → σ x = τ x
  replaced : ∀ x r, s x = some r → ∀ u, r.toExpr.Means Δ σ u → Same Δ u (τ x)
  scope : ∀ x r, s x = some r → x ∈ Γ ∧ ∀ y ∈ r.freeVars, y ∈ Γ

theorem Replaces.under (h : Replaces Δ s Γ σ τ) {σ' τ' : Name → Tree} (hxs : ∀ x ∈ xs, x ∉ Γ)
    (hin : ∀ x ∈ xs, σ' x = τ' x) (hout : ∀ x, x ∉ xs → σ' x = σ x ∧ τ' x = τ x) :
    Replaces Δ s (xs ++ Γ) σ' τ' where
  kept x hx := by
    by_cases hmem : x ∈ xs
    · exact hin x hmem
    · rw [(hout x hmem).1, (hout x hmem).2]
      exact h.kept x hx
  replaced x r hr u hu := by
    have hmem : x ∉ xs := fun hmem => hxs x hmem (h.scope x r hr).1
    rw [(hout x hmem).2]
    refine h.replaced x r hr u (hu.congr fun y hy => .of_eq (hout y fun hmem => ?_).1)
    exact hxs y hmem ((h.scope x r hr).2 y (mem_sortedNames.2 hy))
  scope x r hr := ⟨mem_append_right _ (h.scope x r hr).1,
    fun y hy => mem_append_right _ ((h.scope x r hr).2 y hy)⟩

theorem Replaces.update (h : Replaces Δ s Γ σ τ) (hx : x ∉ Γ) (a : Tree) :
    Replaces Δ s (x :: Γ) (Function.update σ x a) (Function.update τ x a) := by
  have hnew : ∀ y ∈ [x], y ∉ Γ := forall_mem_singleton.2 hx
  refine h.under hnew (fun y hy => ?_) fun y hy => ?_
  · rw [mem_singleton.1 hy, Function.update_self, Function.update_self]
  · have hne : y ≠ x := by simpa using hy
    exact ⟨Function.update_of_ne hne .., Function.update_of_ne hne ..⟩

/-- A meaning after the replacement is one before it: by the shape of `c`. -/
theorem means_of_substitute {c : Core} (hc : c.Tidy P Γ) (hs : Replaces Δ s Γ σ τ)
    (h : (c.substitute s).toExpr.Means Δ σ t) : c.toExpr.Means Δ τ t := by
  induction c generalizing Γ σ τ t with
  | var x =>
    rw [Core.substitute] at h
    cases hx : s x with
    | none =>
      rw [hx] at h
      exact Conv.trans h (.of_eq (hs.kept x hx))
    | some r =>
      rw [hx] at h
      exact hs.replaced x r hx t h
  | global _ | lit _ | prim _ | comb _ | con _ _ => exact h
  | app f a ihf iha =>
    obtain ⟨hf, ha⟩ := hc.app
    obtain ⟨u, v, hu, hv, ht⟩ := h
    exact ⟨u, v, ihf hf hs hu, iha ha hs hv, ht⟩
  | lam x body ih =>
    obtain ⟨⟨-, hnot⟩, hbody⟩ := hc.lam
    exact fun a => ih hbody (hs.update hnot a) (h a)
  | letIn x rhs body ihr ihb =>
    obtain ⟨hrhs, ⟨-, hnot⟩, hbody⟩ := hc.letIn
    obtain ⟨u, hu, ht⟩ := h
    exact ⟨u, ihr hrhs hs hu, ihb hbody (hs.update hnot u) ht⟩
  | caseOf scrut arities alts other ihs iha iho =>
    obtain ⟨hscrut, halts, hother⟩ := hc.caseOf
    rw [Core.substitute, substituteAlts_eq, substituteOther_eq, toExpr, altsToExpr_eq,
      otherToExpr_eq] at h
    rw [toExpr, altsToExpr_eq, otherToExpr_eq]
    obtain ⟨u, slots, hu, hslots, ht, halts', hother'⟩ := h
    refine ⟨u, slots, ihs hscrut hs hu, hslots, ht, Expr.meansAlts_iff.2 fun alt halt => ?_,
      Expr.meansOther_iff.2 fun e he i a slot hi ha hslot as has => ?_⟩
    · obtain ⟨alt, hmem, rfl⟩ := mem_map.1 halt
      obtain ⟨a, slot, ha, hlen, hslot, hbody⟩ := Expr.meansAlts_iff.1 halts' _
        (mem_map_of_mem (mem_map_of_mem hmem))
      refine ⟨a, slot, ha, hlen, hslot, fun as has => iha alt hmem (halts alt hmem).2 ?_ (hbody as has)⟩
      exact hs.under (fun x hx => ((halts alt hmem).1 x hx).2)
        (fun x hx => Tree.assign_of_mem has hx)
        fun x hx => ⟨Tree.assign_of_notMem hx, Tree.assign_of_notMem hx⟩
    · obtain ⟨e, rfl, rfl⟩ := Option.map_eq_some_iff.1 he
      refine iho e rfl (hother e rfl) hs (Expr.meansOther_iff.1 hother' _ rfl i a slot ?_ ha hslot as has)
      rw [map_map, map_map]
      rwa [map_map] at hi

theorem toExpr_apply (f : Core) (args : List Core) :
    (f.apply args).toExpr = f.toExpr.apply (args.map toExpr) := by
  induction args generalizing f with
  | nil => rfl
  | cons a args ih => exact ih (.app f a)

theorem lams_peel (c : Core) : Expr.lams c.peel.1 c.peel.2.toExpr = c.toExpr := by
  induction c with
  | lam x body ih => exact congrArg (Expr.lam x) ih
  | _ => rfl

/-- **Trees for the names of a group solve its equations**, and with them the body means `t`. -/
def Solves (Δ : Name → Option Tree) (binds : List (Name × Core)) (body : Core) (σ : Name → Tree)
    (t : Tree) : Prop :=
  ∃ τ, (∀ y, y ∉ binds.map Prod.fst → τ y = σ y) ∧
    (∀ b ∈ binds, b.2.toExpr.Means Δ τ (τ b.1)) ∧ body.toExpr.Means Δ τ t

end Core

namespace Lift

open GraphReduction.Core (Replaces Solves)

variable {binds : List (Name × Core)} {body : Core} {tuple owner : Name} {k' : Nat}
  {globals : List Name} {rhs : Core} {bs : List (Name × Core)}

theorem assigned_eq_some {c : Core} {names : List Name} {calls : List Core}
    (h : assigned (names.zip calls) x = some c) : c ∈ calls := by
  obtain ⟨i, -, hc⟩ := getElem?_of_lookup_zip h
  exact mem_of_getElem? hc

theorem assigned_eq_none {names : List Name} {calls : List Core} (hlen : calls.length = names.length)
    (h : assigned (names.zip calls) x = none) : x ∉ names := by
  intro hx
  obtain ⟨c, hc⟩ := exists_lookup_zip hlen hx
  rw [assigned, hc] at h
  cases h

/-!
## Top-level names
-/

/-- What the names of a group become when they are moved to the top level. -/
def calls (binds : List (Name × Core)) (globals : List Name) : Name → Option Core :=
  assigned ((binds.map Prod.fst).zip
    (globals.map fun g => Core.apply (.global g) ((captured binds).map .var)))

/-- The trees of the calls, and those of the other variables. -/
def callTrees (binds : List (Name × Core)) (globals : List Name) (σ : Name → Tree) (x : Name) : Tree :=
  (((binds.map Prod.fst).zip globals).lookup x).elim (σ x) fun g =>
    (Tree.atom (.global g)).apps ((captured binds).map σ)

theorem calls_eq (binds : List (Name × Core)) (globals : List Name) (x : Name) :
    calls binds globals x = (((binds.map Prod.fst).zip globals).lookup x).map fun g =>
      Core.apply (.global g) ((captured binds).map .var) := by
  rw [calls, assigned, zip_map_right, ← Expr.lookup_map]
  rfl

theorem captured_subset (h : ∀ b ∈ binds, b.2.ScopedIn D size (binds.map Prod.fst ++ Γ)) :
    captured binds ⊆ Γ := by
  intro x hx
  have hx := mem_sortedNames.1 hx
  obtain ⟨hx, hnot⟩ := mem_filter.1 hx
  obtain ⟨b, hb, hfree⟩ := mem_flatMap.1 hx
  exact (mem_append.1 ((h b hb).mem_of_freeVars hfree)).resolve_left (by simpa using hnot)

/-- A member of a group needs nothing but the group and what it captures. -/
theorem scoped_captured (h : ∀ b ∈ binds, b.2.ScopedIn D size (binds.map Prod.fst ++ Γ))
    {b : Name × Core} (hb : b ∈ binds) :
    b.2.ScopedIn D size (binds.map Prod.fst ++ captured binds) := by
  refine (h b hb).of_freeVars fun x hx => ?_
  by_cases hname : x ∈ binds.map Prod.fst
  · exact mem_append_left _ hname
  · refine mem_append_right _ (mem_sortedNames.2 (mem_filter.2 ⟨?_, by simpa using hname⟩))
    exact mem_flatMap.2 ⟨b, hb, hx⟩

/-- **Calls are in scope** where the captured variables are. -/
theorem scoped_calls (hlen : globals.length = binds.length) (hglobals : ∀ g ∈ globals, D g)
    (hbinds : ∀ b ∈ binds, b.2.ScopedIn D size (binds.map Prod.fst ++ Γ))
    (hbody : body.ScopedIn D size (binds.map Prod.fst ++ Γ)) :
    (body.substitute (calls binds globals)).ScopedIn D size Γ ∧
      ∀ b ∈ binds, (b.2.substitute (calls binds globals)).ScopedIn D size (captured binds) := by
  have hcalls : ∀ x c, calls binds globals x = some c → ∀ Δ, captured binds ⊆ Δ → c.ScopedIn D size Δ := by
    intro x c hc Δ hsub
    obtain ⟨g, hg, rfl⟩ := mem_map.1 (assigned_eq_some hc)
    refine Core.ScopedIn.apply (.global (hglobals g hg)) fun a ha => ?_
    obtain ⟨y, hy, rfl⟩ := mem_map.1 ha
    exact .var (hsub hy)
  have hrest : ∀ {Δ : List Name}, ∀ x ∈ binds.map Prod.fst ++ Δ, calls binds globals x = none → x ∈ Δ := by
    intro Δ x hx hnone
    refine (mem_append.1 hx).resolve_left (assigned_eq_none ?_ hnone)
    rw [length_map, length_map, hlen]
  refine ⟨hbody.substitute hrest fun x c hc Δ hsub => hcalls x c hc Δ ?_,
    fun b hb => (scoped_captured hbinds hb).substitute hrest hcalls⟩
  exact List.Subset.trans (captured_subset hbinds) hsub

theorem means_call {g : Name} (h : (Core.apply (.global g) (xs.map .var)).toExpr.Means Δ σ t) :
    Same Δ t ((Tree.atom (.global g)).apps (xs.map σ)) := by
  rw [Core.toExpr_apply, map_map] at h
  obtain ⟨u, vs, hu, hvs, ht⟩ := Expr.means_apply.1 h
  refine ht.trans (Conv.spine hu ?_)
  rw [forall₂_map_right_iff]
  rw [forall₂_map_left_iff] at hvs
  exact hvs.flip.imp fun _ _ h => h

/-- Each bound name is replaced by a call of the global made for it. -/
theorem replaces_calls (binds : List (Name × Core)) (hsub : captured binds ⊆ Γ) (σ : Name → Tree) :
    Replaces Δ (calls binds globals) (binds.map Prod.fst ++ Γ) σ (callTrees binds globals σ) where
  kept x hx := by
    rw [calls_eq, Option.map_eq_none_iff] at hx
    rw [callTrees, hx]
    rfl
  replaced x r hr u hu := by
    rw [calls_eq] at hr
    obtain ⟨g, hg, rfl⟩ := Option.map_eq_some_iff.1 hr
    rw [callTrees, hg]
    exact means_call hu
  scope x r hr := by
    rw [calls_eq] at hr
    obtain ⟨g, hg, rfl⟩ := Option.map_eq_some_iff.1 hr
    obtain ⟨i, hi, -⟩ := getElem?_of_lookup_zip hg
    refine ⟨mem_append_left _ (mem_of_getElem? hi), fun y hy => ?_⟩
    have hscoped : (Core.apply (.global g) ((captured binds).map .var)).Scoped (fun _ => True) 0
        (captured binds) := by
      refine Core.ScopedIn.apply (.global trivial) fun a ha => ?_
      obtain ⟨z, hz, rfl⟩ := mem_map.1 ha
      exact .var hz
    exact mem_append_right _ (hsub (hscoped.mem_of_freeVars hy))

/-- The lifted globals solve the equations of the group. -/
theorem solves_liftGroup (hnodup : (binds.map Prod.fst).Nodup)
    (hlen : globals.length = binds.length) (hsub : captured binds ⊆ Γ)
    (hbinds : ∀ b ∈ binds, b.2.Tidy P (binds.map Prod.fst ++ Γ))
    (hbody : body.Tidy P (binds.map Prod.fst ++ Γ))
    (hdefs : ∀ p ∈ globals.zip binds, (Expr.lams (captured binds)
      (p.2.2.substitute (calls binds globals)).toExpr).Means Δ σ (.atom (.global p.1)))
    (h : (body.substitute (calls binds globals)).toExpr.Means Δ σ t) : Solves Δ binds body σ t := by
  have hreplaces : Replaces Δ (calls binds globals) _ σ _ := replaces_calls binds hsub σ
  refine ⟨callTrees binds globals σ, fun y hy => ?_, fun b hb => ?_,
    Core.means_of_substitute hbody hreplaces h⟩
  · rw [callTrees]
    cases hy' : ((binds.map Prod.fst).zip globals).lookup y with
    | none => rfl
    | some g =>
      obtain ⟨i, hi, -⟩ := getElem?_of_lookup_zip hy'
      exact absurd (mem_of_getElem? hi) hy
  · refine Core.means_of_substitute (hbinds b hb) hreplaces ?_
    obtain ⟨i, hi⟩ := getElem?_of_mem hb
    have hlt : i < globals.length := by
      rw [hlen]
      exact (List.getElem?_eq_some_iff.1 hi).1
    have hg := getElem?_eq_getElem hlt
    -- the definition applied to the trees of what it captures
    have hdef := Expr.means_lams.1 (hdefs (globals[i], b)
      (mem_of_getElem? (getElem?_zip_eq_some.2 ⟨hg, hi⟩)))
      ((captured binds).map σ) (length_map _)
    rw [Tree.assign_map] at hdef
    have hlookup : ((binds.map Prod.fst).zip globals).lookup b.1 = some globals[i] :=
      lookup_zip_of_getElem? hnodup (by rw [length_map, hlen]) (by rw [getElem?_map, hi]; rfl) hg
    rw [callTrees, hlookup]
    exact hdef

/-!
## Fixed points
-/

theorem same_fixedPoint {y f u : Tree} (hy : Same Δ y (.comb .Y)) (hu : Same Δ u (.app y f)) :
    Same Δ u (.app f u) := by
  have hfix : Same Δ u (.app (.comb .Y) f) := hu.trans (hy.fn f)
  have hunfold : Same Δ (.app (.comb .Y) f) (.app f (.app (.comb .Y) f)) :=
    .rule (Tree.Par.contract .Y [f] rfl rfl)
  exact hfix.trans (hunfold.trans (hfix.symm.arg f))

/-- Inside the tuple, the names stand for the variables bound there. -/
theorem replaces_inner {names inner : List Name} {ws : List Tree} (hnodup : names.Nodup)
    (hinner : inner.Nodup) (hws : ws.length = names.length) (hlen : inner.length = names.length) :
    Replaces Δ (assigned (names.zip (inner.map .var))) (inner ++ (names ++ Γ))
      (assign σ inner ws) (assign (assign σ inner ws) names ws) where
  kept x hx := by
    rw [Tree.assign_of_notMem (assigned_eq_none (by rw [length_map, hlen]) hx)]
  replaced x r hr u hu := by
    obtain ⟨i, hx, hr⟩ := getElem?_of_lookup_zip hr
    rw [getElem?_map] at hr
    obtain ⟨y, hy, rfl⟩ := Option.map_eq_some_iff.1 hr
    have hlt : i < ws.length := by
      rw [hws]
      exact (List.getElem?_eq_some_iff.1 hx).1
    have hw := getElem?_eq_getElem hlt
    rw [Tree.assign_of_getElem? hnodup hx hw]
    exact Conv.trans hu (.of_eq (Tree.assign_of_getElem? hinner hy hw))
  scope x r hr := by
    obtain ⟨i, hx, hr⟩ := getElem?_of_lookup_zip hr
    rw [getElem?_map] at hr
    obtain ⟨y, hy, rfl⟩ := Option.map_eq_some_iff.1 hr
    refine ⟨mem_append_right _ (mem_append_left _ (mem_of_getElem? hx)), fun z hz => ?_⟩
    have hscoped : (Core.var y).Scoped (fun _ => True) 0 [y] := .var (mem_singleton_self y)
    rw [mem_singleton.1 (hscoped.mem_of_freeVars hz)]
    exact mem_append_left _ (mem_of_getElem? hy)

theorem scoped_inner {names inner : List Name} (hlen : inner.length = names.length)
    (hrhs : rhs.ScopedIn D size (names ++ Γ)) (hin : ∀ {y}, y ∈ inner → y ∈ Γ') (hout : ∀ y ∈ Γ, y ∈ Γ') :
    (rhs.substitute (assigned (names.zip (inner.map .var)))).ScopedIn D size Γ' := by
  refine hrhs.substitute (fun y hy hnone => hout y ?_) fun y e he Δ hsub => ?_
  · exact (mem_append.1 hy).resolve_left (assigned_eq_none (by rw [length_map, hlen]) hnone)
  · obtain ⟨z, hz, rfl⟩ := mem_map.1 (assigned_eq_some he)
    exact .var (hsub (hin hz))

/-- **A member of a group inside a fixed point** means it where the names of the group have equal
trees. -/
theorem means_inner {names inner : List Name} {ws ws' : List Tree} {σ0 : Name → Tree}
    (hnodup : names.Nodup) (hinner : inner.Nodup) (hlen : inner.length = names.length)
    (hrhs : rhs.Tidy P (names ++ Γ)) (hscoped : rhs.ScopedIn D size (names ++ Γ))
    (hnew : ∀ y ∈ inner, ¬ P y ∧ y ∉ names ++ Γ) (hws : ws.length = names.length)
    (hsame : Forall₂ (Same Δ) ws ws') (hσ : ∀ y ∈ Γ, σ0 y = σ y)
    (h : (rhs.substitute (assigned (names.zip (inner.map .var)))).toExpr.Means Δ
      (assign σ0 inner ws) t) : rhs.toExpr.Means Δ (assign σ names ws') t := by
  have htidy : rhs.Tidy P (inner ++ (names ++ Γ)) := by
    refine hrhs.weaken (fun _ h => h) fun y hy hPy => (mem_append.1 hy).resolve_left fun hmem => ?_
    exact (hnew y hmem).1 hPy
  refine (Core.means_of_substitute htidy (replaces_inner hnodup hinner hws hlen) h).congr_scoped
    hscoped fun y hy => ?_
  by_cases hmem : y ∈ names
  · obtain ⟨i, hi⟩ := getElem?_of_mem hmem
    have hlt : i < ws.length := by
      rw [hws]
      exact (List.getElem?_eq_some_iff.1 hi).1
    have hw := getElem?_eq_getElem hlt
    obtain ⟨w', hw', hww⟩ := exists_getElem?_of_forall₂ hsame hw
    rw [Tree.assign_of_getElem? hnodup hi hw, Tree.assign_of_getElem? hnodup hi hw']
    exact hww
  · have hΓ := (mem_append.1 hy).resolve_left hmem
    rw [Tree.assign_of_notMem hmem, Tree.assign_of_notMem hmem,
      Tree.assign_of_notMem fun hin => (hnew y hin).2 hy, hσ y hΓ]
    exact .refl _

theorem solves_tieOne {inner : Name} (hrhs : rhs.Tidy P ([x] ++ Γ))
    (hscoped : rhs.ScopedIn D size ([x] ++ Γ)) (hP : ¬ P inner) (hnew : inner ∉ [x] ++ Γ)
    (h : (Core.letIn x (.app (.comb .Y) (.lam inner
      (rhs.substitute (assigned [(x, .var inner)])))) body).toExpr.Means Δ σ t) :
    Solves Δ [(x, rhs)] body σ t := by
  obtain ⟨u, ⟨y, f, hy, hf, hu⟩, hbody⟩ := h
  have hfix := same_fixedPoint hy hu
  refine ⟨Function.update σ x u, fun z hz => ?_, fun b hb => ?_, hbody⟩
  · exact Function.update_of_ne (by simpa using hz) ..
  · obtain rfl := mem_singleton.1 hb
    have hsame : Forall₂ (Same Δ) [u] [u] := .cons (.refl u) .nil
    have hmeans : rhs.toExpr.Means Δ (assign σ [x] [u]) (.app f u) :=
      means_inner (nodup_singleton x) (nodup_singleton inner) rfl hrhs hscoped
        (forall_mem_singleton.2 ⟨hP, hnew⟩) rfl hsame (fun _ _ => rfl) (hf u)
    rw [show Function.update σ x u (x, rhs).1 = u from Function.update_self ..]
    exact hmeans.conv hfix.symm

/-- `case t of { Con0/n y1 … yₙ -> yᵢ }`. -/
def IsSelector (n i : Nat) (tuple : Name) (c : Core) : Prop :=
  ∃ ys : List Name, ys.Nodup ∧ ys.length = n ∧
    c = .caseOf (.var tuple) [UInt32.ofNat n] [⟨0, ys, .var (ys.getD i "")⟩] none

theorem IsSelector.means {i : Nat} {c : Core} {vs : List Tree} {v : Tree}
    (hc : IsSelector n i tuple c) (h : c.toExpr.Means Δ σ t) (hvs : vs.length = n)
    (htuple : Same Δ (σ tuple) ((Tree.comb (.con 0 (UInt32.ofNat n))).apps vs))
    (hv : vs[i]? = some v) : Same Δ t v := by
  obtain ⟨ys, hnodup, hlen, rfl⟩ := hc
  obtain ⟨u, slots, hu, hslots, ht, halts, -⟩ := h
  obtain ⟨k, slot, hk, hbinders, hslot, hbody⟩ := Expr.meansAlts_iff.1 halts _ mem_cons_self
  obtain rfl : UInt32.ofNat n = k := Option.some.inj hk
  have hfires : Same Δ t (slot.apps vs) :=
    ht.trans (Tree.same_case (Conv.trans hu htuple) (hvs.trans (hlen.symm.trans hbinders)) hslots hslot)
  have hlt : i < ys.length := by
    rw [hlen, ← hvs]
    exact (List.getElem?_eq_some_iff.1 hv).1
  have hselected : Same Δ (slot.apps vs) (assign σ ys vs (ys.getD i "")) :=
    hbody vs (hvs.trans hlen.symm)
  rw [getD_eq_getElem _ _ hlt,
    Tree.assign_of_getElem? hnodup (getElem?_eq_getElem hlt) hv] at hselected
  exact hfires.trans hselected

/-- Selectors from the `i`-th on. -/
def AreSelectors (n i : Nat) (tuple : Name) (bs : List (Name × Core)) : Prop :=
  ∀ (j : Nat) b, bs[j]? = some b → IsSelector n (i + j) tuple b.2

theorem AreSelectors.scoped (h : AreSelectors n 0 tuple bs) (hn : ∀ s ∈ size, n ≤ s) (hlen : bs.length = n)
    (htuple : tuple ∈ Γ) : ∀ b ∈ bs, b.2.ScopedIn D size Γ := by
  rintro ⟨x, c⟩ hb
  obtain ⟨i, hi⟩ := getElem?_of_mem hb
  obtain ⟨ys, -, hys, rfl⟩ := h i _ hi
  refine Core.scoped_caseOf.2 ⟨.var htuple, fun s hs alt halt => ?_, fun alt halt => ?_,
    fun e he => nomatch he⟩
  · obtain rfl := mem_singleton.1 halt
    refine ⟨UInt32.ofNat n, rfl, fun hsmall => ?_⟩
    rw [UInt32.toNat_ofNat_of_lt' (lt_of_le_of_lt (hn s hs) hsmall)]
    exact hys
  · obtain rfl := mem_singleton.1 halt
    have hlt : 0 + i < ys.length := by
      have := (List.getElem?_eq_some_iff.1 hi).1
      omega
    refine .var (mem_append_left _ ?_)
    rw [getD_eq_getElem _ _ hlt]
    exact getElem_mem hlt

/-- Selectors bound one after another give the fields of the tuple. -/
theorem means_lets {i : Nat} (hbs : AreSelectors n i tuple bs) (htuple : tuple ∉ bs.map Prod.fst)
    (h : (Core.lets bs body).toExpr.Means Δ σ t) : ∃ ws, ws.length = bs.length ∧
      (∀ vs, vs.length = n → Same Δ (σ tuple) ((Tree.comb (.con 0 (UInt32.ofNat n))).apps vs) →
        ∀ (j : Nat) w v, ws[j]? = some w → vs[i + j]? = some v → Same Δ w v) ∧
      body.toExpr.Means Δ (assign σ (bs.map Prod.fst) ws) t := by
  induction bs generalizing σ i with
  | nil =>
    refine ⟨[], rfl, fun _ _ _ j w v hw _ => ?_, h⟩
    cases hw
  | cons b bs ih =>
    obtain ⟨hne, hnot⟩ := not_or.1 (mem_cons.not.1 htuple)
    obtain ⟨w, hw, hrest⟩ := h
    obtain ⟨ws, hlen, hws, hbody⟩ := ih (i := i + 1) (fun j b' hb' => by
      have := hbs (j + 1) b' hb'
      rwa [show i + (j + 1) = i + 1 + j by omega] at this) hnot hrest
    refine ⟨w :: ws, congrArg (· + 1) hlen, fun vs hvs hcon j w' v hw' hv => ?_, hbody⟩
    cases j with
    | zero =>
      cases hw'
      exact (hbs 0 b rfl).means hw hvs hcon hv
    | succ j =>
      refine hws vs hvs ?_ j w' v hw' (by rwa [show i + 1 + j = i + (j + 1) by omega])
      rwa [Function.update_of_ne hne]

theorem means_lets_all (hbs : AreSelectors n 0 tuple bs) (hlen : bs.length = n)
    (htuple : tuple ∉ bs.map Prod.fst) (h : (Core.lets bs body).toExpr.Means Δ σ t) :
    ∃ ws, ws.length = n ∧
      (∀ vs, vs.length = n → Same Δ (σ tuple) ((Tree.comb (.con 0 (UInt32.ofNat n))).apps vs) →
        Forall₂ (Same Δ) ws vs) ∧
      body.toExpr.Means Δ (assign σ (bs.map Prod.fst) ws) t := by
  obtain ⟨ws, hws, hsame, hbody⟩ := means_lets hbs htuple h
  refine ⟨ws, hws.trans hlen, fun vs hvs hcon => ?_, hbody⟩
  refine forall₂_of_getElem? (hws.trans (hlen.trans hvs.symm)) fun j w v hw hv => ?_
  exact hsame vs hvs hcon j w v hw (by rwa [Nat.zero_add])

/-- **The fixed point of a tuple solves the equations of a group.** -/
theorem solves_tieGroup {innerTuple : Name} {innerNames : List Name}
    {inside outside : List (Name × Core)} (hnodup : (binds.map Prod.fst).Nodup)
    (hbinds : ∀ b ∈ binds, b.2.Tidy P (binds.map Prod.fst ++ Γ) ∧
      b.2.ScopedIn D size (binds.map Prod.fst ++ Γ))
    (hbody : body.ScopedIn D size (binds.map Prod.fst ++ Γ))
    (htuple : tuple ∉ binds.map Prod.fst ++ Γ) (hinnerTuple : innerTuple ∉ innerNames ++ Γ)
    (hinner : innerNames.Nodup) (hlen : innerNames.length = binds.length)
    (hnew : ∀ y ∈ innerNames, ¬ P y ∧ y ∉ binds.map Prod.fst ++ Γ)
    (hinside : AreSelectors binds.length 0 innerTuple inside)
    (hin : inside.map Prod.fst = innerNames) (houtside : AreSelectors binds.length 0 tuple outside)
    (hout : outside.map Prod.fst = binds.map Prod.fst)
    (h : (Core.letIn tuple (.app (.comb .Y) (.lam innerTuple (Core.lets inside
      (.apply (.con 0 (UInt32.ofNat binds.length)) (binds.map fun b => b.2.substitute
        (assigned ((binds.map Prod.fst).zip (innerNames.map .var)))))))) (Core.lets outside body)
      ).toExpr.Means Δ σ t) : Solves Δ binds body σ t := by
  set names := binds.map Prod.fst with hnames
  have hnlen : names.length = binds.length := length_map _
  have hilen : inside.length = binds.length := by rw [← hlen, ← hin, length_map]
  have holen : outside.length = binds.length := by rw [← hnlen, ← hout, length_map]
  obtain ⟨u, ⟨y, f, hy, hf, hu⟩, hrest⟩ := h
  -- inside the fixed point
  obtain ⟨ws, hws, hsame, htied⟩ := means_lets_all hinside hilen
    (by rw [hin]; exact fun hmem => hinnerTuple (mem_append_left _ hmem)) (hf u)
  rw [hin, Core.toExpr_apply, map_map] at htied
  obtain ⟨c, vs, hc, hvs, hcon⟩ := Expr.means_apply.1 htied
  have hvlen : vs.length = binds.length := by rw [← hvs.length_eq, length_map]
  have hcon : Same Δ u ((Tree.comb (.con 0 (UInt32.ofNat binds.length))).apps vs) :=
    (same_fixedPoint hy hu).trans (hcon.trans (Conv.apps hc vs))
  have hwv := hsame vs hvlen (by rwa [Function.update_self])
  -- outside of it
  obtain ⟨ws', hws', hsame', hmeans⟩ := means_lets_all houtside holen
    (by rw [hout]; exact fun hmem => htuple (mem_append_left _ hmem)) hrest
  have hwv' := hsame' vs hvlen (by rwa [Function.update_self])
  rw [hout] at hmeans
  have hww' : Forall₂ (Same Δ) ws ws' := by
    refine forall₂_join hwv.flip hwv'.flip fun v w w' hw hw' => ?_
    exact Conv.trans hw (Conv.symm hw')
  refine ⟨assign σ names ws', fun z hz => Tree.assign_of_notMem hz, fun b hb => ?_, ?_⟩
  · obtain ⟨i, hi⟩ := getElem?_of_mem hb
    obtain ⟨v, hv, hfield⟩ := exists_getElem?_of_forall₂ hvs
      (by rw [getElem?_map, hi]; rfl)
    have hi' : names[i]? = some b.1 := by rw [hnames, getElem?_map, hi]; rfl
    have hlt : i < ws'.length := by
      rw [hws']
      exact (List.getElem?_eq_some_iff.1 hi).1
    have hw' := getElem?_eq_getElem hlt
    rw [Tree.assign_of_getElem? hnodup hi' hw']
    refine (means_inner hnodup hinner (hlen.trans hnlen.symm) (hbinds b hb).1 (hbinds b hb).2 hnew
      (hws.trans hnlen.symm) hww' (fun z hz => ?_) hfield).conv
        (getElem?_of_forall₂ hwv' i _ v hw' hv).symm
    have hne : z ≠ innerTuple := fun hzt => hinnerTuple (hzt ▸ mem_append_right _ hz)
    exact Function.update_of_ne hne ..
  · refine hmeans.congr_scoped hbody fun z hz => ?_
    have hne : z ≠ tuple := fun hzt => htuple (hzt ▸ hz)
    refine Expr.same_assign (hws'.trans hnlen.symm) fun _ => ?_
    rw [Function.update_of_ne hne]
    exact .refl _

/-!
## Added definitions
-/

/-- A top-level name that was made between two numbers. -/
def MadeGlobal (n k : Nat) (x : Name) : Prop :=
  ∃ start j, n < j ∧ j ≤ k ∧ x = start ++ "$" ++ toString j

theorem MadeGlobal.mono {n' : Nat} (h : MadeGlobal n k x) (hn : n' ≤ n) (hk : k ≤ k') :
    MadeGlobal n' k' x := by
  obtain ⟨start, j, hj, hjk, rfl⟩ := h
  exact ⟨start, j, hn.trans_lt hj, hjk.trans hk, rfl⟩

theorem MadeGlobal.ne {y : Name} (hx : MadeGlobal n k x) (hy : MadeGlobal k k' y) : x ≠ y := by
  obtain ⟨start, i, -, hi, rfl⟩ := hx
  obtain ⟨start', j, hj, -, rfl⟩ := hy
  intro heq
  have hlist := congrArg String.toList heq
  have hsplit : ∀ (start : Name) (i : Nat), (start ++ "$" ++ toString i).toList =
      start.toList ++ '$' :: (toString i).toList := by
    intro start i
    rw [String.toList_append, String.toList_append, append_assoc]
    rfl
  rw [hsplit, hsplit] at hlist
  have := number_unique rfl hlist
  omega

/-- The parameters and the binders of a definition are all different. -/
structure Tidied (N : Naming) (b : Binding Core) : Prop where
  nodup : b.params.Nodup
  params : ∀ x ∈ b.params, N.binder x
  body : b.body.Tidy N.binder b.params

/-- **Definitions with new names and tidy binders.** -/
structure Adds (N : Naming) (n k : Nat) (new : List (Binding Core)) : Prop where
  nodup : (new.map (·.name)).Nodup
  made : ∀ b ∈ new, MadeGlobal n k b.name
  tidied : ∀ b ∈ new, Tidied N b

theorem Adds.nil (n k : Nat) : Adds N n k [] :=
  ⟨nodup_nil, forall_mem_nil _, forall_mem_nil _⟩

theorem Adds.append {bs bs' : List (Binding Core)} (h : Adds N n k bs) (h' : Adds N k k' bs')
    (hn : n ≤ k) (hk : k ≤ k') : Adds N n k' (bs ++ bs') where
  nodup := by
    rw [map_append]
    refine nodup_append.2 ⟨h.nodup, h'.nodup, fun x hx y hy => ?_⟩
    obtain ⟨b, hb, rfl⟩ := mem_map.1 hx
    obtain ⟨b', hb', rfl⟩ := mem_map.1 hy
    exact (h.made b hb).ne (h'.made b' hb')
  made := forall_mem_append.2 ⟨fun b hb => (h.made b hb).mono le_rfl hk,
    fun b hb => (h'.made b hb).mono hn le_rfl⟩
  tidied := forall_mem_append.2 ⟨h.tidied, h'.tidied⟩

variable {α β : Type}

/-- **What a step of lifting gives** when names up to `n` are in use: added definitions, a result with
`Q` for the last number in use, and `M` if the added names mean their definitions. In a scope of
top-level names with `P` that has the added ones, the result has `S`, and the added definitions are in
scope as well. -/
def Lifting (N : Naming) (Δ : Name → Option Tree) (size : Option Nat) (n : Nat) (P : (Name → Prop) → Prop)
    (x : LiftM α) (Q : Nat → α → Prop) (S : (Name → Prop) → α → Prop) (M : α → Prop) : Prop :=
  ∀ s, n ≤ s.counter → ∃ new, (x s).2.lifted = s.lifted ++ new ∧ s.counter ≤ (x s).2.counter ∧
    Adds N s.counter (x s).2.counter new ∧ Q (x s).2.counter (x s).1 ∧
    (∀ D, P D → (∀ b ∈ new, D b.name) → S D (x s).1 ∧ ∀ b ∈ new, b.body.ScopedIn D size b.params) ∧
    ((∀ b ∈ new, b.Defines Δ) → M (x s).1)

variable {P P' : (Name → Prop) → Prop}

namespace Lifting

variable {Q : Nat → α → Prop} {R : Nat → β → Prop} {S : (Name → Prop) → α → Prop}
  {S' : (Name → Prop) → β → Prop} {M : α → Prop} {M' : β → Prop} {x : LiftM α}

theorem pure {a : α} (hQ : ∀ k, n ≤ k → Q k a) (hS : ∀ D, P D → S D a) (hM : M a) :
    Lifting N Δ size n P (Pure.pure a) Q S M :=
  fun s hs => ⟨[], (append_nil _).symm, le_rfl, .nil _ _, hQ s.counter hs,
    fun D hD _ => ⟨hS D hD, forall_mem_nil _⟩, fun _ => hM⟩

/-- **A sequence**: what the first part gives is known to the second, and also in scope, whatever the
top-level names are. -/
theorem bind {f : α → LiftM β} (hx : Lifting N Δ size n P x Q S M) (hP : ∀ D, P' D → P D)
    (hf : ∀ a k, n ≤ k → Q k a → (P' (fun _ => True) → S (fun _ => True) a) →
      Lifting N Δ size k (fun D => P' D ∧ S D a) (f a) R S' fun b => M a → M' b) :
    Lifting N Δ size n P' (x >>= f) R S' M' := by
  intro s hs
  obtain ⟨new, hnew, hle, hadds, hQ, hS, hM⟩ := hx s hs
  obtain ⟨new', hnew', hle', hadds', hR, hS', hM'⟩ := hf (x s).1 (x s).2.counter (hs.trans hle) hQ
    (fun hD => (hS _ (hP _ hD) fun _ _ => trivial).1) (x s).2 le_rfl
  refine ⟨new ++ new', ?_, hle.trans hle', hadds.append hadds' hle hle', hR, fun D hD hnames => ?_,
    fun hdefs => ?_⟩
  · show (f (x s).1 (x s).2).2.lifted = _
    rw [hnew', hnew, append_assoc]
  · obtain ⟨hnames, hnames'⟩ := forall_mem_append.1 hnames
    obtain ⟨hS, hscoped⟩ := hS D (hP D hD) hnames
    obtain ⟨hS', hscoped'⟩ := hS' D ⟨hD, hS⟩ hnames'
    exact ⟨hS', forall_mem_append.2 ⟨hscoped, hscoped'⟩⟩
  · obtain ⟨hdefs, hdefs'⟩ := forall_mem_append.1 hdefs
    exact hM' hdefs' (hM hdefs)

theorem imp {Q' : Nat → α → Prop} {M' : α → Prop} (hx : Lifting N Δ size n P x Q S M)
    (hQ : ∀ k a, n ≤ k → Q k a → Q' k a) (hP : ∀ D, P' D → P D) (hM : ∀ a, M a → M' a) :
    Lifting N Δ size n P' x Q' S M' := by
  intro s hs
  obtain ⟨new, hnew, hle, hadds, h, hS, h'⟩ := hx s hs
  exact ⟨new, hnew, hle, hadds, hQ _ _ (hs.trans hle) h, fun D hD => hS D (hP D hD),
    fun hdefs => hM _ (h' hdefs)⟩

end Lifting

theorem lifting_fresh {base : Name} (hbase : N.binder base) :
    Lifting N Δ size n P (fresh base) (fun k y => Made N n k y) (fun _ _ => True) fun _ => True :=
  fun s hs => ⟨[], (append_nil _).symm, Nat.le_succ _, .nil _ _, (made_freshName hbase s.counter).mono hs le_rfl,
    fun _ _ _ => ⟨trivial, forall_mem_nil _⟩, fun _ => trivial⟩

theorem lifting_freshNames {bases : List Name} (hbases : ∀ x ∈ bases, N.binder x) :
    Lifting N Δ size n P (freshNames bases) (fun k ys => ys.length = bases.length ∧ ys.Nodup ∧
      ∀ y ∈ ys, Made N n k y) (fun _ _ => True) fun _ => True := by
  unfold freshNames
  induction bases generalizing n P with
  | nil =>
    exact .pure (fun _ _ => ⟨rfl, nodup_nil, forall_mem_nil _⟩) (fun _ _ => trivial) trivial
  | cons base bases ih =>
    obtain ⟨hbase, hbases⟩ := forall_mem_cons.1 hbases
    rw [mapM_cons]
    refine (lifting_fresh hbase).bind (fun _ h => h) fun y k hk hy _ =>
      (ih hbases).bind (fun _ h => h) fun ys k' hk' hys _ =>
      .pure (fun k'' hk'' => ?_) (fun _ _ => trivial) fun _ _ => trivial
    obtain ⟨hlen, hnodup, hmade⟩ := hys
    refine ⟨congrArg (· + 1) hlen, nodup_cons.2 ⟨fun hmem => (hmade y hmem).2 hy.1, hnodup⟩,
      forall_mem_cons.2 ⟨hy.mono le_rfl (hk'.trans hk''), fun z hz => (hmade z hz).mono hk hk''⟩⟩

/-- The names made for a group are new, and all different. -/
theorem globalNames_spec (owner : Name) (xs : List Name) (s : LiftState) :
    (globalNames owner xs s).2 = ⟨s.counter + xs.length, s.lifted⟩ ∧
      (globalNames owner xs s).1.length = xs.length ∧ (globalNames owner xs s).1.Nodup ∧
      ∀ g ∈ (globalNames owner xs s).1, MadeGlobal s.counter (s.counter + xs.length) g := by
  induction xs generalizing s with
  | nil => exact ⟨rfl, rfl, nodup_nil, forall_mem_nil _⟩
  | cons x xs ih =>
    obtain ⟨hstate, hlen, hnodup, hmade⟩ := ih ⟨s.counter + 1, s.lifted⟩
    have hfirst : MadeGlobal s.counter (s.counter + 1)
        (owner ++ "$" ++ baseName x ++ "$" ++ toString (s.counter + 1)) :=
      ⟨owner ++ "$" ++ baseName x, s.counter + 1, Nat.lt_succ_self _, le_rfl, rfl⟩
    have hcount : s.counter + 1 + xs.length = s.counter + (x :: xs).length := by
      rw [length_cons]
      omega
    refine ⟨hstate.trans (by rw [hcount]), congrArg (· + 1) hlen,
      nodup_cons.2 ⟨fun hmem => hfirst.ne (hmade _ hmem) rfl, hnodup⟩,
      forall_mem_cons.2 ⟨hfirst.mono le_rfl ?_, fun g hg => (hmade g hg).mono ?_ hcount.le⟩⟩
    · rw [length_cons]
      omega
    · exact Nat.le_succ _

/-!
## Groups
-/

/-- A group in its scope. -/
structure GroupIn (D : Name → Prop) (size : Option Nat) (Γ : List Name) (binds : List (Name × Core))
    (body : Core) : Prop where
  length_le : ∀ s ∈ size, binds.length ≤ s
  members : ∀ b ∈ binds, b.2.ScopedIn D size (binds.map Prod.fst ++ Γ)
  rest : body.ScopedIn D size (binds.map Prod.fst ++ Γ)

/-- **A group whose names hide nothing**, with names up to `n` in use. -/
structure Group (N : Naming) (size : Option Nat) (n : Nat) (Γ : List Name) (binds : List (Name × Core))
    (body : Core) : Prop where
  tidy : Tidy (Numbered N n) Γ (groupMentions Core.mentions binds ++ body.mentions)
  scope : ∀ x ∈ Γ, Numbered N n x
  bound : GroupIn (fun _ => True) size Γ binds body

namespace Group

theorem names (h : Group N size n Γ binds body) : ∀ x ∈ binds.map Prod.fst, Numbered N n x :=
  fun x hx => (h.tidy.group.2.1 x hx).1

theorem new (h : Group N size n Γ binds body) {y : Name} (hk : n ≤ k) (hy : Made N k k' y) :
    ¬ Numbered N n y ∧ y ∉ binds.map Prod.fst ++ Γ :=
  ⟨fun hn => hy.2 (hn.mono hk), fun hmem => hy.2
    ((forall_mem_append.2 ⟨h.names, h.scope⟩ y hmem).mono hk)⟩

end Group

theorem count_calls (c : Core) {μ : Mention} (hμ : μ.Tracked) :
    (c.substitute (calls binds globals)).mentions.count μ = c.mentions.count μ := by
  refine Core.count_substitute fun x e he hmem => ?_
  rw [calls_eq] at he
  obtain ⟨g, -, rfl⟩ := Option.map_eq_some_iff.1 he
  rw [Core.mentions_apply, mem_append] at hmem
  rcases hmem with hmem | hmem
  · rw [mem_singleton.1 hmem] at hμ
    exact hμ
  · obtain ⟨c, hc, hmem⟩ := mem_flatMap.1 hmem
    obtain ⟨y, -, rfl⟩ := mem_map.1 hc
    cases hmem

/-- Lifting a group adds its globals, and keeps scope and meaning. -/
theorem lifting_liftGroup (owner : Name) (h : Group N size n Γ binds body) :
    Lifting N Δ size n (GroupIn · size Γ binds body) (liftGroup owner binds body)
      (fun k c => Grown N n k (groupMentions Core.mentions binds ++ body.mentions) c.mentions)
      (fun D c => c.ScopedIn D size Γ) fun c => ∀ σ t, c.toExpr.Means Δ σ t → Solves Δ binds body σ t := by
  intro s hs
  obtain ⟨hstate, hlen, hnodup, hmade⟩ := globalNames_spec owner (binds.map Prod.fst) s
  obtain ⟨hdistinct, -, hmembers, hrest⟩ := h.tidy.group
  set globals := (globalNames owner (binds.map Prod.fst) s).1 with hglobals
  rw [length_map] at hlen
  set lifted := (globals.zip binds).map fun p =>
    (⟨p.1, captured binds ++ (p.2.2.substitute (calls binds globals)).peel.1,
      (p.2.2.substitute (calls binds globals)).peel.2⟩ : Binding Core) with hlifted
  have hrun : liftGroup owner binds body s = (body.substitute (calls binds globals),
      ⟨s.counter + (binds.map Prod.fst).length, s.lifted ++ lifted⟩) := by
    show (_, LiftState.mk (globalNames owner (binds.map Prod.fst) s).2.counter
      ((globalNames owner (binds.map Prod.fst) s).2.lifted ++ lifted)) = _
    rw [hstate]
    rfl
  have hnames : lifted.map (·.name) = globals := by
    rw [hlifted, map_map]
    exact map_fst_zip hlen.le
  have hsub := captured_subset h.bound.members
  rw [hrun]
  refine ⟨lifted, rfl, Nat.le_add_right _ _, ⟨?_, fun b hb => ?_, fun b hb => ?_⟩, ?_,
    fun D hD hdefined => ?_, fun hdefs σ t ht => ?_⟩
  · rw [hnames]
    exact hnodup
  · refine hmade _ ?_
    rw [← hnames]
    exact mem_map_of_mem hb
  · -- the captured variables and the parameters of the function
    obtain ⟨⟨g, x, rhs⟩, hp, rfl⟩ := mem_map.1 hb
    obtain ⟨hparams, hnew, hbody⟩ := (hmembers _ (of_mem_zip hp).2).under fun μ hμ => by
      rw [← Core.mentions_peel (rhs.substitute (calls binds globals))]
      exact (count_calls rhs hμ).le
    have hscope : ∀ y ∈ captured binds, y ∈ binds.map Prod.fst ++ Γ := fun y hy =>
      mem_append_right _ (hsub hy)
    refine ⟨nodup_append.2 ⟨nodup_sortedNames _, hparams, ?_⟩, forall_mem_append.2
      ⟨fun y hy => (h.scope y (hsub hy)).1, fun y hy => (hnew y hy).1.1⟩,
      hbody.weaken (fun _ hy => hy.1) fun y hy _ => ?_⟩
    · rintro y hy z hz rfl
      exact (hnew y hz).2 (hscope y hy)
    · exact (mem_append.1 hy).elim (fun hy => mem_append_right _ (hscope y hy)) (mem_append_left _)
  · refine (Grown.refl (hs.trans (Nat.le_add_right _ _)) _).mono (fun _ _ => le_rfl) fun μ hμ => ?_
    rw [count_calls body hμ, count_append]
    exact Nat.le_add_left ..
  · have hglobals : ∀ g ∈ globals, D g := by
      intro g hg
      rw [← hnames] at hg
      obtain ⟨b, hb, rfl⟩ := mem_map.1 hg
      exact hdefined b hb
    obtain ⟨hbody, hbinds⟩ := scoped_calls hlen hglobals hD.members hD.rest
    refine ⟨hbody, fun b hb => ?_⟩
    obtain ⟨p, hp, rfl⟩ := mem_map.1 hb
    exact (hbinds _ (of_mem_zip hp).2).peel.mono fun y hy => mem_append.2 (mem_append.1 hy).symm
  · refine solves_liftGroup hdistinct hlen hsub hmembers hrest (fun p hp => ?_) ht
    have hdef := hdefs _ (mem_map_of_mem hp) σ
    rw [show Expr.lams (captured binds ++ (p.2.2.substitute (calls binds globals)).peel.1)
        (p.2.2.substitute (calls binds globals)).peel.2.toExpr =
          Expr.lams (captured binds) (p.2.2.substitute (calls binds globals)).toExpr by
      rw [← Core.lams_peel (p.2.2.substitute (calls binds globals))]
      exact foldr_append] at hdef
    exact hdef

theorem lifting_select (m i : Nat) (tuple : Name) :
    Lifting N Δ size n P (select m i tuple)
      (fun k c => IsSelector m i tuple c ∧ Grown N n k [] c.mentions) (fun _ _ => True) fun _ => True := by
  have hbases : ∀ x ∈ replicate m "$y", N.binder x := fun x hx => eq_of_mem_replicate hx ▸ N.field
  refine (lifting_freshNames hbases).bind (fun _ h => h) fun ys k hk hys _ =>
    .pure (fun k' hk' => ?_) (fun _ _ => trivial) fun _ => trivial
  obtain ⟨hlen, hnodup, hmade⟩ := hys
  refine ⟨⟨ys, hnodup, by rw [hlen, length_replicate], rfl⟩, ?_⟩
  refine ((Grown.fresh hk hnodup hmade).later hk').mono (fun _ _ => le_rfl) fun μ _ => ?_
  rw [Core.mentions_caseOf]
  simp [caseMentions, altMentions, show ∀ x, (Core.var x).mentions = [] from fun _ => rfl]

theorem lifting_selectors (m : Nat) (tuple : Name) (i : Nat) (xs : List Name) :
    Lifting N Δ size n P (selectors m tuple i xs) (fun k bs => bs.map Prod.fst = xs ∧
      AreSelectors m i tuple bs ∧ Grown N n k [] (bs.flatMap fun b => b.2.mentions)) (fun _ _ => True)
      fun _ => True := by
  induction xs generalizing n i P with
  | nil =>
    refine .pure (fun _ hk => ⟨rfl, fun j b hb => ?_, .refl hk _⟩) (fun _ _ => trivial) trivial
    cases hb
  | cons x xs ih =>
    refine (lifting_select m i tuple).bind (fun _ h => h) fun c k hk hc _ =>
      (ih (i + 1)).bind (fun _ h => h) fun bs k' hk' hbs _ =>
      .pure (fun k'' hk'' => ?_) (fun _ _ => trivial) fun _ _ => trivial
    obtain ⟨hnames, hselect, hgrown⟩ := hbs
    refine ⟨by rw [map_cons, hnames], fun j b hb => ?_, (hc.2.append hgrown).later hk''⟩
    cases j with
    | zero =>
      cases hb
      exact hc.1
    | succ j =>
      rw [show i + (j + 1) = i + 1 + j by omega]
      exact hselect j b hb

theorem count_assigned (c : Core) (names inner : List Name) (μ : Mention) :
    (c.substitute (assigned (names.zip (inner.map .var)))).mentions.count μ = c.mentions.count μ := by
  refine Core.count_substitute fun x e he => ?_
  obtain ⟨y, -, rfl⟩ := mem_map.1 (assigned_eq_some he)
  exact not_mem_nil

/-- Tying a group by a tuple and its selectors keeps scope and meaning. -/
theorem lifting_tieGroup (h : Group N size n Γ binds body) :
    Lifting N Δ size n (GroupIn · size Γ binds body) (tieGroup binds body)
      (fun k c => Grown N n k (groupMentions Core.mentions binds ++ body.mentions) c.mentions)
      (fun D c => c.ScopedIn D size Γ) fun c => ∀ σ t, c.toExpr.Means Δ σ t → Solves Δ binds body σ t := by
  obtain ⟨hdistinct, -, hmembers, -⟩ := h.tidy.group
  unfold tieGroup
  split
  · rename_i x rhs
    split
    · rename_i hfree
      refine .pure (fun k hk => Core.mentions_lets [(x, rhs)] body ▸ .refl hk _) (fun D hD => ?_)
        fun σ t ht => ?_
      · refine .letIn ((hD.members _ mem_cons_self).of_freeVars fun y hy => ?_) hD.rest
        refine (mem_cons.1 ((hD.members _ mem_cons_self).mem_of_freeVars hy)).resolve_left ?_
        rintro rfl
        exact hfree hy
      obtain ⟨u, hu, hbody⟩ := ht
      refine ⟨Function.update σ x u, fun y hy => ?_, fun b hb => ?_, hbody⟩
      · exact Function.update_of_ne (by simpa using hy) ..
      · obtain rfl := mem_singleton.1 hb
        rw [show Function.update σ x u (x, rhs).1 = u from Function.update_self ..]
        refine hu.congr fun y hy => .of_eq (Function.update_of_ne ?_ ..).symm
        rintro rfl
        exact hfree (mem_sortedNames.2 hy)
    · refine (lifting_fresh (N.base (h.names x mem_cons_self).1)).bind (fun _ h => h)
        fun inner k hk hinner _ => .pure (fun k' hk' => ?_) (fun D hD => ?_) fun _ σ t ht => ?_
      · refine (((Grown.fresh hk (nodup_singleton inner) (forall_mem_singleton.2 hinner)).later hk').more
          _).mono (fun _ _ => le_rfl) fun μ _ => ?_
        have hrhs := count_assigned rhs [x] [inner] μ
        rw [← Core.mentions_lets]
        simp only [Core.lets, foldr_cons, foldr_nil, Core.mentions, Core.toExpr, Expr.mentions, map_cons,
          map_nil, nil_append, zip_cons_cons, zip_nil_left, count_cons, count_append, count_nil] at hrhs ⊢
        omega
      · refine .letIn (.app (.comb _) (.lam ?_)) hD.1.rest
        have hlen : [inner].length = [x].length := rfl
        exact scoped_inner hlen (hD.1.members _ mem_cons_self) (mem_append_left Γ)
          fun y hy => mem_cons_of_mem _ hy
      · obtain ⟨hP, hnew⟩ := h.new le_rfl hinner
        exact solves_tieOne (hmembers _ mem_cons_self) (h.bound.members _ mem_cons_self) hP hnew ht
  · have hbases : ∀ x ∈ (binds.map Prod.fst).map baseName, N.binder x :=
      forall_mem_map.2 fun y hy => N.base (h.names y hy).1
    refine (lifting_fresh N.tuple).bind (fun _ h => h) fun tuple k1 hk1 htuple _ =>
      (lifting_fresh N.tuple).bind (fun _ h => h) fun innerTuple k2 hk2 hinnerTuple _ =>
      (lifting_freshNames hbases).bind (fun _ h => h) fun innerNames k3 hk3 hinner _ =>
      (lifting_selectors _ _ _ _).bind (fun _ h => h) fun inside k4 hk4 hinside _ =>
      (lifting_selectors _ _ _ _).bind (fun _ h => h) fun outside k5 hk5 houtside _ => ?_
    have hlen := hinner.1
    rw [length_map, length_map] at hlen
    refine .pure (fun k hk => ?_) (fun D hD => ?_) fun _ _ _ _ _ σ t ht => ?_
    · obtain ⟨-, hnodup, hmade⟩ := hinner
      obtain ⟨hin, -, hgrownIn⟩ := hinside
      obtain ⟨hout, -, hgrownOut⟩ := houtside
      -- what is new, and the parts of the group
      refine (((Grown.fresh hk1 (nodup_singleton tuple) (forall_mem_singleton.2 htuple)).append
        ((Grown.fresh hk2 (nodup_singleton innerTuple) (forall_mem_singleton.2 hinnerTuple)).append
        ((Grown.fresh hk3 hnodup hmade).append (hgrownIn.append (hgrownOut.later hk))))).more _).mono
        (fun _ _ => le_rfl) fun μ _ => ?_
      have hfields : ((binds.map fun b => b.2.substitute (assigned ((binds.map Prod.fst).zip
          (innerNames.map .var)))).flatMap Core.mentions).count μ =
          (binds.flatMap fun b => b.2.mentions).count μ := by
        rw [flatMap_map, count_flatMap, count_flatMap]
        exact congrArg sum (map_congr_left fun b _ => count_assigned b.2 _ _ μ)
      show count μ (Mention.binder tuple :: ((Mention.binder innerTuple :: (Core.lets inside _).mentions) ++
        (Core.lets outside body).mentions)) ≤ _
      rw [Core.mentions_lets, Core.mentions_lets, Core.mentions_apply]
      simp only [count_cons, count_append, count_groupMentions, hin, hout, hfields, map_cons, map_nil,
        count_nil]
      rw [show count μ (Core.con 0 (UInt32.ofNat binds.length)).mentions = 0 from rfl]
      omega
    · replace hD := hD.1.1.1.1.1
      have hin : inside.length = binds.length := by rw [← hlen, ← hinside.1, length_map]
      have hout : outside.length = binds.length := by rw [← length_map (f := Prod.fst), houtside.1, length_map]
      refine .letIn (.app (.comb _) (.lam (Core.ScopedIn.lets (hinside.2.1.scoped hD.length_le hin
        mem_cons_self) ?_))) (Core.ScopedIn.lets (houtside.2.1.scoped hD.length_le hout mem_cons_self) ?_)
      · refine Core.ScopedIn.apply (.con _ _) fun c hc => ?_
        obtain ⟨b, hb, rfl⟩ := mem_map.1 hc
        rw [hinside.1]
        exact scoped_inner (by rw [hlen, length_map]) (hD.members b hb) (mem_append_left _)
          fun y hy => mem_append_right _ (mem_cons_of_mem _ hy)
      · rw [houtside.1]
        exact hD.rest.mono (Expr.ScopedIn.append_subset_append _ (subset_cons_self _ _))
    · obtain ⟨-, hnodup, hmade⟩ := hinner
      refine solves_tieGroup hdistinct (fun b hb => ⟨hmembers b hb, h.bound.members b hb⟩) h.bound.rest
        (h.new le_rfl htuple).2 (fun hmem => ?_) hnodup
        hlen (fun y hy => h.new (hk1.trans hk2) (hmade y hy)) hinside.2.1 hinside.1 houtside.2.1
        houtside.1 ht
      rcases mem_append.1 hmem with hmem | hmem
      · exact (hmade _ hmem).2 hinnerTuple.1
      · exact hinnerTuple.2 ((h.scope _ hmem).mono hk1)

/-!
## Expressions
-/

/-- A core expression that means what an expression means. -/
def Reflects (Δ : Name → Option Tree) (e : Expr) (c : Core) : Prop :=
  ∀ σ t, c.toExpr.Means Δ σ t → e.Means Δ σ t

/-- **An expression whose binders hide nothing**, with names up to `n` in use. -/
structure Ready (N : Naming) (size : Option Nat) (n : Nat) (Γ : List Name) (e : Expr) : Prop where
  tidy : e.Tidy (Numbered N n) Γ
  bound : e.ScopedIn (fun _ => True) size Γ
  scope : ∀ x ∈ Γ, Numbered N n x

theorem Ready.mono {e : Expr} (h : Ready N size n Γ e) (hk : n ≤ k) : Ready N size k Γ e :=
  ⟨h.tidy.weaken (fun _ hx => hx.mono hk) fun _ hx _ => hx, h.bound, fun x hx => (h.scope x hx).mono hk⟩

/-- What lifting an expression gives. -/
def Lifted (N : Naming) (Δ : Name → Option Tree) (size : Option Nat) (owner : Name) (e : Expr) : Prop :=
  ∀ n Γ, Ready N size n Γ e →
    Lifting N Δ size n (fun D => e.ScopedIn D size Γ) (lift owner e)
      (fun k c => Grown N n k e.mentions c.mentions) (fun D c => c.ScopedIn D size Γ) (Reflects Δ e)

theorem lifting_liftBinds {binds : List (Name × Expr)} (h : ∀ b ∈ binds, Lifted N Δ size owner b.2)
    (hready : ∀ b ∈ binds, Ready N size n Γ b.2) :
    Lifting N Δ size n (fun D => ∀ b ∈ binds, b.2.ScopedIn D size Γ) (liftBinds owner binds)
      (fun k bs => bs.map Prod.fst = binds.map Prod.fst ∧
        Grown N n k (groupMentions Expr.mentions binds) (groupMentions Core.mentions bs))
      (fun D bs => ∀ b ∈ bs, b.2.ScopedIn D size Γ) fun bs => Forall₂ (fun b b' => Reflects Δ b.2 b'.2) binds bs := by
  induction binds generalizing n with
  | nil => exact .pure (fun _ hk => ⟨rfl, .refl hk _⟩) (fun _ _ => forall_mem_nil _) .nil
  | cons b binds ih =>
    obtain ⟨hb, hbinds⟩ := forall_mem_cons.1 h
    obtain ⟨hr, hrs⟩ := forall_mem_cons.1 hready
    refine (hb n Γ hr).bind (fun D hD => hD b mem_cons_self) fun rhs k hk hrhs _ =>
      (ih hbinds fun b hb => (hrs b hb).mono hk).bind (fun D hD b hb => hD.1 b (mem_cons_of_mem _ hb))
      fun bs k' hk' hbs _ => .pure (fun k'' hk'' => ?_) (fun D hD => forall_mem_cons.2 ⟨hD.1.2, hD.2⟩)
      fun hrest hfirst => .cons hfirst hrest
    exact ⟨congrArg (b.1 :: ·) hbs.1, ((hrhs.cons (.binder b.1)).append hbs.2).later hk''⟩

theorem lifting_liftAlts {alts : List (Alt Expr)} (h : ∀ alt ∈ alts, Lifted N Δ size owner alt.body)
    (hready : ∀ alt ∈ alts, Ready N size n (alt.binders ++ Γ) alt.body) :
    Lifting N Δ size n (fun D => ∀ alt ∈ alts, alt.body.ScopedIn D size (alt.binders ++ Γ))
      (liftAlts owner alts)
      (fun k alts' => Forall₂ (fun alt alt' => alt'.tag = alt.tag ∧ alt'.binders = alt.binders) alts alts' ∧
        Grown N n k (altMentions Expr.mentions alts) (altMentions Core.mentions alts'))
      (fun D alts' => ∀ alt ∈ alts', alt.body.ScopedIn D size (alt.binders ++ Γ)) fun alts' => Forall₂ (fun alt alt' => Reflects Δ alt.body alt'.body) alts alts' := by
  induction alts generalizing n with
  | nil => exact .pure (fun _ hk => ⟨.nil, .refl hk _⟩) (fun _ _ => forall_mem_nil _) .nil
  | cons alt alts ih =>
    obtain ⟨halt, halts⟩ := forall_mem_cons.1 h
    obtain ⟨hr, hrs⟩ := forall_mem_cons.1 hready
    refine (halt n _ hr).bind (fun D hD => hD alt mem_cons_self) fun body k hk hbody _ =>
      (ih halts fun alt h => (hrs alt h).mono hk).bind (fun D hD alt h => hD.1 alt (mem_cons_of_mem _ h))
      fun alts' k' hk' halts' _ => .pure (fun k'' hk'' => ?_)
      (fun D hD => forall_mem_cons.2 ⟨hD.1.2, hD.2⟩) fun hrest hfirst => .cons hfirst hrest
    exact ⟨.cons ⟨rfl, rfl⟩ halts'.1,
      (((Grown.refl le_rfl _).append hbody).append halts'.2).later hk''⟩

theorem lifting_liftOther {other : Option Expr} (h : ∀ e, other = some e → Lifted N Δ size owner e)
    (hready : ∀ e, other = some e → Ready N size n Γ e) :
    Lifting N Δ size n (fun D => ∀ e, other = some e → e.ScopedIn D size Γ) (liftOther owner other)
      (fun k other' =>
        Grown N n k (other.toList.flatMap Expr.mentions) (other'.toList.flatMap Core.mentions))
      (fun D other' => ∀ c, other' = some c → c.ScopedIn D size Γ)
      fun other' => Option.Rel (Reflects Δ) other other' := by
  cases other with
  | none => exact .pure (fun _ hk => .refl hk _) (fun _ _ c hc => nomatch hc) .none
  | some e =>
    refine (h e rfl n Γ (hready e rfl)).bind (fun D hD => hD e rfl) fun c k hk hc _ =>
      .pure (fun k' hk' => ?_) (fun D hD c' hc' => ?_) .some
    · exact (hc.append (.refl hk' [])).later le_rfl
    · cases hc'
      exact hD.2

/-- **Lifting keeps the meaning** of an expression, and its variables in scope. -/
theorem lifting_lift (owner : Name) (e : Expr) : Lifted N Δ size owner e := by
  induction e with
  | app f a ihf iha =>
    rintro n Γ ⟨htidy, hbound, hΓ⟩
    obtain ⟨htf, hta⟩ := htidy.app
    cases hbound with
    | app hbf hba =>
    refine (ihf n Γ ⟨htf, hbf, hΓ⟩).bind (fun D hD => hD.of_app.1) fun f' k hk hf' _ =>
      (iha k Γ (Ready.mono ⟨hta, hba, hΓ⟩ hk)).bind (fun D hD => hD.1.of_app.2) fun a' k' hk' ha' _ =>
      .pure (fun k'' hk'' => (hf'.append ha').later hk'') (fun D hD => .app hD.1.2 hD.2) ?_
    rintro hra hrf σ t ⟨u, v, hu, hv, ht⟩
    exact ⟨u, v, hrf σ u hu, hra σ v hv, ht⟩
  | lam x body ih =>
    rintro n Γ ⟨htidy, hbound, hΓ⟩
    obtain ⟨⟨hx, -⟩, htb⟩ := htidy.lam
    cases hbound with
    | lam hbb =>
    refine (ih n _ ⟨htb, hbb, forall_mem_cons.2 ⟨hx, hΓ⟩⟩).bind (fun D hD => hD.of_lam) fun body' k hk hbody' _ =>
      .pure (fun k' hk' => (hbody'.cons (.binder x)).later hk') (fun D hD => .lam hD.2) ?_
    exact fun hr σ t ht a => hr _ _ (ht a)
  | letIn x rhs body ihr ihb =>
    rintro n Γ ⟨htidy, hbound, hΓ⟩
    obtain ⟨htr, ⟨hx, -⟩, htb⟩ := htidy.letIn
    cases hbound with
    | letIn hbr hbb =>
    refine (ihr n Γ ⟨htr, hbr, hΓ⟩).bind (fun D hD => hD.of_letIn.1) fun rhs' k hk hrhs' _ =>
      (ihb k _ (Ready.mono ⟨htb, hbb, forall_mem_cons.2 ⟨hx, hΓ⟩⟩ hk)).bind (fun D hD => hD.1.of_letIn.2)
      fun body' k' hk' hbody' _ => .pure (fun k'' hk'' => ((hrhs'.append hbody').cons (.binder x)).later hk'')
      (fun D hD => .letIn hD.1.2 hD.2) ?_
    rintro hrb hrr σ t ⟨u, hu, ht⟩
    exact ⟨u, hrr σ u hu, hrb _ t ht⟩
  | letRec binds body ihbinds ihbody =>
    rintro n Γ ⟨htidy, hbound, hΓ⟩
    have htidy := htidy.le fun μ _ => (Expr.mentions_letRec binds body ▸ count_le_count_cons)
    obtain ⟨-, hnames, htbinds, htbody⟩ := htidy.group
    cases hbound with
    | letRec hlen hbbinds hbbody =>
    have hscope : ∀ x ∈ binds.map Prod.fst ++ Γ, Numbered N n x :=
      forall_mem_append.2 ⟨fun x hx => (hnames x hx).1, hΓ⟩
    refine (lifting_liftBinds ihbinds fun b hb => ⟨htbinds b hb, hbbinds b hb, hscope⟩).bind
      (fun D hD => hD.of_letRec.2.1) fun bs k hk hbs hsbs =>
      (ihbody k _ (Ready.mono ⟨htbody, hbbody, hscope⟩ hk)).bind (fun D hD => hD.1.of_letRec.2.2)
      fun body' k' hk' hbody' hsbody => ?_
    obtain ⟨hfst, hgrown⟩ := hbs
    have hgrown := hgrown.append hbody'
    have hin : ∀ D, ((Expr.letRec binds body).ScopedIn D size Γ ∧
        ∀ b ∈ bs, b.2.ScopedIn D size (binds.map Prod.fst ++ Γ)) ∧
        body'.ScopedIn D size (binds.map Prod.fst ++ Γ) → GroupIn D size Γ bs body' := by
      rintro D ⟨⟨h, hbs⟩, hbody⟩
      have hlen := congrArg length hfst
      rw [length_map, length_map] at hlen
      rw [← hfst] at hbs hbody
      exact ⟨fun s hs => hlen.le.trans (h.of_letRec.1 s hs), hbs, hbody⟩
    have hbound : (Expr.letRec binds body).ScopedIn (fun _ => True) size Γ := .letRec hlen hbbinds hbbody
    -- the members are lifted before the group itself is
    have hgroup : Group N size k' Γ bs body' := ⟨hgrown.tidy htidy hΓ, fun x hx => (hΓ x hx).mono hgrown.le,
      hin _ ⟨⟨hbound, hsbs hbound⟩, hsbody ⟨hbound, hsbs hbound⟩⟩⟩
    have hall : ∀ j (c : Core), k' ≤ j → Grown N k' j (groupMentions Core.mentions bs ++ body'.mentions)
        c.mentions → Grown N n j (Expr.letRec binds body).mentions c.mentions := fun j c _ hc =>
      (hgrown.trans hc).mono (fun μ _ => Expr.mentions_letRec binds body ▸ count_le_count_cons)
        fun _ _ => le_rfl
    -- a solution for the lifted members is one for the original group
    have hsolved : ∀ c, (∀ σ t, c.toExpr.Means Δ σ t → Solves Δ bs body' σ t) →
        Reflects Δ body body' → Forall₂ (fun b b' => Reflects Δ b.2 b'.2) binds bs →
        Reflects Δ (.letRec binds body) c := by
      intro c hc hrbody hrbinds σ t ht
      obtain ⟨τ, hτ, hsolves, hbody⟩ := hc σ t ht
      rw [hfst] at hτ
      refine ⟨τ, hτ, Expr.meansBinds_iff.2 fun x rhs hx => ?_, hrbody τ t hbody⟩
      obtain ⟨i, hi⟩ := getElem?_of_mem (Expr.mem_of_lookup_reverse hx).2
      obtain ⟨b', hb', hreflects⟩ := exists_getElem?_of_forall₂ hrbinds hi
      have hname : b'.1 = x := by
        have hmap := congrArg (·[i]?) hfst
        simp only [getElem?_map, hi, hb', Option.map_some] at hmap
        exact Option.some.inj hmap
      rw [← hname]
      exact hreflects τ _ (hsolves b' (mem_of_getElem? hb'))
    split
    · exact (lifting_liftGroup owner hgroup).imp hall hin hsolved
    · exact (lifting_tieGroup hgroup).imp hall hin hsolved
  | caseOf scrut arities alts other ihs iha iho =>
    rintro n Γ ⟨htidy, hbound, hΓ⟩
    rw [Expr.Tidy, Expr.mentions_caseOf] at htidy
    obtain ⟨hts, hta, hto⟩ := htidy.ofCase
    cases hbound with
    | caseOf hbs hfits hba hbo =>
    refine (ihs n Γ ⟨hts, hbs, hΓ⟩).bind (fun D hD => hD.of_caseOf.1) fun scrut' k hk hscrut' _ =>
      (lifting_liftAlts (Γ := Γ) iha fun alt halt => Ready.mono ⟨(hta alt halt).2, hba alt halt,
        forall_mem_append.2 ⟨fun x hx => ((hta alt halt).1 x hx).1, hΓ⟩⟩ hk).bind
        (fun D hD => hD.1.of_caseOf.2.1) fun alts' k' hk' halts' _ =>
      (lifting_liftOther iho fun e he => Ready.mono ⟨hto e he, hbo e he, hΓ⟩ (hk.trans hk')).bind
        (fun D hD => hD.1.1.of_caseOf.2.2) fun other' k'' hk'' hother' _ =>
      .pure (fun j hj => ?_) (fun D hD => ?_) ?_
    · rw [Expr.mentions_caseOf, Core.mentions_caseOf]
      exact (hscrut'.append (halts'.2.append hother')).later hj
    · refine Core.scoped_caseOf.2 ⟨hD.1.1.2, fun s hs alt' halt' => ?_, hD.1.2, hD.2⟩
      obtain ⟨alt, halt, htag, hbinders⟩ := exists_of_forall₂ halts'.1.flip halt'
      rw [htag, hbinders]
      exact hfits s hs alt halt
    · replace halts' := halts'.1
      intro hro hra hrs σ t ht
      rw [Core.toExpr, Core.altsToExpr_eq, Core.otherToExpr_eq] at ht
      obtain ⟨u, slots, hu, hslots, hcase, hmalts, hmother⟩ := ht
      refine ⟨u, slots, hrs σ u hu, hslots, hcase, Expr.meansAlts_iff.2 fun alt halt => ?_,
        Expr.meansOther_iff.2 fun e he i a slot hi ha hslot as has => ?_⟩
      · obtain ⟨i, hi⟩ := getElem?_of_mem halt
        obtain ⟨alt', halt', htag, hnames⟩ := exists_getElem?_of_forall₂ halts' hi
        obtain ⟨a, slot, ha, hcount, hslot, hbody⟩ := Expr.meansAlts_iff.1 hmalts _
          (mem_map_of_mem (mem_of_getElem? halt'))
        rw [htag] at ha hslot
        rw [hnames] at hcount hbody
        exact ⟨a, slot, ha, hcount, hslot, fun as has =>
          getElem?_of_forall₂ hra i alt alt' hi halt' _ _ (hbody as has)⟩
      · subst he
        cases hro with
        | some hreflects =>
          refine hreflects σ _ (Expr.meansOther_iff.1 hmother _ rfl i a slot ?_ ha hslot as has)
          have htags : alts'.map (·.tag.toNat) = alts.map (·.tag.toNat) := by
            rw [← forall₂_eq_eq_eq, forall₂_map_left_iff, forall₂_map_right_iff]
            exact halts'.flip.imp fun _ _ h => congrArg UInt32.toNat h.1
          rw [map_map]
          exact fun hmem => hi (htags ▸ hmem)
  | _ => exact fun n Γ h => .pure (fun _ hk => .refl hk _) (fun _ h => h) fun _ _ h => h

/-!
## Modules
-/

/-- A definition whose binders can be renamed. -/
def Spelled (N : Naming) (b : Binding Expr) : Prop :=
  b.body.Spelled N.binder ∧ ∀ x ∈ b.params, N.binder x

/-- The top-level name of a definition of a module means it. -/
def Means (Δ : Name → Option Tree) (b : Binding Expr) : Prop :=
  ∀ ρ, (Expr.lams b.params b.body).Means Δ ρ (.atom (.global b.name))

/-- What lifting one binding gives: the binding, then the globals it needed. -/
theorem liftBinding_spec {b : Binding Expr} (hb : Spelled N b)
    (hbound : b.body.ScopedIn (fun _ => True) size b.params) (n : Nat) :
    ∃ c new, (liftBinding b n).1 = c :: new ∧ c.name = b.name ∧ c.params.length = b.params.length ∧
      n ≤ (liftBinding b n).2 ∧
      Tidied N c ∧ Adds N n (liftBinding b n).2 new ∧
      (∀ D, b.body.ScopedIn D size b.params → (∀ b' ∈ c :: new, D b'.name) →
        ∀ b' ∈ c :: new, b'.body.ScopedIn D size b'.params) ∧
      ((∀ b' ∈ c :: new, b'.Defines Δ) → Means Δ b) := by
  obtain ⟨hle, hnodup, hmade⟩ := made_freshBinders [] hb.2 n
  have hfollows := fun ρ {as} has => @Follows.params N _ hb.2 ρ as has n
  have hcount := (freshBinders_spec [] b.params n).1
  have hscoped := Binding.scoped_rename hbound n
  set params := (freshBinders [] b.params n).1.1
  set ρ' := (freshBinders [] b.params n).1.2
  set n1 := (freshBinders [] b.params n).2
  have hgrown := Expr.grown_rename hb.1 ρ' n1
  have hparams : ∀ x ∈ params, Numbered N n1 x := fun x hx => (hmade x hx).1
  have hscope := fun x hx => (hparams x hx).mono hgrown.le
  have hready : Ready N size (b.body.rename ρ' n1).2 params (b.body.rename ρ' n1).1 :=
    ⟨hgrown.tidy ⟨fun _ => Nat.zero_le 1, nofun⟩ hparams, hscoped, hscope⟩
  obtain ⟨new, hnew, hle'', hadds, hc, hin, hmeans⟩ := lifting_lift (N := N) (Δ := Δ) b.name _ _ _ hready
    ⟨(b.body.rename ρ' n1).2, []⟩ le_rfl
  rw [nil_append] at hnew
  refine ⟨⟨b.name, params, (lift b.name (b.body.rename ρ' n1).1 ⟨(b.body.rename ρ' n1).2, []⟩).1⟩, new,
    ?_, rfl, hcount, hle.trans (hgrown.le.trans hle''), ?_, ?_, fun D hD hnames => ?_, fun hdefs ρ => ?_⟩
  · rw [← hnew]
    rfl
  · exact ⟨hnodup, fun x hx => (hparams x hx).1, (hc.tidy hready.tidy hscope).weaken (fun _ hx => hx.1)
      fun _ hx _ => hx⟩
  · exact ⟨hadds.nodup, fun b hb => (hadds.made b hb).mono (hle.trans hgrown.le) le_rfl, hadds.tidied⟩
  · exact forall_mem_cons.2 (hin D (Binding.scoped_rename hD n) (forall_mem_cons.1 hnames).2)
  · obtain ⟨hfirst, hrest⟩ := forall_mem_cons.1 hdefs
    refine Expr.means_lams.2 fun as has => ?_
    have hlifted := Expr.means_lams.1 (hfirst ρ) as (has.trans hcount.symm)
    exact Expr.means_of_rename hb.1 hbound (hfollows ρ has) (hmeans hrest _ _ hlifted)

/-- Lifting a module keeps its own names, and adds marked ones. -/
theorem liftBindings_spec {bs : List (Binding Expr)} (hbs : ∀ b ∈ bs, Spelled N b)
    (hbound : ∀ b ∈ bs, b.body.ScopedIn (fun _ => True) size b.params)
    (hmark : ∀ b ∈ bs, '$' ∉ b.name.toList) (n : Nat) :
    n ≤ (liftBindings bs n).2 ∧
      ((bs.map (·.name)).Nodup → ((liftBindings bs n).1.map (·.name)).Nodup) ∧
      (((liftBindings bs n).1.filter ('$' ∉ ·.name.toList)).map fun c => (c.name, c.params.length)) =
        (bs.map fun b => (b.name, b.params.length)) ∧
      (∀ c ∈ (liftBindings bs n).1, Tidied N c ∧
        (c.name ∈ bs.map (·.name) ∨ MadeGlobal n (liftBindings bs n).2 c.name)) ∧
      ((∀ c ∈ (liftBindings bs n).1, c.Defines Δ) → ∀ b ∈ bs, Means Δ b) := by
  -- a name with a mark was made here
  have hne : ∀ {n k : Nat} {x y : Name}, '$' ∉ x.toList → MadeGlobal n k y → x ≠ y := by
    rintro n k x y hx ⟨start, j, -, -, rfl⟩ rfl
    simp at hx
  induction bs generalizing n with
  | nil => exact ⟨le_rfl, fun _ => nodup_nil, rfl, forall_mem_nil _,
      fun _ => forall_mem_nil _⟩
  | cons b bs ih =>
    obtain ⟨hb, hbs⟩ := forall_mem_cons.1 hbs
    obtain ⟨hbb, hbound⟩ := forall_mem_cons.1 hbound
    obtain ⟨hm, hmark⟩ := forall_mem_cons.1 hmark
    obtain ⟨c, new, heq, hname, hcount, hle, htidied, hadds, -, hmeans⟩ := liftBinding_spec (Δ := Δ) hb hbb n
    obtain ⟨hle', hnodup, hkept, hrest, hmeans'⟩ := ih hbs hbound hmark (liftBinding b n).2
    have hall : (liftBindings (b :: bs) n).1 =
        c :: (new ++ (liftBindings bs (liftBinding b n).2).1) := by
      show (liftBinding b n).1 ++ _ = _
      rw [heq]
      rfl
    have hlast : (liftBindings (b :: bs) n).2 = (liftBindings bs (liftBinding b n).2).2 := rfl
    rw [hall, hlast]
    refine ⟨hle.trans hle', fun hnames => ?_, ?_, ?_, fun hdefs => ?_⟩
    · obtain ⟨hnot, hnames⟩ := nodup_cons.1 hnames
      rw [map_cons, map_append, hname]
      refine nodup_cons.2 ⟨fun hmem => ?_, nodup_append.2 ⟨hadds.nodup, hnodup hnames, ?_⟩⟩
      · rcases mem_append.1 hmem with hmem | hmem
        · obtain ⟨d, hd, hdname⟩ := mem_map.1 hmem
          exact hne hm (hadds.made d hd) hdname.symm
        · obtain ⟨d, hd, hdname⟩ := mem_map.1 hmem
          rcases (hrest d hd).2 with huser | hmade
          · rw [hdname] at huser
            exact hnot huser
          · exact hne hm hmade hdname.symm
      · intro x hx y hy
        obtain ⟨d, hd, rfl⟩ := mem_map.1 hx
        obtain ⟨d', hd', rfl⟩ := mem_map.1 hy
        rcases (hrest d' hd').2 with huser | hmade
        · obtain ⟨b', hb', hb'name⟩ := mem_map.1 huser
          rw [← hb'name]
          exact (hne (hmark b' hb') (hadds.made d hd)).symm
        · exact (hadds.made d hd).ne hmade
    · have hnew : new.filter ('$' ∉ ·.name.toList) = [] := filter_eq_nil_iff.2 fun d hd hd' =>
        hne (of_decide_eq_true hd') (hadds.made d hd) rfl
      rw [filter_cons_of_pos (by rw [hname]; exact decide_eq_true hm), filter_append, hnew, nil_append,
        map_cons, hkept, hname, hcount]
      rfl
    · refine forall_mem_cons.2 ⟨⟨htidied, .inl (hname ▸ mem_cons_self)⟩,
        forall_mem_append.2 ⟨fun d hd => ⟨hadds.tidied d hd, .inr ?_⟩, fun d hd => ?_⟩⟩
      · exact (hadds.made d hd).mono le_rfl hle'
      · refine ⟨(hrest d hd).1, (hrest d hd).2.imp (mem_cons_of_mem _) fun h => h.mono hle le_rfl⟩
    · obtain ⟨hfirst, hothers⟩ := forall_mem_cons.1 hdefs
      obtain ⟨hnew, hdefs⟩ := forall_mem_append.1 hothers
      exact forall_mem_cons.2 ⟨hmeans (forall_mem_cons.2 ⟨hfirst, hnew⟩), hmeans' hdefs⟩

theorem mem_names_liftBindings {b : Binding Expr} {bs : List (Binding Expr)} (hb : b ∈ bs) (n : Nat) :
    b.name ∈ (liftBindings bs n).1.map (·.name) := by
  induction bs generalizing n with
  | nil => exact absurd hb not_mem_nil
  | cons b' bs ih =>
    show b.name ∈ ((liftBinding b' n).1 ++ (liftBindings bs (liftBinding b' n).2).1).map (·.name)
    rw [map_append, mem_append]
    rcases mem_cons.1 hb with rfl | hb
    · exact .inl mem_cons_self
    · exact .inr (ih hb _)

theorem scoped_liftBindings {bs : List (Binding Expr)} (h : ∀ b ∈ bs, b.body.ScopedIn D size b.params) (n : Nat)
    (hD : ∀ b' ∈ (liftBindings bs n).1, D b'.name) :
    ∀ b' ∈ (liftBindings bs n).1, b'.body.ScopedIn D size b'.params := by
  induction bs generalizing n with
  | nil => exact forall_mem_nil _
  | cons b bs ih =>
    change ∀ b' ∈ (liftBinding b n).1 ++ (liftBindings bs (liftBinding b n).2).1, _ at hD
    show ∀ b' ∈ (liftBinding b n).1 ++ (liftBindings bs (liftBinding b n).2).1, _
    obtain ⟨hb, hbs⟩ := forall_mem_cons.1 h
    obtain ⟨hD, hDs⟩ := forall_mem_append.1 hD
    obtain ⟨c, new, heq, -, -, -, -, -, hin, -⟩ := liftBinding_spec (N := .any) (Δ := fun _ => none)
      ⟨b.body.spelled_any, fun _ _ => trivial⟩ (hb.weaken (fun _ _ => trivial) (List.Subset.refl _)) n
    rw [heq] at hD ⊢
    exact forall_mem_append.2 ⟨hin D hb hD, ih hbs _ hDs⟩

end Lift

/-- **The definitions of a module stay in scope** when groups are lifted out of them. -/
theorem Module.scoped_lift {m : Module}
    (h : ∀ d ∈ m.defs, d.body.ScopedIn (· ∈ m.defs.map (·.name)) size d.params) :
    ∀ b ∈ m.lift, b.body.ScopedIn (· ∈ m.lift.map (·.name)) size b.params := by
  refine Lift.scoped_liftBindings (fun d hd => (h d hd).weaken ?_ (List.Subset.refl _)) 0 fun b hb =>
    mem_map_of_mem hb
  rintro x hx
  obtain ⟨d, hd, rfl⟩ := mem_map.1 hx
  exact Lift.mem_names_liftBindings hd 0

/-- **A module that is read, after lifting.** No binder is called as a default, and the names of the module
mean its definitions if those of the lifted one do. -/
theorem Module.lift_of_read {name source : String} {m : Module} (h : Module.read name source = .ok m)
    (Δ : Name → Option Tree) :
    ((m.defs.map (·.name)).Nodup → (m.lift.map (·.name)).Nodup) ∧
      (∀ b ∈ m.lift, b.body.Tidy (baseName · ≠ "$d") b.params ∧ ∀ x ∈ b.params, baseName x ≠ "$d") ∧
      ((∀ b ∈ m.lift, b.Defines Δ) → ∀ d ∈ m.defs, Lift.Means Δ d) := by
  have hspelled := spelled_of_read h
  have hbound : ∀ d ∈ m.defs, d.body.Scoped (fun _ => True) source.length d.params := fun d hd =>
    (scoped_of_read h d hd).weaken (fun _ _ => trivial) (List.Subset.refl _)
  obtain ⟨-, hnodup, -, htidy, hmeans⟩ := Lift.liftBindings_spec (N := .noDefault) (Δ := Δ)
    (fun d hd => ⟨(hspelled d hd).2.2.imp fun _ hx => hx.baseName_ne,
      fun x hx => ((hspelled d hd).2.1 x hx).baseName_ne⟩)
    hbound (fun d hd => (hspelled d hd).1) 0
  exact ⟨hnodup, fun b hb => ⟨(htidy b hb).1.body, (htidy b hb).1.params⟩, hmeans⟩

end GraphReduction
