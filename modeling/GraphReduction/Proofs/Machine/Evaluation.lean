import GraphReduction.Proofs.Machine.Firing

/-!
# Evaluating graphs with trees

Where the tree of a cell has a weak head normal form, evaluation of the cell comes to a cell whose
tree is that of the first one, reduced; and where it has a value, evaluation comes to the value. The
machine may run out of memory, stack or fuel instead, but it does not fail in any other way.
-/

namespace GraphReduction

open List
open GraphReduction.Tree (Red Evaluates Eval Yields)

namespace Machine

variable {Δ : Name → Option Tree} {m m' m1 : Machine} {G G1 : Nat → Prop} {σ σ1 : Nat → Tree}
  {x fuel outer base low : Nat} {v : Value}

/-!
## Unwinding
-/

/-- The spines of an unwinding, each with a tree that has a weak head normal form. -/
structure Evaluating (Δ : Name → Option Tree) (outer base : Nat) (m : Machine) (G : Nat → Prop)
    (σ : Nat → Tree) : Prop extends Spines outer base m where
  unfolds : Unfolds Δ m G σ
  evaluates : ∀ b ∈ m.frames.toList.drop outer ++ [base], Evaluates Δ (σ (m.stack.getD b 0))

/-- Evaluation has come to the cell `v`, whose tree is that of stack position `low`, reduced. -/
def Unwound (Δ : Name → Option Tree) (low : Nat) (m : Machine) (σ : Nat → Tree) (v : Nat)
    (m' : Machine) : Prop :=
  ∃ G' σ', Unfolds Δ m' G' σ' ∧ G' v ∧ Rests m'.heap.get v ∧
    Red Δ (σ (m.stack.getD low 0)) (σ' v) ∧ Follows Δ low m σ m' σ'

theorem Unwound.after {v : Nat} (h : Unwound Δ low m1 σ1 v m')
    (hf : Follows Δ (low + 1) m σ m1 σ1) (hp : m1.pinned = m.pinned) : Unwound Δ low m σ v m' := by
  obtain ⟨G', σ', hu, hv, hr, hred, hf'⟩ := h
  exact ⟨G', σ', hu, hv, hr, (hf.entries low (by omega)).trans hred,
    (hf.mono (by omega)).trans hf' hp⟩

theorem Follows.of_steady (h : Steady m m1) (n : Nat) : Follows Δ n m σ m1 σ :=
  ⟨fun i _ => by rw [h.stack], fun _ _ => .refl⟩

namespace Evaluating

section

variable (h : Evaluating Δ outer base m G σ)
include h

theorem le_base {b : Nat}
    (hb : b ∈ m.frames.toList.drop outer ++ [base]) : b ≤ base := by
  rcases mem_append.1 hb with hb | hb
  · exact Nat.le_of_lt ((pairwise_append.1 h.ascending).2.2 b hb base (by simp))
  · rw [mem_singleton.1 hb]

theorem base_evaluates :
    Evaluates Δ (σ (m.stack.getD base 0)) := h.evaluates base (by simp)

theorem after (hs : Spines outer base m1)
    (hu : Unfolds Δ m1 G1 σ1) (hf : Follows Δ (base + 1) m σ m1 σ1)
    (hframes : m1.frames = m.frames) : Evaluating Δ outer base m1 G1 σ1 := by
  refine ⟨hs, hu, fun b hb => ?_⟩
  rw [hframes] at hb
  have hle := h.le_base hb
  exact hf.evaluates (by omega) (h.evaluates b hb)

/-- **A step keeps the spines.** Their heads are not applied to an action to be performed. -/
theorem keeps_step (fuel : Nat) :
    Meets (step ⟨perform fuel, normalize fuel⟩ base) m
      (fun r m1 => StepKeeps outer base m r m1 ∧ Above base m m1) fun _ _ => True := by
  by_cases hc : m.heap.get m.onTop = .prim .perform
  · have hhead : (Cell.prim .perform).NotApp := fun _ _ h => by cases h
    have hlt := h.base_lt
    have hshow := h.unfolds.shows _ (h.unfolds.sound.entry (i := m.stack.size - 1) (by omega))
    rw [hc] at hshow
    -- with all its arguments, the tree of the spine would have no weak head normal form
    have hfew : ¬ Primitive.perform.arity ≤ m.stack.size - 1 - base := by
      intro hle
      obtain ⟨args, hlen, hsat⟩ := exists_saturated h.unfolds h.toSpines h.base_evaluates
        (by rw [hc]; exact hhead) (by rw [hc]; rfl) hshow hle
      obtain ⟨n, rest, w, he⟩ := hsat.exists_eval
      obtain ⟨j, lits, r, -, hr, -⟩ := Eval.of_prim (by rw [length_map]; exact hlen) rfl he
      cases hr
    have hfew' := Nat.not_le.1 hfew
    simp only [step, meets_bind, meets_top, meets_entry, meets_cell, hc, meets_ite, meets_pure]
    rw [if_pos (by simpa using Or.inr hfew')]
    exact ⟨h.done hc hhead rfl (decide_eq_true hfew'), (Steady.refl m).above h.base_lt⟩
  · exact (steps fuel h.toSpines h.unfolds.safe hc).imp fun _ _ hs =>
      ⟨hs.1.keeps h.toSpines h.unfolds.safe, hs.2⟩

end

end Evaluating

/-- **Unwinding reduces the trees of its spines**, and ends with the first of them. -/
def UnwindsReduce (Δ : Name → Option Tree) (fuel : Nat) : Prop :=
  ∀ outer base m G σ, Evaluating Δ outer base m G σ → Meets (unwind outer fuel base) m
    (Unwound Δ (lowest outer base m) m σ) fun e _ => e.Exhausted

/-- Starting on an argument keeps what every pending spine means. -/
theorem Evaluating.suspend (h : Evaluating Δ outer base m G σ) {a : Nat} (ha : G a)
    (he : Evaluates Δ (σ a)) (hawait : Awaits m.heap.get m.stack base (m.stack.size - 1) a) :
    Meets (Machine.suspend base a) m (fun base' m' => Evaluating Δ outer base' m' G σ ∧
      lowest outer base' m' = lowest outer base m ∧
      Follows Δ (lowest outer base m + 1) m σ m' σ ∧ m'.pinned = m.pinned)
      fun e _ => e.Exhausted := by
  have hlt := h.base_lt
  have hlow := h.lowest_le
  have hspines := spines_suspend h.toSpines ⟨G, h.unfolds.sound, by simpa using ha⟩ hawait
  have hunwinding := h.toUnwinding.suspend a
  have hdrop := h.toUnwinding.drop_push base
  simp only [Machine.suspend, meets_bind, meets_enter, meets_modify, meets_push, meets_top]
    at hspines hunwinding ⊢
  split
  · trivial
  rename_i hdepth
  rw [if_neg hdepth] at hspines hunwinding
  split
  · trivial
  rename_i hstack
  rw [if_neg hstack] at hspines hunwinding
  refine ⟨⟨hspines, (h.unfolds.push ha).congr rfl (h.unfolds.push ha).sound.roots, fun b hb => ?_⟩,
    hunwinding.lowest_eq, ⟨fun i hi => ?_, fun _ _ => .refl⟩, trivial⟩
  · show Evaluates Δ (σ ((m.stack.push a).getD b 0))
    simp only [hdrop, Array.size_push, Nat.add_sub_cancel] at hb
    rcases mem_append.1 hb with hb | hb
    · have hle := h.le_base hb
      rw [getD_push_lt (by omega)]
      exact h.evaluates b hb
    · rw [mem_singleton.1 hb, getD_push_eq]
      exact he
  · show Red Δ _ (σ ((m.stack.push a).getD i 0))
    rw [getD_push_lt (by omega)]

/-- Returning to the spine below keeps its meaning. -/
theorem Evaluating.resume (h : Evaluating Δ outer base m G σ) (hne : m.frames.size ≠ outer) :
    Meets (Machine.resume base) m (fun base' m' => Evaluating Δ outer base' m' G σ ∧
      lowest outer base' m' = lowest outer base m ∧
      Follows Δ (lowest outer base m + 1) m σ m' σ ∧ m'.pinned = m.pinned)
      fun e _ => e.Exhausted := by
  have hlt := h.base_lt
  obtain ⟨l, b, hl, hle, hpop, hback⟩ := h.toUnwinding.exists_frame hne
  have hspines := spines_resume h.toSpines hne
  have hunwinding := h.toUnwinding.resume hne
  have hdrop : m.frames.toList.drop outer = l.drop outer ++ [b] := by
    rw [hl, drop_append_of_le_length hle]
  -- the bases below lie under the cut
  have hasc := h.ascending
  rw [hdrop] at hasc
  have hbelow : ∀ b' ∈ l.drop outer ++ [b], b' < base := fun b' hb' =>
    (pairwise_append.1 hasc).2.2 b' hb' base (by simp)
  have hlow : lowest outer base m < base := by
    unfold lowest
    rw [hdrop]
    cases hd : l.drop outer with
    | nil => exact hbelow b (by simp)
    | cons b' _ => exact hbelow b' (by simp [hd])
  simp only [Machine.resume, meets_bind, meets_truncate, meets_get, meets_modify, meets_pure, hback]
    at hspines hunwinding ⊢
  have hcut := h.unfolds.shrink base
  refine ⟨⟨hspines, hcut.congr rfl hcut.sound.roots, fun b' hb' => ?_⟩, hunwinding.lowest_eq,
    ⟨fun i hi => ?_, fun _ _ => .refl⟩, trivial⟩
  · show Evaluates Δ (σ ((m.stack.shrink base).getD b' 0))
    simp only [hpop] at hb'
    rw [getD_shrink (hbelow b' hb')]
    exact h.evaluates b' (by rw [hdrop]; exact mem_append_left _ hb')
  · show Red Δ _ (σ ((m.stack.shrink base).getD i 0))
    rw [getD_shrink (by omega)]

/-- A step reduces the tree at the base, and the loop goes on from there. -/
theorem UnwindsReduce.goOn (ih : UnwindsReduce Δ fuel) (h : Evaluating Δ outer base m G σ) :
    Meets (do goOn outer fuel base (← step ⟨perform fuel, normalize fuel⟩ base)) m
      (Unwound Δ (lowest outer base m) m σ) fun e _ => e.Exhausted := by
  have hlow := h.lowest_le
  refine ((reduces_step (quiet_perform fuel) (quiet_normalize fuel) h.toSpines h.unfolds
    h.base_evaluates).also (h.keeps_step fuel)).bind fun r m1 h1 => ?_
  obtain ⟨hred, ⟨hs1, -, hprogress⟩, habove⟩ := h1
  have hlow1 : lowest outer base m1 = lowest outer base m := lowest_congr habove.frames
  cases r with
  | again =>
    obtain ⟨G1, σ1, hu1, hf1⟩ := hred
    have hnext := ih outer base m1 G1 σ1 (h.after hs1 hu1 hf1 habove.frames)
    rw [hlow1] at hnext
    exact hnext.imp fun _ _ hv => hv.after (hf1.mono (by omega)) habove.pinned
  | force a =>
    obtain ⟨rfl, ha, he⟩ := hred
    simp only [Machine.goOn]
    refine (h.suspend ha he hprogress.1).bind fun base' m2 h2 => ?_
    obtain ⟨h2, hlow2, hf2, hp2⟩ := h2
    have hnext := ih outer base' m2 G σ h2
    rw [hlow2] at hnext
    exact hnext.imp fun _ _ hv => hv.after hf2 hp2
  | done =>
    obtain rfl := hred
    obtain ⟨args, hu, hrest⟩ := hprogress
    simp only [Machine.goOn, meets_bind, meets_get, meets_ite, meets_entry]
    split
    · rename_i hsize
      have hbase : lowest outer base m1 = base := by
        unfold lowest
        rw [drop_of_length_le (by rw [Array.length_toList]; omega)]
        rfl
      rw [hbase]
      exact ⟨G, σ, h.unfolds, h.unfolds.sound.entry h.base_lt, ⟨args, _, hu, hrest⟩, .refl,
        .refl _ _ _⟩
    · rename_i hsize
      refine (h.resume hsize).imp fun base' m2 h2 => ?_
      obtain ⟨h2, hlow2, hf2, hp2⟩ := h2
      have hnext := ih outer base' m2 G σ h2
      rw [hlow2] at hnext
      exact hnext.imp fun _ _ hv => hv.after hf2 hp2

theorem unwinds_reduce (Δ : Name → Option Tree) (fuel : Nat) : UnwindsReduce Δ fuel := by
  induction fuel with
  | zero => exact fun _ _ _ _ _ _ => trivial
  | succ fuel ih =>
    intro outer base m G σ h
    rw [unwind_succ]
    refine ((h.unfolds.reserve _).also ((spines_reserve h.toSpines h.unfolds.safe _).and
      (Quiet.safePoint m))).bind fun _ m1 h1 => ?_
    obtain ⟨⟨G1, hu1⟩, ⟨hs1, -⟩, hst⟩ := h1
    have hf : ∀ n, Follows Δ n m σ m1 σ := Follows.of_steady hst
    have hnext := ih.goOn (h.after hs1 hu1 (hf _) hst.frames)
    rw [lowest_congr hst.frames] at hnext
    exact hnext.imp fun _ _ hv => hv.after (hf _) hst.pinned

/-- **Evaluation to weak head normal form** reduces the tree of a cell. -/
theorem reduces_whnf (h : Unfolds Δ m G σ) (hx : G x) (he : Evaluates Δ (σ x)) (fuel : Nat) :
    Meets (whnf fuel x) m (fun v m' => ∃ G' σ', Unfolds Δ m' G' σ' ∧ G' v ∧
      Rests m'.heap.get v ∧ Red Δ (σ x) (σ' v) ∧ Follows Δ m.stack.size m σ m' σ')
      fun e _ => e.Exhausted := by
  rw [whnf, meets_nested]
  simp only [meets_bind, meets_enter, meets_push, meets_get]
  split
  · trivial
  split
  · trivial
  have hpush := h.push hx
  have hstart : Evaluating Δ m.frames.size m.stack.size
      { m with depth := m.depth + 1, stack := m.stack.push x } G σ := by
    have hs := Spines.start (m := { m with depth := m.depth + 1, stack := m.stack.push x }) (by simp)
    simp only [Array.size_push, Nat.add_sub_cancel] at hs
    refine ⟨hs, hpush.congr rfl hpush.sound.roots, fun b hb => ?_⟩
    obtain rfl : b = m.stack.size := by
      simpa [drop_of_length_le (Nat.le_of_eq m.frames.length_toList)] using hb
    show Evaluates Δ (σ ((m.stack.push x).getD m.stack.size 0))
    rw [getD_push_eq]
    exact he
  have hlow : lowest m.frames.size m.stack.size
      { m with depth := m.depth + 1, stack := m.stack.push x } = m.stack.size := by
    simp [lowest]
  have hunwind := unwinds_reduce Δ fuel _ _ _ _ _ hstart
  rw [hlow] at hunwind
  refine hunwind.imp fun v m' hv => ?_
  obtain ⟨G', σ', hu, hv, hr, hred, hf⟩ := hv
  have hcut := hu.shrink m.stack.size
  refine ⟨G', σ', hcut.congr rfl hcut.sound.roots, hv, hr, ?_, fun i hi => ?_, hf.pinned⟩
  · have hpushed : (m.stack.push x).getD m.stack.size 0 = x := getD_push_eq
    rw [hpushed] at hred
    exact hred
  · show Red Δ _ (σ' ((m'.stack.shrink m.stack.size).getD i 0))
    rw [getD_shrink hi]
    have hi' := hf.entries i hi
    have hpushed : (m.stack.push x).getD i 0 = m.stack.getD i 0 := getD_push_lt hi
    rw [hpushed] at hi'
    exact hi'

/-!
## Values
-/

section Forms

variable {h : Heap} {args : List Nat} {y : Nat}

theorem isActionIn_of_head (hu : Unwinds h.get x args y)
    (hcomb : ∀ c, h.get y = .comb c → c.isAction = false) (hprim : ∀ p, h.get y ≠ .prim p) :
    isActionIn h x = false := by
  unfold isActionIn
  rw [hu.spineOf_eq]
  split
  · exact hcomb _ ‹_›
  · exact absurd ‹_› (hprim _)
  · rfl

theorem valueForm_of_scalar {s : Scalar} (hu : Unwinds h.get x [] y) (hc : h.get y = .scalar s) :
    valueForm h x = .inl (scalarValue s) := by
  unfold valueForm
  simp only [hu.spineOf_eq, hc]
  rfl

theorem valueForm_of_con {tag arity : UInt32} (hu : Unwinds h.get x args y)
    (hc : h.get y = .comb (.con tag arity)) (hlen : args.length = arity.toNat) :
    valueForm h x = if args.isEmpty then .inl (.con tag []) else .inr (tag, args) := by
  unfold valueForm
  simp only [hu.spineOf_eq, hc, hlen, ne_eq, not_true_eq_false, if_false]

end Forms

/-- A cell at rest whose tree yields a value has that value's form. -/
theorem valueForm_of_yields (h : Unfolds Δ m G σ) (hx : G x) (hr : Rests m.heap.get x)
    (hv : Yields Δ (σ x) v) : isActionIn m.heap x = false ∧ (valueForm m.heap x = .inl v ∨
      ∃ tag fields vs, v = .con tag vs ∧ valueForm m.heap x = .inr (tag, fields) ∧ fields ≠ [] ∧
        (∀ a ∈ fields, G a) ∧ Forall₂ (fun a u => Yields Δ (σ a) u) fields vs) := by
  obtain ⟨args, y, hu, hr⟩ := hr
  obtain ⟨a, hred, hra, hlit, hcomb⟩ := h.rests hx hu hr
  obtain ⟨-, hmem, -⟩ := h.unwinds hx hu
  -- a literal is all that its cell holds
  have literal {l : Literal} {n : Nat} (he : Eval Δ n (σ x) (.atom (.lit l))) :
      isActionIn m.heap x = false ∧ valueForm m.heap x = .inl (scalarValue (.ofLiteral l)) := by
    obtain ⟨rfl, hnil⟩ := hred.eval_lit hra he
    obtain rfl := map_eq_nil_iff.1 hnil
    have hc := hlit _ rfl
    exact ⟨isActionIn_of_head hu (by simp [hc]) (by simp [hc]), valueForm_of_scalar hu hc⟩
  cases hv with
  | int he => exact ⟨(literal he).1, Or.inl (literal he).2⟩
  | char he => exact ⟨(literal he).1, Or.inl (literal he).2⟩
  | @con n _ tag arity fields vs he hlen hvs hyields =>
    obtain ⟨rfl, hfields⟩ := hred.eval_con hra he
    have hc := hcomb _ rfl
    have hargs : args.length = arity.toNat := by
      rw [← hlen, hfields.length_eq, length_map]
    have hform := valueForm_of_con hu hc hargs
    refine ⟨isActionIn_of_head hu (by rintro c hc'; rw [hc] at hc'; cases hc'; rfl) (by simp [hc]), ?_⟩
    have hvalues : Forall₂ (fun a u => Yields Δ (σ a) u) args vs := by
      rw [forall₂_map_right_iff] at hfields
      refine forall₂_of_getElem? (hfields.length_eq.symm.trans hvs) fun i b u hb hu => ?_
      have hi := (List.getElem?_eq_some_iff.1 hb).1
      have ht : fields[i]? = some fields[i] := getElem?_eq_getElem (by
        rw [hfields.length_eq]
        exact hi)
      exact (getElem?_of_forall₂ hfields i _ b ht hb).yields (hyields i _ u ht hu)
    cases args with
    | nil =>
      cases hvalues
      exact Or.inl hform
    | cons a args => exact Or.inr ⟨tag, a :: args, vs, rfl, hform, by simp, hmem, hvalues⟩

/-- The value that open constructors come to with their missing fields. -/
def closeAll : List Value → List OpenValue → Option Value
  | [], _ => none
  | v :: vs, pending =>
    match closeValue v pending with
    | .inl w => if vs = [] then some w else none
    | .inr pending => closeAll vs pending

theorem closeAll_fields (tag : UInt32) {us : List Value} (hus : us ≠ []) (done vs : List Value)
    (pending : List OpenValue) :
    closeAll (us ++ vs) (⟨tag, us.length, done⟩ :: pending) =
      closeAll (.con tag (done.reverse ++ us) :: vs) pending := by
  induction us generalizing done with
  | nil => exact absurd rfl hus
  | cons u us ih =>
    cases us with
    | nil =>
      show closeAll (u :: vs) _ = _
      simp only [closeAll, closeValue, length_singleton, Nat.le_refl, if_true,
        reverse_cons]
    | cons u' us =>
      have hmissing : ¬ (u :: u' :: us).length ≤ 1 := by simp
      show closeAll (u :: ((u' :: us) ++ vs)) _ = _
      rw [closeAll, closeValue, if_neg hmissing]
      show closeAll ((u' :: us) ++ vs) (⟨tag, (u' :: us).length, u :: done⟩ :: pending) = _
      rw [ih (by simp), reverse_cons, append_assoc, singleton_append]

theorem meets_pushAll (ids : List Nat) : Meets (pushAll ids) m
    (fun _ m' => m' = { m with stack := m.stack ++ ids.reverse.toArray })
    fun e _ => e.Exhausted := by
  induction ids with
  | nil => simp [pushAll]
  | cons id ids ih =>
    simp only [pushAll]
    refine ih.bind fun _ m1 h1 => ?_
    subst h1
    rw [meets_push]
    split
    · trivial
    · simp

/-- The cells on the stack above `base`, the top one first, have trees with these values. -/
structure Normalizing (Δ : Name → Option Tree) (base : Nat) (m : Machine) (σ : Nat → Tree)
    (vs : List Value) : Prop where
  size : m.stack.size = base + vs.length
  yields : ∀ i v, vs[i]? = some v → Yields Δ (σ (m.stack.getD (m.stack.size - 1 - i) 0)) v

theorem Normalizing.push {fields : List Nat} {us vs : List Value} (hn : Normalizing Δ base m σ vs)
    (hfields : Forall₂ (fun a u => Yields Δ (σ a) u) fields us) :
    Normalizing Δ base { m with stack := m.stack ++ fields.reverse.toArray } σ (us ++ vs) := by
  have hsize := hn.size
  have hlen := hfields.length_eq
  refine ⟨?_, fun i v hv => ?_⟩
  · simp only [Array.size_append, size_toArray, length_reverse, length_append]
    omega
  · show Yields Δ (σ ((m.stack ++ fields.reverse.toArray).getD
      ((m.stack ++ fields.reverse.toArray).size - 1 - i) 0)) v
    have hi : i < us.length + vs.length := by
      simpa using (List.getElem?_eq_some_iff.1 hv).1
    have hnew : fields.reverse.toArray.size = fields.length := by simp
    rw [Array.getD_eq_getD_getElem?, Array.getElem?_append, Array.size_append, hnew]
    rw [getElem?_append] at hv
    by_cases hlt : i < us.length
    · rw [if_pos hlt] at hv
      rw [if_neg (by omega), getElem?_toArray, getElem?_reverse (by omega),
        show fields.length - 1 - (m.stack.size + fields.length - 1 - i - m.stack.size) = i by omega]
      have hf : fields[i]? = some fields[i] := getElem?_eq_getElem (by omega)
      rw [hf]
      exact getElem?_of_forall₂ hfields i _ v hf hv
    · rw [if_neg hlt] at hv
      rw [if_pos (by omega), ← Array.getD_eq_getD_getElem?,
        show m.stack.size + fields.length - 1 - i = m.stack.size - 1 - (i - us.length) by omega]
      exact hn.yields _ v hv

theorem Unfolds.pushAll (h : Unfolds Δ m G σ) {ids : List Nat} (hids : ∀ a ∈ ids, G a) :
    Unfolds Δ { m with stack := m.stack ++ ids.reverse.toArray } G σ := by
  refine h.congr rfl fun y hy => ?_
  simp only [roots, Array.toList_append, mem_append, mem_reverse] at hy
  rcases hy with (hy | hy) | hy
  · exact h.sound.roots y (mem_append_left _ hy)
  · exact hids y hy
  · exact h.sound.roots y (mem_append_right _ hy)

/-- **The cells above `base` are evaluated to the missing fields.** -/
theorem normalizeFrom_of_yields {pending : List OpenValue} {vs : List Value} (h : Unfolds Δ m G σ)
    (hn : Normalizing Δ base m σ vs) (hv : closeAll vs pending = some v) :
    Meets (normalizeFrom base fuel pending) m (fun w _ => w = v) fun e _ => e.Exhausted := by
  -- a turn takes the top cell; what the cells come to, put into the open constructors, stays `v`
  induction fuel generalizing m G σ vs pending with
  | zero => trivial
  | succ fuel ih =>
    obtain ⟨u, vs, rfl⟩ : ∃ u us, vs = u :: us := by
      cases vs with
      | nil => cases hv
      | cons u us => exact ⟨u, us, rfl⟩
    have hsize := hn.size
    rw [length_cons] at hsize
    rw [normalizeFrom_succ]
    simp only [meets_bind, meets_get, meets_ite, meets_malformed, meets_top, meets_entry]
    rw [if_neg (by omega)]
    have htop : G m.onTop := h.sound.entry (by omega)
    have hu := hn.yields 0 u rfl
    refine ((reduces_whnf h htop hu.evaluates fuel).also (quiet_whnf fuel _ m)).imp fun x m1 h1 => ?_
    obtain ⟨⟨G1, σ1, h1, hx, hr, hred, hf⟩, hst⟩ := h1
    simp only [meets_truncate]
    have hcut := h1.shrink (m.stack.size - 1)
    have hrest : Normalizing Δ base { m1 with stack := m1.stack.shrink (m.stack.size - 1) } σ1 vs := by
      have hcutSize : (m1.stack.shrink (m.stack.size - 1)).size = base + vs.length := by
        rw [Array.size_shrink, hst.stack]
        omega
      refine ⟨hcutSize, fun i w hw => ?_⟩
      have hi := (List.getElem?_eq_some_iff.1 hw).1
      show Yields Δ (σ1 ((m1.stack.shrink (m.stack.size - 1)).getD
        ((m1.stack.shrink (m.stack.size - 1)).size - 1 - i) 0)) w
      rw [hcutSize, getD_shrink (by omega),
        show base + vs.length - 1 - i = m.stack.size - 1 - (i + 1) by omega]
      exact (hf.entries _ (by omega)).yields (hn.yields (i + 1) w hw)
    rcases (valueForm_of_yields h1 hx hr (hred.yields hu)).2 with hform | hform
    · rw [hform]
      rw [closeAll] at hv
      simp only [addValue]
      cases hclose : closeValue u pending with
      | inl w =>
        rw [hclose] at hv
        by_cases hvs : vs = []
        · simpa [hvs] using hv
        · simp [hvs] at hv
      | inr pending' =>
        rw [hclose] at hv
        exact ih hcut hrest hv
    · obtain ⟨tag, fields, us, rfl, hform, hne, hmem, hfields⟩ := hform
      rw [hform]
      simp only [addValue]
      refine (meets_pushAll fields).bind fun _ m2 h2 => ?_
      subst h2
      refine ih (hcut.pushAll hmem) (hrest.push hfields) ?_
      have hus : us ≠ [] := by
        rintro rfl
        exact hne (eq_nil_of_length_eq_zero hfields.length_eq)
      rw [hfields.length_eq, closeAll_fields tag hus]
      exact hv

/-- **A cell whose tree has a value is evaluated to the value.** -/
theorem normalize_of_yields (h : Unfolds Δ m G σ) (hx : G x) (hv : Yields Δ (σ x) v) (fuel : Nat) :
    Meets (normalize fuel x) m (fun w _ => w = v) fun e _ => e.Exhausted := by
  rw [normalize, meets_nested]
  simp only [meets_bind, meets_enter, meets_push]
  split
  · trivial
  split
  · trivial
  have hpush := h.push hx
  have hvalue : closeAll [v] [] = some v := rfl
  refine normalizeFrom_of_yields (G := G) (σ := σ) (hpush.congr rfl hpush.sound.roots)
    ⟨by simp, fun i w hw => ?_⟩ hvalue
  obtain ⟨rfl, rfl⟩ : i = 0 ∧ w = v := by
    cases i with
    | zero => exact ⟨rfl, by simpa using hw.symm⟩
    | succ i => cases hw
  show Yields Δ (σ ((m.stack.push x).getD ((m.stack.push x).size - 1) 0)) w
  rw [Array.size_push, Nat.add_sub_cancel, getD_push_eq]
  exact hv

/-- **A definition whose tree has a value is evaluated to the value.** -/
theorem evaluate_of_yields (h : Unfolds Δ m G σ) (hx : x ∈ m.pinned) (hv : Yields Δ (σ x) v)
    (fuel : Nat) : Meets (evaluate fuel x) m (fun w _ => w = v) fun e _ => e.Exhausted := by
  have hG : G x := h.sound.roots x (mem_append_right _ hx)
  rw [evaluate]
  refine ((reduces_whnf h hG hv.evaluates fuel).also (quiet_whnf fuel x m)).bind fun y m1 h1 => ?_
  obtain ⟨⟨G1, σ1, h1, hy, hr, hred, hf⟩, hst⟩ := h1
  have haction := (valueForm_of_yields h1 hy hr (hred.yields hv)).1
  simp only [meets_bind, meets_get, haction, Bool.false_eq_true, if_false]
  -- the definition is still there, and its tree was reduced
  have hx1 : G1 x := h1.sound.roots x (mem_append_right _ (by rw [hst.pinned]; exact hx))
  exact normalize_of_yields h1 hx1 ((hf.pinned x hx).yields hv) fuel

theorem onWorld_flushAll (m : Machine) : ∃ m', onWorld .flushAll m = .ok () m' := by
  have hbelow : ∀ n w, Meets (World.flushBelow n) w (fun _ _ => True) fun _ _ => False := by
    intro n
    induction n with
    | zero => exact fun _ => trivial
    | succ n ih =>
      intro w
      rw [World.flushBelow]
      exact (ih w).bind fun _ _ _ => trivial
  have hall : Meets World.flushAll m.world (fun _ _ => True) fun _ _ => False :=
    hbelow m.world.handles.size m.world
  unfold onWorld
  cases hw : Operation.flushAll.perform m.world with
  | ok a w => exact ⟨_, rfl⟩
  | error e w => exact (hall.error hw).elim

/-- **A run of a definition whose tree has a value ends with the value**, unless the machine runs out
of memory, stack or fuel. -/
theorem run_of_yields (h : Unfolds Δ m G σ) (hx : x ∈ m.pinned) (hv : Yields Δ (σ x) v) (fuel : Nat)
    :
    Meets (run fuel x) m (fun o _ => o = .value v) fun e _ => e.Exhausted := by
  refine meets_run ((evaluate_of_yields h hx hv fuel).mono (fun w m1 hw => ?_) fun e m1 he => ⟨?_, he⟩)
  · obtain ⟨m2, hflush⟩ := onWorld_flushAll m1
    rw [meets_of_ok hflush, hw]
  · rintro status rfl
    exact he.elim

end Machine

end GraphReduction
