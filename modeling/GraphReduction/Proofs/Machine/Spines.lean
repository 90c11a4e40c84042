import GraphReduction.Proofs.Heap.Spine
import GraphReduction.Proofs.Machine.Safe

/-!
# The spines on the stack

While a cell is unwound, the entries of the stack above its base are the applications of its
spine, and below it lie the spines of the rules that wait for it. A rule overwrites its redex in
place, and none of these applications must be hit by that.
-/

namespace GraphReduction

open List

namespace Machine

variable {c : Cell} {n k : Nat}

/-!
## Spines and what changes them
-/

/-- The entries from position `b` up to position `t` are a part of a spine. -/
def Segment (v : View) (s : Array Nat) (b t : Nat) : Prop :=
  ∀ i, b ≤ i → i < t → ∃ f a, v (s.getD i 0) = .app f a ∧ SameEnd v f (s.getD (i + 1) 0)

/-- The spine of `x` has enough arguments for a rule. -/
def Busy (v : View) (x : Nat) : Prop :=
  ∃ args y, Unwinds v x args y ∧ rests (v y) args.length = false

/-- The spine of `x` is in weak head normal form. -/
def Rests (v : View) (x : Nat) : Prop :=
  ∃ args y, Unwinds v x args y ∧ rests (v y) args.length = true

/-- For a head that may wait for arguments, its arity and the number of arguments that it can
wait for. -/
def strictness : Cell → Option (Nat × Nat)
  | .comb (.caseOf n) => some (n.toNat + 1, 1)
  | .prim p => if p.isAction then none else some (p.arity, p.forced)
  | _ => none

/-- The head at position `t`, on a spine from position `b`, can wait for `a`. -/
def Awaits (v : View) (s : Array Nat) (b t a : Nat) : Prop :=
  ∃ arity forced k f, strictness (v (s.getD t 0)) = some (arity, forced) ∧ arity ≤ t - b ∧
    k < forced ∧ v (s.getD (t - (k + 1)) 0) = .app f a

/-- The spine between `b` and `e` waits for the cell at position `e`. -/
structure Waits (v : View) (s : Array Nat) (b e : Nat) : Prop where
  segment : Segment v s b (e - 1)
  awaits : ∃ a, Awaits v s b (e - 1) a ∧ SameEnd v a (s.getD e 0)

/-- Parts of the stack that start at the given positions, the innermost first, and are followed
by position `e`. -/
inductive Stacked (W : Nat → Nat → Prop) : List Nat → Nat → Prop
  | nil {e : Nat} : Stacked W [] e
  | cons {b e : Nat} {bs : List Nat} : b < e → W b e → Stacked W bs b → Stacked W (b :: bs) e

theorem Primitive.forced_le_arity (p : Primitive) : p.forced ≤ p.arity := by
  cases p <;> decide

theorem forced_le_arity {arity forced : Nat} (h : strictness c = some (arity, forced)) :
    forced ≤ arity := by
  unfold strictness at h
  split at h
  · cases h; omega
  · split at h <;> cases h
    exact Primitive.forced_le_arity _
  · cases h

theorem isHead_of_strictness {r : Nat × Nat} (h : strictness c = some r) :
    c.NotApp ∧ c.isInd = false := by
  cases c with
  | comb _ | prim _ => exact ⟨(fun _ _ h => by cases h), rfl⟩
  | _ => cases h

theorem rests_of_strictness {arity forced : Nat} (h : strictness c = some (arity, forced))
    (hn : arity ≤ n) : rests c n = false := by
  unfold strictness at h
  split at h
  · cases h
    exact decide_eq_false (by omega)
  · rename_i p
    split at h <;> cases h
    rename_i ha
    simp [rests, ha, hn]
  · cases h

section Segments

variable {v v' : View} {s : Array Nat} {b e t i x R y a : Nat} {args : List Nat} {bs : List Nat}
  {s' : Array Nat}

theorem Busy.of_sameEnd (h : Busy v x) (hs : SameEnd v x y) : Busy v y := by
  obtain ⟨args, z, hu, hr⟩ := h
  exact ⟨args, z, hu.of_sameEnd hs, hr⟩

theorem SameEnd.symm (h : SameEnd v x y) : SameEnd v y x := by
  obtain ⟨z, hx, hy⟩ := h
  exact ⟨z, hy, hx⟩

/-- A segment of the stack is a spine of the heap, argument by argument. -/
theorem Segment.unwinds (h : Segment v s b t) (hn : (v (s.getD t 0)).NotApp)
    (hi : (v (s.getD t 0)).isInd = false) {q : Nat} (hbq : b ≤ q) (hqt : q ≤ t) :
    ∃ args, Unwinds v (s.getD q 0) args (s.getD t 0) ∧ args.length = t - q ∧
      ∀ k a, args[k]? = some a → ∃ f, v (s.getD (t - (k + 1)) 0) = .app f a := by
  obtain ⟨d, hd⟩ : ∃ d, t = q + d := ⟨t - q, by omega⟩
  induction d generalizing q with
  | zero =>
    obtain rfl : t = q := hd
    exact ⟨[], .head (.here hi) hn, by simp, by simp⟩
  | succ d ih =>
    obtain ⟨args, hu, hlen, hargs⟩ := ih (q := q + 1) (by omega) (by omega) (by omega)
    obtain ⟨f, a, hc, hs⟩ := h q hbq (by omega)
    refine ⟨args ++ [a], .app (.here (by rw [hc]; rfl)) hc (hu.of_sameEnd (SameEnd.symm hs)), ?_, ?_⟩
    · rw [length_append, length_singleton]; omega
    · intro k a' hk
      rcases Nat.lt_or_ge k args.length with hlt | hge
      · rw [getElem?_append_left hlt] at hk
        exact hargs k a' hk
      · rw [getElem?_append_right hge] at hk
        obtain ⟨hk0, rfl⟩ : k - args.length = 0 ∧ a = a' := by
          rcases hkl : k - args.length with _ | n
          · rw [hkl] at hk; simpa using hk
          · rw [hkl] at hk; simp at hk
        exact ⟨f, by rw [show t - (k + 1) = q by omega]; exact hc⟩

theorem Waits.busy (h : Waits v s b e) (hbe : b < e) : Busy v (s.getD b 0) := by
  obtain ⟨a, ⟨arity, forced, k, f, hst, hle, -⟩, -⟩ := h.awaits
  obtain ⟨hn, hi⟩ := isHead_of_strictness hst
  obtain ⟨args, hu, hlen, -⟩ := h.segment.unwinds hn hi (Nat.le_refl b) (by omega)
  exact ⟨args, _, hu, rests_of_strictness hst (by omega)⟩

/-- The arguments of a redex are as many as its rule takes, and what the rule can wait for is
evaluated. -/
def Ready (v : View) (args : List Nat) (head : Cell) : Prop :=
  ∀ arity forced, strictness head = some (arity, forced) →
    args.length = arity ∧ ∀ k a, k < forced → args[k]? = some a → ¬ Busy v a

theorem Waits.ne_redex (h : Waits v s b e) (hbusy : Busy v (s.getD e 0)) (hu : Unwinds v R args y)
    (hr : Ready v args (v y)) (hbi : b ≤ i) (hie : i < e) : s.getD i 0 ≠ R := by
  rintro rfl
  obtain ⟨a, ⟨arity, forced, k, f, hst, -, hk, hc⟩, hend⟩ := h.awaits
  obtain ⟨hn, hi⟩ := isHead_of_strictness hst
  obtain ⟨args', hu', hlen, hargs⟩ := h.segment.unwinds hn hi hbi (by omega)
  obtain ⟨rfl, rfl⟩ := hu.unique hu'
  obtain ⟨harity, hev⟩ := hr arity forced hst
  -- the argument that is waited for is an argument of the redex too
  have hklt : k < args.length := by have := forced_le_arity hst; omega
  obtain ⟨f', hc'⟩ := hargs k args[k] (by simp [hklt])
  rw [hc] at hc'
  cases hc'
  exact hev k _ hk (by simp [hklt]) (hbusy.of_sameEnd (SameEnd.symm hend))

theorem Segment.ne_redex (h : Segment v s b t) (hn : (v (s.getD t 0)).NotApp)
    (hi : (v (s.getD t 0)).isInd = false) (hbi : b ≤ i) (hit : i < t - n) :
    s.getD i 0 ≠ s.getD (t - n) 0 := by
  intro heq
  obtain ⟨args, hu, hlen, -⟩ := h.unwinds hn hi hbi (by omega)
  obtain ⟨args', hu', hlen', -⟩ := h.unwinds hn hi (q := t - n) (by omega) (by omega)
  rw [heq] at hu
  rw [(hu.unique hu').1] at hlen
  omega

theorem Stacked.imp {W W' : Nat → Nat → Prop} (h : Stacked W bs e)
    (himp : ∀ b e', b < e' → e' ≤ e → W b e' → W' b e') : Stacked W' bs e := by
  induction h with
  | nil => exact .nil
  | cons hlt hw _ ih =>
    exact .cons hlt (himp _ _ hlt (Nat.le_refl _) hw)
      (ih fun b e' hb he' => himp b e' hb (by omega))

theorem Stacked.and {W W' : Nat → Nat → Prop} (h : Stacked W bs e) (h' : Stacked W' bs e) :
    Stacked (fun b e => W b e ∧ W' b e) bs e := by
  induction h with
  | nil => exact .nil
  | cons hlt hw _ ih =>
    cases h' with
    | cons _ hw' h' => exact .cons hlt ⟨hw, hw'⟩ (ih h')

theorem Segment.congr (h : Segment v s b t) (hs : ∀ i, i ≤ t → s'.getD i 0 = s.getD i 0) :
    Segment v s' b t := by
  intro i hbi hit
  rw [hs i (by omega), hs (i + 1) (by omega)]
  exact h i hbi hit

theorem Waits.congr (h : Waits v s b e) (hs : ∀ i, i < e → s'.getD i 0 = s.getD i 0) (hbe : b < e)
    (hend : ∀ a, SameEnd v a (s.getD e 0) → SameEnd v a (s'.getD e 0)) : Waits v s' b e := by
  obtain ⟨a, ⟨arity, forced, k, f, hst, hle, hk, hc⟩, hse⟩ := h.awaits
  refine ⟨h.segment.congr fun i hi => hs i (by omega), a, ⟨arity, forced, k, f, ?_, hle, hk, ?_⟩,
    hend a hse⟩
  · rw [hs _ (by omega)]; exact hst
  · rw [hs _ (by omega)]; exact hc

theorem Stacked.busy (h : Stacked (Waits v s) bs e) (hbusy : Busy v (s.getD e 0)) :
    Stacked (fun b e => Waits v s b e ∧ Busy v (s.getD e 0)) bs e := by
  induction h with
  | nil => exact .nil
  | cons hlt hw _ ih => exact .cons hlt ⟨hw, hbusy⟩ (ih (hw.busy hlt))

end Segments

/-!
## Overwriting a redex
-/

/-- The cells in use, but for `R`, are as before. -/
def Touches (R : Nat) (v v' : View) : Prop :=
  ∀ x, x ≠ R → (v x).isFree = false → v' x = v x

section Touches

variable {v v' v'' : View} {s : Array Nat} {b e t i x R y z a : Nat}

theorem Touches.refl (R : Nat) (v : View) : Touches R v v := fun _ _ _ => rfl

theorem Touches.trans (h : Touches R v v') (h' : Touches R v' v'') : Touches R v v'' := by
  intro x hx hf
  have h1 := h x hx hf
  rw [h' x hx (by rw [h1]; exact hf), h1]

/-- What an indirection stands for, after the redex was overwritten. -/
theorem Touches.stands (h : Touches R v v') (hi : (v R).isInd = false) (hR : Stands v' R z)
    (hs : Stands v x y) (hf : (v y).isFree = false) : Stands v' x (if y = R then z else y) := by
  induction hs with
  | @here x hx =>
    by_cases hxR : x = R
    · subst hxR; rw [if_pos rfl]; exact hR
    · rw [if_neg hxR]
      exact .here (by rw [h x hxR hf]; exact hx)
  | @there x t y hc _ ih =>
    have hxR : x ≠ R := by rintro rfl; rw [hc] at hi; cases hi
    exact .there (by rw [h x hxR (by rw [hc]; rfl)]; exact hc) (ih hf)

theorem rests_of_le (h : rests c n = true) (hk : k ≤ n) : rests c k = true := by
  cases c with
  | comb c =>
    cases hn : c.arity with
    | none => simp [rests, hn]
    | some a =>
      have hlt : n < a := by simpa [rests, hn] using h
      simp [rests, hn]; omega
  | prim p =>
    have hp : p.isAction = true ∨ n < p.arity := by simpa [rests] using h
    simp only [rests, Bool.or_eq_true, decide_eq_true_eq]
    exact hp.imp_right fun hlt => by omega
  | scalar s =>
    have hz : n = 0 := by simpa [rests] using h
    simp [rests]; omega
  | app | ind | free => cases h

/-- **What is evaluated stays evaluated**: a redex has enough arguments for a rule, so no part of
a spine in weak head normal form is one. -/
theorem Touches.rests (h : Touches R v v') (hi : (v R).isInd = false) (hR : Stands v' R z)
    (hb : Busy v R) (hx : Rests v x) : Rests v' x := by
  obtain ⟨rargs, w, hru, hrest⟩ := hb
  obtain ⟨args, y, hu, hr⟩ := hx
  suffices hgen : Unwinds v' x args y ∧ v' y = v y from ⟨args, y, hgen.1, by rw [hgen.2]; exact hr⟩
  have hne : ∀ q qargs, Unwinds v q qargs y → Machine.rests (v y) qargs.length = true → q ≠ R := by
    rintro q qargs hq hqr rfl
    obtain ⟨rfl, rfl⟩ := hru.unique hq
    rw [hrest] at hqr
    cases hqr
  induction hu with
  | @head x y hs hn =>
    have hyR := hne y [] (.head (.here hs.isInd_eq_false) hn) hr
    have hfree : (v y).isFree = false := by
      cases hc : v y with
      | free t => rw [hc] at hr; cases hr
      | _ => rfl
    have hy := h y hyR hfree
    have hsx := h.stands hi hR hs hfree
    rw [if_neg hyR] at hsx
    exact ⟨.head hsx (by rw [hy]; exact hn), hy⟩
  | @app x q f a y args hs hc hf ih =>
    rw [length_append, length_singleton] at hr
    obtain ⟨hf', hy⟩ := ih (rests_of_le hr (by omega)) hne
    have hqR := hne q (args ++ [a]) (.app (.here hs.isInd_eq_false) hc hf)
      (by rw [length_append, length_singleton]; exact hr)
    have hq := h q hqR (by rw [hc]; rfl)
    have hsx := h.stands hi hR hs (by rw [hc]; rfl)
    rw [if_neg hqR] at hsx
    exact ⟨.app hsx (by rw [hq]; exact hc) hf', hy⟩

theorem Touches.sameEnd (h : Touches R v v') (hi : (v R).isInd = false) (hR : Stands v' R z)
    (hs : SameEnd v x y) (hf : ∀ w, Stands v y w → (v w).isFree = false) : SameEnd v' x y := by
  obtain ⟨w, hx, hy⟩ := hs
  exact ⟨_, h.stands hi hR hx (hf w hy), h.stands hi hR hy (hf w hy)⟩

end Touches

/-- The entries with `P` are still heads and applications of what they were. -/
structure Carries (v v' : View) (s : Array Nat) (P : Nat → Prop) : Prop where
  app : ∀ i, i < s.size → P i → ∀ f a, v (s.getD i 0) = .app f a →
    ∃ f' a', v' (s.getD i 0) = .app f' a' ∧ ∀ j, j < s.size →
      (SameEnd v f (s.getD j 0) → SameEnd v' f' (s.getD j 0)) ∧
        (SameEnd v a (s.getD j 0) → SameEnd v' a' (s.getD j 0))
  head : ∀ i, i < s.size → P i → ∀ r, strictness (v (s.getD i 0)) = some r →
    strictness (v' (s.getD i 0)) = some r

section Carries

variable {v v' : View} {s : Array Nat} {P : Nat → Prop} {b e t R z : Nat} {G : Nat → Prop}

theorem Carries.refl (v : View) (s : Array Nat) : Carries v v s P :=
  ⟨fun _ _ _ f a hc => ⟨f, a, hc, fun _ _ => ⟨id, id⟩⟩, fun _ _ _ _ hr => hr⟩

theorem Segment.carry (h : Segment v s b t) (hc : Carries v v' s P) (ht : t < s.size)
    (hP : ∀ i, b ≤ i → i < t → P i) : Segment v' s b t := by
  intro i hbi hit
  obtain ⟨f, a, hcell, hs⟩ := h i hbi hit
  obtain ⟨f', a', hcell', hends⟩ := hc.app i (by omega) (hP i hbi hit) f a hcell
  exact ⟨f', a', hcell', (hends (i + 1) (by omega)).1 hs⟩

theorem Waits.carry (h : Waits v s b e) (hc : Carries v v' s P) (hbe : b < e) (he : e < s.size)
    (hP : ∀ i, b ≤ i → i < e → P i) : Waits v' s b e := by
  obtain ⟨a, ⟨arity, forced, k, f, hst, hle, hk, hcell⟩, hs⟩ := h.awaits
  have hfa := forced_le_arity hst
  obtain ⟨f', a', hcell', hends⟩ :=
    hc.app (e - 1 - (k + 1)) (by omega) (hP _ (by omega) (by omega)) f a hcell
  refine ⟨h.segment.carry hc (by omega) fun i hbi hie => hP i hbi (by omega), a',
    ⟨arity, forced, k, f', ?_, hle, hk, hcell'⟩, (hends e he).2 hs⟩
  exact hc.head _ (by omega) (hP _ (by omega) (by omega)) _ hst

theorem Touches.carries (h : Touches R v v') (hi : (v R).isInd = false) (hR : Stands v' R z)
    (hG : Closed v G) (hs : ∀ i, i < s.size → G (s.getD i 0)) :
    Carries v v' s fun i => s.getD i 0 ≠ R := by
  have huse : ∀ j, j < s.size → ∀ w, Stands v (s.getD j 0) w → (v w).isFree = false :=
    fun j hj w hw => hG.inUse w (hG.stands (hs j hj) hw)
  refine ⟨fun i hlt hne f a hc => ⟨f, a, ?_, fun j hj => ⟨?_, ?_⟩⟩, fun i hlt hne r hr => ?_⟩
  · rw [h _ hne (hG.inUse _ (hs i hlt)), hc]
  · exact fun hse => h.sameEnd hi hR hse (huse j hj)
  · exact fun hse => h.sameEnd hi hR hse (huse j hj)
  · rw [h _ hne (hG.inUse _ (hs i hlt)), hr]

/-- A collection keeps the heads and applications on the stack. -/
theorem carries_collect {m : Machine} {h' : Heap} (hm : m.Sound G)
    (hc : Heap.Collects m.heap m.roots h') :
    Carries m.heap.get h'.get m.stack fun _ => True := by
  have hend : ∀ x j, j < m.stack.size → SameEnd m.heap.get x (m.stack.getD j 0) →
      m.heap.Kept m.roots (m.heap.resolve x) →
      SameEnd h'.get (m.heap.resolve x) (m.stack.getD j 0) := by
    rintro x j hj ⟨w, hx, hw⟩ hk
    rw [Heap.resolve_of_stands hx] at hk ⊢
    exact ⟨w, hm.closed.stands_collect hm.roots hc hk (.here hx.isInd_eq_false),
      hm.closed.stands_collect hm.roots hc (hm.kept_entry hj) hw⟩
  refine ⟨fun i hlt _ f a hcell => ?_, fun i hlt _ r hr => ?_⟩
  · obtain ⟨hkf, hka⟩ := kept_app hm.closed hm.roots (hm.kept_entry hlt) hcell
    refine ⟨m.heap.resolve f, m.heap.resolve a, ?_, fun j hj => ⟨?_, ?_⟩⟩
    · rw [hc.kept _ (hm.kept_entry hlt)]
      simp only [Heap.shortcuts, hcell, Cell.skip]
    · exact fun hse => hend f j hj hse hkf
    · exact fun hse => hend a j hj hse hka
  · rw [hc.kept _ (hm.kept_entry hlt)]
    cases hcell : m.heap.get (m.stack.getD i 0) with
    | comb _ | prim _ =>
      rw [hcell] at hr
      simp only [Heap.shortcuts, hcell, Cell.skip]
      exact hr
    | _ => rw [hcell] at hr; cases hr

end Carries

/-!
## The spines of an unwinding
-/

/-- The spine that is unwound and the suspended ones below it. -/
structure Spines (outer base : Nat) (m : Machine) : Prop extends Unwinding outer base m where
  current : Segment m.heap.get m.stack base (m.stack.size - 1)
  suspended : Stacked (Waits m.heap.get m.stack) (m.frames.toList.drop outer).reverse base

section Spines

variable {m m' : Machine} {outer base n : Nat} {s : Array Nat} {x i : Nat}

theorem Spines.carry (h : Spines outer base m)
    (hc : Carries m.heap.get m'.heap.get m.stack fun _ => True) (hs : Steady m m') :
    Spines outer base m' := by
  have hlt := h.base_lt
  refine ⟨(h.toUnwinding.above (hs.above h.base_lt)).1, ?_, ?_⟩
  · rw [hs.stack]
    exact h.current.carry hc (by omega) fun _ _ _ => trivial
  · rw [hs.stack, hs.frames]
    exact h.suspended.imp fun b e hbe he hw => hw.carry hc hbe (by omega) fun _ _ _ => trivial

/-- What is evaluated among the first `n` entries of the stack still is. -/
def Settled (n : Nat) (m m' : Machine) : Prop :=
  ∀ i, i < n → Rests m.heap.get (m.stack.getD i 0) → Rests m'.heap.get (m'.stack.getD i 0)

theorem Settled.refl (n : Nat) (m : Machine) : Settled n m m := fun _ _ h => h

theorem Settled.trans {m'' : Machine} (h : Settled n m m') (h' : Settled n m' m'') :
    Settled n m m'' := fun i hi hr => h' i hi (h i hi hr)

theorem Settled.mono (h : Settled n m m') (hk : k ≤ n) : Settled k m m' :=
  fun i hi => h i (by omega)

theorem settled_reserve (hm : m.Safe []) (n : Nat) :
    Meets (reserve n) m (fun _ m' => Settled m.stack.size m m') fun _ _ => True := by
  obtain ⟨G, hG, -⟩ := hm
  refine meets_reserve hG (fun _ _ => .refl _ m) (fun h' hc _ _ => ?_) fun _ _ _ => trivial
  rintro i hi ⟨args, y, hu, hr⟩
  obtain ⟨hu', hy⟩ := hu.collect hG.closed hG.roots hc (hG.kept_entry hi)
  refine ⟨_, y, hu', ?_⟩
  show rests (h'.get y) _ = true
  rw [hy, length_map]
  exact hr

/-- **Making room keeps the spines.** -/
theorem spines_reserve (h : Spines outer base m) (hm : m.Safe []) (n : Nat) :
    Meets (reserve n) m (fun _ m' => Spines outer base m' ∧
      Carries m.heap.get m'.heap.get m.stack fun _ => True) fun _ _ => True := by
  obtain ⟨G, hG, -⟩ := hm
  refine meets_reserve hG (fun _ _ => ⟨h, .refl _ _⟩) (fun h' hc _ _ => ?_) fun _ _ _ => trivial
  have hcarry := carries_collect hG hc
  exact ⟨h.carry hcarry ⟨⟨rfl, rfl, rfl, rfl, rfl⟩, rfl, rfl, rfl⟩, hcarry⟩

/-- The entries of the stack are the cells that they were, and their children may skip
indirections. -/
def Skips (m m' : Machine) : Prop :=
  ∀ i, i < m.stack.size → m'.heap.get (m.stack.getD i 0) = m.heap.get (m.stack.getD i 0) ∨
    m'.heap.get (m.stack.getD i 0) = m.heap.shortcuts (m.stack.getD i 0)

theorem Skips.refl (m : Machine) : Skips m m := fun _ _ => Or.inl rfl

theorem skips_reserve (hm : m.Safe []) (n : Nat) :
    Meets (reserve n) m (fun _ m' => Skips m m') fun _ _ => True := by
  obtain ⟨G, hG, -⟩ := hm
  refine meets_reserve hG (fun _ _ => .refl m) (fun h' hc _ _ => ?_) fun _ _ _ => trivial
  exact fun i hi => Or.inr (hc.kept _ (hG.kept_entry hi))

/-- The applications on the spines, but for those of the redex of a rule of arity `n`, are other
cells than the redex. -/
structure Clear (outer base n : Nat) (m : Machine) : Prop where
  current : ∀ i, base ≤ i → i < m.stack.size - 1 - n →
    m.stack.getD i 0 ≠ m.stack.getD (m.stack.size - 1 - n) 0
  suspended : Stacked (fun b e => ∀ i, b ≤ i → i < e →
      m.stack.getD i 0 ≠ m.stack.getD (m.stack.size - 1 - n) 0)
    (m.frames.toList.drop outer).reverse base

/-- **Where a rule is about to fire, its redex is clear of all other spines.** -/
theorem Spines.clear (h : Spines outer base m) (htop : m.heap.get m.onTop = c) (hn : c.NotApp)
    (hi : c.isInd = false) (hle : n ≤ m.stack.size - 1 - base)
    (hrests : rests c (m.stack.size - 1 - base) = false)
    (hready : ∀ args, args.length = n → m.HasArgs (m.stack.size - 1) args →
      Ready m.heap.get args c) : Clear outer base n m := by
  subst htop
  have hlt := h.base_lt
  obtain ⟨args, hu, hlen, -⟩ := h.current.unwinds hn hi (Nat.le_refl base) (by omega)
  obtain ⟨args', hu', hlen', hargs'⟩ :=
    h.current.unwinds hn hi (q := m.stack.size - 1 - n) (by omega) (by omega)
  have hbusy : Busy m.heap.get (m.stack.getD base 0) := ⟨args, _, hu, by rw [hlen]; exact hrests⟩
  refine ⟨fun i hbi hit => h.current.ne_redex hn hi hbi hit, (h.suspended.busy hbusy).imp ?_⟩
  rintro b e - - ⟨hw, hb⟩ i hbi hie
  exact hw.ne_redex hb hu' (hready args' (by omega) hargs') hbi hie

theorem getD_shrink (hi : i < k) : (s.shrink k).getD i 0 = s.getD i 0 := by
  simp only [Array.getD_eq_getD_getElem?, ← Array.getElem?_toList, Array.toList_shrink]
  rw [getElem?_take_of_lt hi]

/-- **Once a rule has fired, the spines are as before, up to the redex.** -/
theorem Spines.fired (h : Spines outer base m) (hm : m.Safe []) (hm' : m'.Safe [])
    (hs : Steady m m') (hclear : Clear outer base n m) (hle : n ≤ m.stack.size - 1 - base)
    (hi : (m.heap.get (m.stack.getD (m.stack.size - 1 - n) 0)).isInd = false)
    (ht : Touches (m.stack.getD (m.stack.size - 1 - n) 0) m.heap.get m'.heap.get) (stats : Stats) :
    Spines outer base { m' with stats, stack := m'.stack.shrink (m.stack.size - 1 - n + 1) } := by
  have hlt := h.base_lt
  obtain ⟨G, hG, -⟩ := hm
  obtain ⟨G', hG', -⟩ := hm'
  obtain ⟨z, hz⟩ := hG'.closed.ends _ (hG'.entry (i := m.stack.size - 1 - n) (by rw [hs.stack]; omega))
  rw [hs.stack] at hz
  have hc := ht.carries hi hz hG.closed fun i hi => hG.entry hi
  have hsize : (m.stack.shrink (m.stack.size - 1 - n + 1)).size = m.stack.size - 1 - n + 1 := by
    simp; omega
  refine ⟨⟨?_, ?_, ?_⟩, ?_, ?_⟩
  · show outer ≤ m'.frames.size
    rw [hs.frames]; exact h.outer_le
  · show (m'.frames.toList.drop outer ++ [base]).Pairwise (· < ·)
    rw [hs.frames]; exact h.ascending
  · show base < (m'.stack.shrink (m.stack.size - 1 - n + 1)).size
    rw [hs.stack, hsize]; omega
  · show Segment m'.heap.get (m'.stack.shrink (m.stack.size - 1 - n + 1)) base
      ((m'.stack.shrink (m.stack.size - 1 - n + 1)).size - 1)
    rw [hs.stack, hsize, Nat.add_sub_cancel]
    refine Segment.congr ?_ fun i hi => getD_shrink (by omega)
    refine Segment.carry ?_ hc (by omega) hclear.current
    exact fun i hbi hit => h.current i hbi (by omega)
  · show Stacked (Waits m'.heap.get (m'.stack.shrink (m.stack.size - 1 - n + 1)))
      (m'.frames.toList.drop outer).reverse base
    rw [hs.frames, hs.stack]
    have hboth := Stacked.and h.suspended hclear.suspended
    refine hboth.imp fun b e hbe he hw => ?_
    refine (hw.1.carry hc hbe (by omega) hw.2).congr (fun i hi => getD_shrink (by omega)) hbe ?_
    intro a hse
    rw [getD_shrink (by omega)]
    exact hse

theorem getD_push_lt (hi : i < s.size) : (s.push x).getD i 0 = s.getD i 0 := by
  simp only [Array.getD_eq_getD_getElem?]
  rw [Array.getElem?_push_lt hi, Array.getElem?_eq_getElem hi]

theorem getD_push_eq : (s.push x).getD s.size 0 = x := by
  simp [Array.getD_eq_getD_getElem?]

/-- Going down to the function makes the spine one longer. -/
theorem Spines.push (h : Spines outer base m) (hm : m.Safe []) {f a : Nat}
    (hc : m.heap.get m.onTop = .app f a) :
    Spines outer base { m with stack := m.stack.push f } := by
  have hlt := h.base_lt
  obtain ⟨G, hG, -⟩ := hm
  obtain ⟨z, hz⟩ := hG.closed.ends f
    (hG.closed.app (hG.entry (i := m.stack.size - 1) (by omega)) hc).1
  refine ⟨(h.toUnwinding.above (above_push h.base_lt)).1, ?_, ?_⟩
  · intro i hbi hit
    replace hit : i < m.stack.size := by simpa using hit
    show ∃ f' a', m.heap.get ((m.stack.push f).getD i 0) = .app f' a' ∧
      SameEnd m.heap.get f' ((m.stack.push f).getD (i + 1) 0)
    rw [getD_push_lt hit]
    rcases Nat.lt_or_ge (i + 1) m.stack.size with hi | hi
    · rw [getD_push_lt hi]
      exact h.current i hbi (by omega)
    · obtain rfl : i = m.stack.size - 1 := by omega
      rw [show m.stack.size - 1 + 1 = m.stack.size by omega, getD_push_eq]
      exact ⟨f, a, hc, z, hz, hz⟩
  · refine h.suspended.imp fun b e hbe he hw => ?_
    refine hw.congr (fun i hi => getD_push_lt (by omega)) hbe fun a hse => ?_
    rw [getD_push_lt (by omega)]
    exact hse

theorem getD_set_ne {j : Nat} (hij : i ≠ j) : (s.setIfInBounds j x).getD i 0 = s.getD i 0 := by
  simp only [Array.getD_eq_getD_getElem?]
  rw [Array.getElem?_setIfInBounds_ne (Ne.symm hij)]

theorem getD_set_eq {j : Nat} (hj : j < s.size) : (s.setIfInBounds j x).getD j 0 = x := by
  simp [Array.getD_eq_getD_getElem?, hj]

/-- An indirection on top is replaced by its target. -/
theorem Spines.follow (h : Spines outer base m) {t : Nat}
    (hc : m.heap.get m.onTop = .ind t) :
    Spines outer base { m with stack := m.stack.setIfInBounds (m.stack.size - 1) t } := by
  have hlt := h.base_lt
  have hend : ∀ a i, i < m.stack.size → SameEnd m.heap.get a (m.stack.getD i 0) →
      SameEnd m.heap.get a ((m.stack.setIfInBounds (m.stack.size - 1) t).getD i 0) := by
    rintro a i hi ⟨z, ha, hz⟩
    by_cases hit : i = m.stack.size - 1
    · subst hit
      rw [getD_set_eq hi]
      exact ⟨z, ha, hz.of_ind hc⟩
    · rw [getD_set_ne hit]
      exact ⟨z, ha, hz⟩
  refine ⟨(h.toUnwinding.above (above_setEntry h.base_lt (by omega))).1, ?_, ?_⟩
  · intro i hbi hit
    replace hit : i < m.stack.size - 1 := by simpa using hit
    obtain ⟨f, a, hcell, hs⟩ := h.current i hbi hit
    refine ⟨f, a, ?_, hend f (i + 1) (by omega) hs⟩
    show m.heap.get ((m.stack.setIfInBounds (m.stack.size - 1) t).getD i 0) = _
    rw [getD_set_ne (by omega)]
    exact hcell
  · refine h.suspended.imp fun b e hbe he hw => ?_
    exact hw.congr (fun i hi => getD_set_ne (by omega)) hbe fun a => hend a e (by omega)

/-- The suspended spine waits, and a new one starts at the argument. -/
theorem spines_suspend (h : Spines outer base m) {a : Nat} (hm : m.Safe [a])
    (ha : Awaits m.heap.get m.stack base (m.stack.size - 1) a) :
    Meets (suspend base a) m (fun base' m' => Spines outer base' m') fun _ _ => True := by
  have hlt := h.base_lt
  have hu := h.toUnwinding.suspend a
  obtain ⟨G, hG, hheld⟩ := hm
  obtain ⟨z, hz⟩ := hG.closed.ends a (hheld a mem_cons_self)
  have hdrop := h.toUnwinding.drop_push base
  simp only [suspend, meets_bind, meets_enter, meets_modify, meets_push, meets_top] at hu ⊢
  split
  · trivial
  rename_i hd
  rw [if_neg hd] at hu
  split
  · trivial
  rename_i hp
  rw [if_neg hp] at hu
  refine ⟨hu.1, ?_, ?_⟩
  · intro i hbi hit
    simp only [Array.size_push, Nat.add_sub_cancel] at hbi hit
    omega
  · show Stacked (Waits m.heap.get (m.stack.push a)) ((m.frames.push base).toList.drop outer).reverse
      ((m.stack.push a).size - 1)
    rw [hdrop, reverse_append, Array.size_push, Nat.add_sub_cancel]
    refine .cons hlt ⟨?_, a, ?_, ?_⟩ (h.suspended.imp fun b e hbe he hw => ?_)
    · exact h.current.congr fun i hi => getD_push_lt (by omega)
    · obtain ⟨arity, forced, k, f, hst, hle, hk, hc⟩ := ha
      refine ⟨arity, forced, k, f, ?_, hle, hk, ?_⟩
      · rw [getD_push_lt (by omega)]; exact hst
      · rw [getD_push_lt (by omega)]; exact hc
    · rw [getD_push_eq]; exact ⟨z, hz, hz⟩
    · refine hw.congr (fun i hi => getD_push_lt (by omega)) hbe fun a hse => ?_
      rw [getD_push_lt (by omega)]
      exact hse

/-- The spine below goes on where it waited. -/
theorem spines_resume (h : Spines outer base m) (hne : m.frames.size ≠ outer) :
    Meets (resume base) m (fun base' m' => Spines outer base' m') fun _ _ => True := by
  have hlt := h.base_lt
  have hu := h.toUnwinding.resume hne
  obtain ⟨l, b, hl, hle, hpop, hback⟩ := h.toUnwinding.exists_frame hne
  have hsus := h.suspended
  rw [hl, drop_append_of_le_length hle, reverse_append] at hsus
  simp only [resume, meets_bind, meets_truncate, meets_get, meets_modify, meets_pure, hback] at hu ⊢
  cases hsus with
  | cons hbe hw hbs =>
    refine ⟨hu.1, ?_, ?_⟩
    · show Segment m.heap.get (m.stack.shrink base) b ((m.stack.shrink base).size - 1)
      rw [show (m.stack.shrink base).size = base by simp; omega]
      exact hw.segment.congr fun i hi => getD_shrink (by omega)
    · show Stacked (Waits m.heap.get (m.stack.shrink base)) (m.frames.pop.toList.drop outer).reverse b
      rw [hpop]
      refine Stacked.imp hbs fun b' e hbe' he hw' => ?_
      refine hw'.congr (fun i hi => getD_shrink (by omega)) hbe' fun a hse => ?_
      rw [getD_shrink (by omega)]
      exact hse

end Spines

end Machine

end GraphReduction
