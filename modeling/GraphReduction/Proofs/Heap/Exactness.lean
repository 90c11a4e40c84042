import GraphReduction.Proofs.Heap.Collection

/-!
# Collections are exact

An indirection may stand for itself, and then every chain that comes to it rests there. Other cycles
of indirections are the only thing that a collection does not expect.
-/

namespace GraphReduction

open List

/-!
## Walks that never come back
-/

namespace Path

variable {next : Nat → Option Nat} {n x z N : Nat}

theorem trail_of_acyclic (h : Path next n x z) (hback : ∀ n x, ¬ Path next (n + 1) x x)
    (hN : ∀ a b, next a = some b → a < N) :
    ∃ l : List Nat, l.length = n ∧ l.Nodup ∧ ∀ a ∈ l, a < N ∧ ∃ k, Path next k x a := by
  induction h with
  | nil => exact ⟨[], rfl, nodup_nil, forall_mem_nil _⟩
  | @cons n x y z hx _ ih =>
    obtain ⟨l, hlen, hnd, hl⟩ := ih
    refine ⟨x :: l, by simp [hlen], nodup_cons.2 ⟨fun hmem => ?_, hnd⟩,
      forall_mem_cons.2 ⟨⟨hN _ _ hx, 0, .nil _⟩, fun a ha => ?_⟩⟩
    · obtain ⟨-, k, hk⟩ := hl x hmem
      exact hback k x (.cons hx hk)
    · obtain ⟨hlt, k, hk⟩ := hl a ha
      exact ⟨hlt, k + 1, .cons hx hk⟩

/-- **A walk has at most one move per place** if none leads back. -/
theorem length_le_of_acyclic (h : Path next n x z) (hback : ∀ n x, ¬ Path next (n + 1) x x)
    (hN : ∀ a b, next a = some b → a < N) : n ≤ N := by
  obtain ⟨l, hlen, hnd, hl⟩ := h.trail_of_acyclic hback hN
  have hsub : l ⊆ range N := fun a ha => mem_range.2 (hl a ha).1
  simpa [hlen] using hnd.length_le_of_subset hsub

theorem le_of_descending (h : Path next n x z) (hdown : ∀ a b, next a = some b → b < a) :
    z + n ≤ x := by
  induction h with
  | nil => exact Nat.le_refl _
  | cons hx _ ih =>
    have := hdown _ _ hx
    omega

end Path

theorem reachable_congr {v v' : View} {R : Nat → Prop} (hv : ∀ x, Reachable v R x → v' x = v x)
    {x : Nat} : Reachable v' R x ↔ Reachable v R x := by
  constructor
  · intro h
    induction h with
    | root hx => exact .root hx
    | child _ hy ih => exact .child ih (hv _ ih ▸ hy)
  · intro h
    induction h with
    | root hx => exact .root hx
    | child hx hy ih => exact .child ih ((hv _ hx).symm ▸ hy)

namespace FreeChain

variable {v v' : View} {first first' : Option Nat} {l : List Nat}

theorem first_eq (h : FreeChain v first l) : first = l.head? := by
  cases h <;> rfl

theorem unique (h : FreeChain v first l) (h' : FreeChain v' first' l) : ∀ x ∈ l, v x = v' x := by
  induction h generalizing first' with
  | nil => exact forall_mem_nil _
  | cons hx h ih =>
    cases h' with
    | cons hx' h' =>
      refine forall_mem_cons.2 ⟨?_, ih h'⟩
      rw [hx, hx', h.first_eq, h'.first_eq]

end FreeChain

namespace Heap

variable {h : Heap} {roots : List Nat} {x : Nat}

/-!
## Where chains of indirections come to rest
-/

/-- The other cell that an indirection leads on to. -/
def forward (h : Heap) (x : Nat) : Option Nat := (h.get x).target?.filter (· ≠ x)

theorem forward_eq_some {t : Nat} : h.forward x = some t ↔ h.get x = .ind t ∧ t ≠ x := by
  simp [forward, Option.filter_eq_some_iff]

theorem lt_size_of_forward {t : Nat} (hx : h.forward x = some t) : x < h.cells.size :=
  target?_lt (Cell.target?_eq_some.2 (forward_eq_some.1 hx).1)

theorem follow_succ (moves : Nat) :
    follow h.cells (moves + 1) x = ((h.forward x).map (follow h.cells moves)).getD x := by
  have hget : h.cells.getD x (.free none) = h.get x := rfl
  cases hf : h.forward x with
  | some t =>
    obtain ⟨hx, hne⟩ := forward_eq_some.1 hf
    simp only [follow, hget, hx, if_neg hne, Option.map_some, Option.getD_some]
  | none =>
    simp only [follow, hget, Option.map_none, Option.getD_none]
    split
    · rename_i t hx
      by_cases hne : t = x
      · rw [if_pos hne]
      · rw [forward_eq_some.2 ⟨hx, hne⟩] at hf
        cases hf
    · rfl

theorem forward_follow (moves x : Nat) :
    h.forward (follow h.cells moves x) = none ∨
      Path h.forward moves x (follow h.cells moves x) := by
  induction moves generalizing x with
  | zero => exact .inr (.nil x)
  | succ moves ih =>
    rw [follow_succ]
    cases hf : h.forward x with
    | none => exact .inl hf
    | some t => exact (ih t).imp_right fun hp => .cons hf hp

variable (hforward : ∀ n x, ¬ Path h.forward (n + 1) x x)

include hforward in
theorem forward_resolve (x : Nat) : h.forward (h.resolve x) = none := by
  rcases forward_follow (h := h) (h.cells.size + 1) x with hrest | hp
  · exact hrest
  · have := hp.length_le_of_acyclic hforward fun _ _ => lt_size_of_forward
    omega

include hforward in
theorem resolve_resolve (x : Nat) : h.resolve (h.resolve x) = h.resolve x := by
  have hrest := forward_resolve hforward x
  show follow h.cells (h.cells.size + 1) (h.resolve x) = _
  rw [follow_succ, hrest]
  rfl

/-!
## What a collection leaves
-/

/-- **A cell that can be reached** skips the indirections that it points through. -/
theorem get_collect (hx : Reachable h.shortcuts (· ∈ roots) x) :
    (collect roots h).2.get x = h.shortcuts x := by
  obtain ⟨cells, marks, s, hp⟩ := exists_phases h roots
  rw [hp.result]
  by_cases hlt : x < h.cells.size
  · exact hp.kept ⟨hlt, hx⟩
  · have hsize : s.cells.size = h.cells.size := by rw [hp.swept.size]; exact hp.size
    rw [shortcuts_of_size_le (by omega)]
    exact get_of_size_le (by rw [hsize]; omega)

theorem size_collect : (collect roots h).2.cells.size = h.cells.size := by
  obtain ⟨cells, marks, s, hp⟩ := exists_phases h roots
  rw [hp.result, ← hp.size]
  exact hp.swept.size

theorem resolve_collect (hx : Reachable h.shortcuts (· ∈ roots) x) :
    (collect roots h).2.resolve x = h.resolve x := by
  unfold resolve
  rw [size_collect]
  -- the cells that are come to can all be reached
  generalize h.cells.size + 1 = moves
  induction moves generalizing x with
  | zero => rfl
  | succ moves ih =>
    have hforward : (collect roots h).2.forward x = h.forward x := by
      simp only [forward, get_collect hx, shortcuts, Cell.target?_skip]
    rw [follow_succ, follow_succ, hforward]
    cases hf : h.forward x with
    | none => rfl
    | some t =>
      refine ih (.child hx ?_)
      rw [shortcuts, (forward_eq_some.1 hf).1]
      exact mem_singleton_self t

include hforward in
theorem shortcuts_collect (hx : Reachable h.shortcuts (· ∈ roots) x) :
    (collect roots h).2.shortcuts x = h.shortcuts x := by
  have hchild : ∀ y, h.resolve y ∈ (h.shortcuts x).children →
      (collect roots h).2.resolve (h.resolve y) = h.resolve y := by
    intro y hy
    rw [resolve_collect (.child hx hy), resolve_resolve hforward]
  unfold shortcuts at hchild
  rw [shortcuts, get_collect hx, shortcuts]
  cases hc : h.get x with
  | app f a =>
    simp only [hc, Cell.skip, Cell.children, mem_cons, not_mem_nil, or_false] at hchild
    simp only [Cell.skip, hchild f (.inl rfl), hchild a (.inr rfl)]
  | _ => rfl

include hforward in
theorem reachable_collect :
    Reachable (collect roots h).2.shortcuts (· ∈ roots) x ↔ Reachable h.shortcuts (· ∈ roots) x :=
  reachable_congr fun _ => shortcuts_collect hforward

/-- **All other cells are on the free list**, in ascending order. -/
theorem freeChain_collect (h : Heap) (roots : List Nat) :
    ∃ l, FreeChain (collect roots h).2.get (collect roots h).2.free l ∧ l.Pairwise (· < ·) ∧
      ∀ x, x ∈ l ↔ x < h.cells.size ∧ ¬ Reachable h.shortcuts (· ∈ roots) x := by
  obtain ⟨cells, marks, s, hp⟩ := exists_phases h roots
  have hchain := hp.swept.chain
  rw [append_nil] at hchain
  rw [hp.result]
  refine ⟨_, hchain, List.Pairwise.filter _ pairwise_lt_range, fun x => ?_⟩
  rw [hp.mem_unmarkedBelow]
  exact and_congr_right fun hlt => not_congr ⟨fun hx => hx.2, fun hx => ⟨hlt, hx⟩⟩

/-- **The number that a collection gives** is that of the cells that were in use for nothing. -/
theorem collect_fst (h : Heap) (roots : List Nat) : (collect roots h).1 =
    {x | ¬ Reachable h.shortcuts (· ∈ roots) x ∧ (h.get x).isFree = false}.ncard := by
  obtain ⟨cells, marks, s, hp⟩ := exists_phases h roots
  set freed := (unmarkedBelow marks h.cells.size).filter
    fun x => !(cells.getD x (.free none)).isFree with hfreed
  have hcount : (collect roots h).1 = freed.length := by
    rw [hp.result]
    exact hp.swept.reclaimed.trans (Nat.zero_add _)
  have hnodup : freed.Nodup := (List.Pairwise.filter _ nodup_range).filter _
  rw [hcount, ← toFinset_card_of_nodup hnodup, ← Set.ncard_coe_finset]
  congr 1
  ext x
  have hunmarked : x ∈ unmarkedBelow marks h.cells.size →
      cells.getD x (.free none) = h.get x := by
    intro hx
    rw [hp.cell, if_neg fun hm => (hp.mem_unmarkedBelow.1 hx).2 ((hp.marked x).1 hm)]
  simp only [coe_toFinset, Set.mem_ofPred_eq, hfreed, mem_filter, Bool.not_eq_true']
  constructor
  · rintro ⟨hx, hfree⟩
    obtain ⟨hlt, hkept⟩ := hp.mem_unmarkedBelow.1 hx
    exact ⟨fun hreach => hkept ⟨hlt, hreach⟩, hunmarked hx ▸ hfree⟩
  · rintro ⟨hreach, hfree⟩
    have hx := hp.mem_unmarkedBelow.2 ⟨lt_size_of_not_free hfree, fun hkept => hreach hkept.2⟩
    exact ⟨hx, by rw [hunmarked hx]; exact hfree⟩

theorem eq_of_ascending {l l' : List Nat} (h : l.Pairwise (· < ·)) (h' : l'.Pairwise (· < ·))
    (hmem : ∀ x, x ∈ l ↔ x ∈ l') : l = l' :=
  ((perm_ext_iff_of_nodup (h.imp Nat.ne_of_lt) (h'.imp Nat.ne_of_lt)).2 hmem).eq_of_pairwise'
    (h.imp Nat.le_of_lt) (h'.imp Nat.le_of_lt)

include hforward in
/-- A second collection finds nothing more to free. -/
theorem cells_collect_collect :
    (collect roots (collect roots h).2).2.cells = (collect roots h).2.cells := by
  set h' := (collect roots h).2 with hh'
  have hsize : (collect roots h').2.cells.size = h'.cells.size := size_collect
  have hget : ∀ x, (collect roots h').2.get x = h'.get x := by
    intro x
    by_cases hx : Reachable h.shortcuts (· ∈ roots) x
    · rw [get_collect ((reachable_collect hforward).2 hx), shortcuts_collect hforward hx,
        get_collect hx]
    by_cases hlt : x < h.cells.size
    · -- both free lists run through the same cells in the same order
      obtain ⟨l, hl, hasc, hmem⟩ := freeChain_collect h roots
      obtain ⟨l', hl', hasc', hmem'⟩ := freeChain_collect h' roots
      have hsame : l = l' := by
        refine eq_of_ascending hasc hasc' fun y => ?_
        rw [hmem, hmem', size_collect, reachable_collect hforward]
      subst hsame
      exact hl'.unique hl x ((hmem x).2 ⟨hlt, hx⟩)
    · rw [get_of_size_le (by rw [hsize, hh', size_collect]; omega),
        get_of_size_le (by rw [hh', size_collect]; omega)]
  refine Array.ext hsize fun i hi hi' => ?_
  simpa [get, Array.getD_eq_getD_getElem?, hi, hi'] using hget i

theorem isFree_collect (hx : ¬ Reachable h.shortcuts (· ∈ roots) x) :
    ((collect roots h).2.get x).isFree = true := by
  by_cases hlt : x < h.cells.size
  · obtain ⟨l, hl, -, hmem⟩ := freeChain_collect h roots
    exact hl.isFree x ((hmem x).2 ⟨hlt, hx⟩)
  · rw [get_of_size_le (by rw [size_collect]; omega)]
    rfl

include hforward in
theorem collect_collect_fst : (collect roots (collect roots h).2).1 = 0 := by
  rw [collect_fst, ← Set.ncard_empty Nat]
  congr 1
  refine Set.eq_empty_iff_forall_notMem.2 fun x hx => ?_
  have hfree := isFree_collect fun hreach => hx.1 ((reachable_collect hforward).2 hreach)
  exact absurd (hfree.symm.trans hx.2) (by decide)

/-!
## Exactness
-/

/-- **What it means that a collection is exact.** `Reachable h.shortcuts (· ∈ roots)` is the least set
that has the roots, the target of each of its indirections, and for each of its applications the two
cells that the parts of the application stand for. -/
structure CollectsExactly (h : Heap) (roots : List Nat) : Prop where
  app : ∀ x f a, Reachable h.shortcuts (· ∈ roots) x → h.get x = .app f a →
    (collect roots h).2.get x = .app (h.resolve f) (h.resolve a)
  other : ∀ x, Reachable h.shortcuts (· ∈ roots) x → (∀ f a, h.get x ≠ .app f a) →
    (collect roots h).2.get x = h.get x
  resolve : ∀ x, Reachable h.shortcuts (· ∈ roots) x → (collect roots h).2.resolve x = h.resolve x
  freed : ∃ l, FreeChain (collect roots h).2.get (collect roots h).2.free l ∧
    ∀ x, x ∈ l ↔ x < h.cells.size ∧ ¬ Reachable h.shortcuts (· ∈ roots) x
  reclaimed : (collect roots h).1 =
    {x | ¬ Reachable h.shortcuts (· ∈ roots) x ∧ (h.get x).isFree = false}.ncard
  /-- A second collection gives back nothing and changes no cell. -/
  again : (collect roots (collect roots h).2).1 = 0 ∧
    (collect roots (collect roots h).2).2.cells = (collect roots h).2.cells

/-- **Collections are exact** if no way along indirections to other cells leads back, that is, if every
cycle of indirections is a cell that stands for itself. -/
theorem collect_exact {h : Heap} (hforward : ∀ n x, ¬ Path h.forward (n + 1) x x)
    (roots : List Nat) : CollectsExactly h roots where
  app x f a hx hc := by rw [get_collect hx, shortcuts, hc]; rfl
  other x hx hc := by
    rw [get_collect hx, shortcuts]
    cases hget : h.get x with
    | app f a => exact absurd hget (hc f a)
    | _ => rfl
  resolve _ hx := resolve_collect hx
  freed := by
    obtain ⟨l, hl, -, hmem⟩ := freeChain_collect h roots
    exact ⟨l, hl, hmem⟩
  reclaimed := collect_fst h roots
  again := ⟨collect_collect_fst hforward, cells_collect_collect hforward⟩

/-- Applications that point through a chain of indirections and to a cell that stands for itself, an
indirection that nothing needs, and a cell not in use. -/
def tangledHeap : Heap where
  cells := #[.int 42, .ind 0, .ind 1, .prim .neg, .app 3 2, .ind 5, .app 5 6, .ind 4, .free none]
  capacity := 12
  free := some 8
  freeCount := 1
  stats := {}

theorem collect_exact_tangledHeap :
    (∀ n x, ¬ Path tangledHeap.forward (n + 1) x x) ∧
    (collect [6, 4] tangledHeap).1 = 3 ∧
    (collect [6, 4] tangledHeap).2.cells = #[.int 42, .free (some 2), .free (some 7), .prim .neg,
      .app 3 0, .ind 5, .app 5 6, .free (some 8), .free none] ∧
    CollectsExactly tangledHeap [6, 4] := by
  have hdown : ∀ a b, tangledHeap.forward a = some b → b < a := by
    intro a b hab
    have hlt : a < 9 := lt_size_of_forward hab
    have hcells : ∀ a < 9, ∀ b ∈ tangledHeap.forward a, b < a := by decide +kernel
    exact hcells a hlt b hab
  have hforward : ∀ n x, ¬ Path tangledHeap.forward (n + 1) x x := by
    intro n x hp
    have := hp.le_of_descending hdown
    omega
  exact ⟨hforward, by cbv, by cbv, collect_exact hforward [6, 4]⟩

end Heap

end GraphReduction
