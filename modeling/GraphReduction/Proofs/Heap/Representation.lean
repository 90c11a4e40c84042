import GraphReduction.Proofs.Heap.Exactness

/-!
# The heap's account of its cells

The free list is threaded through the cells that it lists, is used up by allocations and built anew by
each collection. Whatever is done with a heap, the list and the counts stay right.
-/

namespace GraphReduction

open List

namespace Heap

variable {h h' : Heap} {roots l : List Nat} {x y id : Nat} {c : Cell}

/-- A cell that is allocated. -/
def InUse (h : Heap) (x : Nat) : Prop := (h.get x).isFree = false

instance (h : Heap) (x : Nat) : Decidable (h.InUse x) :=
  inferInstanceAs (Decidable ((h.get x).isFree = false))

theorem not_inUse : ¬ h.InUse x ↔ (h.get x).isFree = true := by simp [InUse]

theorem InUse.lt_size (hx : h.InUse x) : x < h.cells.size := lt_size_of_not_free hx

/-- **The free list is `l`**: all cells of the arena that are not in use, in ascending order. -/
structure Listed (h : Heap) (l : List Nat) : Prop where
  chain : FreeChain h.get h.free l
  ascending : l.Pairwise (· < ·)
  mem : ∀ x, x ∈ l ↔ x < h.cells.size ∧ ¬ h.InUse x
  count : h.freeCount = l.length

/-- **A heap whose account is right.** -/
structure Intact (h : Heap) : Prop where
  listed : ∃ l, h.Listed l
  size_le : h.cells.size ≤ h.capacity
  child : ∀ x, h.InUse x → ∀ y ∈ (h.get x).children, h.InUse y
  peak : h.live ≤ h.stats.peakLive

/-!
## The number of cells in use
-/

theorem Listed.nodup (hl : h.Listed l) : l.Nodup := hl.ascending.imp Nat.ne_of_lt

theorem Listed.length_le (hl : h.Listed l) : l.length ≤ h.cells.size := by
  have hsub : l ⊆ range h.cells.size := fun x hx => mem_range.2 ((hl.mem x).1 hx).1
  simpa using hl.nodup.length_le_of_subset hsub

theorem Listed.live_add_freeCount (hl : h.Listed l) (hsize : h.cells.size ≤ h.capacity) :
    h.live + h.freeCount = h.cells.size := by
  have hlen := hl.length_le
  have hcount := hl.count
  simp only [live, freeCells]
  omega

theorem Listed.live_eq_ncard (hl : h.Listed l) (hsize : h.cells.size ≤ h.capacity) :
    h.live = {x | h.InUse x}.ncard := by
  have hset : {x | h.InUse x} = ↑(Finset.range h.cells.size \ l.toFinset) := by
    ext x
    simp only [Set.mem_ofPred_eq, Finset.coe_sdiff, Finset.coe_range, coe_toFinset,
      Set.mem_sdiff, Set.mem_Iio, hl.mem]
    exact ⟨fun hx => ⟨hx.lt_size, fun hfree => hfree.2 hx⟩,
      fun hx => by_contra fun hfree => hx.2 ⟨hx.1, hfree⟩⟩
  have hsub : l.toFinset ⊆ Finset.range h.cells.size := fun x hx =>
    Finset.mem_range.2 ((hl.mem x).1 (mem_toFinset.1 hx)).1
  rw [hset, Set.ncard_coe_finset, Finset.card_sdiff_of_subset hsub, Finset.card_range,
    toFinset_card_of_nodup hl.nodup, ← hl.count]
  have hlive := hl.live_add_freeCount hsize
  omega

theorem Intact.live_add_freeCells (hI : h.Intact) : h.live + h.freeCells = h.capacity := by
  obtain ⟨l, hl⟩ := hI.listed
  have hlive := hl.live_add_freeCount hI.size_le
  have hsize := hI.size_le
  simp only [live, freeCells] at hlive ⊢
  omega

theorem intact_empty (capacity : Nat) : (empty capacity).Intact where
  listed := ⟨[], .nil, .nil, fun x => by simp [empty], rfl⟩
  size_le := Nat.zero_le _
  child x hx := absurd hx.lt_size (Nat.not_lt_zero x)
  peak := by simp [live, freeCells, empty]

/-!
## Allocations
-/

/-- The cell that an allocation takes: the lowest one not in use, or else the next of the arena. -/
def Next (h : Heap) (id : Nat) : Prop :=
  IsLeast {x | x < h.cells.size ∧ ¬ h.InUse x} id ∨
    (∀ x < h.cells.size, h.InUse x) ∧ id = h.cells.size

/-- **What an allocation does** to the cells and to the account. -/
structure Issues (h : Heap) (c : Cell) (id : Nat) (h' : Heap) : Prop extends Allocates h c id h' where
  next : h.Next id
  fits : h'.cells.size ≤ h'.capacity
  reclaimed : h'.stats.reclaimed = h.stats.reclaimed
  peak : h'.stats.peakLive = max h.stats.peakLive h'.live
  /-- The free list goes on after the cell that was taken from it. -/
  rest : ∃ l, FreeChain h'.get h'.free l ∧ l.Pairwise (· < ·) ∧ h'.freeCount = l.length ∧
    ∀ x, x ∈ l ↔ x < h'.cells.size ∧ ¬ h.InUse x ∧ x ≠ id

theorem Listed.next_of_cons (hl : h.Listed (id :: l)) : h.Next id := by
  refine .inl ⟨(hl.mem id).1 mem_cons_self, fun x hx => ?_⟩
  rcases mem_cons.1 ((hl.mem x).2 hx) with rfl | hx
  · exact Nat.le_refl _
  · exact Nat.le_of_lt ((pairwise_cons.1 hl.ascending).1 x hx)

theorem Listed.inUse_of_nil (hl : h.Listed []) (hx : x < h.cells.size) : h.InUse x :=
  by_contra fun hfree => not_mem_nil ((hl.mem x).2 ⟨hx, hfree⟩)

theorem Listed.alloc_nil (hl : h.Listed []) (c : Cell) : alloc c h =
    if h.cells.size < h.capacity then
      .ok h.cells.size { h with cells := h.cells.push c }.notePeak
    else .error (.outOfMemory h.capacity) h := by
  simp only [alloc, hl.chain.first_eq, head?_nil]

theorem Listed.alloc_cons (hl : h.Listed (id :: l)) (c : Cell) : alloc c h =
    .ok id { h.set id c with free := l.head?, freeCount := l.length }.notePeak := by
  obtain ⟨next, hid, hnext⟩ : ∃ next, h.get id = .free next ∧ FreeChain h.get next l := by
    have hchain := hl.chain
    rw [hchain.first_eq] at hchain
    cases hchain with
    | cons hid hnext => exact ⟨_, hid, hnext⟩
  simp only [alloc, hl.chain.first_eq, head?_cons, hid, hl.count, length_cons,
    Nat.add_sub_cancel, ← hnext.first_eq]

theorem Listed.chain_tail (hl : h.Listed (id :: l)) (c : Cell) :
    FreeChain (View.update h.get id c) l.head? l := by
  have hnd := nodup_cons.1 hl.nodup
  have hchain := hl.chain
  rw [hchain.first_eq] at hchain
  cases hchain with
  | cons _ hnext =>
    rw [← hnext.first_eq]
    refine hnext.congr fun y hy => View.update_of_ne ?_
    rintro rfl
    exact hnd.1 hy

/-- **Allocation from an intact heap** fails if and only if all cells are in use, and then changes
nothing. -/
theorem Intact.alloc_cases (hI : h.Intact) (c : Cell) :
    (alloc c h = .error (.outOfMemory h.capacity) h ∧ h.live = h.capacity) ∨
      ∃ id h', alloc c h = .ok id h' ∧ Issues h c id h' ∧ h.live < h.capacity := by
  obtain ⟨l, hl⟩ := hI.listed
  have hsize := hI.size_le
  have hlive := hI.live_add_freeCells
  have hbeside : FreeList h h.InUse :=
    ⟨l, hl.chain, hl.nodup, fun x hx => (hl.mem x).1 hx, hl.count.symm, hsize⟩
  rcases Heap.alloc_cases hbeside (fun x hx => hx.lt_size) c with ⟨herror, hnone⟩ |
    ⟨id, h', hok, -, hA, -⟩
  · exact .inl ⟨herror, by omega⟩
  refine .inr ⟨id, h', hok, ?_, by have := hA.freeCells; omega⟩
  cases l with
  | nil =>
    rw [hl.alloc_nil] at hok
    split at hok <;> cases hok
    rename_i hlt
    have hfits : (h.cells.push c).size ≤ h.capacity := by rw [Array.size_push]; omega
    refine ⟨hA, .inr ⟨fun x hx => hl.inUse_of_nil hx, rfl⟩, hfits, rfl, rfl, [], ?_, .nil, hl.count,
      fun x => ⟨fun hx => absurd hx not_mem_nil, ?_⟩⟩
    · show FreeChain _ h.free []
      rw [hl.chain.first_eq]
      exact .nil
    · rintro ⟨hx, hfree, hne⟩
      have hx : x < (h.cells.push c).size := hx
      rw [Array.size_push] at hx
      exact absurd (hl.inUse_of_nil (by omega)) hfree
  | cons a l =>
    rw [hl.alloc_cons] at hok
    cases hok
    have hview := hA.view
    refine ⟨hA, hl.next_of_cons, ?_, rfl, rfl, l, ?_, (pairwise_cons.1 hl.ascending).2, rfl,
      fun x => ?_⟩
    · show (h.set id c).cells.size ≤ h.capacity
      rw [size_set]
      exact hsize
    · rw [hview]
      exact hl.chain_tail c
    · show x ∈ l ↔ x < (h.set id c).cells.size ∧ _
      rw [size_set, ← and_assoc, ← hl.mem x, mem_cons]
      refine ⟨fun hx => ⟨.inr hx, ?_⟩, fun hx => hx.1.resolve_left hx.2⟩
      rintro rfl
      exact (nodup_cons.1 hl.nodup).1 hx

theorem inUse_of_update (hview : h'.get = View.update h.get id c) (hc : c.isFree = false) :
    h'.InUse x ↔ x = id ∨ h.InUse x := by
  unfold InUse
  rw [hview]
  by_cases hx : x = id
  · subst hx
    simpa using hc
  · rw [View.update_of_ne hx]
    exact ⟨.inr, fun h => h.resolve_left hx⟩

theorem child_of_update (hI : h.Intact) (hview : h'.get = View.update h.get id c)
    (hc : c.isFree = false) (hchild : ∀ y ∈ c.children, h.InUse y) :
    ∀ x, h'.InUse x → ∀ y ∈ (h'.get x).children, h'.InUse y := by
  intro x hx y hy
  rw [inUse_of_update hview hc] at hx ⊢
  rw [hview] at hy
  by_cases hxid : x = id
  · subst hxid
    rw [View.update_self] at hy
    exact .inr (hchild y hy)
  · rw [View.update_of_ne hxid] at hy
    exact .inr (hI.child x (hx.resolve_left hxid) y hy)

theorem Intact.issues (hI : h.Intact) (hA : Issues h c id h') (hc : c.isFree = false)
    (hchild : ∀ y ∈ c.children, h.InUse y) : h'.Intact where
  listed := by
    obtain ⟨l, hl, hasc, hcount, hmem⟩ := hA.rest
    refine ⟨l, hl, hasc, fun x => ?_, hcount⟩
    rw [hmem, inUse_of_update hA.view hc]
    tauto
  size_le := hA.fits
  child := child_of_update hI hA.view hc hchild
  peak := by rw [hA.peak]; exact Nat.le_max_right _ _

theorem Intact.set (hI : h.Intact) (hid : h.InUse id) (hc : c.isFree = false)
    (hchild : ∀ y ∈ c.children, h.InUse y) : (h.set id c).Intact where
  listed := by
    obtain ⟨l, hl⟩ := hI.listed
    have hview : (h.set id c).get = View.update h.get id c := get_set hid.lt_size
    refine ⟨l, hl.chain.congr fun x hx => ?_, hl.ascending, fun x => ?_, hl.count⟩
    · rw [hview, View.update_of_ne]
      rintro rfl
      exact ((hl.mem x).1 hx).2 hid
    · rw [hl.mem, inUse_of_update hview hc, size_set]
      refine and_congr_right fun _ => not_congr ⟨.inr, ?_⟩
      rintro (rfl | hx)
      · exact hid
      · exact hx
  size_le := by rw [size_set]; exact hI.size_le
  child := child_of_update hI (get_set hid.lt_size) hc hchild
  peak := by
    have hlive : (h.set id c).live = h.live := by simp [live, freeCells, Heap.set]
    rw [hlive]
    exact hI.peak

/-!
## Collections
-/

/-- What a cell in use stands for is in use, even where a cycle of indirections is given up. -/
theorem Intact.inUse_resolve (hI : h.Intact) (hx : h.InUse x) : h.InUse (h.resolve x) := by
  unfold resolve
  generalize h.cells.size + 1 = moves
  induction moves generalizing x with
  | zero => exact hx
  | succ moves ih =>
    rw [follow_succ]
    cases hf : h.forward x with
    | none => exact hx
    | some t =>
      refine ih (hI.child x hx t ?_)
      rw [(forward_eq_some.1 hf).1]
      exact mem_singleton_self t

theorem Intact.inUse_of_reachable (hI : h.Intact) (hroots : ∀ x ∈ roots, h.InUse x)
    (hx : Reachable h.shortcuts (· ∈ roots) x) : h.InUse x := by
  induction hx with
  | root hx => exact hroots _ hx
  | @child x y _ hy ih =>
    have hchild := hI.child x ih
    rw [shortcuts] at hy
    cases hc : h.get x with
    | app f a =>
      rw [hc] at hchild hy
      simp only [Cell.skip, Cell.children, mem_cons, not_mem_nil, or_false] at hchild hy
      rcases hy with rfl | rfl
      · exact hI.inUse_resolve (hchild f (.inl rfl))
      · exact hI.inUse_resolve (hchild a (.inr rfl))
    | ind t =>
      rw [hc] at hchild hy
      exact hchild y hy
    | _ => rw [hc] at hy; cases hy

/-- **After a collection exactly the cells that can be reached are in use.** -/
theorem Intact.inUse_collect (hI : h.Intact) (hroots : ∀ x ∈ roots, h.InUse x) :
    (collect roots h).2.InUse x ↔ Reachable h.shortcuts (· ∈ roots) x := by
  refine ⟨fun hx => by_contra fun hreach => ?_, fun hx => ?_⟩
  · exact not_inUse.2 (isFree_collect hreach) hx
  · unfold InUse
    rw [get_collect hx, shortcuts, Cell.isFree_skip]
    exact hI.inUse_of_reachable hroots hx

theorem Intact.listed_collect (hI : h.Intact) (hroots : ∀ x ∈ roots, h.InUse x) :
    ∃ l, (collect roots h).2.Listed l := by
  obtain ⟨l, hl, hasc, hmem⟩ := (collect_collects h roots hI.size_le).free
  refine ⟨l, hl.chain, hasc, fun x => ?_, hl.count.symm⟩
  rw [hmem, size_collect, hI.inUse_collect hroots]
  exact and_congr_right fun hlt => not_congr ⟨fun hx => hx.2, fun hx => ⟨hlt, hx⟩⟩

/-- **A collection takes out of the account what it gives back.** -/
theorem Intact.live_collect (hI : h.Intact) (hroots : ∀ x ∈ roots, h.InUse x) :
    (collect roots h).2.live + (collect roots h).1 = h.live := by
  obtain ⟨l, hl⟩ := hI.listed
  obtain ⟨l', hl'⟩ := hI.listed_collect hroots
  have hsize : (collect roots h).2.cells.size ≤ (collect roots h).2.capacity := by
    rw [size_collect]
    exact hI.size_le
  have hsplit : {x | h.InUse x} = {x | (collect roots h).2.InUse x} ∪
      {x | ¬ Reachable h.shortcuts (· ∈ roots) x ∧ (h.get x).isFree = false} := by
    ext x
    have hreach : (collect roots h).2.InUse x ↔ _ := hI.inUse_collect hroots
    have hkept := hI.inUse_of_reachable hroots (x := x)
    simp only [Set.mem_ofPred_eq, Set.mem_union, hreach]
    unfold InUse at hkept ⊢
    tauto
  have hdisj : Disjoint {x | (collect roots h).2.InUse x}
      {x | ¬ Reachable h.shortcuts (· ∈ roots) x ∧ (h.get x).isFree = false} :=
    Set.disjoint_left.2 fun x hx hx' => hx'.1 ((hI.inUse_collect hroots).1 hx)
  have hfin : {x | h.InUse x}.Finite := (Set.finite_Iio h.cells.size).subset fun x hx => hx.lt_size
  rw [hl.live_eq_ncard hI.size_le, hl'.live_eq_ncard hsize, collect_fst, hsplit,
    Set.ncard_union_eq hdisj (hfin.subset (hsplit ▸ Set.subset_union_left))
      (hfin.subset (hsplit ▸ Set.subset_union_right))]

theorem Intact.collect (hI : h.Intact) (hroots : ∀ x ∈ roots, h.InUse x) :
    (collect roots h).2.Intact where
  listed := hI.listed_collect hroots
  size_le := by
    rw [size_collect]
    exact hI.size_le
  child x hx y hy := by
    rw [hI.inUse_collect hroots] at hx ⊢
    rw [get_collect hx] at hy
    exact .child hx hy
  peak := by
    have hlive := hI.live_collect hroots
    exact Nat.le_trans (by omega) hI.peak

end Heap

/-!
## Sequences of operations
-/

/-- What is done with a heap. -/
inductive HeapOp where
  | alloc (c : Cell)
  | set (id : Nat) (c : Cell)
  | collect (roots : List Nat)

namespace HeapOp

/-- An application is allocated like any other cell. -/
def app (f a : Nat) : HeapOp := .alloc (.app f a)

/-- The heap after an operation. -/
def step (h : Heap) : HeapOp → Heap
  | alloc c =>
    match Heap.alloc c h with
    | .ok _ h' => h'
    | .error _ h' => h'
  | set id c => h.set id c
  | collect roots => (Heap.collect roots h).2

/-- The number of cells that an operation allocates. -/
def allocated (h : Heap) : HeapOp → Nat
  | alloc c =>
    match Heap.alloc c h with
    | .ok .. => 1
    | .error .. => 0
  | set .. | collect _ => 0

/-- An operation that stores no cell marked as free, and names only cells that are allocated. -/
def Proper (h : Heap) : HeapOp → Prop
  | alloc c => c.isFree = false ∧ ∀ y ∈ c.children, h.InUse y
  | set id c => h.InUse id ∧ c.isFree = false ∧ ∀ y ∈ c.children, h.InUse y
  | collect roots => ∀ x ∈ roots, h.InUse x

instance (h : Heap) : (op : HeapOp) → Decidable (op.Proper h)
  | alloc c => inferInstanceAs (Decidable (c.isFree = false ∧ ∀ y ∈ c.children, h.InUse y))
  | set id c =>
    inferInstanceAs (Decidable (h.InUse id ∧ c.isFree = false ∧ ∀ y ∈ c.children, h.InUse y))
  | collect roots => inferInstanceAs (Decidable (∀ x ∈ roots, h.InUse x))

/-- The heap after a sequence of operations. -/
def run (h : Heap) (ops : List HeapOp) : Heap := ops.foldl step h

/-- The heaps that a sequence of operations goes through, the first and the last included. -/
def through (h : Heap) : List HeapOp → List Heap
  | [] => [h]
  | op :: ops => h :: through (op.step h) ops

/-- Every operation of a sequence is proper when its turn comes. -/
def ProperFrom (h : Heap) : List HeapOp → Prop
  | [] => True
  | op :: ops => op.Proper h ∧ ProperFrom (op.step h) ops

/-- The number of cells that a sequence of operations allocates. -/
def allocations (h : Heap) : List HeapOp → Nat
  | [] => 0
  | op :: ops => op.allocated h + allocations (op.step h) ops

/-- **What an operation does to the account of an intact heap.** -/
structure Accounted (h : Heap) (op : HeapOp) : Prop where
  intact : (op.step h).Intact
  account : (op.step h).live + (op.step h).stats.reclaimed =
    h.live + h.stats.reclaimed + op.allocated h
  peak : (op.step h).stats.peakLive = max h.stats.peakLive (op.step h).live

end HeapOp

open HeapOp

namespace Heap

variable {h : Heap} {op : HeapOp} {ops : List HeapOp}

/-- One operation keeps the heap intact and its count right. -/
theorem Intact.step (hI : h.Intact) (hop : op.Proper h) : Accounted h op := by
  cases op with
  | alloc c =>
    rcases hI.alloc_cases c with ⟨herror, -⟩ | ⟨id, h', hok, hA, hlt⟩
    · refine ⟨?_, ?_, ?_⟩ <;> simp only [HeapOp.step, allocated, herror]
      · exact hI
      · rfl
      · exact (Nat.max_eq_left hI.peak).symm
    · have hI' := hI.issues hA hop.1 hop.2
      have htotal := hI.live_add_freeCells
      have htotal' := hI'.live_add_freeCells
      have hfree := hA.freeCells
      have hcapacity := hA.capacity
      refine ⟨?_, ?_, ?_⟩ <;> simp only [HeapOp.step, allocated, hok]
      · exact hI'
      · rw [hA.reclaimed]
        omega
      · exact hA.peak
  | set id c =>
    have hlive : (h.set id c).live = h.live := by simp [live, freeCells, Heap.set]
    refine ⟨hI.set hop.1 hop.2.1 hop.2.2, ?_, ?_⟩ <;> simp only [HeapOp.step, hlive]
    · rfl
    · exact (Nat.max_eq_left hI.peak).symm
  | collect roots =>
    have hlive := hI.live_collect hop
    have hreclaimed : (Heap.collect roots h).2.stats.reclaimed =
        h.stats.reclaimed + (Heap.collect roots h).1 := rfl
    have hpeak : (Heap.collect roots h).2.stats.peakLive = h.stats.peakLive := rfl
    have hle := hI.peak
    refine ⟨hI.collect hop, ?_, ?_⟩ <;> simp only [HeapOp.step, allocated]
    · omega
    · omega

theorem Intact.run (hI : h.Intact) (hops : ProperFrom h ops) : (run h ops).Intact := by
  induction ops generalizing h with
  | nil => exact hI
  | cons op ops ih => exact ih (hI.step hops.1).intact hops.2

theorem Intact.account_run (hI : h.Intact) (hops : ProperFrom h ops) :
    (HeapOp.run h ops).live + (HeapOp.run h ops).stats.reclaimed =
      h.live + h.stats.reclaimed + allocations h ops := by
  induction ops generalizing h with
  | nil => rfl
  | cons op ops ih =>
    have hstep := hI.step hops.1
    have hrest := ih hstep.intact hops.2
    have haccount := hstep.account
    simp only [HeapOp.run, foldl_cons, allocations] at hrest ⊢
    omega

/-- The peak is that of the start, or is reached on the way, and it is never exceeded. -/
theorem Intact.peak_run (hI : h.Intact) (hops : ProperFrom h ops) :
    h.stats.peakLive ≤ (HeapOp.run h ops).stats.peakLive ∧
    (∀ s ∈ through h ops, s.live ≤ (HeapOp.run h ops).stats.peakLive) ∧
    ((HeapOp.run h ops).stats.peakLive = h.stats.peakLive ∨
      ∃ s ∈ through h ops, s.live = (HeapOp.run h ops).stats.peakLive) := by
  induction ops generalizing h with
  | nil => exact ⟨Nat.le_refl _, by simpa [through, HeapOp.run] using hI.peak, .inl rfl⟩
  | cons op ops ih =>
    have hstep := hI.step hops.1
    obtain ⟨hmono, hall, hreached⟩ := ih hstep.intact hops.2
    have hpeak := hstep.peak
    have hle := hI.peak
    simp only [HeapOp.run, foldl_cons, through, forall_mem_cons] at hmono hall hreached ⊢
    refine ⟨by omega, ⟨by omega, hall⟩, ?_⟩
    rcases hreached with hsame | ⟨s, hs, hlive⟩
    · rcases Nat.le_total (op.step h).live h.stats.peakLive with hlow | hhigh
      · exact .inl (by omega)
      · -- the first operation sets the peak
        refine .inr ⟨op.step h, mem_cons_of_mem _ ?_, by omega⟩
        cases ops <;> exact mem_cons_self
    · exact .inr ⟨s, mem_cons_of_mem _ hs, hlive⟩

/-- **What the account of a heap says.** -/
structure Accounts (h : Heap) : Prop where
  /-- The free list runs through the cells not in use, each once and in ascending order. -/
  freeList : ∃ l, h.Listed l
  live : h.live = {x | h.InUse x}.ncard
  total : h.live + h.freeCells = h.capacity
  /-- An allocation takes the lowest cell not in use if there is one, and else the next of the
  arena. -/
  taken : ∀ c id h', alloc c h = .ok id h' → ¬ h.InUse id ∧ h.Next id
  fails : ∀ c, (∃ e h', alloc c h = .error e h') ↔ h.live = h.capacity
  unchanged : ∀ c e h', alloc c h = .error e h' → h' = h

/-- The accounts of an intact heap are right. -/
theorem Intact.accounts (hI : h.Intact) : h.Accounts where
  freeList := hI.listed
  live := by
    obtain ⟨l, hl⟩ := hI.listed
    exact hl.live_eq_ncard hI.size_le
  total := hI.live_add_freeCells
  taken c id h' hok := by
    rcases hI.alloc_cases c with ⟨herror, -⟩ | ⟨id', h'', hok', hA, -⟩
    · rw [herror] at hok
      cases hok
    · rw [hok'] at hok
      cases hok
      exact ⟨not_inUse.2 hA.wasFree, hA.next⟩
  fails c := by
    rcases hI.alloc_cases c with ⟨herror, hfull⟩ | ⟨id, h', hok, -, hlt⟩
    · exact ⟨fun _ => hfull, fun _ => ⟨_, _, herror⟩⟩
    · refine ⟨?_, fun hfull => by omega⟩
      rintro ⟨e, h'', herror⟩
      rw [hok] at herror
      cases herror
  unchanged c e h' herror := by
    rcases hI.alloc_cases c with ⟨herror', -⟩ | ⟨id, h'', hok, -, -⟩
    · rw [herror'] at herror
      cases herror
      rfl
    · rw [hok] at herror
      cases herror

/-- **The account of a heap is right after every sequence of operations** on an empty one. The cells
that were allocated are in use or have been reclaimed, and the peak is the largest number of cells that
were in use at one time. -/
theorem accounts_of_run {capacity : Nat} {ops : List HeapOp}
    (hops : ProperFrom (empty capacity) ops) :
    (HeapOp.run (empty capacity) ops).Accounts ∧
    allocations (empty capacity) ops = (HeapOp.run (empty capacity) ops).live +
      (HeapOp.run (empty capacity) ops).stats.reclaimed ∧
    IsGreatest {n | ∃ s ∈ through (empty capacity) ops, s.live = n}
      (HeapOp.run (empty capacity) ops).stats.peakLive := by
  have hI := intact_empty capacity
  have hlive : (empty capacity).live = 0 := by simp [live, freeCells, empty]
  have hreclaimed : (empty capacity).stats.reclaimed = 0 := rfl
  have haccount := hI.account_run hops
  obtain ⟨-, hall, hreached⟩ := hI.peak_run hops
  refine ⟨(hI.run hops).accounts, by omega, ?_, ?_⟩
  · rcases hreached with hsame | hreached
    · refine ⟨empty capacity, ?_, hlive.trans hsame.symm⟩
      cases ops <;> exact List.mem_cons_self
    · exact hreached
  · rintro n ⟨s, hs, rfl⟩
    exact hall s hs

/-- The arena is filled, an allocation fails, and cells are reclaimed twice and taken again. -/
def busyOps : List HeapOp :=
  [.alloc (.int 1), .alloc (.int 2), .app 0 0, .set 1 (.ind 2), .alloc (.prim .neg), .alloc (.int 9),
    .collect [1], .alloc (.int 7), .collect [0], .app 0 0]

theorem accounts_of_run_busyOps :
    ProperFrom (empty 4) busyOps ∧
    (HeapOp.run (empty 4) busyOps).cells =
      #[.int 1, .app 0 0, .free (some 3), .free none] ∧
    (HeapOp.run (empty 4) busyOps).stats = ⟨2, 4, 4⟩ ∧
    (HeapOp.run (empty 4) busyOps).Accounts ∧
    allocations (empty 4) busyOps = (HeapOp.run (empty 4) busyOps).live +
      (HeapOp.run (empty 4) busyOps).stats.reclaimed ∧
    IsGreatest {n | ∃ s ∈ through (empty 4) busyOps, s.live = n}
      (HeapOp.run (empty 4) busyOps).stats.peakLive := by
  have hops : ProperFrom (empty 4) busyOps := by
    refine ⟨?_, ?_, ?_, ?_, ?_, ?_, ?_, ?_, ?_, ?_, trivial⟩ <;> exact of_decide_eq_true (by cbv)
  exact ⟨hops, by cbv, by cbv, accounts_of_run hops⟩

end Heap

end GraphReduction
