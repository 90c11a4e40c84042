import GraphReduction.Proofs.Heap.Collection
import GraphReduction.Proofs.Machine.Contraction

/-!
# Sound machines

A machine is sound with a set `G` of cells if `G` is closed, has the stack and the definitions,
and the free list is intact beside it. Computations change such a machine in a few ways only:

* `meets_alloc`: a new cell joins the set, or the heap is full.
* `meets_reserve`: nothing happens, or a collection cuts the set down to what the roots reach.
* `Sound.update`, `Sound.update_ind`: a cell of the set is overwritten.

A collection makes the arguments on the stack skip indirections (`HasArgs.collect`).
-/

namespace GraphReduction

namespace Machine

/-- The cells that a collection starts from. -/
def roots (m : Machine) : List Nat := m.stack.toList ++ m.pinned

theorem mem_roots {m : Machine} {i : Nat} (hi : i < m.stack.size) : m.stack.getD i 0 ∈ m.roots := by
  refine List.mem_append_left _ ?_
  simp [Array.getD_eq_getD_getElem?, hi]

/-- The stack and the definitions are in a closed set with an intact free list beside it. -/
structure Sound (m : Machine) (G : Nat → Prop) : Prop where
  closed : Closed m.heap.get G
  free : m.heap.FreeList G
  roots : ∀ x ∈ m.roots, G x

namespace Sound

variable {m m' : Machine} {G : Nat → Prop} {x w : Nat} {c : Cell} {α : Type}

theorem lt_size (hm : m.Sound G) (hx : G x) : x < m.heap.cells.size :=
  Heap.lt_size_of_not_free (hm.closed.inUse x hx)

theorem size_le (hm : m.Sound G) : m.heap.cells.size ≤ m.heap.capacity := by
  obtain ⟨l, hl⟩ := hm.free
  exact hl.size_le

theorem congr (hm : m.Sound G) (hheap : m'.heap = m.heap) (hroots : ∀ x ∈ m'.roots, G x) :
    m'.Sound G :=
  ⟨hheap ▸ hm.closed, hheap ▸ hm.free, hroots⟩

theorem entry (hm : m.Sound G) {i : Nat} (hi : i < m.stack.size) : G (m.stack.getD i 0) :=
  hm.roots _ (mem_roots hi)

theorem update (hm : m.Sound G) (hx : G x) (hfree : c.isFree = false) (hind : c.isInd = false)
    (hc : ∀ y ∈ c.children, G y) : Sound { m with heap := m.heap.set x c } G := by
  refine ⟨?_, hm.free.set hx, hm.roots⟩
  show Closed (m.heap.set x c).get G
  rw [Heap.get_set (hm.lt_size hx)]
  exact hm.closed.update hx hfree hind hc

theorem update_ind (hm : m.Sound G) (hx : G x) (hw : G w) (hwx : w ≠ x)
    (hwi : (m.heap.get w).isInd = false) : Sound { m with heap := m.heap.set x (.ind w) } G := by
  refine ⟨?_, hm.free.set hx, hm.roots⟩
  show Closed (m.heap.set x (.ind w)).get G
  rw [Heap.get_set (hm.lt_size hx)]
  exact hm.closed.update_ind hx hw hwx hwi

theorem collect (hm : m.Sound G) {h' : Heap} (hc : Heap.Collects m.heap m.roots h') :
    Sound { m with heap := h' } (m.heap.Kept m.roots) := by
  obtain ⟨l, hl, -⟩ := hc.free
  exact ⟨hm.closed.collect hm.roots hc, ⟨l, hl⟩,
    fun x hx => hm.closed.kept_of_root hm.roots hx⟩

end Sound

section Spines

variable {h h' : Heap} {G : Nat → Prop} {roots : List Nat} {m : Machine} {x s top : Nat}
  {args : List Nat}

section

variable (hG : Closed h.get G)
include hG

theorem spineFrom_mem {fuel : Nat} (hx : G x) (hargs : ∀ a ∈ args, G a) :
    G (spineFrom h fuel x args).1 ∧ ∀ a ∈ (spineFrom h fuel x args).2, G a := by
  induction fuel generalizing x args with
  | zero => exact ⟨hx, hargs⟩
  | succ fuel ih =>
    cases hc : h.get x with
    | app f a =>
      obtain ⟨hf, ha⟩ := hG.app hx hc
      simp only [spineFrom, hc]
      refine ih (hG.resolve hf) fun b hb => ?_
      rcases List.mem_cons.1 hb with rfl | hb
      · exact ha
      · exact hargs b hb
    | _ => simp only [spineFrom, hc]; exact ⟨hx, hargs⟩

theorem spineOf_mem (hx : G x) :
    G (spineOf h x).1 ∧ ∀ a ∈ (spineOf h x).2, G a :=
  spineFrom_mem hG (hG.resolve hx) (fun a ha => by cases ha)

theorem spineOf_resolve (hx : G x) :
    spineOf h (h.resolve x) = spineOf h x := by
  have hi := (hG.stands_resolve hx).isInd_eq_false
  unfold spineOf
  rw [Heap.resolve_of_stands (.here hi)]

theorem resolve_collect (hr : ∀ x ∈ roots, G x)
    (hc : Heap.Collects h roots h') (hx : h.Kept roots x) (hi : (h.get x).isInd = false) :
    h'.resolve x = x :=
  Heap.resolve_of_stands (hG.stands_collect hr hc hx (.here hi))

/-- What an application refers to directly, once a collection has made it skip indirections. -/
theorem kept_app (hr : ∀ x ∈ roots, G x) (hx : h.Kept roots x) {f a : Nat}
    (hc : h.get x = .app f a) : h.Kept roots (h.resolve f) ∧ h.Kept roots (h.resolve a) := by
  have hsc : h.shortcuts x = .app (h.resolve f) (h.resolve a) := by
    simp only [Heap.shortcuts, hc, Cell.skip]
  constructor
  · exact hG.kept_child hr hx (by rw [hsc]; simp [Cell.children])
  · exact hG.kept_child hr hx (by rw [hsc]; simp [Cell.children])

end

theorem Sound.kept_entry (hm : m.Sound G) {i : Nat} (hi : i < m.stack.size) :
    m.heap.Kept m.roots (m.stack.getD i 0) :=
  hm.closed.kept_of_root hm.roots (mem_roots hi)

theorem HasArgs.collect (hs : m.HasArgs top args) (hm : m.Sound G) (hlt : top < m.stack.size)
    (hc : Heap.Collects m.heap m.roots h') :
    HasArgs { m with heap := h' } top (args.map m.heap.resolve) := by
  intro i a' hi
  obtain ⟨a, ha, rfl⟩ : ∃ a, args[i]? = some a ∧ m.heap.resolve a = a' := by
    simpa [List.getElem?_map] using hi
  obtain ⟨f, hcell⟩ := hs i a ha
  refine ⟨m.heap.resolve f, ?_⟩
  show h'.get _ = _
  rw [hc.kept _ (hm.kept_entry (i := top - (i + 1)) (by omega))]
  simp only [Heap.shortcuts, hcell, Cell.skip]

end Spines

section Contracts

variable {α : Type} {m : Machine} {G : Nat → Prop} {c : Cell} {E : Halt → Machine → Prop}

/-- **Allocation in a sound machine**: the heap is full, or a new cell joins the set. -/
theorem meets_alloc {Q : Nat → Machine → Prop} (hm : m.Sound G) (hfree : c.isFree = false)
    (hind : c.isInd = false) (hc : ∀ y ∈ c.children, G y)
    (hQ : ∀ id h', ¬ G id → Heap.Allocates m.heap c id h' →
      Sound { m with heap := h' } (fun y => G y ∨ y = id) → Q id { m with heap := h' })
    (hE : E (.error (.outOfMemory m.heap.capacity)) m) : Meets (alloc c) m Q E := by
  unfold Meets alloc
  rcases Heap.alloc_cases hm.free (fun x hx => hm.lt_size hx) c with
    ⟨h, -⟩ | ⟨id, h', h, hid, hal, hfl⟩
  · rw [h]; exact hE
  · rw [h]
    refine hQ id h' hid hal ⟨?_, hfl, fun x hx => Or.inl (hm.roots x hx)⟩
    show Closed h'.get _
    rw [hal.view]
    exact hm.closed.insert hid hfree hind hc

/-- **Making room in a sound machine**: nothing happens, or there is a collection, after which
there may still be too little room. -/
theorem meets_reserve {n : Nat} {Q : Unit → Machine → Prop} (hm : m.Sound G)
    (hsame : m.gcStress = false → max n Heap.reserve ≤ m.heap.freeCells → Q () m)
    (hcollect : ∀ h', Heap.Collects m.heap m.roots h' →
      Sound { m with heap := h' } (m.heap.Kept m.roots) →
      max n Heap.reserve ≤ h'.freeCells → Q () { m with heap := h' })
    (hE : ∀ h', Heap.Collects m.heap m.roots h' →
      Sound { m with heap := h' } (m.heap.Kept m.roots) →
      E (.error (.outOfMemory m.heap.capacity)) { m with heap := h' }) :
    Meets (reserve n) m Q E := by
  have hc := Heap.collect_collects m.heap m.roots hm.size_le
  have hs := hm.collect hc
  simp only [reserve, meets_bind, meets_get, meets_ite, Bool.or_eq_true, decide_eq_true_eq]
  by_cases hlow : m.gcStress = true ∨ m.heap.freeCells < max n Heap.reserve
  · rw [if_pos hlow]
    show if (Heap.collect m.roots m.heap).2.freeCells < max n Heap.reserve then
        E (.error (.outOfMemory (Heap.collect m.roots m.heap).2.capacity))
          { m with heap := (Heap.collect m.roots m.heap).2 }
      else Q () { m with heap := (Heap.collect m.roots m.heap).2 }
    by_cases hfew : (Heap.collect m.roots m.heap).2.freeCells < max n Heap.reserve
    · rw [if_pos hfew, hc.capacity]; exact hE _ hc hs
    · rw [if_neg hfew]; exact hcollect _ hc hs (by omega)
  · rw [if_neg hlow]
    obtain ⟨hstress, hroom⟩ := not_or.1 hlow
    exact hsame (by simpa using hstress) (by omega)

end Contracts

end Machine

end GraphReduction
