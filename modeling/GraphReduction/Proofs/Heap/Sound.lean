import GraphReduction.Proofs.Heap.Indirection

/-!
# Sound heaps

A set of cells is closed if all of its cells are in use, everything they refer to is in the set,
and their chains of indirections are finite. The free list is intact beside such a set if it
runs through cells not in use that are outside the set.
-/

namespace GraphReduction

open List

variable {first : Option Nat} {l : List Nat}

namespace Cell

/-- The cells that a cell refers to. -/
def children : Cell → List Nat
  | app f a => [f, a]
  | ind t => [t]
  | _ => []

end Cell

/-- What can be reached from the cells in `R`. -/
inductive Reachable (v : View) (R : Nat → Prop) : Nat → Prop
  | root {x : Nat} : R x → Reachable v R x
  | child {x y : Nat} : Reachable v R x → y ∈ (v x).children → Reachable v R y

/-- A set of cells in use that refer to each other only, with finite chains of indirections. -/
structure Closed (v : View) (G : Nat → Prop) : Prop where
  inUse : ∀ x, G x → (v x).isFree = false
  child : ∀ x, G x → ∀ y ∈ (v x).children, G y
  ends : ∀ x, G x → ∃ y, Stands v x y

namespace Closed

variable {v : View} {G R : Nat → Prop} {x y w : Nat} {c : Cell}

section

variable (h : Closed v G)
include h

theorem app {f a : Nat} (hx : G x) (hc : v x = .app f a) : G f ∧ G a := by
  have := h.child x hx
  rw [hc] at this
  exact ⟨this f (by simp [Cell.children]), this a (by simp [Cell.children])⟩

theorem ind {t : Nat} (hx : G x) (hc : v x = .ind t) : G t := by
  have := h.child x hx
  rw [hc] at this
  exact this t (by simp [Cell.children])

theorem stands (hx : G x) (hs : Stands v x y) : G y := by
  induction hs with
  | here => exact hx
  | there hc _ ih => exact ih (h.ind hx hc)

theorem reachable (hR : ∀ x, R x → G x) (hx : Reachable v R x) : G x := by
  induction hx with
  | root hr => exact hR _ hr
  | child _ hy ih => exact h.child _ ih _ hy

theorem update (hx : G x) (hfree : c.isFree = false) (hind : c.isInd = false)
    (hc : ∀ y ∈ c.children, G y) : Closed (v.update x c) G := by
  refine ⟨?_, ?_, ?_⟩
  · intro y hy
    by_cases hyx : y = x
    · subst hyx; simpa using hfree
    · rw [View.update_of_ne hyx]; exact h.inUse y hy
  · intro y hy z hz
    by_cases hyx : y = x
    · subst hyx; rw [View.update_self] at hz; exact hc z hz
    · rw [View.update_of_ne hyx] at hz; exact h.child y hy z hz
  · intro y hy
    obtain ⟨z, hz⟩ := h.ends y hy
    exact hz.exists_update_leaf hind

theorem update_ind (hx : G x) (hw : G w) (hwx : w ≠ x)
    (hwi : (v w).isInd = false) : Closed (v.update x (.ind w)) G := by
  refine ⟨?_, ?_, ?_⟩
  · intro y hy
    by_cases hyx : y = x
    · subst hyx; simp [Cell.isFree]
    · rw [View.update_of_ne hyx]; exact h.inUse y hy
  · intro y hy z hz
    by_cases hyx : y = x
    · subst hyx
      simp only [View.update_self, Cell.children, mem_singleton] at hz
      subst hz; exact hw
    · rw [View.update_of_ne hyx] at hz; exact h.child y hy z hz
  · intro y hy
    obtain ⟨z, hz⟩ := h.ends y hy
    exact hz.exists_update_ind hwx hwi

theorem insert (hx : ¬ G x) (hfree : c.isFree = false) (hind : c.isInd = false)
    (hc : ∀ y ∈ c.children, G y) : Closed (v.update x c) (fun y => G y ∨ y = x) := by
  have hne : ∀ y, G y → y ≠ x := fun y hy hyx => hx (hyx ▸ hy)
  refine ⟨?_, ?_, ?_⟩
  · rintro y (hy | rfl)
    · rw [View.update_of_ne (hne y hy)]; exact h.inUse y hy
    · simpa using hfree
  · rintro y (hy | rfl) z hz
    · rw [View.update_of_ne (hne y hy)] at hz; exact Or.inl (h.child y hy z hz)
    · rw [View.update_self] at hz; exact Or.inl (hc z hz)
  · rintro y (hy | rfl)
    · obtain ⟨z, hz⟩ := h.ends y hy
      exact hz.exists_update_leaf hind
    · exact ⟨y, .here (by simpa using hind)⟩

theorem congr {v' : View} (hv : ∀ x, G x → v' x = v x) : Closed v' G := by
  refine ⟨fun x hx => by rw [hv x hx]; exact h.inUse x hx,
    fun x hx y hy => h.child x hx y (by rw [← hv x hx]; exact hy), ?_⟩
  intro x hx
  obtain ⟨y, hy⟩ := h.ends x hx
  refine ⟨y, ?_⟩
  induction hy with
  | here hi => exact .here (by rw [hv _ hx]; exact hi)
  | there hc _ ih => exact .there (by rw [hv _ hx]; exact hc) (ih (h.ind hx hc))

end

end Closed

/-!
## The free list
-/

/-- The list that starts at `first` runs through the cells of `l` in order. -/
inductive FreeChain (v : View) : Option Nat → List Nat → Prop
  | nil : FreeChain v none []
  | cons {x : Nat} {next : Option Nat} {l : List Nat} :
    v x = .free next → FreeChain v next l → FreeChain v (some x) (x :: l)

theorem FreeChain.congr {v v' : View} (h : FreeChain v first l) (hv : ∀ x ∈ l, v' x = v x) :
    FreeChain v' first l := by
  induction h with
  | nil => exact .nil
  | @cons x next l hx _ ih =>
    refine .cons (by rw [hv x mem_cons_self]; exact hx) (ih fun y hy => ?_)
    exact hv y (mem_cons_of_mem _ hy)

theorem FreeChain.isFree {v : View} (h : FreeChain v first l) : ∀ x ∈ l, (v x).isFree = true := by
  induction h with
  | nil => intro x hx; cases hx
  | cons hx _ ih =>
    intro y hy
    rcases mem_cons.1 hy with rfl | hy
    · rw [hx]; rfl
    · exact ih y hy

namespace Heap

/-- The free list is `l`, which is outside of `G`, and the arena is within its capacity. -/
structure FreeListIs (h : Heap) (G : Nat → Prop) (l : List Nat) : Prop where
  chain : FreeChain h.get h.free l
  nodup : l.Nodup
  outside : ∀ x ∈ l, x < h.cells.size ∧ ¬ G x
  count : l.length = h.freeCount
  size_le : h.cells.size ≤ h.capacity

/-- The free list is intact and outside of `G`. -/
def FreeList (h : Heap) (G : Nat → Prop) : Prop := ∃ l, FreeListIs h G l

namespace FreeList

variable {h : Heap} {G G' : Nat → Prop} {x : Nat} {c : Cell}

theorem mono (hf : FreeList h G) (hG : ∀ x, G' x → G x) : FreeList h G' := by
  obtain ⟨l, hl⟩ := hf
  exact ⟨l, hl.chain, hl.nodup, fun x hx => ⟨(hl.outside x hx).1, fun hg => (hl.outside x hx).2 (hG x hg)⟩,
    hl.count, hl.size_le⟩

theorem of_inUse (hf : FreeList h G) (hG : ∀ x, G' x → (h.get x).isFree = false) : FreeList h G' := by
  obtain ⟨l, hl⟩ := hf
  refine ⟨l, hl.chain, hl.nodup, fun x hx => ⟨(hl.outside x hx).1, fun hg => ?_⟩, hl.count, hl.size_le⟩
  have hfree := hl.chain.isFree x hx
  rw [hG x hg] at hfree
  cases hfree

theorem set (hf : FreeList h G) (hx : G x) : FreeList (h.set x c) G := by
  obtain ⟨l, hl⟩ := hf
  refine ⟨l, ?_, hl.nodup, ?_, hl.count, ?_⟩
  · refine hl.chain.congr fun y hy => ?_
    have hyx : y ≠ x := fun hyx => (hl.outside y hy).2 (hyx ▸ hx)
    by_cases hlt : x < h.cells.size
    · rw [get_set hlt, View.update_of_ne hyx]
    · simp only [get, Heap.set, Array.getD_eq_getD_getElem?]
      rw [Array.getElem?_setIfInBounds_ne (Ne.symm hyx)]
  · intro y hy
    rw [size_set]; exact hl.outside y hy
  · rw [size_set]; exact hl.size_le

end FreeList

/-- What a successful allocation does. -/
structure Allocates (h : Heap) (c : Cell) (id : Nat) (h' : Heap) : Prop where
  view : h'.get = View.update h.get id c
  wasFree : (h.get id).isFree = true
  lt_size : id < h'.cells.size
  size_le : h.cells.size ≤ h'.cells.size
  capacity : h'.capacity = h.capacity
  collections : h'.stats.collections = h.stats.collections
  freeCells : h'.freeCells + 1 = h.freeCells

theorem get_push {cells : Array Cell} {c : Cell} {y : Nat} :
    (cells.push c).getD y (.free none) =
      if y = cells.size then c else cells.getD y (.free none) := by
  simp only [Array.getD_eq_getD_getElem?, Array.getElem?_push]
  split <;> rfl

/-- **Allocation beside an intact free list**: the arena is full, or a cell outside the set is
handed out and the free list is intact beside the set with that cell. -/
theorem alloc_cases {h : Heap} {G : Nat → Prop} (hf : FreeList h G)
    (hG : ∀ x, G x → x < h.cells.size) (c : Cell) :
    (alloc c h = .error (.outOfMemory h.capacity) h ∧ h.freeCells = 0) ∨
      ∃ id h', alloc c h = .ok id h' ∧ ¬ G id ∧ Allocates h c id h' ∧
        FreeList h' (fun y => G y ∨ y = id) := by
  obtain ⟨l, hl⟩ := hf
  cases hfree : h.free with
  | none =>
    have hl0 : l = [] := by
      have := hl.chain
      rw [hfree] at this; cases this; rfl
    have hcount : h.freeCount = 0 := by rw [← hl.count, hl0]; rfl
    -- without a free cell the heap grows, up to its capacity
    by_cases hlt : h.cells.size < h.capacity
    · refine Or.inr ⟨h.cells.size, _, by simp only [alloc, hfree, if_pos hlt]; rfl, ?_, ?_, ?_⟩
      · intro hg; exact absurd (hG _ hg) (by omega)
      · refine ⟨?_, ?_, ?_, ?_, rfl, rfl, ?_⟩
        · funext y; exact get_push
        · simp only [get, Array.getD_eq_getD_getElem?]
          rw [Array.getElem?_eq_none (by omega)]; rfl
        · simp [notePeak]
        · simp [notePeak]
        · simp only [freeCells, notePeak, Array.size_push]; omega
      · refine ⟨[], ?_, nodup_nil, (fun x hx => by cases hx), ?_, ?_⟩
        · exact .nil
        · simp [notePeak, hcount]
        · simp only [notePeak, Array.size_push]; omega
    · left
      have := hl.size_le
      refine ⟨by simp only [alloc, hfree, if_neg hlt], ?_⟩
      simp only [freeCells, hcount]; omega
  | some id =>
    have hch := hl.chain
    rw [hfree] at hch
    cases hch with
    | @cons x next l' hx hrest =>
      obtain ⟨hidlt, hidG⟩ := hl.outside id mem_cons_self
      have hnd := nodup_cons.1 hl.nodup
      have hcount : h.freeCount = l'.length + 1 := by rw [← hl.count]; rfl
      refine Or.inr ⟨id, _, by simp only [alloc, hfree, hx]; rfl, hidG, ?_, ?_⟩
      · refine ⟨get_set hidlt, by rw [hx]; rfl, ?_, ?_, rfl, rfl, ?_⟩
        · simp only [notePeak, size_set]; exact hidlt
        · simp only [notePeak, size_set]; exact Nat.le_refl _
        · simp only [freeCells, notePeak, size_set]
          have : (h.set id c).capacity = h.capacity := rfl
          rw [this]; omega
      · refine ⟨l', ?_, hnd.2, ?_, ?_, ?_⟩
        · refine hrest.congr fun y hy => ?_
          have hyx : y ≠ id := fun hyx => hnd.1 (hyx ▸ hy)
          show (h.set id c).get y = h.get y
          rw [get_set hidlt, View.update_of_ne hyx]
        · intro y hy
          obtain ⟨h1, h2⟩ := hl.outside y (mem_cons_of_mem _ hy)
          refine ⟨by simp only [notePeak, size_set]; exact h1, ?_⟩
          rintro (hg | rfl)
          · exact h2 hg
          · exact hnd.1 hy
        · simp only [notePeak]; omega
        · simp only [notePeak, size_set]; exact hl.size_le

end Heap

end GraphReduction
