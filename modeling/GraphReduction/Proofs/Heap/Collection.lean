import GraphReduction.Heap.Collect
import GraphReduction.Proofs.Heap.Sound

/-!
# What a collection does

The collector looks at the heap through `Heap.shortcuts`, in which applications skip the
indirections that they point through.
-/

namespace GraphReduction

open List

namespace Cell

/-- A cell with the indirections under an application skipped by `res`. -/
def skip (res : Nat → Nat) : Cell → Cell
  | app f a => app (res f) (res a)
  | c => c

variable {res : Nat → Nat} {c : Cell}

@[simp] theorem target?_skip : (c.skip res).target? = c.target? := by
  cases c <;> rfl

@[simp] theorem isFree_skip : (c.skip res).isFree = c.isFree := by
  cases c <;> rfl

@[simp] theorem isInd_skip : (c.skip res).isInd = c.isInd := by
  cases c <;> rfl

end Cell

namespace Heap

variable {marks : Array Bool} {x : Nat} {cells' arena : Array Cell}

/-!
## Marking
-/

theorem follow_congr {cells : Array Cell}
    (h : ∀ a, (cells'.getD a (.free none)).target? = (cells.getD a (.free none)).target?)
    (moves x : Nat) : follow cells' moves x = follow cells moves x := by
  induction moves generalizing x with
  | zero => rfl
  | succ moves ih =>
    have hx := h x
    cases hc : cells.getD x (.free none) with
    | ind t =>
      rw [hc] at hx
      have hc' := Cell.target?_eq_some.1 hx
      simp only [follow, hc, hc', ih]
    | _ =>
      rw [hc] at hx
      have hi : (cells'.getD x (.free none)).isInd = false := Cell.target?_eq_none.1 hx
      simp only [follow, hc]
      cases hc' : cells'.getD x (.free none) <;> simp_all [Cell.isInd]

/-- The contents of an arena with indirections under applications skipped. -/
def skipped (cells : Array Cell) : View := fun x =>
  (cells.getD x (.free none)).skip (follow cells (cells.size + 1))

/-- The state of marking an arena: marked cells have been made to skip indirections, and what
they refer to is marked or on the work list. -/
structure Marking (arena cells : Array Cell) (marks : Array Bool) (work : List Nat) : Prop where
  size : cells.size = arena.size
  marks_size : marks.size = arena.size
  cell : ∀ x, cells.getD x (.free none) =
    if marks.getD x false then skipped arena x else arena.getD x (.free none)
  child : ∀ x, marks.getD x false = true → ∀ y ∈ (skipped arena x).children,
    y < arena.size → marks.getD y false = true ∨ y ∈ work

namespace Marking

variable {arena cells : Array Cell} {marks : Array Bool} {work : List Nat} {id : Nat}

theorem target?_eq (h : Marking arena cells marks work) (x : Nat) :
    (cells.getD x (.free none)).target? = (arena.getD x (.free none)).target? := by
  rw [h.cell x]
  split
  · exact Cell.target?_skip
  · rfl

theorem follow_eq (h : Marking arena cells marks work) (x : Nat) :
    follow cells (cells.size + 1) x = follow arena (arena.size + 1) x := by
  rw [h.size]; exact follow_congr h.target?_eq _ x

theorem unmarked (h : marks[id]? = some false) : marks.getD id false = false := by
  simp [Array.getD_eq_getD_getElem?, h]

theorem lt_of_unmarked (hm : Marking arena cells marks work) (h : marks[id]? = some false) :
    id < arena.size := by
  obtain ⟨hlt, -⟩ := Array.getElem?_eq_some_iff.1 h
  rw [← hm.marks_size]; exact hlt

theorem getD_mark (hlt : id < marks.size) (x : Nat) :
    (marks.setIfInBounds id true).getD x false = if x = id then true else marks.getD x false := by
  simp only [Array.getD_eq_getD_getElem?]
  by_cases hx : x = id
  · subst hx; simp [hlt]
  · rw [if_neg hx, Array.getElem?_setIfInBounds_ne (Ne.symm hx)]

/-- **A turn of the marking loop**: the next cell is marked and put into its final form, and
what it refers to joins the work list. -/
theorem turn (h : Marking arena cells marks (id :: work)) (hid : marks[id]? = some false)
    {more : List Nat} (hsize : cells'.size = cells.size) (hcells : ∀ x, cells'.getD x (.free none) =
      if x = id then skipped arena id else cells.getD x (.free none))
    (hmore : ∀ y, y ∈ (skipped arena id).children → y ∈ more) :
    Marking arena cells' (marks.setIfInBounds id true) (more ++ work) := by
  have hlt : id < marks.size := by rw [h.marks_size]; exact h.lt_of_unmarked hid
  refine ⟨by rw [hsize, h.size], by simp [h.marks_size], ?_, ?_⟩
  · intro x
    rw [hcells, getD_mark hlt]
    by_cases hx : x = id
    · rw [if_pos hx, if_pos hx, hx]; rfl
    · rw [if_neg hx, if_neg hx]; exact h.cell x
  · intro x hx y hy hylt
    rw [getD_mark hlt] at hx
    rw [getD_mark hlt]
    by_cases hyi : y = id
    · left; rw [if_pos hyi]
    rw [if_neg hyi]
    by_cases hxi : x = id
    · subst hxi; right; exact mem_append_left _ (hmore y hy)
    · rw [if_neg hxi] at hx
      rcases h.child x hx y hy hylt with hm | hm
      · exact Or.inl hm
      · rcases mem_cons.1 hm with hm | hm
        · exact absurd hm hyi
        · exact Or.inr (mem_append_right _ hm)

theorem drop (h : Marking arena cells marks (id :: work)) (hid : ¬ marks[id]? = some false) :
    Marking arena cells marks work := by
  refine ⟨h.size, h.marks_size, h.cell, fun x hx y hy hylt => ?_⟩
  rcases h.child x hx y hy hylt with hm | hm
  · exact Or.inl hm
  rcases mem_cons.1 hm with rfl | hm
  · left
    have hlt : y < marks.size := by rw [h.marks_size]; exact hylt
    rw [Array.getD_eq_getD_getElem?]
    rw [Array.getElem?_eq_getElem hlt] at hid ⊢
    simpa using hid
  · exact Or.inr hm

end Marking

/-- What marking comes to: a finished state in which exactly the cells below the work list are
marked in addition. -/
structure Marked (arena : Array Cell) (marks : Array Bool) (work : List Nat)
    (r : Array Cell × Array Bool) : Prop where
  finished : Marking arena r.1 r.2 []
  mono : ∀ x, marks.getD x false = true → r.2.getD x false = true
  listed : ∀ x ∈ work, x < arena.size → r.2.getD x false = true
  sound : ∀ x, r.2.getD x false = true →
    marks.getD x false = true ∨ Reachable (skipped arena) (· ∈ work) x

/-- What a turn of the loop leaves to do gives what the turn was to do. -/
theorem Marked.of_turn {work more : List Nat} {id : Nat} {r : Array Cell × Array Bool}
    (hid : id < marks.size) (hmore : ∀ y, y ∈ more ↔ y ∈ (skipped arena id).children)
    (h : Marked arena (marks.setIfInBounds id true) (more ++ work) r) :
    Marked arena marks (id :: work) r := by
  refine ⟨h.finished, ?_, ?_, ?_⟩
  · intro x hx
    apply h.mono
    rw [Marking.getD_mark hid]; split
    · rfl
    · exact hx
  · intro x hx hlt
    rcases mem_cons.1 hx with rfl | hx
    · apply h.mono; rw [Marking.getD_mark hid, if_pos rfl]
    · exact h.listed x (mem_append_right _ hx) hlt
  · intro x hx
    rcases h.sound x hx with hm | hr
    · rw [Marking.getD_mark hid] at hm
      by_cases hxi : x = id
      · subst hxi; exact Or.inr (.root mem_cons_self)
      · rw [if_neg hxi] at hm; exact Or.inl hm
    · right
      clear hx
      induction hr with
      | root hr =>
        rcases mem_append.1 hr with hr | hr
        · exact .child (.root mem_cons_self) ((hmore _).1 hr)
        · exact .root (mem_cons_of_mem _ hr)
      | child _ hy ih => exact .child ih hy

/-- **Marking marks what can be reached**, and makes it skip indirections. -/
theorem mark_spec {cells : Array Cell} {work : List Nat} (h : Marking arena cells marks work) :
    Marked arena marks work (mark cells marks work) := by
  fun_induction mark cells marks work with
  | case1 cells marks =>
    exact ⟨h, fun _ hx => hx, (fun _ hx => by cases hx), fun _ hx => Or.inl hx⟩
  | case2 cells marks id work hid _ f a hc f' a' cells' ih =>
    -- an application: it is overwritten unless it points past all indirections already
    have hun := h.cell id
    rw [Marking.unmarked hid, if_neg (by simp), hc] at hun
    have hsk : skipped arena id = .app f' a' := by
      simp only [skipped, ← hun, Cell.skip, f', a', h.follow_eq]
    have hlt : id < marks.size := by rw [h.marks_size]; exact h.lt_of_unmarked hid
    have hlt' : id < cells.size := by rw [h.size]; exact h.lt_of_unmarked hid
    have hsize : cells'.size = cells.size := by simp only [cells']; split <;> simp
    have hcells : ∀ x, cells'.getD x (.free none) =
        if x = id then skipped arena id else cells.getD x (.free none) := by
      intro x
      rw [hsk]
      by_cases heq : f' = f ∧ a' = a
      · simp only [cells', dif_pos heq]
        by_cases hx : x = id
        · rw [if_pos hx, hx, hc, heq.1, heq.2]
        · rw [if_neg hx]
      · simp only [cells', dif_neg heq, Array.getD_eq_getD_getElem?]
        by_cases hx : x = id
        · rw [if_pos hx, hx]; simp [hlt']
        · rw [if_neg hx, Array.getElem?_setIfInBounds_ne (Ne.symm hx)]
    have hmore : ∀ y, y ∈ [a', f'] ↔ y ∈ (skipped arena id).children := by
      intro y; rw [hsk]; simp [Cell.children, or_comm]
    exact Marked.of_turn hlt hmore
      (ih (h.turn hid hsize hcells fun y hy => (hmore y).2 hy))
  | case3 cells marks id work hid _ t hc ih =>
    have hun := h.cell id
    rw [Marking.unmarked hid, if_neg (by simp), hc] at hun
    have hsk : skipped arena id = .ind t := by simp only [skipped, ← hun, Cell.skip]
    have hlt : id < marks.size := by rw [h.marks_size]; exact h.lt_of_unmarked hid
    have hmore : ∀ y, y ∈ [t] ↔ y ∈ (skipped arena id).children := by
      intro y; rw [hsk]; simp [Cell.children]
    refine Marked.of_turn hlt hmore (ih (h.turn hid rfl ?_ fun y hy => (hmore y).2 hy))
    intro x; split
    · rename_i hx; subst hx; rw [hc, hsk]
    · rfl
  | case4 cells marks id work hid _ happ hind ih =>
    have hun := h.cell id
    rw [Marking.unmarked hid, if_neg (by simp)] at hun
    have hsk : skipped arena id = cells.getD id (.free none) ∧
        (skipped arena id).children = [] := by
      simp only [skipped, ← hun]
      cases hc : cells.getD id (.free none) with
      | app f a => exact absurd hc (happ f a)
      | ind t => exact absurd hc (hind t)
      | _ => exact ⟨rfl, rfl⟩
    have hlt : id < marks.size := by rw [h.marks_size]; exact h.lt_of_unmarked hid
    have hmore : ∀ y, y ∈ ([] : List Nat) ↔ y ∈ (skipped arena id).children := by
      intro y; rw [hsk.2]
    refine Marked.of_turn hlt hmore (ih (h.turn hid rfl ?_ fun y hy => (hmore y).2 hy))
    intro x; split
    · rename_i hx; subst hx; rw [hsk.1]
    · rfl
  | case5 cells marks id work hid ih =>
    have hd := ih (h.drop hid)
    refine ⟨hd.finished, hd.mono, ?_, ?_⟩
    · intro x hx hlt
      rcases mem_cons.1 hx with rfl | hx
      · apply hd.mono
        have hlt' : x < marks.size := by rw [h.marks_size]; exact hlt
        rw [Array.getD_eq_getD_getElem?]
        rw [Array.getElem?_eq_getElem hlt'] at hid ⊢
        simpa using hid
      · exact hd.listed x hx hlt
    · intro x hx
      rcases hd.sound x hx with hm | hr
      · exact Or.inl hm
      · right
        clear hx
        induction hr with
        | root hr => exact .root (mem_cons_of_mem _ hr)
        | child _ hy ih => exact .child ih hy

/-!
## Sweeping
-/

/-- The unmarked cells below `n`, in ascending order. -/
def unmarkedBelow (marks : Array Bool) (n : Nat) : List Nat :=
  (range n).filter fun x => !marks.getD x false

theorem mem_unmarkedBelow {n : Nat} :
    x ∈ unmarkedBelow marks n ↔ x < n ∧ marks.getD x false = false := by
  simp [unmarkedBelow, mem_filter, mem_range]

/-- What sweeping the cells below `n` comes to, when the free list was `l` before. -/
structure Swept (marks : Array Bool) (n : Nat) (s r : Sweep) (l : List Nat) : Prop where
  size : r.cells.size = s.cells.size
  kept : ∀ x, x ∉ unmarkedBelow marks n → r.cells.getD x (.free none) = s.cells.getD x (.free none)
  freed : ∀ x ∈ unmarkedBelow marks n, (r.cells.getD x (.free none)).isFree = true
  chain : FreeChain (fun x => r.cells.getD x (.free none)) r.free (unmarkedBelow marks n ++ l)
  count : r.freeCount = (unmarkedBelow marks n).length + s.freeCount
  reclaimed : r.reclaimed = s.reclaimed +
    ((unmarkedBelow marks n).filter fun x => !(s.cells.getD x (.free none)).isFree).length

/-- **Sweeping puts the unmarked cells in front of the free list**, the lowest first. -/
theorem sweep_spec (marks : Array Bool) {n : Nat} {s : Sweep} {l : List Nat}
    (hn : n ≤ s.cells.size) (hl : ∀ x ∈ l, n ≤ x)
    (hc : FreeChain (fun x => s.cells.getD x (.free none)) s.free l) :
    Swept marks n s (sweep marks n s) l := by
  induction n generalizing s l with
  | zero =>
    refine ⟨rfl, fun _ _ => rfl, (fun x hx => ?_), hc, ?_, ?_⟩
    · exact absurd (mem_unmarkedBelow.1 hx).1 (by omega)
    · simp [unmarkedBelow, sweep]
    · simp [unmarkedBelow, sweep]
  | succ i ih =>
    have hsplit : unmarkedBelow marks (i + 1) = unmarkedBelow marks i ++
        (if marks.getD i false then [] else [i]) := by
      simp only [unmarkedBelow, range_succ, filter_append]
      congr 1
      cases hm : marks.getD i false <;> simp only [filter_cons, filter_nil, hm] <;> rfl
    cases hm : marks.getD i false with
    | true =>
      rw [hm, if_pos rfl, append_nil] at hsplit
      have h := ih (by omega) (fun x hx => Nat.le_of_succ_le (hl x hx)) hc
      have hs : sweep marks (i + 1) s = sweep marks i s := by simp only [sweep, hm, if_true]
      rw [hs]
      exact ⟨h.size, by rw [hsplit]; exact h.kept, by rw [hsplit]; exact h.freed,
        by rw [hsplit]; exact h.chain, by rw [hsplit]; exact h.count,
        by rw [hsplit]; exact h.reclaimed⟩
    | false =>
      rw [hm, if_neg (by simp)] at hsplit
      -- the sweep goes on from a list that has `i` in front
      set s' : Sweep := ⟨s.cells.setIfInBounds i (.free s.free), some i, s.freeCount + 1,
        if (s.cells.getD i (.free none)).isFree then s.reclaimed else s.reclaimed + 1⟩ with hs'
      have hs : sweep marks (i + 1) s = sweep marks i s' := by
        simp only [sweep, hm, s']; rfl
      have hget : ∀ x, s'.cells.getD x (.free none) =
          if x = i then .free s.free else s.cells.getD x (.free none) := by
        intro x
        simp only [s', Array.getD_eq_getD_getElem?]
        by_cases hx : x = i
        · rw [if_pos hx, hx]; simp [show i < s.cells.size by omega]
        · rw [if_neg hx, Array.getElem?_setIfInBounds_ne (Ne.symm hx)]
      have hc' : FreeChain (fun x => s'.cells.getD x (.free none)) s'.free (i :: l) := by
        refine .cons (by simp [hget]) (hc.congr fun x hx => ?_)
        have := hl x hx
        rw [hget, if_neg (by omega)]
      have hl' : ∀ x ∈ i :: l, i ≤ x := by
        intro x hx
        rcases mem_cons.1 hx with rfl | hx
        · exact Nat.le_refl _
        · have := hl x hx; omega
      have hn' : i ≤ s'.cells.size := by simp only [s', Array.size_setIfInBounds]; omega
      have h := ih hn' hl' hc'
      have hlow : ∀ x ∈ unmarkedBelow marks i, x ≠ i := by
        intro x hx; have := (mem_unmarkedBelow.1 hx).1; omega
      have hi : i ∉ unmarkedBelow marks i := fun hi => hlow i hi rfl
      rw [hs]
      refine ⟨by rw [h.size]; simp [s'], ?_, ?_, ?_, ?_, ?_⟩
      · intro x hx
        rw [hsplit, mem_append, mem_singleton, not_or] at hx
        rw [h.kept x hx.1, hget, if_neg hx.2]
      · intro x hx
        rw [hsplit, mem_append, mem_singleton] at hx
        rcases hx with hx | rfl
        · exact h.freed x hx
        · rw [h.kept x hi, hget, if_pos rfl]; rfl
      · rw [hsplit, append_assoc]; exact h.chain
      · rw [h.count, hsplit, length_append]
        simp only [s', length_singleton]; omega
      · rw [h.reclaimed, hsplit, filter_append, length_append]
        have hsame : (unmarkedBelow marks i).filter
            (fun x => !(s'.cells.getD x (.free none)).isFree) = (unmarkedBelow marks i).filter
            (fun x => !(s.cells.getD x (.free none)).isFree) := by
          apply filter_congr
          intro x hx; rw [hget, if_neg (hlow x hx)]
        rw [hsame]
        simp only [s', filter_cons, filter_nil]
        cases (s.cells.getD i (.free none)).isFree with
        | true => simp
        | false => simp; omega

/-!
## Collections
-/

/-- The heap with the indirections under applications skipped. -/
def shortcuts (h : Heap) : View := fun x => (h.get x).skip h.resolve

theorem get_of_size_le {h : Heap} (hx : h.cells.size ≤ x) : h.get x = .free none := by
  simp only [get, Array.getD_eq_getD_getElem?]
  rw [Array.getElem?_eq_none hx]; rfl

theorem shortcuts_of_size_le {h : Heap} (hx : h.cells.size ≤ x) : h.shortcuts x = .free none := by
  rw [shortcuts, get_of_size_le hx]; rfl

/-- The cells of the arena that a collection keeps. -/
def Kept (h : Heap) (roots : List Nat) (x : Nat) : Prop :=
  x < h.cells.size ∧ Reachable h.shortcuts (· ∈ roots) x

/-- **The two halves of a collection**: the cells to be kept are marked and skip indirections, and
then all others are swept. -/
structure Phases (h : Heap) (roots : List Nat) (cells : Array Cell) (marks : Array Bool)
    (s : Sweep) : Prop where
  size : cells.size = h.cells.size
  cell : ∀ x, cells.getD x (.free none) = if marks.getD x false then h.shortcuts x else h.get x
  marked : ∀ x, marks.getD x false = true ↔ h.Kept roots x
  swept : Swept marks h.cells.size ⟨cells, none, 0, 0⟩ s []
  result : collect roots h = (s.reclaimed, ⟨s.cells, h.capacity, s.free, s.freeCount,
    { h.stats with collections := h.stats.collections + 1
                   reclaimed := h.stats.reclaimed + s.reclaimed }⟩)

/-- Every collection has these two halves. -/
theorem exists_phases (h : Heap) (roots : List Nat) :
    ∃ cells marks s, Phases h roots cells marks s := by
  have hstart : Marking h.cells h.cells (Array.replicate h.cells.size false) roots := by
    have hfalse : ∀ x, (Array.replicate h.cells.size false).getD x false = false := by
      intro x; simp only [Array.getD_eq_getD_getElem?, Array.getElem?_replicate]; split <;> rfl
    refine ⟨rfl, by simp, fun x => by rw [hfalse]; rfl, fun x hx => ?_⟩
    rw [hfalse] at hx; cases hx
  have hm := mark_spec hstart
  set r := mark h.cells (Array.replicate h.cells.size false) roots with hr
  -- a cell is marked iff it is in the arena and can be reached
  have hiff : ∀ x, r.2.getD x false = true ↔ h.Kept roots x := by
    intro x
    constructor
    · intro hx
      refine ⟨?_, ?_⟩
      · by_contra hge
        rw [Array.getD_eq_getD_getElem?, Array.getElem?_eq_none] at hx
        · cases hx
        · rw [hm.finished.marks_size]; omega
      · rcases hm.sound x hx with hf | hf
        · simp only [Array.getD_eq_getD_getElem?, Array.getElem?_replicate] at hf
          split at hf <;> cases hf
        · exact hf
    · rintro ⟨hlt, hreach⟩
      induction hreach with
      | root hx => exact hm.listed _ hx hlt
      | @child x y hx hy ih =>
        by_cases hxlt : x < h.cells.size
        · rcases hm.finished.child x (ih hxlt) y hy hlt with h1 | h1
          · exact h1
          · cases h1
        · -- nothing hangs on a number outside the arena
          rw [shortcuts_of_size_le (by omega)] at hy; cases hy
  exact ⟨r.1, r.2, _, hm.finished.size, hm.finished.cell, hiff,
    sweep_spec r.2 (Nat.le_of_eq hm.finished.size.symm) (fun x hx => by cases hx) .nil, rfl⟩

namespace Phases

variable {h : Heap} {roots : List Nat} {cells : Array Cell} {marks : Array Bool} {s : Sweep} {x : Nat}

theorem mem_unmarkedBelow (hp : Phases h roots cells marks s) :
    x ∈ unmarkedBelow marks h.cells.size ↔ x < h.cells.size ∧ ¬ h.Kept roots x := by
  rw [Heap.mem_unmarkedBelow, ← hp.marked x]; simp

theorem kept (hp : Phases h roots cells marks s) (hx : h.Kept roots x) :
    s.cells.getD x (.free none) = h.shortcuts x := by
  have hout : x ∉ unmarkedBelow marks h.cells.size := fun hu => (hp.mem_unmarkedBelow.1 hu).2 hx
  rw [hp.swept.kept x hout]
  show cells.getD x (.free none) = _
  rw [hp.cell x, if_pos ((hp.marked x).2 hx)]

end Phases

/-- What a collection makes of a heap. -/
structure Collects (h : Heap) (roots : List Nat) (h' : Heap) : Prop where
  size : h'.cells.size = h.cells.size
  capacity : h'.capacity = h.capacity
  kept : ∀ x, h.Kept roots x → h'.get x = h.shortcuts x
  freed : ∀ x, ¬ h.Kept roots x → (h'.get x).isFree = true
  free : ∃ l, FreeListIs h' (h.Kept roots) l ∧ l.Pairwise (· < ·) ∧
    ∀ x, x ∈ l ↔ x < h.cells.size ∧ ¬ h.Kept roots x
  collections : h'.stats.collections = h.stats.collections + 1

/-- **A collection keeps what can be reached from the roots and frees all else.** -/
theorem collect_collects (h : Heap) (roots : List Nat) (hs : h.cells.size ≤ h.capacity) :
    Collects h roots (collect roots h).2 := by
  obtain ⟨cells, marks, s, hp⟩ := exists_phases h roots
  have hsize : s.cells.size = h.cells.size := by rw [hp.swept.size]; exact hp.size
  rw [hp.result]
  refine ⟨hsize, rfl, fun x hx => hp.kept hx, ?_,
    ⟨unmarkedBelow marks h.cells.size, ⟨?_, ?_, ?_, ?_, ?_⟩, ?_, fun x => hp.mem_unmarkedBelow⟩, rfl⟩
  · intro x hx
    by_cases hlt : x < h.cells.size
    · exact hp.swept.freed x (hp.mem_unmarkedBelow.2 ⟨hlt, hx⟩)
    · show (s.cells.getD x (.free none)).isFree = true
      rw [Array.getD_eq_getD_getElem?, Array.getElem?_eq_none (by omega)]; rfl
  · have := hp.swept.chain
    rw [append_nil] at this; exact this
  · exact List.Pairwise.filter _ nodup_range
  · intro x hx
    exact ⟨by rw [hsize]; exact (hp.mem_unmarkedBelow.1 hx).1, (hp.mem_unmarkedBelow.1 hx).2⟩
  · exact hp.swept.count.symm
  · show s.cells.size ≤ h.capacity
    rw [hsize]; exact hs
  · exact List.Pairwise.filter _ pairwise_lt_range

end Heap

namespace Closed

variable {h h' : Heap} {G : Nat → Prop} {roots : List Nat} {x y : Nat}

section

variable (hG : Closed h.get G)
include hG

theorem stands_resolve (hx : G x) : Stands h.get x (h.resolve x) := by
  obtain ⟨y, hy⟩ := hG.ends x hx
  rw [Heap.resolve_of_stands hy]; exact hy

theorem resolve (hx : G x) : G (h.resolve x) :=
  hG.stands hx (hG.stands_resolve hx)

theorem of_kept (hr : ∀ x ∈ roots, G x) (hx : h.Kept roots x) : G x := by
  obtain ⟨-, hx⟩ := hx
  induction hx with
  | root hx => exact hr _ hx
  | @child x y _ hy ih =>
    simp only [Heap.shortcuts] at hy
    cases hc : h.get x with
    | app f a =>
      obtain ⟨hf, ha⟩ := hG.app ih hc
      simp only [hc, Cell.skip, Cell.children, mem_cons, not_mem_nil, or_false] at hy
      rcases hy with rfl | rfl
      · exact hG.resolve hf
      · exact hG.resolve ha
    | ind t =>
      simp only [hc, Cell.skip, Cell.children, mem_singleton] at hy
      subst hy; exact hG.ind ih hc
    | _ => rw [hc] at hy; cases hy

theorem kept_of_root (hr : ∀ x ∈ roots, G x) (hx : x ∈ roots) :
    h.Kept roots x :=
  ⟨Heap.lt_size_of_not_free (hG.inUse x (hr x hx)), .root hx⟩

theorem kept_child (hr : ∀ x ∈ roots, G x) (hx : h.Kept roots x)
    (hy : y ∈ (h.shortcuts x).children) : h.Kept roots y := by
  have hreach : Reachable h.shortcuts (· ∈ roots) y := .child hx.2 hy
  refine ⟨?_, hreach⟩
  have hGx := hG.of_kept hr hx
  apply Heap.lt_size_of_not_free
  apply hG.inUse
  simp only [Heap.shortcuts] at hy
  cases hc : h.get x with
  | app f a =>
    obtain ⟨hf, ha⟩ := hG.app hGx hc
    simp only [hc, Cell.skip, Cell.children, mem_cons, not_mem_nil, or_false] at hy
    rcases hy with rfl | rfl
    · exact hG.resolve hf
    · exact hG.resolve ha
  | ind t =>
    simp only [hc, Cell.skip, Cell.children, mem_singleton] at hy
    subst hy; exact hG.ind hGx hc
  | _ => rw [hc] at hy; cases hy

theorem stands_collect (hr : ∀ x ∈ roots, G x)
    (hc : Heap.Collects h roots h') (hx : h.Kept roots x) (hs : Stands h.get x y) :
    Stands h'.get x y := by
  induction hs with
  | @here x hi => exact .here (by rw [hc.kept x hx]; simpa [Heap.shortcuts] using hi)
  | @there x t y ht _ ih =>
    have hsc : h.shortcuts x = .ind t := by simp [Heap.shortcuts, ht, Cell.skip]
    refine .there (by rw [hc.kept x hx, hsc]) (ih (hG.kept_child hr hx ?_))
    rw [hsc]; simp [Cell.children]

theorem collect (hr : ∀ x ∈ roots, G x) (hc : Heap.Collects h roots h') :
    Closed h'.get (h.Kept roots) := by
  refine ⟨?_, ?_, ?_⟩
  · intro x hx
    rw [hc.kept x hx]
    simpa [Heap.shortcuts] using hG.inUse x (hG.of_kept hr hx)
  · intro x hx y hy
    rw [hc.kept x hx] at hy
    exact hG.kept_child hr hx hy
  · intro x hx
    obtain ⟨y, hy⟩ := hG.ends x (hG.of_kept hr hx)
    exact ⟨y, hG.stands_collect hr hc hx hy⟩

end

end Closed

end GraphReduction
