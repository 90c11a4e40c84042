import GraphReduction.Heap.Basic
import Mathlib

/-!
# Indirections

A heap is looked at through its view, the function from cell numbers to contents.
-/

namespace GraphReduction

open List

variable {c : Cell}

/-!
## Walks
-/

/-- `n` moves along `next` lead from `x` to `y`. -/
inductive Path (next : Nat → Option Nat) : Nat → Nat → Nat → Prop
  | nil (x : Nat) : Path next 0 x x
  | cons {n x y z : Nat} : next x = some y → Path next n y z → Path next (n + 1) x z

namespace Path

variable {next : Nat → Option Nat} {n m x y z w N : Nat}

theorem unique (h : Path next n x z) (hz : next z = none) (h' : Path next m x w)
    (hw : next w = none) : n = m ∧ z = w := by
  induction h generalizing m with
  | nil x =>
    cases h' with
    | nil => exact ⟨rfl, rfl⟩
    | cons hx _ => rw [hz] at hx; cases hx
  | cons hx _ ih =>
    cases h' with
    | nil => rw [hw] at hx; cases hx
    | cons hx' h' =>
      rw [hx] at hx'; cases hx'
      obtain ⟨rfl, rfl⟩ := ih hz h'
      exact ⟨rfl, rfl⟩

theorem trail (h : Path next n x z) (hz : next z = none)
    (hN : ∀ a b, next a = some b → a < N) :
    ∃ l : List Nat, l.length = n ∧ l.Nodup ∧
      ∀ a ∈ l, a < N ∧ ∃ k, 0 < k ∧ k ≤ n ∧ Path next k a z := by
  induction h with
  | nil => exact ⟨[], rfl, nodup_nil, fun a ha => by cases ha⟩
  | @cons n x y z hx h ih =>
    obtain ⟨l, hlen, hnd, hl⟩ := ih hz
    refine ⟨x :: l, by simp [hlen], nodup_cons.2 ⟨?_, hnd⟩, ?_⟩
    · -- a place further on has fewer moves ahead of it
      intro hmem
      obtain ⟨-, k, -, hk, hp⟩ := hl x hmem
      have := (unique hp hz (.cons hx h) hz).1
      omega
    · intro a ha
      rcases mem_cons.1 ha with rfl | ha
      · exact ⟨hN _ _ hx, n + 1, by omega, by omega, .cons hx h⟩
      · obtain ⟨h1, k, h2, h3, h4⟩ := hl a ha
        exact ⟨h1, k, h2, by omega, h4⟩

/-- **A walk that ends has at most one move per place.** -/
theorem length_le (h : Path next n x z) (hz : next z = none)
    (hN : ∀ a b, next a = some b → a < N) : n ≤ N := by
  obtain ⟨l, hlen, hnd, hl⟩ := trail h hz hN
  have hsub : l ⊆ range N := fun a ha => mem_range.2 (hl a ha).1
  have := hnd.length_le_of_subset hsub
  simpa [hlen] using this

end Path

/-!
## Views
-/

/-- What a heap holds, by cell number. -/
abbrev View := Nat → Cell

namespace View

/-- A view with one cell overwritten. -/
def update (v : View) (x : Nat) (c : Cell) : View := fun y => if y = x then c else v y

variable {v : View} {x y : Nat} {c : Cell}

@[simp] theorem update_self : v.update x c x = c := by simp [update]

theorem update_of_ne (h : y ≠ x) : v.update x c y = v y := by simp [update, h]

end View

namespace Cell

/-- The cell that an indirection leads to. -/
def target? : Cell → Option Nat
  | ind t => some t
  | _ => none

@[simp] theorem target?_eq_none : c.target? = none ↔ c.isInd = false := by
  cases c <;> simp [target?, isInd]

@[simp] theorem target?_eq_some {t : Nat} : c.target? = some t ↔ c = .ind t := by
  cases c <;> simp [target?]

end Cell

/-- The chain of indirections from `x` is finite and ends at `y`. -/
inductive Stands (v : View) : Nat → Nat → Prop
  | here {x : Nat} : (v x).isInd = false → Stands v x x
  | there {x t y : Nat} : v x = .ind t → Stands v t y → Stands v x y

namespace Stands

variable {v : View} {x y z t : Nat} {c : Cell}

theorem isInd_eq_false (h : Stands v x y) : (v y).isInd = false := by
  induction h with
  | here h => exact h
  | there _ _ ih => exact ih

theorem unique (h : Stands v x y) (h' : Stands v x z) : y = z := by
  induction h with
  | here hx =>
    cases h' with
    | here => rfl
    | there hx' _ => rw [hx'] at hx; cases hx
  | there hx _ ih =>
    cases h' with
    | here hx' => rw [hx] at hx'; cases hx'
    | there hx' h' => rw [hx] at hx'; cases hx'; exact ih h'

theorem eq_self (h : Stands v x y) (hx : (v x).isInd = false) : y = x := h.unique (.here hx)

theorem of_ind (h : Stands v x y) (hx : v x = .ind t) : Stands v t y := by
  cases h with
  | here h => rw [hx] at h; cases h
  | there hx' h => rw [hx] at hx'; cases hx'; exact h

theorem path (h : Stands v x y) : ∃ n, Path (fun a => (v a).target?) n x y := by
  induction h with
  | here => exact ⟨0, .nil _⟩
  | there hx _ ih =>
    obtain ⟨n, hn⟩ := ih
    exact ⟨n + 1, .cons (Cell.target?_eq_some.2 hx) hn⟩

theorem update_leaf (h : Stands v y z) (hx : (v x).isInd = false) (hc : c.isInd = false) :
    Stands (v.update x c) y z := by
  induction h with
  | @here y hy =>
    refine .here ?_
    by_cases hyx : y = x
    · subst hyx; simpa using hc
    · rw [View.update_of_ne hyx]; exact hy
  | @there y t z hy _ ih =>
    have hyx : y ≠ x := by
      rintro rfl; rw [hy] at hx; cases hx
    exact .there (by rw [View.update_of_ne hyx]; exact hy) ih

/-- After a cell is made to stand for `w`, chains that ended there end at `w`. -/
theorem update_ind {w : Nat} (h : Stands v y z) (hx : (v x).isInd = false) (hw : w ≠ x)
    (hwi : (v w).isInd = false) :
    Stands (v.update x (.ind w)) y (if z = x then w else z) := by
  have hend : Stands (v.update x (.ind w)) w w :=
    .here (by rw [View.update_of_ne hw]; exact hwi)
  induction h with
  | @here y hy =>
    by_cases hyx : y = x
    · subst hyx; rw [if_pos rfl]; exact .there View.update_self hend
    · rw [if_neg hyx]; exact .here (by rw [View.update_of_ne hyx]; exact hy)
  | @there y t z hy _ ih =>
    have hyx : y ≠ x := by
      rintro rfl; rw [hy] at hx; cases hx
    exact .there (by rw [View.update_of_ne hyx]; exact hy) ih

theorem exists_update_leaf (h : Stands v y z) (hc : c.isInd = false) :
    ∃ z', Stands (v.update x c) y z' := by
  induction h with
  | @here y hy =>
    by_cases hyx : y = x
    · subst hyx; exact ⟨y, .here (by simpa using hc)⟩
    · exact ⟨y, .here (by rw [View.update_of_ne hyx]; exact hy)⟩
  | @there y t z hy _ ih =>
    by_cases hyx : y = x
    · subst hyx; exact ⟨y, .here (by simpa using hc)⟩
    · obtain ⟨z', hz'⟩ := ih
      exact ⟨z', .there (by rw [View.update_of_ne hyx]; exact hy) hz'⟩

theorem exists_update_ind {w : Nat} (h : Stands v y z) (hw : w ≠ x) (hwi : (v w).isInd = false) :
    ∃ z', Stands (v.update x (.ind w)) y z' := by
  have hend : Stands (v.update x (.ind w)) x w :=
    .there View.update_self (.here (by rw [View.update_of_ne hw]; exact hwi))
  induction h with
  | @here y hy =>
    by_cases hyx : y = x
    · subst hyx; exact ⟨w, hend⟩
    · exact ⟨y, .here (by rw [View.update_of_ne hyx]; exact hy)⟩
  | @there y t z hy _ ih =>
    by_cases hyx : y = x
    · subst hyx; exact ⟨w, hend⟩
    · obtain ⟨z', hz'⟩ := ih
      exact ⟨z', .there (by rw [View.update_of_ne hyx]; exact hy) hz'⟩

theorem congr {v' : View} (h : Stands v x y)
    (hv : ∀ a, Stands v a y → (v a).target? = (v' a).target?) : Stands v' x y := by
  induction h with
  | @here x hx =>
    have := hv x (.here hx)
    exact .here (Cell.target?_eq_none.1 (this ▸ Cell.target?_eq_none.2 hx))
  | @there x t y hx h ih =>
    have := hv x (.there hx h)
    refine .there ?_ (ih hv)
    rw [hx] at this
    exact Cell.target?_eq_some.1 this.symm

end Stands

namespace Heap

variable {h : Heap} {x y : Nat} {cells : Array Cell}

theorem lt_size_of_not_free (hx : (h.get x).isFree = false) : x < h.cells.size := by
  by_contra hge
  have : h.get x = .free none := by
    simp only [get, Array.getD_eq_getD_getElem?]
    rw [Array.getElem?_eq_none (by omega)]; rfl
  rw [this] at hx; cases hx

theorem get_set (hx : x < h.cells.size) : (h.set x c).get = View.update h.get x c := by
  funext y
  simp only [get, set, View.update, Array.getD_eq_getD_getElem?]
  by_cases hyx : y = x
  · subst hyx
    simp [hx]
  · rw [if_neg hyx, Array.getElem?_setIfInBounds_ne (Ne.symm hyx)]

@[simp] theorem size_set : (h.set x c).cells.size = h.cells.size := by
  simp [set]

/-- Following a chain of indirections reaches its end. -/
theorem follow_of_path {n moves : Nat}
    (hp : Path (fun a => (cells.getD a (.free none)).target?) n x y)
    (hy : (cells.getD y (.free none)).isInd = false) (hn : n ≤ moves) :
    follow cells moves x = y := by
  induction moves generalizing n x with
  | zero =>
    obtain rfl : n = 0 := by omega
    cases hp; rfl
  | succ moves ih =>
    cases hp with
    | nil =>
      simp only [follow]
      cases hc : cells.getD y (.free none) <;> simp_all [Cell.isInd]
    | @cons n x t y hx hp =>
      have hx' : cells.getD x (.free none) = .ind t := Cell.target?_eq_some.1 hx
      have hne : t ≠ x := by
        rintro rfl
        have := (Path.unique hp (Cell.target?_eq_none.2 hy) (.cons hx hp)
          (Cell.target?_eq_none.2 hy)).1
        omega
      simp only [follow, hx', if_neg hne]
      exact ih hp (by omega)

theorem target?_lt {a b : Nat} (h : (cells.getD a (.free none)).target? = some b) :
    a < cells.size := by
  by_contra hge
  rw [Array.getD_eq_getD_getElem?, Array.getElem?_eq_none (by omega)] at h
  cases h

theorem follow_of_stands (hs : Stands (fun a => cells.getD a (.free none)) x y) :
    follow cells (cells.size + 1) x = y := by
  obtain ⟨n, hp⟩ := hs.path
  have hy := hs.isInd_eq_false
  have := Path.length_le hp (Cell.target?_eq_none.2 hy) (fun _ _ => target?_lt)
  exact follow_of_path hp hy (by omega)

theorem resolve_of_stands (hs : Stands h.get x y) : h.resolve x = y := follow_of_stands hs

theorem stands_follow {moves : Nat}
    (hx : (cells.getD (follow cells moves x) (.free none)).isInd = false) :
    Stands (fun a => cells.getD a (.free none)) x (follow cells moves x) := by
  induction moves generalizing x with
  | zero => exact .here hx
  | succ moves ih =>
    cases hc : cells.getD x (.free none) with
    | ind t =>
      by_cases htx : t = x
      · simp only [follow, hc, if_pos htx] at hx; cases hx
      · simp only [follow, hc, if_neg htx] at hx ⊢
        exact .there hc (ih hx)
    | _ =>
      simp only [follow, hc] at hx ⊢
      exact .here (by simp only [hc]; rfl)

theorem stands_resolve (hx : (h.get (h.resolve x)).isInd = false) : Stands h.get x (h.resolve x) :=
  stands_follow hx

end Heap

end GraphReduction
