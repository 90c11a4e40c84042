import GraphReduction.Proofs.Calculus.Reduction
import GraphReduction.Proofs.Load.Decoded
import GraphReduction.Proofs.Machine.Budget

/-!
# Definitions that are aliases of themselves

A definition whose body is a reference to a definition is an alias. Its cell is made to stand for the cell of
the other one, so a circle of aliases is a circle of indirections, which the loader finds by following them.
-/

namespace GraphReduction

open List

/-!
## Circles
-/

namespace Path

variable {next : Nat → Option Nat} {n m x y z N : Nat}

theorem append (h : Path next n x y) (h' : Path next m y z) : Path next (n + m) x z := by
  induction h with
  | nil => rwa [Nat.zero_add]
  | cons hx _ ih =>
    rw [Nat.add_right_comm]
    exact .cons hx (ih h')

theorem split (h : Path next (n + m) x z) : ∃ y, Path next n x y ∧ Path next m y z := by
  induction n generalizing x with
  | zero => exact ⟨x, .nil x, by rwa [Nat.zero_add] at h⟩
  | succ n ih =>
    rw [Nat.add_right_comm] at h
    cases h with
    | cons hx h =>
      obtain ⟨y, h1, h2⟩ := ih h
      exact ⟨y, .cons hx h1, h2⟩

theorem target_unique (h : Path next n x y) (h' : Path next n x z) : y = z := by
  induction h with
  | nil =>
    cases h'
    rfl
  | cons hx _ ih =>
    cases h' with
    | cons hx' h' =>
      rw [hx] at hx'
      cases hx'
      exact ih h'

theorem exists_of_no_end (h : ¬ ∃ n z, Path next n x z ∧ next z = none) (n : Nat) :
    ∃ y, Path next n x y := by
  induction n with
  | zero => exact ⟨x, .nil x⟩
  | succ n ih =>
    obtain ⟨y, hy⟩ := ih
    cases hnext : next y with
    | none => exact absurd ⟨n, y, hy, hnext⟩ h
    | some z => exact ⟨z, hy.append (.cons hnext (.nil z))⟩

end Path

/-- A walk from `x` runs into a circle. -/
def Circles (next : Nat → Option Nat) (x : Nat) : Prop :=
  ∃ n y k, Path next n x y ∧ Path next (k + 1) y y

theorem Circles.exists_next {next : Nat → Option Nat} {x : Nat} (h : Circles next x) :
    ∃ y, next x = some y := by
  obtain ⟨n, y, k, hxy, hyy⟩ := h
  cases hxy with
  | nil =>
    cases hyy with
    | cons hx _ => exact ⟨_, hx⟩
  | cons hx _ => exact ⟨_, hx⟩

/-- **A walk runs into a circle exactly if it has no end**, where there are finitely many places. -/
theorem circles_iff {next : Nat → Option Nat} {x N : Nat} (hN : ∀ a b, next a = some b → a < N) :
    Circles next x ↔ ¬ ∃ n z, Path next n x z ∧ next z = none := by
  constructor
  · rintro ⟨n, y, k, hxy, hyy⟩ ⟨m, z, hxz, hz⟩
    -- the end is as far from `y` with one more round as without it
    have hle : n ≤ m := by
      by_contra hlt
      obtain ⟨w, hw, hrest⟩ := Path.split (n := m) (m := n - m) (by rwa [Nat.add_sub_cancel' (by omega)])
      obtain rfl := hw.target_unique hxz
      obtain ⟨j, hj⟩ : ∃ j, n - m = j + 1 := ⟨n - m - 1, by omega⟩
      rw [hj] at hrest
      cases hrest with
      | cons hx _ =>
        rw [hz] at hx
        cases hx
    obtain ⟨w, hw, hrest⟩ := Path.split (n := n) (m := m - n) (by rwa [Nat.add_sub_cancel' hle])
    obtain rfl := hw.target_unique hxy
    have := (Path.unique hrest hz (hyy.append hrest) hz).1
    omega
  · intro hno
    choose f hf using Path.exists_of_no_end hno
    have hlt : ∀ n, f n < N := by
      intro n
      cases hnext : next (f n) with
      | none => exact absurd ⟨n, f n, hf n, hnext⟩ hno
      | some b => exact hN _ b hnext
    obtain ⟨a, -, b, -, hne, heq⟩ := Finset.exists_ne_map_eq_of_card_lt_of_maps_to
      (s := Finset.range (N + 1)) (t := Finset.range N) (by simp) fun n _ => Finset.mem_range.2 (hlt n)
    -- the walk is at the same place after `a` and after `b` moves
    have key : ∀ {a b}, a < b → f a = f b → Circles next x := by
      intro a b hab heq
      obtain ⟨w, hw, hrest⟩ := Path.split (n := a) (m := b - a)
        (by rw [Nat.add_sub_cancel' (by omega)]; exact hf b)
      obtain rfl := hw.target_unique (hf a)
      obtain ⟨k, hk⟩ : ∃ k, b - a = k + 1 := ⟨b - a - 1, by omega⟩
      rw [hk, ← heq] at hrest
      exact ⟨a, _, k, hf a, hrest⟩
    rcases Nat.lt_or_gt_of_ne hne with hab | hab
    · exact key hab heq
    · exact key hab heq.symm

/-- **Resolving a cell** comes to a cell that is no indirection exactly if the chain of indirections is
finite. -/
theorem Heap.isInd_resolve_eq_false_iff {h : Heap} {x : Nat} :
    (h.get (h.resolve x)).isInd = false ↔ ∃ y, Stands h.get x y := by
  constructor
  · exact fun hx => ⟨_, stands_resolve hx⟩
  · rintro ⟨y, hy⟩
    rw [resolve_of_stands hy]
    exact hy.isInd_eq_false

theorem Heap.resolve_lt {h : Heap} {x : Nat} (hind : ∀ y t, h.get y = .ind t → t < h.cells.size)
    (hx : x < h.cells.size) : h.resolve x < h.cells.size := by
  have key : ∀ moves {x}, x < h.cells.size → follow h.cells moves x < h.cells.size := by
    intro moves
    induction moves with
    | zero => exact id
    | succ moves ih =>
      intro x hx
      rw [follow]
      split
      · rename_i t ht
        split
        · exact hx
        · exact ih (hind x t ht)
      · exact hx
  exact key _ hx

/-!
## Aliases
-/

namespace Image

/-- The number of cells that an image takes: one for each definition, and those of its records. -/
def cellCount (image : Image) : Nat := image.defs.length + (image.records.map Record.cellCount).sum

/-- The definition that definition `i` is an alias of: the one that its root record refers to. -/
def alias? (image : Image) (i : Nat) : Option Nat :=
  image.defs[i]?.bind fun d => image.records[d.root]?.bind Record.global?

theorem lt_of_alias? {image : Image} {i j : Nat} (h : image.alias? i = some j) : i < image.defs.length := by
  obtain ⟨d, hd, -⟩ := Option.bind_eq_some_iff.1 h
  exact (List.getElem?_eq_some_iff.1 hd).1

end Image

/-!
## Loading with room
-/

theorem Builds.meets {α : Type} {x : LoadM α} {h : Heap} {n k : Nat}
    {E : LoadError → Heap → Prop} (hx : Builds (fun _ => False) n x) (hroom : h.Stocked (n + k)) :
    Meets x h (fun _ h' => h'.Stocked k) E := by
  induction hx generalizing h k with
  | pure => rwa [Nat.zero_add] at hroom
  | throw he => exact he.elim
  | alloc c =>
    rw [Nat.add_comm] at hroom
    obtain ⟨id, h', hal, hroom'⟩ := hroom.alloc c
    unfold Meets Load.alloc
    rw [hal]
    exact hroom'
  | bind _ _ ihx ihg =>
    rw [Nat.add_assoc] at hroom
    exact (ihx hroom).traced.bind fun a h' ha => ihg _ a _ ha.1 ha.2
  | more _ hle ih => exact ih (hroom.mono (Nat.add_le_add_right hle k))

namespace Load

variable {h : Heap}

/-- **Placeholders and bodies before they are linked**: the body of an alias is the placeholder of the other
definition, and every other body is a cell that stands for itself. -/
structure Prepared (image : Image) (cells roots : List Nat) (h : Heap) : Prop where
  length_cells : cells.length = image.defs.length
  length_roots : roots.length = image.defs.length
  nodup : cells.Nodup
  lt_size : ∀ x ∈ cells, x < h.cells.size
  body : ∀ i r : Nat, roots[i]? = some r → match image.alias? i with
    | some j => cells[j]? = some r
    | none => r ∉ cells ∧ (h.get r).isInd = false

namespace Prepared

variable {image : Image} {cells roots : List Nat} {i x : Nat}

section

variable (hp : Prepared image cells roots h)
include hp

theorem patched (hx : cells[i]? = some x) :
    ∃ r, roots[i]? = some r ∧ (patch h cells roots).get x = .ind r := by
  have hlt : i < roots.length := by
    rw [hp.length_roots, ← hp.length_cells]
    exact (List.getElem?_eq_some_iff.1 hx).1
  have hle : cells.length ≤ roots.length := by rw [hp.length_roots, hp.length_cells]
  exact ⟨_, getElem?_eq_getElem hlt, get_patch hp.nodup hle hp.lt_size hx (getElem?_eq_getElem hlt)⟩

/-- **Indirections follow the aliases**: those of a definition come to an end exactly if its aliases do. -/
theorem stands_iff (hx : cells[i]? = some x) :
    (∃ y, Stands (patch h cells roots).get x y) ↔ ∃ n k, Path image.alias? n i k ∧ image.alias? k = none := by
  constructor
  · rintro ⟨y, hy⟩
    induction hy generalizing i with
    | here hind =>
      obtain ⟨r, -, hget⟩ := hp.patched hx
      rw [hget] at hind
      cases hind
    | there hget _ ih =>
      obtain ⟨r, hr, hget'⟩ := hp.patched hx
      rw [hget'] at hget
      cases hget
      have hbody := hp.body i _ hr
      cases halias : image.alias? i with
      | none => exact ⟨0, i, .nil i, halias⟩
      | some j =>
        rw [halias] at hbody
        obtain ⟨n, k, hpath, hend⟩ := ih hbody
        exact ⟨n + 1, k, .cons halias hpath, hend⟩
  · rintro ⟨n, k, hpath, hend⟩
    induction hpath generalizing x with
    | nil i =>
      obtain ⟨r, hr, hget⟩ := hp.patched hx
      have hbody := hp.body i r hr
      rw [hend] at hbody
      have hle : cells.length ≤ roots.length := by rw [hp.length_roots, hp.length_cells]
      refine ⟨r, .there hget (.here ?_)⟩
      rw [(patch_patched cells roots hle hp.lt_size).same r hbody.1]
      exact hbody.2
    | cons halias _ ih =>
      obtain ⟨r, hr, hget⟩ := hp.patched hx
      have hbody := hp.body _ r hr
      rw [halias] at hbody
      obtain ⟨y, hy⟩ := ih hbody hend
      exact ⟨y, .there hget hy⟩

/-- The cell of a definition resolves to an indirection exactly if the aliases of the definition run into a
circle. -/
theorem isInd_resolve_iff (hx : cells[i]? = some x) :
    ((patch h cells roots).get ((patch h cells roots).resolve x)).isInd = true ↔ Circles image.alias? i := by
  rw [circles_iff fun _ _ => Image.lt_of_alias?, ← hp.stands_iff hx, ← Heap.isInd_resolve_eq_false_iff,
    Bool.not_eq_false]

/-- Linking succeeds unless an alias circles, and names the first that does. -/
theorem meets_link :
    Meets (link (image.defs.map (·.name)) cells roots) h
      (fun defs h' => defs.map Prod.fst = image.defs.map (·.name) ∧ (∀ i, ¬ Circles image.alias? i) ∧
        ∀ d ∈ defs, (h'.get (h'.resolve d.2)).isInd = false)
      fun e _ => ∃ (i : Nat) (d : DefEntry), image.defs[i]? = some d ∧ e = .selfAlias d.name ∧
        Circles image.alias? i ∧ ∀ j < i, ¬ Circles image.alias? j := by
  have hlen : (image.defs.map (·.name)).length = cells.length := by rw [length_map, hp.length_cells]
  -- the definition at position `i` with its cell
  have hzip : ∀ (i : Nat) (hi : i < ((image.defs.map (·.name)).zip cells).length),
      ∃ d, image.defs[i]? = some d ∧ ((image.defs.map (·.name)).zip cells)[i].1 = d.name ∧
        cells[i]? = some ((image.defs.map (·.name)).zip cells)[i].2 := by
    intro i hi
    have hi' : i < image.defs.length ∧ i < cells.length := by simpa using hi
    exact ⟨_, getElem?_eq_getElem hi'.1, by simp, by simp [getElem?_eq_getElem hi'.2]⟩
  unfold Meets
  rw [link_eq]
  cases halias : selfAlias? (patch h cells roots) ((image.defs.map (·.name)).zip cells) with
  | some name =>
    obtain ⟨⟨name, x⟩, hfind, rfl⟩ := Option.map_eq_some_iff.1 halias
    obtain ⟨hind, i, hi, hget, hbefore⟩ := find?_eq_some_iff_getElem.1 hfind
    obtain ⟨d, hd, hname, hx⟩ := hzip i hi
    rw [hget] at hname hx
    refine ⟨i, d, hd, by rw [hname], (hp.isInd_resolve_iff hx).1 hind, fun j hj hcircle => ?_⟩
    obtain ⟨-, -, -, hy⟩ := hzip j (hj.trans hi)
    have hnot := hbefore j hj
    rw [(hp.isInd_resolve_iff hy).2 hcircle] at hnot
    cases hnot
  | none =>
    have hends := find?_eq_none.1 (Option.map_eq_none_iff.1 halias)
    refine ⟨map_fst_zip hlen.le, fun i hcircle => ?_, fun d hd => by simpa using hends d hd⟩
    have hi : i < ((image.defs.map (·.name)).zip cells).length := by
      rw [length_zip, hlen, Nat.min_self, hp.length_cells]
      obtain ⟨j, hj⟩ := hcircle.exists_next
      exact Image.lt_of_alias? hj
    obtain ⟨-, -, -, hx⟩ := hzip i hi
    exact hends _ (getElem_mem hi) ((hp.isInd_resolve_iff hx).2 hcircle)

end

end Prepared

end Load

namespace Image

open Load

variable {image : Image} {resolve : String → Option Primitive} {heap : Heap}

/-- **What loading an image in order comes to**, where there is room for it. -/
theorem InOrder.meets_load (h : image.InOrder) (hprims : ∀ name ∈ image.prims, (resolve name).isSome)
    (hroom : heap.Stocked image.cellCount) : Meets (image.load resolve) heap
      (fun l heap' => l.defs.map Prod.fst = image.defs.map (·.name) ∧ (∀ i, ¬ Circles image.alias? i) ∧
        ∀ d ∈ l.defs, (heap'.get (heap'.resolve d.2)).isInd = false)
      fun e _ => ∃ (i : Nat) (d : DefEntry), image.defs[i]? = some d ∧ e = .selfAlias d.name ∧
        Circles image.alias? i ∧ ∀ j < i, ¬ Circles image.alias? j := by
  obtain ⟨ps, hps, hlen⟩ := exists_primitives hprims
  have hstart : Loading (fun _ => False) (fun _ => False) [] heap :=
    .start ⟨⟨fun _ hx => hx.elim, fun _ hx => hx.elim, fun _ hx => hx.elim⟩, hroom.1⟩
  simp only [Image.load, hps]
  refine (((builds_placeholders _).meets hroom).also (meets_placeholders _ hstart)).bind ?_
  rintro cells heap1 ⟨hroom1, hcells, hnodup, -, hl⟩
  rw [append_nil] at hl
  refine (((h.builds_records hlen hcells).meets (k := 0) hroom1).also ((size_records _ heap1).and
    (meets_records _ hl (by simp) (by simp)))).bind ?_
  rintro bodies heap2 ⟨hroom2, hsize, U, hl2, -, hbodies, new, rfl, hcell⟩
  refine (((h.builds_roots hsize).meets (k := 0) hroom2).also (meets_roots _ _ _ hl2.intact)).bind ?_
  rintro roots heap3 ⟨-, rfl, hroots⟩
  have hp : Prepared image cells roots heap3 := by
    refine ⟨hcells, hroots.length_eq, hnodup, fun x hx => hl2.lt_size x (hl2.hole x hx), fun i r hr => ?_⟩
    obtain ⟨d, hd, hroot⟩ := exists_getElem?_of_forall₂ hroots hr
    obtain ⟨record, hrecord, hcell⟩ := exists_getElem?_of_forall₂ hcell.flip (by simpa using hroot)
    have halias : image.alias? i = record.global? := by simp [alias?, hd, hrecord]
    rw [halias]
    cases hglobal : record.global? with
    | some j => simpa [hglobal] using hcell
    | none =>
      rw [hglobal] at hcell
      exact ⟨hcell, (hl2.built r (hbodies r (Array.mem_of_getElem? hroot)) hcell).2⟩
  refine hp.meets_link.bind fun defs heap4 hdefs => ?_
  cases hentry : image.entry with
  | none => exact hdefs
  | some entry =>
    have hlt := h.entry entry hentry
    simp only [getElem?_eq_getElem (show entry < cells.length by omega)]
    exact hdefs

/-- **Aliases of themselves are found exactly.** An image with its references in order and its primitives
known is loaded into a heap with room for it, whatever else is there. The load names a definition exactly if
it is the first of the table whose aliases run into a circle. If there is none it succeeds, and the cells of
all definitions resolve to cells that are no indirections. Resolving does this for any heap: it gives a cell
that is no indirection exactly if the chain of indirections is finite, and stays in the arena. -/
theorem InOrder.load_selfAlias_iff (h : image.InOrder)
    (hprims : ∀ name ∈ image.prims, (resolve name).isSome) (hroom : heap.Stocked image.cellCount) :
    (∀ name, (∃ heap', image.load resolve heap = .error (.selfAlias name) heap') ↔
      ∃ (i : Nat) (d : DefEntry), image.defs[i]? = some d ∧ d.name = name ∧ Circles image.alias? i ∧
        ∀ j < i, ¬ Circles image.alias? j) ∧
    ((∀ i, ¬ Circles image.alias? i) → ∃ l heap', image.load resolve heap = .ok l heap' ∧
      l.defs.map Prod.fst = image.defs.map (·.name) ∧
        ∀ d ∈ l.defs, (heap'.get (heap'.resolve d.2)).isInd = false) ∧
    ∀ (any : Heap) (x : Nat), ((any.get (any.resolve x)).isInd = false ↔ ∃ y, Stands any.get x y) ∧
      ((∀ y t, any.get y = .ind t → t < any.cells.size) → x < any.cells.size →
        any.resolve x < any.cells.size) := by
  have hload := h.meets_load hprims hroom
  refine ⟨fun name => ⟨?_, ?_⟩, fun hnone => ?_, fun any x => ⟨Heap.isInd_resolve_eq_false_iff,
    Heap.resolve_lt⟩⟩
  · rintro ⟨heap', he⟩
    obtain ⟨i, d, hd, hname, hcircle⟩ := hload.error he
    cases hname
    exact ⟨i, d, hd, rfl, hcircle⟩
  · rintro ⟨i, d, hd, rfl, hcircle, hfirst⟩
    cases he : image.load resolve heap with
    | ok l heap' => exact absurd hcircle ((hload.ok he).2.1 i)
    | error e heap' =>
      obtain ⟨i', d', hd', rfl, hcircle', hfirst'⟩ := hload.error he
      -- the first circle is one definition
      obtain rfl : i = i' := by
        rcases Nat.lt_trichotomy i i' with hlt | heq | hlt
        · exact absurd hcircle (hfirst' i hlt)
        · exact heq
        · exact absurd hcircle' (hfirst i' hlt)
      rw [hd] at hd'
      cases hd'
      exact ⟨heap', rfl⟩
  · cases he : image.load resolve heap with
    | ok l heap' =>
      obtain ⟨hnames, -, hends⟩ := hload.ok he
      exact ⟨l, heap', rfl, hnames, hends⟩
    | error e heap' =>
      obtain ⟨i, -, -, -, hcircle, -⟩ := hload.error he
      exact absurd hcircle (hnone i)

/-- Five definitions: `b` and `c` are aliases of each other, `a` is one of `b`, and `l` is one of `k`. -/
def knottedAliases : Image where
  records := [.comb .K, .global 2, .global 3, .global 2, .global 0]
  defs := [⟨"k", 2, 0⟩, ⟨"a", 0, 1⟩, ⟨"b", 0, 2⟩, ⟨"c", 0, 3⟩, ⟨"l", 2, 4⟩]
  prims := []
  entry := some 1

/-- A heap in use, with a cell that was given back. -/
def usedHeap : Heap := ⟨#[.comb .I, .free none, .ind 0], 20, some 1, 1, {}⟩

theorem load_selfAlias_iff_knottedAliases : knottedAliases.InOrder ∧
    usedHeap.Stocked knottedAliases.cellCount ∧
    (∃ heap', knottedAliases.load Primitive.ofName? usedHeap = .error (.selfAlias "a") heap') ∧
    (usedHeap.get (usedHeap.resolve 2)).isInd = false := by
  have horder : knottedAliases.InOrder := by
    refine ⟨fun i r hr => ?_, by simp [knottedAliases, Record.InTables], by decide, by decide⟩
    have hmem := mem_of_getElem? hr
    simp only [knottedAliases, mem_cons, not_mem_nil, or_false] at hmem
    rcases hmem with rfl | rfl | rfl | rfl | rfl <;> trivial
  have hroom : usedHeap.Stocked knottedAliases.cellCount := by
    refine ⟨⟨[1], ?_, by simp, by decide, rfl, by decide⟩, by decide⟩
    exact .cons rfl .nil
  have hprims : ∀ name ∈ knottedAliases.prims, (Primitive.ofName? name).isSome := by decide
  obtain ⟨hfirst, -, hresolve⟩ := horder.load_selfAlias_iff hprims hroom
  have hcircle : Circles knottedAliases.alias? 1 :=
    ⟨1, 2, 1, .cons rfl (.nil 2), .cons rfl (.cons rfl (.nil 2))⟩
  have hk : ∀ j < 1, ¬ Circles knottedAliases.alias? j := by
    intro j hj hcircle
    obtain rfl : j = 0 := by omega
    obtain ⟨y, hy⟩ := hcircle.exists_next
    cases hy
  exact ⟨horder, hroom, (hfirst "a").2 ⟨1, _, rfl, rfl, hcircle, hk⟩,
    (hresolve usedHeap 2).1.2 ⟨0, .there rfl (.here rfl)⟩⟩

end Image

end GraphReduction
