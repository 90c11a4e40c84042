import GraphReduction.Proofs.Heap.Sound
import GraphReduction.Proofs.Load.Parts

/-!
# Loading keeps a heap sound

While a program is loaded, the cells of its definitions are placeholders that no one may look at,
and other new cells refer to them. The new cells `U` are apart from the sound set `G` that was
there before, so whatever goes wrong, `G` is as sound as before (`Intact`). Once every placeholder
stands for a body and no chain of them is endless, the new cells join the set.
-/

namespace GraphReduction

open List

variable {e : LoadError}

/-- The set is closed, and the free list is intact beside it. -/
structure Intact (G : Nat → Prop) (h : Heap) : Prop where
  closed : Closed h.get G
  free : h.FreeList G

/-- A load fails for lack of memory or because of what is loaded, never because of the heap. -/
def LoadError.Harmless : LoadError → Prop
  | .runtime (.malformed _) => False
  | _ => True

/-- How a load may fail. -/
def FailedLoad (G : Nat → Prop) (e : LoadError) (h : Heap) : Prop := e.Harmless ∧ Intact G h

/-- A heap into which a program is being loaded: `G` is the set that was there before, `U` has the
new cells, and of these `holes` are the placeholders. -/
structure Loading (G U : Nat → Prop) (holes : List Nat) (h : Heap) : Prop where
  closed : Closed h.get G
  free : h.FreeList fun x => G x ∨ U x
  apart : ∀ x, U x → ¬ G x
  lt_size : ∀ x, U x → x < h.cells.size
  hole : ∀ x ∈ holes, U x
  built : ∀ x, U x → x ∉ holes → (h.get x).isFree = false ∧ (h.get x).isInd = false
  child : ∀ x, U x → ∀ y ∈ (h.get x).children, U y

namespace Loading

variable {G U : Nat → Prop} {holes : List Nat} {h h' : Heap} {c : Cell} {id : Nat}

theorem intact (hl : Loading G U holes h) : Intact G h :=
  ⟨hl.closed, hl.free.mono fun _ hx => Or.inl hx⟩

theorem start (hi : Intact G h) : Loading G (fun _ => False) [] h := by
  refine ⟨hi.closed, hi.free.mono fun x hx => ?_, ?_, ?_, ?_, ?_, ?_⟩
  · rcases hx with hx | hx
    · exact hx
    · exact hx.elim
  all_goals intro x hx
  · exact hx.elim
  · exact hx.elim
  · cases hx
  · exact hx.elim
  · exact hx.elim

section

variable (hl : Loading G U holes h)
include hl

theorem failed (he : e.Harmless) : FailedLoad G e h :=
  ⟨he, hl.intact⟩

theorem of_mem {holes' : List Nat}
    (hmem : ∀ x, x ∈ holes' ↔ x ∈ holes) : Loading G U holes' h :=
  ⟨hl.closed, hl.free, hl.apart, hl.lt_size, fun x hx => hl.hole x ((hmem x).1 hx),
    fun x hx hnot => hl.built x hx fun h => hnot ((hmem x).2 h), hl.child⟩

/-- A cell allocated during a load extends what the load has built. -/
theorem allocates (hid : ¬ (G id ∨ U id))
    (hal : Heap.Allocates h c id h') (hfl : h'.FreeList fun y => (G y ∨ U y) ∨ y = id)
    (hc : ∀ y ∈ c.children, U y) (holes' : List Nat) (hsub : ∀ x ∈ holes, x ∈ holes')
    (hholes : ∀ x ∈ holes', x ∈ holes ∨ x = id)
    (hnew : id ∉ holes' → c.isFree = false ∧ c.isInd = false) :
    Loading G (fun y => U y ∨ y = id) holes' h' := by
  have hne : ∀ x, G x ∨ U x → x ≠ id := fun x hx hxid => hid (hxid ▸ hx)
  have hget : ∀ x, G x ∨ U x → h'.get x = h.get x := by
    intro x hx
    rw [hal.view, View.update_of_ne (hne x hx)]
  have hself : h'.get id = c := by rw [hal.view, View.update_self]
  refine ⟨hl.closed.congr fun x hx => hget x (Or.inl hx), ?_, ?_, ?_, ?_, ?_, ?_⟩
  · refine hfl.mono fun x hx => ?_
    rcases hx with hx | hx | hx
    · exact Or.inl (Or.inl hx)
    · exact Or.inl (Or.inr hx)
    · exact Or.inr hx
  · rintro x (hx | rfl)
    · exact hl.apart x hx
    · exact fun hg => hid (Or.inl hg)
  · rintro x (hx | rfl)
    · exact Nat.lt_of_lt_of_le (hl.lt_size x hx) hal.size_le
    · exact hal.lt_size
  · intro x hx
    rcases hholes x hx with hx | hx
    · exact Or.inl (hl.hole x hx)
    · exact Or.inr hx
  · rintro x (hx | rfl) hnot
    · rw [hget x (Or.inr hx)]
      exact hl.built x hx fun hmem => hnot (hsub x hmem)
    · rw [hself]; exact hnew hnot
  · rintro x (hx | rfl) y hy
    · rw [hget x (Or.inr hx)] at hy; exact Or.inl (hl.child x hx y hy)
    · rw [hself] at hy; exact Or.inl (hc y hy)

end

end Loading

/-- The definition that a record refers to. -/
def Record.global? : Record → Option Nat
  | .global index => some index
  | _ => none

namespace Load

variable {G U : Nat → Prop} {holes : List Nat} {h : Heap} {c : Cell} {id : Nat}

/-- What is known after a part of a load: there may be more new cells. -/
def Grown (G U : Nat → Prop) (holes : List Nat) (Q : (Nat → Prop) → Prop) (h : Heap) : Prop :=
  ∃ U', Loading G U' holes h ∧ (∀ x, U x → U' x) ∧ Q U'

theorem meets_alloc {Q : Nat → Heap → Prop} (hl : Loading G U holes h)
    (hQ : ∀ id h', ¬ (G id ∨ U id) → Heap.Allocates h c id h' →
      h'.FreeList (fun y => (G y ∨ U y) ∨ y = id) → Q id h') :
    Meets (alloc c) h Q (FailedLoad G) := by
  have hlt : ∀ x, G x ∨ U x → x < h.cells.size := by
    rintro x (hx | hx)
    · exact Heap.lt_size_of_not_free (hl.closed.inUse x hx)
    · exact hl.lt_size x hx
  unfold Meets alloc
  rcases Heap.alloc_cases hl.free hlt c with ⟨he, -⟩ | ⟨id, h', he, hid, hal, hfl⟩
  · rw [he]; exact hl.failed trivial
  · rw [he]; exact hQ id h' hid hal hfl

theorem meets_cell (hl : Loading G U holes h) (hfree : c.isFree = false) (hind : c.isInd = false)
    (hc : ∀ y ∈ c.children, U y) : Meets (alloc c) h
      (fun id h' => Grown G U holes (fun U' => U' id ∧ id ∉ holes) h') (FailedLoad G) := by
  refine meets_alloc hl fun id h' hid hal hfl => ?_
  exact ⟨_, hl.allocates hid hal hfl hc holes (fun _ hx => hx) (fun _ hx => Or.inl hx)
    fun _ => ⟨hfree, hind⟩, fun _ => Or.inl, Or.inr rfl, fun hmem => hid (Or.inr (hl.hole id hmem))⟩

theorem meets_placeholders (n : Nat) (hl : Loading G U holes h) :
    Meets (placeholders n) h (fun ids h' => ids.length = n ∧ ids.Nodup ∧ (∀ x ∈ ids, ¬ U x) ∧
      Loading G (fun x => U x ∨ x ∈ ids) (ids ++ holes) h') (FailedLoad G) := by
  induction n generalizing U holes h with
  | zero => exact ⟨rfl, nodup_nil, by simp, by simpa using hl⟩
  | succ n ih =>
    simp only [placeholders, meets_bind, meets_pure]
    refine meets_alloc hl fun id h1 hid hal hfl => ?_
    have hl1 := hl.allocates hid hal hfl (by simp [Cell.children]) (id :: holes)
      (fun _ hx => mem_cons_of_mem _ hx) (by simp [or_comm]) (by simp)
    refine (ih hl1).imp ?_
    rintro ids h2 ⟨hlen, hnodup, hnew, hl'⟩
    refine ⟨by simp [hlen], nodup_cons.2 ⟨fun hmem => hnew id hmem (Or.inr rfl), hnodup⟩, ?_, ?_⟩
    · refine forall_mem_cons.2 ⟨fun hU => hid (Or.inr hU), fun x hx hU => ?_⟩
      exact hnew x hx (Or.inl hU)
    · have hU : (fun x => (U x ∨ x = id) ∨ x ∈ ids) = fun x => U x ∨ x ∈ id :: ids := by
        funext x
        rw [mem_cons, or_assoc]
      rw [hU] at hl'
      exact hl'.of_mem (by simp [or_left_comm])

section Images

theorem primitives_error {resolve : String → Option Primitive} {names : List String}
    (he : primitives resolve names = .error e) : e.Harmless := by
  induction names with
  | nil => cases he
  | cons name names ih =>
    simp only [primitives] at he
    split at he
    · cases he; trivial
    · cases hr : primitives resolve names with
      | error e' => rw [hr] at he; cases he; exact ih hr
      | ok ps => rw [hr] at he; cases he

variable {prims : Array Primitive} {defs done : Array Nat}

/-- What the cell of a record is: that of the definition it refers to, or one that is no placeholder. -/
def IsCellOf (holes : List Nat) (defs : Array Nat) (r : Record) (id : Nat) : Prop :=
  match r.global? with
  | some j => defs[j]? = some id
  | none => id ∉ holes

/-- A record is loaded into a new cell, or stands for one that is there. -/
theorem meets_record (hl : Loading G U holes h) (hdefs : ∀ x ∈ defs, U x) (hdone : ∀ x ∈ done, U x)
    (i : Nat) (r : Record) : Meets (record prims defs done i r) h
      (fun id h' => Grown G U holes (fun U' => U' id ∧ IsCellOf holes defs r id) h') (FailedLoad G) := by
  cases r with
  | app fn arg =>
    simp only [record]
    split
    · rename_i f a hf ha
      refine meets_cell hl rfl rfl ?_
      simp only [Cell.children, mem_cons, not_mem_nil, or_false]
      rintro y (rfl | rfl)
      · exact hdone y (Array.mem_of_getElem? hf)
      · exact hdone y (Array.mem_of_getElem? ha)
    · exact hl.failed trivial
    · exact hl.failed trivial
  | comb _ | lit _ => exact meets_cell hl rfl rfl (by simp [Cell.children])
  | prim index =>
    simp only [record]
    split
    · exact meets_cell hl rfl rfl (by simp [Cell.children])
    · exact hl.failed trivial
  | global index =>
    simp only [record]
    split
    · rename_i cell hcell
      exact ⟨U, hl, fun _ hx => hx, hdefs cell (Array.mem_of_getElem? hcell), hcell⟩
    · exact hl.failed trivial

theorem meets_records (rs : List Record) (hl : Loading G U holes h) (hdefs : ∀ x ∈ defs, U x)
    (hdone : ∀ x ∈ done, U x) : Meets (records prims defs done rs) h
      (fun ids h' => Grown G U holes (fun U' => (∀ x ∈ ids, U' x) ∧
        ∃ new, ids.toList = done.toList ++ new ∧ Forall₂ (IsCellOf holes defs) rs new) h')
      (FailedLoad G) := by
  induction rs generalizing U h done with
  | nil => exact ⟨U, hl, fun _ hx => hx, hdone, [], by simp, .nil⟩
  | cons r rs ih =>
    simp only [records]
    refine (meets_record hl hdefs hdone _ r).bind ?_
    rintro id h1 ⟨U1, hl1, hsub1, hid, hcell⟩
    refine (ih hl1 (fun x hx => hsub1 x (hdefs x hx)) fun x hx => ?_).imp ?_
    · rcases Array.mem_push.1 hx with hx | rfl
      · exact hsub1 x (hdone x hx)
      · exact hid
    · rintro ids h2 ⟨U2, hl2, hsub2, hids, new, heq, hnew⟩
      exact ⟨U2, hl2, fun x hx => hsub2 x (hsub1 x hx), hids, id :: new, by simp [heq], .cons hcell hnew⟩

/-- The cells of the bodies are those of their records. -/
def Rooted (done : Array Nat) : List Nat → List DefEntry → Prop :=
  Forall₂ fun root e => done[e.root]? = some root

theorem Rooted.mem {roots : List Nat} {ds : List DefEntry} (h : Rooted done roots ds) :
    ∀ x ∈ roots, x ∈ done := by
  induction h with
  | nil => exact forall_mem_nil _
  | cons hroot _ ih => exact forall_mem_cons.2 ⟨Array.mem_of_getElem? hroot, ih⟩

theorem meets_roots (ds : List DefEntry) (cells : Array Nat) (i : Nat) (hi : Intact G h) :
    Meets (roots cells i ds) h (fun rs h' => h' = h ∧ Rooted cells rs ds) (FailedLoad G) := by
  induction ds generalizing i with
  | nil => exact ⟨rfl, .nil⟩
  | cons d ds ih =>
    simp only [roots]
    split
    · exact ⟨trivial, hi⟩
    · rename_i root hroot
      refine (ih (i + 1)).bind ?_
      rintro rs h' ⟨rfl, hrs⟩
      exact ⟨rfl, .cons hroot hrs⟩

end Images

section Programs

variable {N : Term → Prop} {defs : List (Name × Nat)} {node node' : Nat → Term} {U' : Nat → Prop}
  {built : Std.HashMap Nat Nat} {t : Term}

/-- The cell of a node: one that was built for its label, or that of the definition it refers to. -/
def CellOf (defs : List (Name × Nat)) (U : Nat → Prop) (holes : List Nat) (node : Nat → Term) (t : Term)
    (id : Nat) : Prop :=
  (U id ∧ id ∉ holes ∧ (node id).label = t.label) ∨
    ∃ name, t = .leaf t.label (.global name) ∧ defs.lookup name = some id

/-- What is in the cell that was built for a node. -/
inductive Represents (defs : List (Name × Nat)) (U : Nat → Prop) (holes : List Nat) (node : Nat → Term) :
    Term → Cell → Prop
  | comb (label : Nat) (c : Combinator) : Represents defs U holes node (.leaf label (.comb c)) (.comb c)
  | prim (label : Nat) (p : Primitive) : Represents defs U holes node (.leaf label (.prim p)) (.prim p)
  | lit (label : Nat) (l : Literal) :
    Represents defs U holes node (.leaf label (.lit l)) (.scalar (.ofLiteral l))
  | app {label x y : Nat} {f a : Term} : CellOf defs U holes node f x → CellOf defs U holes node a y →
    Represents defs U holes node (.app label f a) (.app x y)

/-- There may be more new cells, and the old ones are those of the same nodes. -/
def NodesKept (U : Nat → Prop) (node : Nat → Term) (U' : Nat → Prop) (node' : Nat → Term) : Prop :=
  ∀ x, U x → U' x ∧ node' x = node x

theorem NodesKept.refl : NodesKept U node U node := fun _ hx => ⟨hx, rfl⟩

theorem NodesKept.trans {U'' : Nat → Prop} {node'' : Nat → Term} (h : NodesKept U node U' node')
    (h' : NodesKept U' node' U'' node'') : NodesKept U node U'' node'' := by
  intro x hx
  obtain ⟨hx, heq⟩ := h x hx
  obtain ⟨hx', heq'⟩ := h' x hx
  exact ⟨hx', heq'.trans heq⟩

theorem CellOf.mono (h : CellOf defs U holes node t id) (hk : NodesKept U node U' node') :
    CellOf defs U' holes node' t id := by
  rcases h with ⟨hid, hnot, hlabel⟩ | h
  · obtain ⟨hid', heq⟩ := hk id hid
    exact Or.inl ⟨hid', hnot, heq ▸ hlabel⟩
  · exact Or.inr h

theorem Represents.mono (h : Represents defs U holes node t c) (hk : NodesKept U node U' node') :
    Represents defs U' holes node' t c := by
  cases h with
  | comb label c => exact .comb label c
  | prim label p => exact .prim label p
  | lit label l => exact .lit label l
  | app hf ha => exact .app (hf.mono hk) (ha.mono hk)

/-- The nodes of a graph have those below them. -/
structure Nodes (N : Term → Prop) : Prop where
  fn : ∀ {label : Nat} {f a : Term}, N (.app label f a) → N f
  arg : ∀ {label : Nat} {f a : Term}, N (.app label f a) → N a

/-- A heap into which nodes of `N` are being loaded, where `node` has those of the new cells. -/
structure Building (N : Term → Prop) (defs : List (Name × Nat)) (G U : Nat → Prop) (holes : List Nat)
    (h : Heap) (node : Nat → Term) (built : Std.HashMap Nat Nat) : Prop where
  loading : Loading G U holes h
  hole : ∀ d ∈ defs, d.2 ∈ holes
  cell : ∀ x, U x → x ∉ holes → N (node x) ∧ Represents defs U holes node (node x) (h.get x)
  built : ∀ label id : Nat, built[label]? = some id → U id ∧ id ∉ holes ∧ (node id).label = label

theorem Building.mem_of_cellOf (hb : Building N defs G U holes h node built)
    (ht : CellOf defs U holes node t id) : U id := by
  rcases ht with ht | ⟨name, -, hlookup⟩
  · exact ht.1
  · exact hb.loading.hole id (hb.hole _ (mem_of_lookup hlookup))

/-- What is known after a part of a load. -/
def Built (N : Term → Prop) (defs : List (Name × Nat)) (G U : Nat → Prop) (holes : List Nat)
    (node : Nat → Term) (built : Std.HashMap Nat Nat) (Q : (Nat → Prop) → (Nat → Term) → Prop)
    (h : Heap) : Prop :=
  ∃ U' node', Building N defs G U' holes h node' built ∧ NodesKept U node U' node' ∧ Q U' node'

/-- A node is built once, and found again by its label. -/
theorem meets_node (hb : Building N defs G U holes h node built) (ht : N t)
    (hc : Represents defs U holes node t c) : Meets ((Load.node t.label c).run built) h
      (fun r h' => Built N defs G U holes node r.2 (CellOf defs · holes · t r.1) h') (FailedLoad G) := by
  have hplain : c.isFree = false ∧ c.isInd = false ∧ ∀ y ∈ c.children, U y := by
    cases hc with
    | app hf ha =>
      refine ⟨rfl, rfl, ?_⟩
      simp only [Cell.children, mem_cons, not_mem_nil, or_false]
      rintro y (rfl | rfl)
      · exact hb.mem_of_cellOf hf
      · exact hb.mem_of_cellOf ha
    | _ => exact ⟨rfl, rfl, by simp [Cell.children]⟩
  simp only [node_run, meets_bind, meets_pure]
  refine meets_alloc hb.loading fun id h' hid hal hfl => ?_
  have hl := hb.loading.allocates hid hal hfl hplain.2.2 holes (fun _ hx => hx) (fun _ hx => Or.inl hx)
    fun _ => ⟨hplain.1, hplain.2.1⟩
  have hhole : id ∉ holes := fun hmem => hid (Or.inr (hb.loading.hole id hmem))
  have hne : ∀ x, U x → x ≠ id := fun x hx hxid => hid (Or.inr (hxid ▸ hx))
  have hk : NodesKept U node (fun x => U x ∨ x = id) (Function.update node id t) :=
    fun x hx => ⟨Or.inl hx, Function.update_of_ne (hne x hx) ..⟩
  have hself : Function.update node id t id = t := Function.update_self ..
  refine ⟨_, _, ⟨hl, hb.hole, ?_, ?_⟩, hk, Or.inl ⟨Or.inr rfl, hhole, by rw [hself]⟩⟩
  · rintro x (hx | rfl) hnot
    · obtain ⟨hN, hrep⟩ := hb.cell x hx hnot
      rw [hal.view, View.update_of_ne (hne x hx), (hk x hx).2]
      exact ⟨hN, hrep.mono hk⟩
    · rw [hal.view, View.update_self, hself]
      exact ⟨ht, hc.mono hk⟩
  · intro label x hx
    rw [Std.HashMap.getElem?_insert] at hx
    split at hx
    · cases hx
      exact ⟨Or.inr rfl, hhole, by rw [hself]; exact beq_iff_eq.1 ‹_›⟩
    · obtain ⟨hU, hnot, hlabel⟩ := hb.built label x hx
      exact ⟨Or.inl hU, hnot, (hk x hU).2 ▸ hlabel⟩

theorem meets_reuse (hb : Building N defs G U holes h node built) (hid : built[t.label]? = some id) :
    Meets ((pure id : BuildM Nat).run built) h
      (fun r h' => Built N defs G U holes node r.2 (CellOf defs · holes · t r.1) h') (FailedLoad G) :=
  ⟨U, node, hb, .refl, Or.inl (hb.built _ id hid)⟩

/-- Loading a term builds its graph, sharing what is already built. -/
theorem meets_term (hN : Nodes N) (ht : N t) (hb : Building N defs G U holes h node built) :
    Meets ((term defs t).run built) h
      (fun r h' => Built N defs G U holes node r.2 (CellOf defs · holes · t r.1) h') (FailedLoad G) := by
  induction t generalizing U h node built with
  | leaf label x =>
    have leaf {c : Cell} := meets_node (c := c) hb ht
    simp only [term, StateT.run_bind, StateT.run_get, pure_bind]
    split
    · exact meets_reuse (t := .leaf label x) hb ‹_›
    · cases x with
      | comb c => exact leaf (.comb label c)
      | prim p => exact leaf (.prim label p)
      | lit l => exact leaf (.lit label l)
      | global name =>
        dsimp only
        split
        · exact ⟨U, node, hb, .refl, Or.inr ⟨name, rfl, ‹_›⟩⟩
        · exact hb.loading.failed trivial
      | var x => exact hb.loading.failed trivial
  | app label f a ihf iha =>
    simp only [term, StateT.run_bind, StateT.run_get, pure_bind]
    split
    · exact meets_reuse (t := .app label f a) hb ‹_›
    · simp only [StateT.run_bind]
      refine (ihf (hN.fn ht) hb).bind ?_
      rintro ⟨x, built1⟩ h1 ⟨U1, node1, hb1, hk1, hx⟩
      refine (iha (hN.arg ht) hb1).bind ?_
      rintro ⟨y, built2⟩ h2 ⟨U2, node2, hb2, hk2, hy⟩
      refine (meets_node (t := .app label f a) hb2 ht (.app (hx.mono hk2) hy)).imp ?_
      rintro r h3 ⟨U3, node3, hb3, hk3, hr⟩
      exact ⟨U3, node3, hb3, (hk1.trans hk2).trans hk3, hr⟩

theorem meets_bodies {ds : List Definition} (hN : Nodes N) (hds : ∀ d ∈ ds, N d.body)
    (hb : Building N defs G U holes h node built) : Meets ((bodies defs ds).run built) h
      (fun r h' => Built N defs G U holes node r.2 (fun U' node' =>
        Forall₂ (fun d root => CellOf defs U' holes node' d.body root) ds r.1) h') (FailedLoad G) := by
  induction ds generalizing U h node built with
  | nil => exact ⟨U, node, hb, .refl, .nil⟩
  | cons d ds ih =>
    obtain ⟨hbody, hds⟩ := forall_mem_cons.1 hds
    simp only [bodies, StateT.run_bind, StateT.run_pure, meets_bind, meets_pure]
    refine (meets_term hN hbody hb).imp ?_
    rintro ⟨root, built1⟩ h1 ⟨U1, node1, hb1, hk1, hroot⟩
    refine (ih hds hb1).imp ?_
    rintro ⟨rest, built2⟩ h2 ⟨U2, node2, hb2, hk2, hrest⟩
    exact ⟨U2, node2, hb2, hk1.trans hk2, .cons (hroot.mono hk2) hrest⟩

end Programs

section Link

/-- What patching makes of the cells: placeholders stand for bodies, and all others are as
before. -/
structure Patched (h h' : Heap) (cells roots : List Nat) : Prop where
  size : h'.cells.size = h.cells.size
  same : ∀ x, x ∉ cells → h'.get x = h.get x
  patched : ∀ x ∈ cells, ∃ r ∈ roots, h'.get x = .ind r

theorem patch_free {G' : Nat → Prop} (cells roots : List Nat) (hfree : h.FreeList G')
    (hcells : ∀ x ∈ cells, G' x) : (patch h cells roots).FreeList G' := by
  unfold patch
  induction cells generalizing h roots with
  | nil => exact hfree
  | cons x cells ih =>
    cases roots with
    | nil => exact hfree
    | cons r roots =>
      exact ih roots (hfree.set (hcells x (by simp))) fun y hy => hcells y (by simp [hy])

/-- Patching makes an indirection of each placeholder, and of nothing else. -/
theorem patch_patched (cells roots : List Nat) (hlen : cells.length ≤ roots.length)
    (hlt : ∀ x ∈ cells, x < h.cells.size) : Patched h (patch h cells roots) cells roots := by
  unfold patch
  induction cells generalizing h roots with
  | nil => exact ⟨rfl, fun _ _ => rfl, by simp⟩
  | cons x cells ih =>
    cases roots with
    | nil => simp at hlen
    | cons r roots =>
      have hx : x < h.cells.size := hlt x (by simp)
      have hp := ih (h := h.set x (.ind r)) roots (by simpa using hlen)
        fun y hy => by rw [Heap.size_set]; exact hlt y (by simp [hy])
      simp only [zip_cons_cons, foldl_cons]
      refine ⟨hp.size.trans Heap.size_set, fun y hy => ?_, fun y hy => ?_⟩
      · rw [hp.same y fun hmem => hy (by simp [hmem]), Heap.get_set hx,
          View.update_of_ne fun hyx => hy (by simp [hyx])]
      · by_cases hmem : y ∈ cells
        · obtain ⟨r', hr', hget⟩ := hp.patched y hmem
          exact ⟨r', by simp [hr'], hget⟩
        · have hyx : y = x := (mem_cons.1 hy).resolve_right hmem
          subst hyx
          exact ⟨r, by simp, by rw [hp.same y hmem, Heap.get_set hx, View.update_self]⟩

theorem get_patch {cells roots : List Nat} (hnodup : cells.Nodup) (hlen : cells.length ≤ roots.length)
    (hlt : ∀ x ∈ cells, x < h.cells.size) {i x root : Nat} (hx : cells[i]? = some x)
    (hroot : roots[i]? = some root) : (patch h cells roots).get x = .ind root := by
  induction cells generalizing h roots i with
  | nil => cases hx
  | cons c cells ih =>
    cases roots with
    | nil => cases hroot
    | cons r roots =>
      obtain ⟨hc, hcells⟩ := forall_mem_cons.1 hlt
      obtain ⟨hnot, hnodup⟩ := nodup_cons.1 hnodup
      have hle : cells.length ≤ roots.length := by simpa using hlen
      have hlt' : ∀ x ∈ cells, x < (h.set c (.ind r)).cells.size := fun x hx => by
        rw [Heap.size_set]
        exact hcells x hx
      show (patch (h.set c (.ind r)) cells roots).get x = _
      cases i with
      | zero =>
        cases hx
        cases hroot
        rw [(patch_patched cells roots hle hlt').same _ hnot, Heap.get_set hc, View.update_self]
      | succ i => exact ih hnodup hle hlt' hx hroot

/-- **Linking**: once no definition is an alias of itself, all new cells are in use and their
chains of indirections are finite. -/
theorem meets_link {names : List Name} {cells roots : List Nat} (hl : Loading G U cells h)
    (hnames : names.length = cells.length) (hroots : cells.length ≤ roots.length)
    (hU : ∀ x ∈ roots, U x) : Meets (link names cells roots) h
      (fun defs h' => Intact G h' ∧ Intact (fun x => G x ∨ U x) h' ∧ defs = names.zip cells ∧
        h' = patch h cells roots)
      (FailedLoad G) := by
  have hp := patch_patched cells roots hroots (h := h) fun x hx => hl.lt_size x (hl.hole x hx)
  have hfree : (patch h cells roots).FreeList fun x => G x ∨ U x :=
    patch_free cells roots hl.free fun x hx => Or.inr (hl.hole x hx)
  have hold : Closed (patch h cells roots).get G := hl.closed.congr fun x hx =>
    hp.same x fun hmem => hl.apart x (hl.hole x hmem) hx
  have hintact : Intact G (patch h cells roots) := ⟨hold, hfree.mono fun _ hx => Or.inl hx⟩
  simp only [link, meets_bind, meets_modify, meets_get]
  split
  · exact ⟨trivial, hintact⟩
  · rename_i hnone
    refine ⟨hintact, ⟨⟨?_, ?_, ?_⟩, hfree⟩, rfl, rfl⟩
    · rintro x (hx | hx)
      · exact hold.inUse x hx
      · by_cases hmem : x ∈ cells
        · obtain ⟨r, -, hr⟩ := hp.patched x hmem
          rw [hr]; rfl
        · rw [hp.same x hmem]; exact (hl.built x hx hmem).1
    · rintro x (hx | hx) y hy
      · exact Or.inl (hold.child x hx y hy)
      · by_cases hmem : x ∈ cells
        · obtain ⟨r, hr, hget⟩ := hp.patched x hmem
          rw [hget] at hy
          simp only [Cell.children, mem_singleton] at hy
          exact Or.inr (hy ▸ hU r hr)
        · rw [hp.same x hmem] at hy; exact Or.inr (hl.child x hx y hy)
    · rintro x (hx | hx)
      · exact hold.ends x hx
      · by_cases hmem : x ∈ cells
        · -- the cell of a definition resolves to a cell that is no indirection
          obtain ⟨i, hi⟩ := getElem?_of_mem hmem
          obtain ⟨name, hname⟩ : ∃ name, names[i]? = some name := by
            have : i < names.length := by
              rw [hnames]; exact (List.getElem?_eq_some_iff.1 hi).1
            exact ⟨_, getElem?_eq_getElem this⟩
          have hdef : (name, x) ∈ names.zip cells :=
            mem_of_getElem? (i := i) (by rw [getElem?_zip_eq_some]; exact ⟨hname, hi⟩)
          have hend : ((patch h cells roots).get ((patch h cells roots).resolve x)).isInd = false := by
            have hall := Option.map_eq_none_iff.1 hnone
            have := find?_eq_none.1 hall (name, x) hdef
            simpa using this
          exact ⟨_, Heap.stands_resolve hend⟩
        · refine ⟨x, .here ?_⟩
          rw [hp.same x hmem]; exact (hl.built x hx hmem).2

end Link

end Load

/-- The new cells of a load that succeeded. -/
def LoadedInto (G : Nat → Prop) (l : Loaded) (h : Heap) : Prop :=
  ∃ U : Nat → Prop, Intact (fun x => G x ∨ U x) h ∧ (∀ d ∈ l.defs, U d.2) ∧
    ∀ e, l.entry = some e → ∃ d ∈ l.defs, d.2 = e

section Loads

variable {G : Nat → Prop} {h : Heap}

/-- **A program in the heap**: the cells of the definitions stand for those of their bodies, and every
other new cell is that of a node of `N`. -/
structure Program.Stands (p : Program) (N : Term → Prop) (G U : Nat → Prop) (cells : List Nat)
    (node : Nat → Term) (h : Heap) : Prop where
  intact : Intact (fun x => G x ∨ U x) h
  length : cells.length = p.defs.length
  nodup : cells.Nodup
  mem : ∀ x ∈ cells, U x
  cell : ∀ x, U x → x ∉ cells →
    N (node x) ∧ Load.Represents ((p.defs.map (·.name)).zip cells) U cells node (node x) (h.get x)
  body : ∀ (i x : Nat) (d : Definition), cells[i]? = some x → p.defs[i]? = some d →
    ∃ root, h.get x = .ind root ∧ Load.CellOf ((p.defs.map (·.name)).zip cells) U cells node d.body root

/-- **Loading a program** builds the graph of its definitions, or leaves what was there as it was. -/
theorem Program.meets_load {p : Program} {N : Term → Prop} (hN : Load.Nodes N)
    (hbodies : ∀ d ∈ p.defs, N d.body) (hi : Intact G h) :
    Meets p.load h (fun l h' => ∃ U cells node, p.Stands N G U cells node h' ∧
      l = ⟨p.entry.bind fun name => ((p.defs.map (·.name)).zip cells).lookup name,
        (p.defs.map (·.name)).zip cells⟩)
      (FailedLoad G) := by
  simp only [Program.load, meets_bind, StateT.run', meets_map, meets_pure]
  refine (Load.meets_placeholders p.defs.length (.start hi)).imp ?_
  rintro cells h1 ⟨hlen, hnodup, -, hl1⟩
  rw [append_nil] at hl1
  set defs := (p.defs.map (·.name)).zip cells
  have hb1 : Load.Building N defs G (fun x => False ∨ x ∈ cells) cells h1 (fun _ => default) ∅ :=
    ⟨hl1, fun d hd => (of_mem_zip hd).2, fun x hx hnot => absurd (hx.resolve_left id) hnot, by simp⟩
  refine (Load.meets_bodies hN hbodies hb1).imp ?_
  rintro ⟨roots, built⟩ h2 ⟨U, node, hb, hk, hroots⟩
  have hlength : cells.length ≤ roots.length := by
    rw [hlen]
    exact Nat.le_of_eq hroots.length_eq
  have hU : ∀ x ∈ roots, U x := by
    intro x hx
    obtain ⟨d, -, hd⟩ := exists_of_forall₂ hroots.flip hx
    exact hb.mem_of_cellOf hd
  have hcells : ∀ x ∈ cells, x < h2.cells.size := fun x hx => hb.loading.lt_size x (hb.loading.hole x hx)
  refine (Load.meets_link hb.loading (by simp [hlen]) hlength hU).imp ?_
  rintro _ h3 ⟨-, hi3, rfl, rfl⟩
  refine ⟨U, cells, node, ⟨hi3, hlen, hnodup, hb.loading.hole, fun x hx hnot => ?_, fun i x d hx hd => ?_⟩, rfl⟩
  · rw [(Load.patch_patched cells roots hlength hcells).same x hnot]
    exact hb.cell x hx hnot
  · obtain ⟨root, hroot, hcell⟩ := exists_getElem?_of_forall₂ hroots hd
    exact ⟨root, Load.get_patch hnodup hlength hcells hx hroot, hcell⟩

theorem Program.load_sound (p : Program) (hi : Intact G h) :
    Meets p.load h (fun l h' => LoadedInto G l h') (FailedLoad G) := by
  refine (p.meets_load (N := fun _ => True) ⟨fun _ => trivial, fun _ => trivial⟩ (fun _ _ => trivial) hi).imp ?_
  rintro _ h' ⟨U, cells, node, hs, rfl⟩
  refine ⟨U, hs.intact, fun d hd => hs.mem _ (of_mem_zip hd).2, fun e he => ?_⟩
  obtain ⟨name, -, hname⟩ := Option.bind_eq_some_iff.1 he
  exact ⟨_, mem_of_lookup hname, rfl⟩

/-- **Loading an image** adds a closed set of cells, or leaves the old one as it was. -/
theorem Image.load_sound (image : Image) (resolve : String → Option Primitive) (hi : Intact G h) :
    Meets (image.load resolve) h (fun l h' => LoadedInto G l h') (FailedLoad G) := by
  unfold Image.load
  split
  · rename_i e he
    exact ⟨Load.primitives_error he, hi⟩
  refine (Load.meets_placeholders image.defs.length (.start hi)).bind ?_
  rintro cells h1 ⟨hlen, -, -, hl1⟩
  rw [append_nil] at hl1
  refine (Load.meets_records image.records hl1 (by simp) (by simp)).bind ?_
  rintro bodies h2 ⟨U2, hl2, -, hbodies, -⟩
  refine (Load.meets_roots image.defs bodies 0 hl2.intact).bind ?_
  rintro roots h' ⟨rfl, hroots⟩
  have hlength := hroots.length_eq
  refine (Load.meets_link hl2 (by simp [hlen]) (by omega) fun x hx => hbodies x (hroots.mem x hx)).bind ?_
  rintro defs h3 ⟨hG, hi3, rfl, -⟩
  have hdefs : ∀ d ∈ (image.defs.map (·.name)).zip cells, U2 d.2 :=
    fun d hd => hl2.hole _ (of_mem_zip hd).2
  split
  · exact ⟨U2, hi3, hdefs, fun e he => by cases he⟩
  · rename_i e _
    split
    · rename_i cell hcell
      refine ⟨U2, hi3, hdefs, fun e' he => ?_⟩
      cases he
      have hlt : e < (image.defs.map (·.name)).length := by
        have := (List.getElem?_eq_some_iff.1 hcell).1
        simp only [length_map]; omega
      refine ⟨((image.defs.map (·.name))[e], cell), mem_of_getElem? (i := e) ?_, rfl⟩
      rw [getElem?_zip_eq_some]
      exact ⟨getElem?_eq_getElem hlt, hcell⟩
    · exact ⟨trivial, hG⟩

end Loads

end GraphReduction
