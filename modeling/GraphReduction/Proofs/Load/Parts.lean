import GraphReduction.Load
import GraphReduction.Proofs.Image.Flatten
import GraphReduction.Proofs.Lists
import GraphReduction.Proofs.Machine.Contract

/-!
# What a load is made of

A load takes new cells one after another, refuses what it cannot load, and links the definitions
last. A heap decides on the capacity only whether there is room for a new cell, never where it goes.
So whatever is loaded into two heaps with the same cells has the same cells in both, if there is room
for it in both.
-/

namespace GraphReduction

open List

/-- **A part of a load** that takes at most `n` cells. What it refuses, it refuses with an error of `E`. -/
inductive Builds (E : LoadError → Prop) : {α : Type} → Nat → LoadM α → Prop
  | pure {α : Type} (a : α) : Builds E 0 (Pure.pure a)
  | throw {α : Type} {n : Nat} {e : LoadError} (he : E e) : Builds E n (MonadExcept.throw e : LoadM α)
  | alloc (c : Cell) : Builds E 1 (Load.alloc c)
  | bind {α β : Type} {x : LoadM α} {g : α → LoadM β} {n k : Nat} : Builds E n x →
    (∀ h a h', x h = .ok a h' → Builds E k (g a)) → Builds E (n + k) (x >>= g)
  | more {α : Type} {x : LoadM α} {n k : Nat} : Builds E n x → n ≤ k → Builds E k x

/-- The number of cells that a record takes. A reference to a definition is the cell of the definition. -/
def Record.cellCount : Record → Nat
  | .global _ => 0
  | _ => 1

namespace Load

variable {E : LoadError → Prop}

theorem builds_placeholders (n : Nat) : Builds E n (placeholders n) := by
  induction n with
  | zero => exact .pure _
  | succ n ih =>
    have h : Builds E (1 + n) (placeholders (n + 1)) :=
      .bind (.alloc _) fun _ _ _ _ => ih.bind fun _ _ _ _ => .pure _
    rwa [Nat.add_comm] at h

theorem meets_placeholders_length (n : Nat) (h : Heap) :
    Meets (placeholders n) h (fun cells _ => cells.length = n) fun _ _ => True := by
  induction n generalizing h with
  | zero => rfl
  | succ n ih =>
    simp only [placeholders, meets_bind, meets_pure]
    refine (meets_self _ h).mono (fun id h' _ => ?_) fun _ _ _ => trivial
    refine (ih h').imp fun cells _ hcells => ?_
    rw [length_cons, hcells]

section Images

variable {prims : Array Primitive} {defs done : Array Nat}

/-- References may be out of range. -/
def Refused (E : LoadError → Prop) : Prop :=
  ∀ record kind target, E (.format (.badReference record kind target))

/-- A record in order takes as many cells as it counts. -/
theorem builds_record {r : Record}
    (h : r.RefersBack done.size ∧ r.InTables prims.size defs.size ∨ Refused E) :
    Builds E r.cellCount (record prims defs done done.size r) := by
  rcases h with ⟨hback, htables⟩ | hrefused
  · cases r with
    | app fn arg =>
      obtain ⟨hfn, harg⟩ := hback
      simp only [record, Array.getElem?_eq_getElem hfn, Array.getElem?_eq_getElem harg]
      exact .alloc _
    | comb _ | lit _ => exact .alloc _
    | prim index =>
      simp only [record, Array.getElem?_eq_getElem (show index < prims.size from htables)]
      exact .alloc _
    | global index =>
      simp only [record, Array.getElem?_eq_getElem (show index < defs.size from htables)]
      exact .pure _
  · unfold record
    split
    · split
      · exact .alloc _
      · exact .throw (hrefused _ _ _)
      · exact .throw (hrefused _ _ _)
    · exact .alloc _
    · exact .alloc _
    · split
      · exact .alloc _
      · exact .throw (hrefused _ _ _)
    · split
      · exact .pure _
      · exact .throw (hrefused _ _ _)

theorem builds_records (rs : List Record) (h : ∀ k (r : Record), rs[k]? = some r →
      r.RefersBack (done.size + k) ∧ r.InTables prims.size defs.size ∨ Refused E) :
    Builds E (rs.map Record.cellCount).sum (records prims defs done rs) := by
  induction rs generalizing done with
  | nil => exact .pure _
  | cons r rs ih =>
    refine (builds_record (h 0 r rfl)).bind fun _ cell _ _ => ih fun k r' hr' => ?_
    rw [Array.size_push, show done.size + 1 + k = done.size + (k + 1) by omega]
    exact h (k + 1) r' hr'

theorem builds_roots {cells : Array Nat} {ds : List DefEntry}
    (h : ∀ d ∈ ds, d.root < cells.size ∨ Refused E) (i : Nat) : Builds E 0 (roots cells i ds) := by
  induction ds generalizing i with
  | nil => exact .pure _
  | cons d ds ih =>
    obtain ⟨hd, h⟩ := forall_mem_cons.1 h
    unfold roots
    split
    · rename_i hroot
      exact .throw (hd.resolve_left (Nat.not_lt.2 (Array.getElem?_eq_none_iff.1 hroot)) _ _ _)
    · exact (ih h (i + 1)).bind fun _ _ _ _ => .pure _

end Images

section Programs

variable {defs : List (Name × Nat)} {built : Std.HashMap Nat Nat} {t : Term} {label cell : Nat} {name : Name}

theorem term_run_of_built (h : built[t.label]? = some cell) :
    (term defs t).run built = pure (cell, built) := by
  cases t with
  | leaf label x =>
    have h : built[label]? = some cell := h
    simp [term, h]
  | app label f a =>
    have h : built[label]? = some cell := h
    simp [term, h]

theorem term_run_global (h : built[label]? = none) (hname : defs.lookup name = some cell) :
    (term defs (.leaf label (.global name))).run built = pure (cell, built) := by
  simp [term, h, hname]

theorem node_run (label : Nat) (c : Cell) (built : Std.HashMap Nat Nat) :
    (node label c).run built = alloc c >>= fun id => pure (id, built.insert label id) := by
  simp [node]

/-- A leaf has a cell, or may have none. -/
def Loads (E : LoadError → Prop) (defs : List (Name × Nat)) : Atom → Prop
  | .global name => (∃ cell, defs.lookup name = some cell) ∨ E (.format (.malformed (.unknownDefinition name)))
  | .var x => E (.format (.malformed (.variableLeft x)))
  | _ => True

theorem builds_node (label : Nat) (c : Cell) : Builds E 1 ((node label c).run built) := by
  rw [node_run]
  exact .bind (.alloc c) fun _ _ _ _ => .pure _

/-- A term takes one cell at most for each of its subterms. -/
theorem builds_term (ht : ∀ label x, Term.leaf label x ∈ t.subterms → Loads E defs x)
    (built : Std.HashMap Nat Nat) : Builds E t.subterms.length ((term defs t).run built) := by
  induction t generalizing built with
  | leaf label x =>
    cases hb : built[label]? with
    | some cell =>
      rw [term_run_of_built hb]
      exact .more (.pure _) (Nat.zero_le _)
    | none =>
      have hx := ht label x (Term.self_mem_subterms _)
      simp only [term, StateT.run_bind, StateT.run_get, pure_bind, hb]
      cases x with
      | global name =>
        dsimp only
        split
        · exact .more (.pure _) (Nat.zero_le _)
        · rename_i hnone
          refine .throw (hx.resolve_left ?_)
          rintro ⟨cell, hcell⟩
          rw [hnone] at hcell
          cases hcell
      | var y => exact .throw hx
      | _ => exact builds_node _ _
  | app label f a ihf iha =>
    cases hb : built[label]? with
    | some cell =>
      rw [term_run_of_built hb]
      exact .more (.pure _) (Nat.zero_le _)
    | none =>
      simp only [term, StateT.run_bind, StateT.run_get, pure_bind, hb]
      rw [Term.subterms, length_cons, length_append, Nat.add_assoc]
      refine (ihf (fun l x hx => ht l x (by simp [Term.subterms, hx])) built).bind fun _ f _ _ => ?_
      refine (iha (fun l x hx => ht l x (by simp [Term.subterms, hx])) f.2).bind fun _ a _ _ => ?_
      exact builds_node _ _

theorem builds_bodies {ds : List Definition}
    (hds : ∀ d ∈ ds, ∀ label x, Term.leaf label x ∈ d.body.subterms → Loads E defs x)
    (built : Std.HashMap Nat Nat) :
    Builds E (ds.flatMap fun d => d.body.subterms).length ((bodies defs ds).run built) := by
  induction ds generalizing built with
  | nil => exact .pure _
  | cons d ds ih =>
    simp only [bodies, StateT.run_bind, flatMap_cons, length_append]
    refine (builds_term (hds d mem_cons_self) built).bind fun _ root _ _ => ?_
    exact (ih (fun d hd => hds d (mem_cons_of_mem _ hd)) root.2).bind fun _ _ _ _ => .pure _

end Programs

/-- **Linking** makes the placeholders stand for the bodies and looks for aliases. -/
theorem link_eq (names : List Name) (cells roots : List Nat) (h : Heap) : link names cells roots h =
    match selfAlias? (patch h cells roots) (names.zip cells) with
    | some name => .error (.selfAlias name) (patch h cells roots)
    | none => .ok (names.zip cells) (patch h cells roots) := by
  show (match selfAlias? (patch h cells roots) (names.zip cells) with
    | some name => (throw (LoadError.selfAlias name) : LoadM _)
    | none => pure (names.zip cells)) (patch h cells roots) = _
  cases selfAlias? (patch h cells roots) (names.zip cells) <;> rfl

end Load

/-!
## The capacity of the heap
-/

/-- Heaps with the same cells and the same free list. -/
structure Heap.SameCells (h h' : Heap) : Prop where
  cells : h'.cells = h.cells
  free : h'.free = h.free

theorem Heap.SameCells.get {h h' : Heap} (hs : h.SameCells h') : h'.get = h.get := by
  funext id
  unfold Heap.get
  rw [hs.cells]

namespace Load

/-- In heaps with the same cells, `x` has the same result and leaves the same cells, if it has a
result in both. -/
def Uniform {α : Type} (x : LoadM α) : Prop :=
  ∀ h h', h.SameCells h' → ∀ a h1 a' h1', x h = .ok a h1 → x h' = .ok a' h1' →
    a' = a ∧ h1.SameCells h1'

namespace Uniform

variable {α β : Type}

theorem pure (a : α) : Uniform (Pure.pure a : LoadM α) := by
  rintro h h' hs _ _ _ _ ⟨⟩ ⟨⟩
  exact ⟨rfl, hs⟩

theorem throw (e : LoadError) : Uniform (MonadExcept.throw e : LoadM α) := by
  rintro h h' _ a h1 _ _ hx _
  cases hx

theorem bind {x : LoadM α} {g : α → LoadM β} (hx : Uniform x)
    (hg : ∀ h a h', x h = .ok a h' → Uniform (g a)) : Uniform (x >>= g) := by
  intro h h' hs b h2 b' h2' hb hb'
  obtain ⟨a, h1, ha, hb⟩ := exists_of_bind_ok hb
  obtain ⟨a', h1', ha', hb'⟩ := exists_of_bind_ok hb'
  obtain ⟨rfl, hs1⟩ := hx h h' hs a h1 a' h1' ha ha'
  exact hg h a' h1 ha h1 h1' hs1 b h2 b' h2' hb hb'

theorem alloc (c : Cell) : Uniform (Load.alloc c) := by
  intro h h' hs id h1 id' h1' hx hx'
  unfold Load.alloc Heap.alloc at hx hx'
  rw [hs.free, hs.cells, hs.get] at hx'
  cases hfree : h.free with
  | some first =>
    simp only [hfree] at hx hx'
    cases hc : h.get first with
    | free next =>
      simp only [hc] at hx hx'
      cases hx
      cases hx'
      exact ⟨rfl, by simp only [Heap.notePeak, Heap.set, hs.cells], rfl⟩
    | _ => simp only [hc] at hx; cases hx
  | none =>
    simp only [hfree] at hx hx'
    by_cases hlt : h.cells.size < h.capacity
    · by_cases hlt' : h.cells.size < h'.capacity
      · simp only [if_pos hlt] at hx
        simp only [if_pos hlt'] at hx'
        cases hx
        cases hx'
        exact ⟨rfl, rfl, rfl⟩
      · simp only [if_neg hlt'] at hx'
        cases hx'
    · simp only [if_neg hlt] at hx
      cases hx

theorem of_builds {E : LoadError → Prop} {n : Nat} {x : LoadM α} (h : Builds E n x) : Uniform x := by
  induction h with
  | pure a => exact pure a
  | throw => exact throw _
  | alloc c => exact alloc c
  | bind _ _ ihx ihg => exact ihx.bind ihg
  | more _ _ ih => exact ih

end Uniform

theorem sameCells_patch {h h' : Heap} (hs : h.SameCells h') (cells roots : List Nat) :
    (patch h cells roots).SameCells (patch h' cells roots) := by
  unfold patch
  induction cells.zip roots generalizing h h' with
  | nil => exact hs
  | cons p ps ih =>
    refine ih ⟨?_, hs.free⟩
    simp only [Heap.set, hs.cells]

theorem uniform_link (names : List Name) (cells roots : List Nat) :
    Uniform (link names cells roots) := by
  intro h h' hs defs h1 defs' h1' hx hx'
  have hp := sameCells_patch hs cells roots
  have halias : selfAlias? (patch h' cells roots) (names.zip cells) =
      selfAlias? (patch h cells roots) (names.zip cells) := by
    unfold selfAlias? Heap.resolve
    rw [hp.get, hp.cells]
  rw [link_eq] at hx hx'
  rw [halias] at hx'
  cases ha : selfAlias? (patch h cells roots) (names.zip cells) with
  | some name =>
    rw [ha] at hx
    cases hx
  | none =>
    rw [ha] at hx hx'
    cases hx
    cases hx'
    exact ⟨rfl, hp⟩

end Load

open Load

theorem Image.uniform_load (image : Image) (resolve : String → Option Primitive) :
    Uniform (image.load resolve) := by
  have hany : Refused fun _ => True := fun _ _ _ => trivial
  unfold Image.load
  split
  · exact .throw _
  · refine .bind (.of_builds (builds_placeholders (E := fun _ => True) _)) fun _ cells _ _ =>
      .bind (.of_builds (builds_records _ fun _ _ _ => .inr hany)) fun _ bodies _ _ =>
      .bind (.of_builds (builds_roots (fun _ _ => .inr hany) _)) fun _ roots _ _ =>
      .bind (uniform_link _ _ _) fun _ defs _ _ => ?_
    split
    · exact .pure _
    · split
      · exact .pure _
      · exact .throw _

theorem Program.uniform_load (p : Program) : Uniform p.load := by
  have hany : ∀ defs x, Loads (fun _ => True) defs x := by
    intro defs x
    cases x with
    | global name => exact .inr trivial
    | _ => trivial
  exact .bind (.of_builds (builds_placeholders (E := fun _ => True) _)) fun _ _ _ _ =>
    .bind (.bind (.of_builds (builds_bodies (fun _ _ _ _ _ => hany _ _) _)) fun _ _ _ _ => .pure _)
      fun _ _ _ _ => .bind (uniform_link _ _ _) fun _ _ _ _ => .pure _

/-!
## How a load fails
-/

/-- The ways in which a load fails that refuses nothing. -/
inductive LoadError.Ordinary : LoadError → Prop
  | heap (e : RuntimeError) (h : (∃ n, e = .outOfMemory n) ∨ ∃ f, e = .malformed f) :
    Ordinary (.runtime e)
  | selfAlias (name : Name) : Ordinary (.selfAlias name)

theorem Builds.ordinary {α : Type} {x : LoadM α} {n : Nat} (hx : Builds (fun _ => False) n x) (h : Heap) :
    Meets x h (fun _ _ => True) fun e _ => e.Ordinary := by
  induction hx generalizing h with
  | pure => trivial
  | throw he => exact he.elim
  | alloc c =>
    unfold Meets Load.alloc Heap.alloc
    cases hfree : h.free with
    | none =>
      simp only
      by_cases hlt : h.cells.size < h.capacity
      · simp only [if_pos hlt]
      · simp only [if_neg hlt]
        exact .heap _ (Or.inl ⟨_, rfl⟩)
    | some first =>
      simp only
      cases h.get first with
      | free next => trivial
      | _ => exact .heap _ (Or.inr ⟨_, rfl⟩)
  | bind _ _ ihx ihg => exact (ihx h).traced.bind fun a h' ha => ihg _ a _ ha.1 h'
  | more _ _ ih => exact ih h

theorem Load.ordinary_link (names : List Name) (cells roots : List Nat) (h : Heap) :
    Meets (link names cells roots) h (fun defs _ => defs = names.zip cells) fun e _ => e.Ordinary := by
  unfold Meets
  rw [link_eq]
  cases selfAlias? (patch h cells roots) (names.zip cells) with
  | some name => exact .selfAlias name
  | none => rfl

end GraphReduction
