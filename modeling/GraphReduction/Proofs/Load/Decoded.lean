import GraphReduction.Proofs.Image.Decoded
import GraphReduction.Proofs.Load.Routes

/-!
# Loading decoded images

A record is loaded when those before it have their cells, so a reference back finds one, and so does
every position in a table. Nothing that the loader checks about an image with its references in
order can fail.
-/

namespace GraphReduction

open List

namespace Load

variable {prims : Array Primitive} {defs done : Array Nat}

theorem size_records (rs : List Record) (heap : Heap) : Meets (records prims defs done rs) heap
    (fun cells _ => cells.size = done.size + rs.length) fun _ _ => True := by
  induction rs generalizing done heap with
  | nil => rfl
  | cons r rs ih =>
    refine ((meets_self _ heap).mono (fun _ _ h => h) fun _ _ _ => trivial).bind fun cell heap' _ => ?_
    refine (ih heap').imp fun cells _ hcells => ?_
    rw [hcells, Array.size_push, length_cons]
    omega

theorem exists_primitives {resolve : String → Option Primitive} {names : List String}
    (h : ∀ name ∈ names, (resolve name).isSome) :
    ∃ ps, primitives resolve names = .ok ps ∧ ps.length = names.length := by
  induction names with
  | nil => exact ⟨[], rfl, rfl⟩
  | cons name names ih =>
    obtain ⟨p, hp⟩ := Option.isSome_iff_exists.1 (h name mem_cons_self)
    obtain ⟨ps, hps, hlen⟩ := ih fun n hn => h n (mem_cons_of_mem _ hn)
    refine ⟨p :: ps, ?_, by rw [length_cons, length_cons, hlen]⟩
    simp only [primitives, hp, hps]
    rfl

end Load

namespace Image

open Load

variable {image : Image} {resolve : String → Option Primitive} {heap heap' : Heap} {e : LoadError}

section

variable {ps : List Primitive} {cells : List Nat} {bodies : Array Nat}

theorem InOrder.builds_records (h : image.InOrder) (hps : ps.length = image.prims.length)
    (hcells : cells.length = image.defs.length) :
    Builds (fun _ => False) (image.records.map Record.cellCount).sum
      (Load.records ps.toArray cells.toArray #[] image.records) := by
  refine Load.builds_records _ fun k r hr => .inl ?_
  rw [Array.size_empty, Nat.zero_add, size_toArray, size_toArray, hps, hcells]
  exact ⟨h.refersBack k r hr, h.inTables r (mem_of_getElem? hr)⟩

theorem InOrder.builds_roots (h : image.InOrder)
    (hbodies : bodies.size = (#[] : Array Nat).size + image.records.length) :
    Builds (fun _ => False) 0 (Load.roots bodies 0 image.defs) := by
  rw [Array.size_empty, Nat.zero_add] at hbodies
  exact Load.builds_roots (fun d hd => .inl (hbodies ▸ h.roots d hd)) 0

end

/-- **An image in order has nothing wrong in it but an alias.** -/
theorem InOrder.ordinary_of_load (h : image.InOrder)
    (hprims : ∀ name ∈ image.prims, (resolve name).isSome)
    (he : image.load resolve heap = .error e heap') : e.Ordinary := by
  obtain ⟨ps, hps, hlen⟩ := exists_primitives hprims
  have hload : Meets (image.load resolve) heap (fun _ _ => True) fun e _ => e.Ordinary := by
    simp only [Image.load, hps]
    refine ((builds_placeholders _).ordinary heap |>.also (meets_placeholders_length _ heap)).bind ?_
    rintro cells heap1 ⟨-, hcells⟩
    refine ((h.builds_records hlen hcells).ordinary heap1 |>.also (size_records _ heap1)).bind ?_
    rintro bodies heap2 ⟨-, hbodies⟩
    refine ((h.builds_roots hbodies).ordinary heap2).bind fun roots heap3 _ => ?_
    refine (ordinary_link _ cells roots heap3).bind fun defs heap4 _ => ?_
    cases hentry : image.entry with
    | none => trivial
    | some entry =>
      have hlt := h.entry entry hentry
      simp only [getElem?_eq_getElem (show entry < cells.length by omega)]
      trivial
  exact hload.error he

/-- **How the load of an image in order fails**: for lack of memory, because of an alias, or because
the free list was not intact in the first place. -/
theorem InOrder.load_error (h : image.InOrder)
    (hprims : ∀ name ∈ image.prims, (resolve name).isSome)
    (he : image.load resolve heap = .error e heap') :
    (∃ n, e = .runtime (.outOfMemory n)) ∨ (∃ name, e = .selfAlias name) ∨
      ((∃ f, e = .runtime (.malformed f)) ∧ ¬ heap.FreeList fun _ => False) :=
  (h.ordinary_of_load hprims he).cases fun hintact => ((image.load_sound resolve hintact).error he).1

/-- **Decoded images are safe to load.** An image that is read from fewer than `2 ^ 32` bytes is well
formed: applications refer to earlier records, and roots, primitives, definitions and the entry point
are in range. Loaded into any heap, with its primitives known, it lacks memory, has a definition that
is an alias of itself, or is loaded; a heap whose free list was broken before is reported as such. -/
theorem safe_to_load {bytes : Bytes} (hlt : bytes.length < UInt32.size)
    (h : decode bytes = .ok image) :
    image.WellFormed ∧ ∀ resolve, (∀ name ∈ image.prims, (resolve name).isSome) →
      ∀ heap e heap', image.load resolve heap = .error e heap' →
        (∃ n, e = .runtime (.outOfMemory n)) ∨ (∃ name, e = .selfAlias name) ∨
          ((∃ f, e = .runtime (.malformed f)) ∧ ¬ heap.FreeList fun _ => False) := by
  have hw := wellFormed_of_decode hlt h
  exact ⟨hw, fun _ hprims _ _ _ he => hw.inOrder.load_error hprims he⟩

theorem safe_to_load_assortedImage :
    assortedImage.encode.length < UInt32.size ∧
    decode assortedImage.encode = .ok assortedImage ∧
    (∀ name ∈ assortedImage.prims, (Primitive.ofName? name).isSome) ∧
    (∃ heap', assortedImage.load Primitive.ofName? (.empty 3) =
      .error (.runtime (.outOfMemory 3)) heap') ∧
    assortedImage.WellFormed ∧
      ∀ heap e heap', assortedImage.load Primitive.ofName? heap = .error e heap' →
        (∃ n, e = .runtime (.outOfMemory n)) ∨ (∃ name, e = .selfAlias name) ∨
          ((∃ f, e = .runtime (.malformed f)) ∧ ¬ heap.FreeList fun _ => False) := by
  have hlt : assortedImage.encode.length < UInt32.size := by decide +kernel
  have hdecode := wellFormed_assortedImage.decode_encode
  have hprims : ∀ name ∈ assortedImage.prims, (Primitive.ofName? name).isSome := by decide
  obtain ⟨hw, hload⟩ := safe_to_load hlt hdecode
  exact ⟨hlt, hdecode, hprims, ⟨_, rfl⟩, hw, hload _ hprims⟩

end Image

end GraphReduction
