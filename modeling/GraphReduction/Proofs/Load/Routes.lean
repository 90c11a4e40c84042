import GraphReduction.Proofs.Image.Flatten
import GraphReduction.Proofs.Load.Sound

/-!
# Two ways into the heap

A program is loaded directly from its terms, or through its image. The terms of a program are
flattened in the order in which they are built, so the cells of the records are those of the nodes:
while a term is flattened, the records that it adds are loaded step by step as the term is built.
-/

namespace GraphReduction

open List

variable {name : Name} {t : Term} {heap : Heap} {ds : List Definition}

/-- Both computations do the same to the heap, and their results are related. -/
def Alike {α β : Type} (x : LoadM α) (y : LoadM β) (h : Heap) (R : α → β → Prop) : Prop :=
  Meets x h (fun a h' => ∃ b, y h = .ok b h' ∧ R a b) fun e h' => y h = .error e h'

namespace Alike

variable {α β γ δ : Type} {x : LoadM α} {y : LoadM β} {h : Heap} {R R' : α → β → Prop}

theorem pure {a : α} {b : β} (hR : R a b) : Alike (Pure.pure a) (Pure.pure b) h R := ⟨b, rfl, hR⟩

theorem same {x : LoadM α} {Q : α → Prop} (hx : Meets x h (fun a _ => Q a) fun _ _ => True) :
    Alike x x h fun a b => a = b ∧ Q a :=
  .intro (fun a _ ha => ⟨a, ha, rfl, hx.ok ha⟩) fun _ _ he => he

theorem mono (hx : Alike x y h R) (hR : ∀ a b, R a b → R' a b) : Alike x y h R' :=
  hx.imp fun a _ ⟨b, hb, hab⟩ => ⟨b, hb, hR a b hab⟩

theorem bind {f : α → LoadM γ} {g : β → LoadM δ} {S : γ → δ → Prop} (hx : Alike x y h R)
    (hfg : ∀ a b h', R a b → Alike (f a) (g b) h' S) : Alike (x >>= f) (y >>= g) h S := by
  refine meets_bind.2 (Meets.mono hx ?_ fun _ _ he => bind_error he)
  rintro a h' ⟨b, hb, hR⟩
  rw [bind_ok hb]
  exact hfg a b h' hR

theorem eq {y : LoadM α} (hx : Alike x y h Eq) : x h = y h := by
  cases hxh : x h with
  | ok a h1 =>
    obtain ⟨b, hb, rfl⟩ := hx.ok hxh
    exact hb.symm
  | error e h1 => exact (hx.error hxh).symm

end Alike

namespace Load

open Flattening

theorem records_append (prims : Array Primitive) (defs : Array Nat) (rs rs' : List Record)
    (done : Array Nat) : records prims defs done (rs ++ rs') =
      records prims defs done rs >>= fun done => records prims defs done rs' := by
  induction rs generalizing done with
  | nil => rw [nil_append, records, pure_bind]
  | cons r rs ih => simp only [cons_append, records, bind_assoc, ih]

theorem records_singleton (prims : Array Primitive) (defs : Array Nat) (r : Record)
    (done : Array Nat) : records prims defs done [r] =
      record prims defs done done.size r >>= fun cell => pure (done.push cell) := rfl

/-- The later table has the entries of the earlier one. -/
def Extends (done done' : Array Nat) : Prop := ∀ i cell : Nat, done[i]? = some cell → done'[i]? = some cell

theorem Extends.trans {d d' d'' : Array Nat} (h : Extends d d') (h' : Extends d' d'') :
    Extends d d'' := fun i cell hi => h' i cell (h i cell hi)

theorem Extends.push (d : Array Nat) (cell : Nat) : Extends d (d.push cell) := by
  intro i c hi
  have hlt := (Array.getElem?_eq_some_iff.1 hi).1
  rw [Array.getElem?_push, if_neg (by omega), hi]

/-- **The cells of the records so far are those of the nodes so far.** A reference to a definition
has a record of its own but is built again each time, because that takes no new cell. -/
structure Tracks (U : List Term) (names : List Name) (cells : List Nat) (s : Flattening)
    (built : Std.HashMap Nat Nat) (done : Array Nat) : Prop where
  size : done.size = s.records.size
  new : ∀ label : Nat, s.nodes[label]? = none → built[label]? = none
  nodes : ∀ t ∈ U, ∀ r : Nat, s.nodes[t.label]? = some r → ∃ cell, done[r]? = some cell ∧
    (built[t.label]? = some cell ∨ built[t.label]? = none ∧
      ∃ name, t = .leaf t.label (.global name) ∧ (names.zip cells).lookup name = some cell)
  globals : ∀ i r : Nat, s.globals[i]? = some r → ∃ cell, cells[i]? = some cell ∧ done[r]? = some cell

theorem Tracks.empty (U : List Term) (names : List Name) (cells : List Nat) :
    Tracks U names cells .empty ∅ #[] := by
  constructor <;> simp [Flattening.empty]

section Routes

variable {U : List Term} {names : List Name} {cells : List Nat} {s s' : Flattening}
  {built built' : Std.HashMap Nat Nat} {done done' : Array Nat} {label r cell : Nat}
  {defs : List (Name × Nat)} {es : List DefEntry}

/-- A node gets a record: the cell of the record is noted for it, or it is a reference to a
definition. -/
theorem Tracks.note (ht : Tracks U names cells s built done) (hsize : done'.size = s'.records.size)
    (hnodes : s'.nodes = s.nodes.insert label r) (hext : Extends done done')
    (hcell : done'[r]? = some cell)
    (hglobals : ∀ i r : Nat, s'.globals[i]? = some r → s.globals[i]? = some r ∨
      ∃ cell, cells[i]? = some cell ∧ done'[r]? = some cell)
    (hbuilt : built' = built.insert label cell ∨ built' = built ∧ built[label]? = none ∧
      ∃ name, (∀ t ∈ U, t.label = label → t = .leaf t.label (.global name)) ∧
        (names.zip cells).lookup name = some cell) :
    Tracks U names cells s' built' done' := by
  have hother : ∀ l, label ≠ l → built'[l]? = built[l]? := by
    intro l hl
    rcases hbuilt with rfl | ⟨rfl, -⟩
    · rw [Std.HashMap.getElem?_insert, if_neg (by simpa using hl)]
    · rfl
  refine ⟨hsize, fun l hl => ?_, fun t ht' r' hr' => ?_, fun i r' hi => ?_⟩
  · rw [hnodes, Std.HashMap.getElem?_insert] at hl
    split at hl
    · cases hl
    · rename_i hne
      rw [hother l (by simpa using hne)]
      exact ht.new l hl
  · rw [hnodes, Std.HashMap.getElem?_insert] at hr'
    split at hr'
    · rename_i heq
      have heq : label = t.label := eq_of_beq heq
      cases hr'
      refine ⟨cell, hcell, ?_⟩
      rcases hbuilt with rfl | ⟨rfl, hnone, name, hname, hlookup⟩
      · rw [heq]
        exact Or.inl Std.HashMap.getElem?_insert_self
      · exact Or.inr ⟨heq ▸ hnone, name, hname t ht' heq.symm, hlookup⟩
    · rename_i hne
      obtain ⟨c, hc, hcase⟩ := ht.nodes t ht' r' hr'
      rw [hother t.label (by simpa using hne)]
      exact ⟨c, hext r' c hc, hcase⟩
  · rcases hglobals i r' hi with hi | hi
    · obtain ⟨c, hci, hcr⟩ := ht.globals i r' hi
      exact ⟨c, hci, hext r' c hcr⟩
    · exact hi

theorem exists_cell (hnodup : names.Nodup) (hlen : cells.length = names.length) {i : Nat}
    (hname : names[i]? = some name) :
    ∃ cell, cells[i]? = some cell ∧ (names.zip cells).lookup name = some cell := by
  have hlt : i < cells.length := by
    rw [hlen]
    exact (List.getElem?_eq_some_iff.1 hname).1
  exact ⟨cells[i], getElem?_eq_getElem hlt,
    lookup_zip_of_getElem? hnodup hlen hname (getElem?_eq_getElem hlt)⟩

/-- What has been loaded when a term is built whose record is `r`. -/
def Ends (U : List Term) (names : List Name) (cells : List Nat) (s' : Flattening) (r : Nat)
    (done : Array Nat) (built : Nat × Std.HashMap Nat Nat) (done' : Array Nat) : Prop :=
  Tracks U names cells s' built.2 done' ∧ Extends done done' ∧ done'[r]? = some built.1

/-- **A node with a cell of its own**: the cell is allocated once for the node and once for its
record. -/
theorem alike_node {prims : Array Primitive} {new : Record} {c : Cell}
    (ht : Tracks U names cells s built done)
    (hnew : record prims cells.toArray done done.size new = alloc c)
    (hrecords : s'.records = s.records.push new)
    (hnodes : s'.nodes = s.nodes.insert label s.records.size) (hglobals : s'.globals = s.globals) :
    Alike ((node label c).run built) (records prims cells.toArray done [new]) heap
      (Ends U names cells s' s.records.size done) := by
  rw [node_run, records_singleton, hnew]
  refine (Alike.same (Q := fun _ => True) ?_).bind ?_
  · unfold Meets
    cases alloc c heap <;> trivial
  · rintro id _ h' ⟨rfl, -⟩
    have hcell : (done.push id)[s.records.size]? = some id := by
      rw [← ht.size, Array.getElem?_push_size]
    refine Alike.pure ⟨?_, Extends.push done id, hcell⟩
    refine ht.note ?_ hnodes (Extends.push done id) hcell (fun i r hi => Or.inl ?_) (Or.inl rfl)
    · rw [hrecords, Array.size_push, Array.size_push, ht.size]
    · rw [← hglobals]
      exact hi

/-- **Building a term is loading its records**: flattening it adds records whose cells are those
of the nodes that are built. -/
def Simulates (U : List Term) (names : List Name) (cells : List Nat) (t : Term) (s : Flattening)
    (r : Nat) (s' : Flattening) : Prop :=
  ∃ new, s'.records.toList = s.records.toList ++ new ∧ s.prims <+: s'.prims ∧
    ∀ prims : List Primitive, s'.prims <+: prims → ∀ built done heap,
      Tracks U names cells s built done →
      Alike ((term (names.zip cells) t).run built) (records prims.toArray cells.toArray done new) heap
        (Ends U names cells s' r done)

theorem simulates_known (hmem : t ∈ U) (hr : s.nodes[t.label]? = some r) :
    Simulates U names cells t s r s := by
  refine ⟨[], by simp, prefix_refl _, fun prims _ built done heap ht => ?_⟩
  obtain ⟨cell, hcell, hcase⟩ := ht.nodes t hmem r hr
  have hrun : (term (names.zip cells) t).run built = pure (cell, built) := by
    rcases hcase with hbuilt | ⟨hnone, name, heq, hname⟩
    · exact term_run_of_built hbuilt
    · rw [heq]
      exact term_run_global hnone hname
  rw [hrun]
  exact Alike.pure ⟨ht, fun _ _ hi => hi, hcell⟩

/-- A leaf loads to the cell that its record loads to. -/
theorem simulates_leaf (hshared : ∀ s ∈ U, ∀ t ∈ U, s.label = t.label → s = t)
    (hnodup : names.Nodup) (hlen : cells.length = names.length) {x : Atom} {s1 : Flattening}
    (hmem : .leaf label x ∈ U) (hn : s.nodes[label]? = none) (hstep : AtomStep names x s r s1) :
    Simulates U names cells (.leaf label x) s r { s1 with nodes := s1.nodes.insert label r } := by
  cases hstep with
  | comb c =>
    refine ⟨[.comb c], by simp, prefix_refl _, fun prims _ built done heap ht => ?_⟩
    have hrun : (term (names.zip cells) (.leaf label (.comb c))).run built =
        (node label (.comb c)).run built := by simp [term, ht.new label hn]
    rw [hrun]
    exact alike_node ht rfl rfl rfl rfl
  | lit l =>
    refine ⟨[.lit l], by simp, prefix_refl _, fun prims _ built done heap ht => ?_⟩
    have hrun : (term (names.zip cells) (.leaf label (.lit l))).run built =
        (node label (.scalar (.ofLiteral l))).run built := by simp [term, ht.new label hn]
    rw [hrun]
    exact alike_node ht rfl rfl rfl rfl
  | @prim p _ ps i hprefix _ hp =>
    refine ⟨[.prim i], by simp, hprefix, fun prims hprims built done heap ht => ?_⟩
    have hp' : prims.toArray[i]? = some p := by
      obtain ⟨more, rfl⟩ := hprims
      rw [getElem?_toArray, getElem?_append_left (List.getElem?_eq_some_iff.1 hp).1]
      exact hp
    have hrun : (term (names.zip cells) (.leaf label (.prim p))).run built =
        (node label (.prim p)).run built := by simp [term, ht.new label hn]
    rw [hrun]
    exact alike_node ht (by simp only [record, hp']) rfl rfl rfl
  | @known name _ i _ hname hg =>
    refine ⟨[], by simp, prefix_refl _, fun prims _ built done heap ht => ?_⟩
    -- a name met before has its record already: nothing is added
    obtain ⟨cell, hci, hlookup⟩ := exists_cell hnodup hlen hname
    obtain ⟨cell', hci', hdone⟩ := ht.globals i r hg
    obtain rfl : cell' = cell := Option.some.inj (hci'.symm.trans hci)
    rw [term_run_global (ht.new label hn) hlookup]
    refine Alike.pure ⟨?_, fun _ _ hi => hi, hdone⟩
    refine ht.note ht.size rfl (fun _ _ hi => hi) hdone (fun _ _ hi => Or.inl hi)
      (Or.inr ⟨rfl, ht.new label hn, name, fun t ht' hl => ?_, hlookup⟩)
    obtain rfl := hshared t ht' _ hmem hl
    rfl
  | @global name _ i hname hg =>
    refine ⟨[.global i], by simp, prefix_refl _, fun prims _ built done heap ht => ?_⟩
    obtain ⟨cell, hci, hlookup⟩ := exists_cell hnodup hlen hname
    have hrecord : record prims.toArray cells.toArray done done.size (.global i) = pure cell := by
      simp only [record, getElem?_toArray, hci]
    rw [term_run_global (ht.new label hn) hlookup, records_singleton, hrecord, pure_bind]
    have hcell : (done.push cell)[s.records.size]? = some cell := by
      rw [← ht.size, Array.getElem?_push_size]
    refine Alike.pure ⟨?_, Extends.push done cell, hcell⟩
    refine ht.note ?_ rfl (Extends.push done cell) hcell (fun j r hj => ?_)
      (Or.inr ⟨rfl, ht.new label hn, name, fun t ht' hl => ?_, hlookup⟩)
    · rw [Array.size_push, Array.size_push, ht.size]
    · rw [Std.HashMap.getElem?_insert] at hj
      split at hj
      · rename_i heq
        cases hj
        rw [← eq_of_beq heq]
        exact Or.inr ⟨cell, hci, hcell⟩
      · exact Or.inl hj
    · obtain rfl := hshared t ht' _ hmem hl
      rfl

/-- A term and its records load alike: induction on the term. -/
theorem simulates_term (hshared : ∀ s ∈ U, ∀ t ∈ U, s.label = t.label → s = t)
    (hnodup : names.Nodup) (hlen : cells.length = names.length) (hsub : t.subterms ⊆ U)
    (h : Flattening.term names t s = .ok (r, s')) : Simulates U names cells t s r s' := by
  have hmem := hsub t.self_mem_subterms
  induction t generalizing s s' r with
  | leaf label x =>
    rcases term_leaf_cases h with ⟨hn, rfl⟩ | ⟨hn, s1, hstep, rfl⟩
    · exact simulates_known hmem hn
    · exact simulates_leaf hshared hnodup hlen hmem hn hstep
  | app label f a ihf iha =>
    rcases term_app_cases h with ⟨hn, rfl⟩ | ⟨hn, fn, s1, arg, s2, hf, ha, rfl, rfl⟩
    · exact simulates_known hmem hn
    have hsubf : f.subterms ⊆ U := fun u hu => hsub (by simp [Term.subterms, hu])
    have hsuba : a.subterms ⊆ U := fun u hu => hsub (by simp [Term.subterms, hu])
    obtain ⟨newf, hrf, hpf, hsimf⟩ := ihf hsubf hf (hsubf f.self_mem_subterms)
    obtain ⟨newa, hra, hpa, hsima⟩ := iha hsuba ha (hsuba a.self_mem_subterms)
    refine ⟨newf ++ (newa ++ [.app fn arg]), by simp [hrf, hra], hpf.trans hpa,
      fun prims hprims built done heap ht => ?_⟩
    have hrun : (term (names.zip cells) (.app label f a)).run built =
        (term (names.zip cells) f).run built >>= fun r =>
          (term (names.zip cells) a).run r.2 >>= fun r' =>
            (node label (.app r.1 r'.1)).run r'.2 := by simp [term, ht.new label hn]
    rw [hrun, records_append]
    refine (hsimf prims (hpa.trans hprims) built done heap ht).bind ?_
    rintro ⟨f', built1⟩ done1 heap1 ⟨ht1, hext1, hf'⟩
    rw [records_append]
    refine (hsima prims hprims built1 done1 heap1 ht1).bind ?_
    rintro ⟨a', built2⟩ done2 heap2 ⟨ht2, hext2, ha'⟩
    have hrecord : record prims.toArray cells.toArray done2 done2.size (.app fn arg) =
        alloc (.app f' a') := by
      simp only [record, hext2 fn f' hf', ha']
    have hnode : Alike _ _ heap2 (Ends U names cells { s2 with
        records := s2.records.push (.app fn arg)
        nodes := s2.nodes.insert label s2.records.size } s2.records.size done2) :=
      alike_node ht2 hrecord rfl rfl rfl
    refine hnode.mono ?_
    rintro c done3 ⟨ht3, hext3, hr⟩
    exact ⟨ht3, hext1.trans (hext2.trans hext3), hr⟩

/-- The definitions and their records load alike, one after the other. -/
theorem simulates_bodies (hshared : ∀ s ∈ U, ∀ t ∈ U, s.label = t.label → s = t)
    (hnodup : names.Nodup) (hlen : cells.length = names.length)
    (hsub : ∀ d ∈ ds, d.body.subterms ⊆ U) (h : ds.mapM (definition names) s = .ok (es, s')) :
    ∃ new, s'.records.toList = s.records.toList ++ new ∧ s.prims <+: s'.prims ∧
      ∀ prims : List Primitive, s'.prims <+: prims → ∀ built done heap,
        Tracks U names cells s built done →
        Alike ((bodies (names.zip cells) ds).run built)
          (records prims.toArray cells.toArray done new) heap
          fun roots done' => Rooted done' roots.1 es ∧ Extends done done' := by
  induction ds generalizing s es with
  | nil =>
    cases h
    refine ⟨[], by simp, prefix_refl _, fun prims _ built done heap _ => ?_⟩
    exact Alike.pure ⟨.nil, fun _ _ hi => hi⟩
  | cons d ds ih =>
    obtain ⟨root, s1, rest, hroot, hrest, rfl⟩ := definitions_cons_cases h
    obtain ⟨new, hr, hp, hsim⟩ : Simulates U names cells d.body s root s1 :=
      simulates_term hshared hnodup hlen (hsub d mem_cons_self) hroot
    obtain ⟨news, hrs, hps, hsims⟩ := ih (fun d hd => hsub d (mem_cons_of_mem _ hd)) hrest
    refine ⟨new ++ news, by simp [hr, hrs], hp.trans hps, fun prims hprims built done heap ht => ?_⟩
    have hrun : (bodies (names.zip cells) (d :: ds)).run built =
        (term (names.zip cells) d.body).run built >>= fun r =>
          (bodies (names.zip cells) ds).run r.2 >>= fun rs =>
            pure (r.1 :: rs.1, rs.2) := by simp [bodies]
    rw [hrun, records_append]
    refine (hsim prims (hps.trans hprims) built done heap ht).bind ?_
    rintro ⟨cell, built1⟩ done1 heap1 ⟨ht1, hext1, hcell⟩
    rw [← bind_pure (records prims.toArray cells.toArray done1 news)]
    refine (hsims prims hprims built1 done1 heap1 ht1).bind ?_
    rintro ⟨cells', built2⟩ done2 heap2 ⟨hrooted, hext2⟩
    exact Alike.pure ⟨.cons (hext2 _ _ hcell) hrooted, hext1.trans hext2⟩

theorem roots_of_rooted {bodies : List Nat} (h : Rooted done bodies es) (i : Nat) :
    roots done i es = pure bodies := by
  induction h generalizing i with
  | nil => rfl
  | cons hroot _ ih => simp only [roots, hroot, ih, pure_bind]

end Routes

theorem ofName?_name (p : Primitive) : Primitive.ofName? p.name = some p := by
  cases p <;> decide

theorem primitives_names (ps : List Primitive) :
    primitives Primitive.ofName? (ps.map (·.name)) = .ok ps := by
  induction ps with
  | nil => rfl
  | cons p ps ih =>
    simp only [map_cons, primitives, ofName?_name, ih]
    rfl

end Load

open Flattening Load

/-- A program and its image load to the same heap. -/
theorem Program.WellFormed.alike_load {p : Program} (h : p.WellFormed) {image : Image}
    (himage : p.toImage = .ok image) (heap : Heap) :
    Alike p.load (image.load Primitive.ofName?) heap Eq := by
  obtain ⟨es, s, hes, heq⟩ := h.closed.exists_toImage
  rw [heq] at himage
  cases himage
  have hnames : es.map (·.name) = p.names := names_of_definitions hes
  have hlength : es.length = p.defs.length := by
    have := congrArg length hnames
    simpa [Program.names] using this
  unfold Program.load Image.load
  simp only [primitives_names, hlength, hnames]
  refine (Alike.same (meets_placeholders_length p.defs.length heap)).bind ?_
  rintro cells _ heap1 ⟨rfl, hlen⟩
  have hlen' : cells.length = p.names.length := by rw [hlen, Program.names, length_map]
  obtain ⟨new, hrecords, -, hsim⟩ := simulates_bodies h.shared h.nodup hlen'
    (fun d hd => Program.subterms_subset hd) hes
  have hnew : s.records.toList = new := by simpa [Flattening.empty] using hrecords
  rw [hnew, StateT.run', map_eq_pure_bind, bind_assoc]
  refine (hsim s.prims (prefix_refl _) ∅ #[] heap1 (.empty ..)).bind ?_
  rintro ⟨roots, built⟩ done heap2 ⟨hrooted, -⟩
  rw [pure_bind, roots_of_rooted hrooted, pure_bind]
  refine (Alike.same ((ordinary_link p.names _ _ heap2).mono (fun _ _ h => h) fun _ _ _ => trivial)).bind ?_
  rintro _ _ heap3 ⟨rfl, rfl⟩
  cases hentry : p.entry with
  | none => exact Alike.pure rfl
  | some name =>
    obtain ⟨i, hi⟩ : ∃ i, lastIndex? name p.names = some i := by
      rw [← Option.ne_none_iff_exists']
      intro hnone
      exact lastIndex?_eq_none.1 hnone (h.entry name hentry)
    have hname := getElem?_of_lastIndex? hi
    obtain ⟨cell, hcell, hlookup⟩ := exists_cell h.nodup hlen' hname
    simp only [Option.bind_some, hi, hlookup, hcell]
    exact Alike.pure rfl

/-!
## How a load fails
-/

/-- An ordinary error is not a fault of the heap where a harmless one is to be expected. -/
theorem LoadError.Ordinary.cases {e : LoadError} (h : e.Ordinary)
    (hsound : Intact (fun _ => False) heap → e.Harmless) :
    (∃ n, e = .runtime (.outOfMemory n)) ∨ (∃ name, e = .selfAlias name) ∨
      ((∃ f, e = .runtime (.malformed f)) ∧ ¬ heap.FreeList fun _ => False) := by
  cases h with
  | selfAlias name => exact .inr (.inl ⟨name, rfl⟩)
  | heap e hcase =>
    rcases hcase with ⟨n, rfl⟩ | ⟨f, rfl⟩
    · exact .inl ⟨n, rfl⟩
    · exact .inr (.inr ⟨⟨f, rfl⟩, fun hfree =>
        hsound ⟨⟨fun x hx => hx.elim, fun x hx => hx.elim, fun x hx => hx.elim⟩, hfree⟩⟩)

namespace Program

variable {p : Program} {heap heap' : Heap} {e : LoadError}

/-- **A closed program** has nothing wrong in it but an alias. -/
theorem Closed.ordinary_of_load (h : p.Closed) (he : p.load heap = .error e heap') :
    e.Ordinary := by
  have hload : Meets p.load heap (fun _ _ => True) fun e _ => e.Ordinary := by
    simp only [Program.load, meets_bind, StateT.run', meets_map, meets_pure]
    refine ((builds_placeholders _).ordinary heap |>.also (meets_placeholders_length _ heap)).imp ?_
    rintro cells heap1 ⟨-, hlen⟩
    have hlen' : cells.length = p.names.length := by rw [hlen, Program.names, length_map]
    have hloads : ∀ d ∈ p.defs, ∀ label x, Term.leaf label x ∈ d.body.subterms →
        Loads (fun _ => False) (p.names.zip cells) x := by
      intro d hd label x hx
      have hclosed := h.leaves label x (Program.subterms_subset hd hx)
      cases x with
      | global name => exact .inl (exists_lookup_zip hlen' hclosed)
      | var y => exact hclosed
      | _ => trivial
    refine ((builds_bodies hloads ∅).ordinary heap1).imp fun roots heap2 _ => ?_
    exact (ordinary_link _ _ _ heap2).imp fun _ _ _ => trivial
  exact hload.error he

/-- **How the load of a closed program fails**: for lack of memory, because of an alias, or because
the free list was not intact in the first place. -/
theorem Closed.load_error (h : p.Closed) (he : p.load heap = .error e heap') :
    (∃ n, e = .runtime (.outOfMemory n)) ∨ (∃ name, e = .selfAlias name) ∨
      ((∃ f, e = .runtime (.malformed f)) ∧ ¬ heap.FreeList fun _ => False) :=
  (h.ordinary_of_load he).cases fun hintact => ((p.load_sound hintact).error he).1

end Program

/-- **Two ways into the heap**: a program has an image, which is read back from its file, and
beside an intact free list the image is loaded as the program is: with the same result, or with the
same error, which is lack of memory or an alias, and in both cases into the same cells. -/
theorem Program.load_toImage {p : Program} (h : p.WellFormed) :
    ∃ image, p.toImage = .ok image ∧ Image.decode image.encode = .ok image ∧
      ∀ heap : Heap, heap.FreeList (fun _ => False) →
        image.load Primitive.ofName? heap = p.load heap ∧
        ∀ e heap', p.load heap = .error e heap' →
          (∃ n, e = .runtime (.outOfMemory n)) ∨ ∃ name, e = .selfAlias name := by
  obtain ⟨defs, s, -, himage⟩ := h.closed.exists_toImage
  refine ⟨_, himage, (h.toImage_wellFormed himage).decode_encode, fun heap hfree => ⟨?_, ?_⟩⟩
  · exact (h.alike_load himage heap).eq.symm
  · intro e heap' he
    rcases h.closed.load_error he with hmem | halias | ⟨-, hbroken⟩
    · exact .inl hmem
    · exact .inr halias
    · exact (hbroken hfree).elim

/-- A program whose two definitions share a body, in which the reference to the third one is a
shared node as well. -/
def sharingProgram : Program where
  module := "sharing"
  defs :=
    let two : Term := .leaf 2 (.global "two")
    let body : Term := .app 4 (.app 3 (.leaf 1 (.prim .add)) two) two
    [⟨"main", 0, body⟩, ⟨"two", 0, .leaf 5 (.lit (.int 2))⟩, ⟨"four", 0, body⟩]
  entry := some "main"

/-- A heap with a cell in use between two free ones. -/
def fragmentedHeap : Heap where
  cells := #[.free (some 2), .comb .I, .free none]
  capacity := 9
  free := some 0
  freeCount := 2
  stats := {}

theorem wellFormed_sharingProgram : sharingProgram.WellFormed where
  shared := by simp [sharingProgram, Program.nodes, Term.subterms, Term.label]
  nodup := by decide
  stands := by
    intro label x hx
    have hleaf : x = .prim .add ∨ x = .global "two" ∨ x = .lit (.int 2) := by
      simp only [sharingProgram, Program.nodes, Term.subterms, flatMap_cons, mem_append,
        mem_cons, Term.leaf.injEq, reduceCtorEq] at hx
      tauto
    rcases hleaf with rfl | rfl | rfl
    · trivial
    · simp [Atom.StandsIn, sharingProgram, Program.names]
    · trivial
  entry := by simp [sharingProgram, Program.names]
  nodeCount_lt := by
    have hcard : sharingProgram.nodeCount = 5 := by decide
    rw [hcard]
    decide
  defs_lt := by decide
  addressable := by decide

theorem freeList_fragmentedHeap : fragmentedHeap.FreeList fun _ => False := by
  refine ⟨[0, 2], ?_, by decide, ?_, rfl, by decide⟩
  · exact .cons rfl (.cons rfl .nil)
  · simp [fragmentedHeap]

theorem Program.load_toImage_sharingProgram :
    sharingProgram.WellFormed ∧ fragmentedHeap.FreeList (fun _ => False) ∧
      ∃ image, sharingProgram.toImage = .ok image ∧ Image.decode image.encode = .ok image ∧
        image.load Primitive.ofName? fragmentedHeap = sharingProgram.load fragmentedHeap := by
  obtain ⟨image, himage, hdecode, hload⟩ := Program.load_toImage wellFormed_sharingProgram
  exact ⟨wellFormed_sharingProgram, freeList_fragmentedHeap, image, himage, hdecode,
    (hload fragmentedHeap freeList_fragmentedHeap).1⟩

end GraphReduction
