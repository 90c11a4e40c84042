import GraphReduction.Proofs.Compile.Meaning
import GraphReduction.Proofs.Machine.Transparency
import GraphReduction.Proofs.Machine.Unfolding

/-!
# Loaded programs and their trees

The cell of a definition has the tree of its body, and the cell of a node that of its term. A
reference to a definition is the cell of that definition, to whose tree the name reduces. Nodes with
the same label have one cell, so they have to be the same.
-/

namespace GraphReduction

open List
open GraphReduction.Tree (Red)
open GraphReduction.Machine (Shows Unfolds)

variable {Δ : Name → Option Tree} {N : Term → Prop} {G U : Nat → Prop} {holes : List Nat} {h : Heap}
  {σ : Nat → Tree} {built : Std.HashMap Nat Nat} {t : Term} {p : Program}

theorem Term.mem_subterms_trans {s u : Term} (hs : s ∈ t.subterms) (ht : t ∈ u.subterms) :
    s ∈ u.subterms := by
  induction u with
  | leaf label x =>
    rw [mem_singleton.1 ht] at hs
    exact hs
  | app label f a ihf iha =>
    rcases mem_cons.1 ht with rfl | ht
    · exact hs
    · rcases mem_append.1 ht with ht | ht
      · exact mem_cons_of_mem _ (mem_append_left _ (ihf ht))
      · exact mem_cons_of_mem _ (mem_append_right _ (iha ht))

theorem Program.nodes_closed (p : Program) : Load.Nodes (· ∈ p.nodes) := by
  refine ⟨fun hmem => ?_, fun hmem => ?_⟩
  all_goals
    obtain ⟨d, hd, hmem⟩ := mem_flatMap.1 hmem
    refine mem_flatMap.2 ⟨d, hd, Term.mem_subterms_trans ?_ hmem⟩
  · exact mem_cons_of_mem _ (mem_append_left _ (Term.self_mem_subterms _))
  · exact mem_cons_of_mem _ (mem_append_right _ (Term.self_mem_subterms _))

namespace Load

/-- **The cell of a node shows its tree**, if the trees of the cells below it are those that the trees of
the nodes reduce to. -/
theorem shows_of_represents {defs : List (Name × Nat)} {node : Nat → Term} {c : Cell} (hN : Nodes N) (ht : N t)
    (h : Represents defs U holes node t c)
    (hred : ∀ t id, N t → CellOf defs U holes node t id → Red Δ t.tree (σ id)) : Shows Δ σ t.tree c := by
  cases h with
  | comb _ _ | prim _ _ => exact .refl
  | lit label l => exact ⟨l, rfl, .refl⟩
  | app hf ha => exact Red.app (hred _ _ (hN.fn ht) hf) (hred _ _ (hN.arg ht) ha)

theorem definition_of_lookup {ds : List Definition} {cells : List Nat} {name : Name} {cell : Nat}
    (hlookup : ((ds.map (·.name)).zip cells).lookup name = some cell) :
    ∃ (i : Nat) (d : Definition), ds[i]? = some d ∧ cells[i]? = some cell ∧
      (ds.find? fun d => d.name == name) = some d := by
  induction ds generalizing cells with
  | nil => cases hlookup
  | cons d ds ih =>
    cases cells with
    | nil => cases hlookup
    | cons c cells =>
      rw [map_cons, zip_cons_cons, lookup_cons] at hlookup
      split at hlookup
      · rename_i heq
        cases hlookup
        exact ⟨0, d, rfl, rfl, find?_cons_of_pos (by rw [BEq.comm]; exact heq)⟩
      · rename_i hne
        obtain ⟨i, d', hd', hcell, hfind⟩ := ih hlookup
        refine ⟨i + 1, d', hd', hcell, ?_⟩
        rw [find?_cons_of_neg (by rw [BEq.comm]; simp [hne]), hfind]

end Load

/-- **A program that is loaded makes a graph of the trees of its definitions**, and the name of its
entry point reduces to the tree of the entry. -/
theorem Program.load_draws (hshared : ∀ s ∈ p.nodes, ∀ t ∈ p.nodes, s.label = t.label → s = t)
    (hi : Intact G h) :
    Meets p.load h (fun l h' => ∃ (U : Nat → Prop) (σ : Nat → Tree), Intact (fun x => G x ∨ U x) h' ∧
      (∀ d ∈ l.defs, U d.2) ∧ (∀ x, U x → Shows p.tree? σ (σ x) (h'.get x)) ∧
      ∀ e, l.entry = some e → ∃ name, p.entry = some name ∧
        U e ∧ Red p.tree? (.atom (.global name)) (σ e)) (FailedLoad G) := by
  have hbodies : ∀ d ∈ p.defs, d.body ∈ p.nodes := fun d hd =>
    mem_flatMap.2 ⟨d, hd, d.body.self_mem_subterms⟩
  refine (p.meets_load p.nodes_closed hbodies hi).imp ?_
  rintro _ h' ⟨U, cells, node, hs, rfl⟩
  -- the cell of a definition has the tree of its body
  let σ : Nat → Tree := fun x =>
    if x ∈ cells then ((p.defs[cells.idxOf x]?).map (·.body.tree)).getD default else (node x).tree
  have hσ : ∀ (i x : Nat) d, cells[i]? = some x → p.defs[i]? = some d → σ x = d.body.tree := by
    intro i x d hx hdef
    obtain ⟨hlt, rfl⟩ := List.getElem?_eq_some_iff.1 hx
    rw [show σ cells[i] = _ from if_pos (getElem_mem hlt), hs.nodup.idxOf_getElem, hdef]
    rfl
  have hname : ∀ name cell, ((p.defs.map (·.name)).zip cells).lookup name = some cell →
      Red p.tree? (.atom (.global name)) (σ cell) := by
    intro name cell hlookup
    obtain ⟨i, d, hdef, hcell, hfind⟩ := Load.definition_of_lookup hlookup
    refine .single (.global ?_)
    rw [hσ i cell d hcell hdef, Program.tree?, Program.get?, hfind]
    rfl
  have hred : ∀ t id, t ∈ p.nodes → Load.CellOf ((p.defs.map (·.name)).zip cells) U cells node t id →
      Red p.tree? t.tree (σ id) := by
    rintro t id ht (⟨hU, hnot, hlabel⟩ | ⟨name, heq, hlookup⟩)
    · rw [show σ id = _ from if_neg hnot, hshared _ (hs.cell id hU hnot).1 _ ht hlabel]
    · rw [heq]
      exact hname name id hlookup
  refine ⟨U, σ, hs.intact, fun d hd => hs.mem _ (of_mem_zip hd).2, fun x hx => ?_, fun e he => ?_⟩
  · by_cases hmem : x ∈ cells
    · obtain ⟨i, hi⟩ := mem_iff_getElem?.1 hmem
      have hlt : i < p.defs.length := hs.length ▸ (List.getElem?_eq_some_iff.1 hi).1
      obtain ⟨root, hget, hroot⟩ := hs.body i x _ hi (getElem?_eq_getElem hlt)
      rw [hget, hσ i x _ hi (getElem?_eq_getElem hlt)]
      exact hred _ root (hbodies _ (getElem_mem hlt)) hroot
    · obtain ⟨hN, hrep⟩ := hs.cell x hx hmem
      rw [show σ x = _ from if_neg hmem]
      exact Load.shows_of_represents p.nodes_closed hN hrep hred
  · obtain ⟨name, hentry, hlookup⟩ := Option.bind_eq_some_iff.1 he
    exact ⟨name, hentry, hs.mem _ (of_mem_zip (mem_of_lookup hlookup)).2, hname name e hlookup⟩

/-- **A new machine with a program in it unfolds to the program.** -/
theorem Machine.unfolds_of_loadProgram {config : Config} {world : World} {id : Nat} {m : Machine}
    (hshared : ∀ s ∈ p.nodes, ∀ t ∈ p.nodes, s.label = t.label → s = t)
    (hload : (new config world).loadProgram p = (.ok id, m)) :
    id ∈ m.pinned ∧ ∃ (G : Nat → Prop) (σ : Nat → Tree) (name : Name), Unfolds p.tree? m G σ ∧
      p.entry = some name ∧ Red p.tree? (.atom (.global name)) (σ id) := by
  obtain ⟨l, heap, hx, hentry, rfl⟩ := load_eq_ok hload
  have hi : Intact (fun _ => False) (new config world).heap :=
    ⟨⟨fun _ h => h.elim, fun _ h => h.elim, fun _ h => h.elim⟩,
      [], .nil, nodup_nil, by simp, rfl, Nat.zero_le _⟩
  obtain ⟨U, σ, hintact, hdefs, hshows, hred⟩ := (Program.load_draws hshared hi).ok hx
  obtain ⟨-, -, -, hentries⟩ := (p.load_sound hi).ok hx
  obtain ⟨d, hd, rfl⟩ := hentries id hentry
  obtain ⟨name, hname, -, hred⟩ := hred _ hentry
  refine ⟨mem_append_right _ (mem_map_of_mem hd), fun x => False ∨ U x, σ, name,
    ⟨⟨hintact.closed, hintact.free, fun x hx => ?_⟩, fun x hx => hshows x (hx.resolve_left id)⟩,
    hname, hred⟩
  obtain ⟨d', hd', rfl⟩ : ∃ d' ∈ l.defs, d'.2 = x := by simpa [roots, new] using hx
  exact Or.inr (hdefs d' hd')

end GraphReduction
