import GraphReduction.Image.Flatten
import GraphReduction.Proofs.Image.Canonical

/-!
# Flattened programs

A program whose names are defined becomes an image, and the image is one whose references are in
order. Every record is that of a node, so there are no more records than nodes.
-/

namespace GraphReduction

open List

variable {t : Term} {x : Atom}

/-- A term and the terms inside it. -/
def Term.subterms : Term → List Term
  | .leaf label x => [.leaf label x]
  | .app label f a => .app label f a :: (f.subterms ++ a.subterms)

theorem Term.self_mem_subterms (t : Term) : t ∈ t.subterms := by
  cases t <;> simp [subterms]

theorem Term.sizeOf_le_of_mem_subterms {s : Term} (h : s ∈ t.subterms) : sizeOf s ≤ sizeOf t := by
  induction t with
  | leaf label x =>
    rw [mem_singleton.1 h]
  | app label f a ihf iha =>
    simp only [subterms, mem_cons, mem_append] at h
    simp only [app.sizeOf_spec]
    rcases h with rfl | h | h
    · simp only [app.sizeOf_spec]
      omega
    · have := ihf h
      omega
    · have := iha h
      omega

namespace Program

def names (p : Program) : List Name := p.defs.map (·.name)

/-- The nodes of the bodies. -/
def nodes (p : Program) : List Term := p.defs.flatMap (·.body.subterms)

/-- The number of distinct nodes of the bodies. -/
def nodeCount (p : Program) : Nat := (p.nodes.map Term.label).toFinset.card

end Program

/-- A leaf stands for something: a name is defined, and no variable is left. The text of a literal
is addressable. -/
def Atom.StandsIn (names : List Name) : Atom → Prop
  | .global name => name ∈ names
  | .var _ => False
  | .lit l => (Record.lit l).TextFits
  | _ => True

/-- A leaf is no variable, and a name is defined. -/
def Atom.Closed (names : List Name) : Atom → Prop
  | .global name => name ∈ names
  | .var _ => False
  | _ => True

theorem Atom.StandsIn.closed {names : List Name} (h : x.StandsIn names) : x.Closed names := by
  cases x <;> first | exact h | trivial

/-- **A program that may be flattened**: names are defined once and only defined names are used.
Nodes may be shared between and inside bodies, so equal labels are those of one node. -/
structure Program.WellFormed (p : Program) : Prop where
  shared : ∀ s ∈ p.nodes, ∀ t ∈ p.nodes, s.label = t.label → s = t
  nodup : p.names.Nodup
  stands : ∀ label x, Term.leaf label x ∈ p.nodes → x.StandsIn p.names
  entry : ∀ name, p.entry = some name → name ∈ p.names
  nodeCount_lt : p.nodeCount < UInt32.size
  -- positions in the definition table have 32 bits as well
  defs_lt : p.defs.length < UInt32.size
  addressable : ∀ name ∈ p.names, Addressable name

namespace Flattening

open Fallible

variable {name : Name} {label : Nat} {U : List Term} {new : Record} {globals : Std.HashMap Nat Nat}
  {prims : List Primitive}

/-!
## What flattening can do
-/

theorem lastIndex?_eq_none {names : List Name} : lastIndex? name names = none ↔ name ∉ names := by
  induction names with
  | nil => simp [lastIndex?]
  | cons x xs ih =>
    unfold lastIndex?
    cases hl : lastIndex? name xs with
    | some i =>
      have hmem : name ∈ xs := by
        by_contra hnot
        rw [ih.2 hnot] at hl
        cases hl
      simp [hmem]
    | none =>
      have hnot := ih.1 hl
      by_cases hx : x = name
      · simp [hx]
      · simp [hx, hnot, Ne.symm hx]

theorem getElem?_of_lastIndex? {names : List Name} {i : Nat} (h : lastIndex? name names = some i) :
    names[i]? = some name := by
  induction names generalizing i with
  | nil => cases h
  | cons x xs ih =>
    unfold lastIndex? at h
    split at h
    · rename_i j hj
      cases h
      rw [getElem?_cons_succ]
      exact ih hj
    · split at h
      · rename_i hx
        cases h
        rw [getElem?_cons_zero, hx]
      · cases h

variable {names : List Name} {s s' : Flattening} {r : Nat}

theorem getElem?_insert_cases {table : Std.HashMap Nat Nat} {k v i : Nat}
    (h : (table.insert k v)[i]? = some r) : k = i ∧ v = r ∨ table[i]? = some r := by
  rw [Std.HashMap.getElem?_insert] at h
  split at h
  · rename_i heq
    exact .inl ⟨eq_of_beq heq, Option.some.inj h⟩
  · exact .inr h

theorem getElem?_insert_of_ne {table : Std.HashMap Nat Nat} {k v i : Nat} (hne : k ≠ i) :
    (table.insert k v)[i]? = table[i]? := by
  rw [Std.HashMap.getElem?_insert, if_neg (by simpa using hne)]

/-- A primitive has a place in the table of names, which grows at its end. -/
theorem primIndex_cases {p : Primitive} {i : Nat} (h : primIndex p s = .ok (i, s')) :
    ∃ ps, s' = { s with prims := ps } ∧ s.prims <+: ps ∧ ps.length ≤ s.prims.length + 1 ∧
      ps[i]? = some p := by
  unfold primIndex at h
  split at h
  · rename_i j hj
    cases h
    obtain ⟨hlt, heq, -⟩ := findIdx?_eq_some_iff_getElem.1 hj
    refine ⟨s.prims, rfl, prefix_refl _, Nat.le_succ _, ?_⟩
    rw [getElem?_eq_getElem hlt, eq_of_beq heq]
  · cases h
    exact ⟨s.prims ++ [p], rfl, prefix_append _ _, by simp, by simp⟩

/-- What the record of a leaf adds: a record at the end, or nothing for a definition that has one
already. -/
inductive AtomStep (names : List Name) : Atom → Flattening → Nat → Flattening → Prop
  | comb (c : Combinator) (s : Flattening) :
    AtomStep names (.comb c) s s.records.size { s with records := s.records.push (.comb c) }
  | lit (l : Literal) (s : Flattening) :
    AtomStep names (.lit l) s s.records.size { s with records := s.records.push (.lit l) }
  | prim {p : Primitive} {s : Flattening} {ps : List Primitive} {i : Nat} :
    s.prims <+: ps → ps.length ≤ s.prims.length + 1 → ps[i]? = some p →
    AtomStep names (.prim p) s s.records.size
      { s with records := s.records.push (.prim i), prims := ps }
  | known {name : Name} {s : Flattening} {i r : Nat} :
    names[i]? = some name → s.globals[i]? = some r → AtomStep names (.global name) s r s
  | global {name : Name} {s : Flattening} {i : Nat} :
    names[i]? = some name → s.globals[i]? = none →
    AtomStep names (.global name) s s.records.size
      { s with
        records := s.records.push (.global i)
        globals := s.globals.insert i s.records.size }

/-- What flattening an atom can do, in one relation. -/
theorem atom_cases (h : atom names x s = .ok (r, s')) : AtomStep names x s r s' := by
  cases x with
  | comb c => cases h; exact .comb c s
  | lit l => cases h; exact .lit l s
  | prim p =>
    obtain ⟨i, s1, hi, h⟩ := bind_eq_ok.1 h
    obtain ⟨ps, rfl, hprefix, hlen, hp⟩ := primIndex_cases hi
    cases h
    exact .prim hprefix hlen hp
  | global name =>
    cases hi : lastIndex? name names with
    | none =>
      simp only [atom, hi] at h
      exact absurd h throw_ne_ok
    | some i =>
      have hname := getElem?_of_lastIndex? hi
      simp only [atom, hi, globalRecord] at h
      rw [bind_of_ok rfl] at h
      cases hg : s.globals[i]? with
      | some r' =>
        simp only [hg] at h
        cases h
        exact .known hname hg
      | none =>
        simp only [hg] at h
        cases h
        exact .global hname hg
  | var x => exact absurd h throw_ne_ok

/-- **Flattening a leaf**: its node has a record, or gets one. -/
theorem term_leaf_cases (h : term names (.leaf label x) s = .ok (r, s')) :
    (s.nodes[label]? = some r ∧ s' = s) ∨
      (s.nodes[label]? = none ∧ ∃ s1, AtomStep names x s r s1 ∧
        s' = { s1 with nodes := s1.nodes.insert label r }) := by
  unfold term at h
  rw [bind_of_ok rfl] at h
  cases hn : s.nodes[label]? with
  | some r' =>
    simp only [hn] at h
    cases h
    exact Or.inl ⟨rfl, rfl⟩
  | none =>
    simp only [hn] at h
    obtain ⟨r1, s1, hatom, h⟩ := bind_eq_ok.1 h
    cases h
    exact Or.inr ⟨rfl, s1, atom_cases hatom, rfl⟩

/-- **Flattening an application**: its node has a record, or gets one after its parts have. -/
theorem term_app_cases {f a : Term} (h : term names (.app label f a) s = .ok (r, s')) :
    (s.nodes[label]? = some r ∧ s' = s) ∨
      (s.nodes[label]? = none ∧ ∃ fn s1 arg s2, term names f s = .ok (fn, s1) ∧
        term names a s1 = .ok (arg, s2) ∧ r = s2.records.size ∧
        s' = { s2 with
          records := s2.records.push (.app fn arg)
          nodes := s2.nodes.insert label r }) := by
  unfold term at h
  rw [bind_of_ok rfl] at h
  cases hn : s.nodes[label]? with
  | some r' =>
    simp only [hn] at h
    cases h
    exact Or.inl ⟨rfl, rfl⟩
  | none =>
    simp only [hn] at h
    obtain ⟨fn, s1, hf, h⟩ := bind_eq_ok.1 h
    obtain ⟨arg, s2, ha, h⟩ := bind_eq_ok.1 h
    cases h
    exact Or.inr ⟨rfl, fn, s1, arg, s2, hf, ha, rfl, rfl⟩

theorem exists_atom (hx : x.Closed names) (s : Flattening) :
    ∃ r s', atom names x s = .ok (r, s') := by
  cases x with
  | comb _ | lit _ => exact ⟨_, _, rfl⟩
  | prim p =>
    obtain ⟨i, s1, hi⟩ : ∃ i s1, primIndex p s = .ok (i, s1) := by
      unfold primIndex
      split
      · exact ⟨_, _, rfl⟩
      · exact ⟨_, _, rfl⟩
    exact ⟨_, _, (bind_of_ok hi).trans rfl⟩
  | global name =>
    obtain ⟨i, hi⟩ : ∃ i, lastIndex? name names = some i := by
      rw [← Option.ne_none_iff_exists']
      intro hnone
      exact lastIndex?_eq_none.1 hnone hx
    simp only [atom, hi]
    unfold globalRecord
    rw [bind_of_ok rfl]
    cases s.globals[i]? with
    | some _ | none => exact ⟨_, _, rfl⟩
  | var x => exact hx.elim

theorem exists_term (t : Term) (ht : ∀ label x, Term.leaf label x ∈ t.subterms → x.Closed names)
    (s : Flattening) : ∃ r s', term names t s = .ok (r, s') := by
  induction t generalizing s with
  | leaf label x =>
    obtain ⟨r, s1, hatom⟩ := exists_atom (ht label x (Term.self_mem_subterms _)) s
    unfold term
    rw [bind_of_ok rfl]
    cases s.nodes[label]? with
    | some r' => exact ⟨_, _, rfl⟩
    | none => exact ⟨_, _, (bind_of_ok hatom).trans rfl⟩
  | app label f a ihf iha =>
    obtain ⟨fn, s1, hf⟩ := ihf (fun l x hx => ht l x (by simp [Term.subterms, hx])) s
    obtain ⟨arg, s2, ha⟩ := iha (fun l x hx => ht l x (by simp [Term.subterms, hx])) s1
    unfold term
    rw [bind_of_ok rfl]
    cases s.nodes[label]? with
    | some r' => exact ⟨_, _, rfl⟩
    | none => exact ⟨_, _, (bind_of_ok hf).trans ((bind_of_ok ha).trans rfl)⟩

theorem nodes_of_term {l : Nat} (h : term names t s = .ok (r, s'))
    (hl : l ∉ t.subterms.map Term.label) : s'.nodes[l]? = s.nodes[l]? := by
  induction t generalizing s s' r with
  | leaf label x =>
    have hne : label ≠ l := by
      rintro rfl
      exact hl (by simp [Term.subterms, Term.label])
    rcases term_leaf_cases h with ⟨-, rfl⟩ | ⟨-, s1, hstep, rfl⟩
    · rfl
    · have hatom : s1.nodes = s.nodes := by cases hstep <;> rfl
      rw [getElem?_insert_of_ne hne, hatom]
  | app label f a ihf iha =>
    simp only [Term.subterms, map_cons, map_append, mem_cons, mem_append,
      not_or, Term.label] at hl
    rcases term_app_cases h with ⟨-, rfl⟩ | ⟨-, fn, s1, arg, s2, hf, ha, rfl, rfl⟩
    · rfl
    · rw [getElem?_insert_of_ne (Ne.symm hl.1), iha ha hl.2.2, ihf hf hl.2.1]

/-!
## What is known of the records
-/

/-- The references of the records made so far, in a program with `n` definitions. -/
structure Ordered (n : Nat) (s : Flattening) : Prop where
  refersBack : ∀ (i : Nat) (r : Record), s.records[i]? = some r → r.RefersBack i
  inTables : ∀ r ∈ s.records, r.InTables s.prims.length n
  globals_lt : ∀ i r : Nat, s.globals[i]? = some r → r < s.records.size
  nodes_lt : ∀ label r : Nat, s.nodes[label]? = some r → r < s.records.size

/-- The records made so far from nodes of `U`, each of which has one label. -/
structure Good (U : List Term) (n : Nat) (s : Flattening) : Prop extends Ordered n s where
  textFits : ∀ r ∈ s.records, r.TextFits
  prims_le : s.prims.length ≤ s.records.size
  label_mem : ∀ label r : Nat, s.nodes[label]? = some r → label ∈ U.map Term.label
  /-- Every record is that of a node. -/
  covered : ∀ r < s.records.size, ∃ label : Nat, s.nodes[label]? = some r

theorem Ordered.empty (n : Nat) : Ordered n .empty := by
  constructor <;> simp [Flattening.empty]

theorem Good.empty (U : List Term) (n : Nat) : Good U n .empty := by
  refine ⟨.empty n, ?_, ?_, ?_, ?_⟩ <;> simp [Flattening.empty]

section Ordered

variable {label : Nat}

section

variable (hs : Ordered names.length s)
include hs

theorem Ordered.remember (hr : r < s.records.size) :
    Ordered names.length { s with nodes := s.nodes.insert label r } := by
  refine ⟨hs.refersBack, hs.inTables, hs.globals_lt, ?_⟩
  intro l r' hl
  rcases getElem?_insert_cases hl with ⟨-, rfl⟩ | hl
  · exact hr
  · exact hs.nodes_lt l r' hl

/-- A record that refers back is pushed without breaking the order. -/
theorem Ordered.push (hback : new.RefersBack s.records.size)
    (htables : new.InTables prims.length names.length) (hprims : s.prims <+: prims)
    (hglobals : ∀ i r : Nat, globals[i]? = some r → r < s.records.size + 1) :
    Ordered names.length
      { records := s.records.push new, nodes := s.nodes.insert label s.records.size, globals,
        prims } := by
  have hold : ∀ r ∈ s.records, r.InTables prims.length names.length := by
    intro r hr
    have hin := hs.inTables r hr
    cases r with
    | prim i => exact lt_of_lt_of_le hin hprims.length_le
    | _ => exact hin
  refine ⟨?_, ?_, ?_, ?_⟩
  · intro i r hr
    rw [Array.getElem?_push] at hr
    split at hr
    · rename_i heq
      cases hr
      rw [heq]
      exact hback
    · exact hs.refersBack i r hr
  · intro r hr
    rcases Array.mem_push.1 hr with hr | rfl
    · exact hold r hr
    · exact htables
  · simpa using hglobals
  · intro l r hl
    rw [Array.size_push]
    rcases getElem?_insert_cases hl with ⟨-, rfl⟩ | hl
    · exact Nat.lt_succ_self _
    · exact Nat.lt_succ_of_lt (hs.nodes_lt l r hl)

theorem Ordered.globals_succ (i r : Nat)
    (hi : s.globals[i]? = some r) : r < s.records.size + 1 := Nat.lt_succ_of_lt (hs.globals_lt i r hi)

theorem Ordered.globals_insert (i j r : Nat)
    (hj : (s.globals.insert i s.records.size)[j]? = some r) : r < s.records.size + 1 := by
  rcases getElem?_insert_cases hj with ⟨-, rfl⟩ | hj
  · exact Nat.lt_succ_self _
  · exact hs.globals_succ j r hj

theorem Ordered.atom {x : Atom} {s1 : Flattening}
    (h : AtomStep names x s r s1) :
    Ordered names.length { s1 with nodes := s1.nodes.insert label r } ∧ r < s1.records.size ∧
      s.records.size ≤ s1.records.size := by
  have hself := prefix_refl s.prims
  cases h with
  | comb _ | lit _ => exact ⟨hs.push trivial trivial hself hs.globals_succ, by simp, by simp⟩
  | prim hprims hlen hp =>
    have hi := (List.getElem?_eq_some_iff.1 hp).1
    exact ⟨hs.push trivial hi hprims hs.globals_succ, by simp, by simp⟩
  | known hname hg =>
    have hr := hs.globals_lt _ _ hg
    exact ⟨hs.remember hr, hr, Nat.le_refl _⟩
  | @global name s i hname hg =>
    have hi := (List.getElem?_eq_some_iff.1 hname).1
    exact ⟨hs.push trivial hi hself (hs.globals_insert i), by simp, by simp⟩

/-- **A term keeps the references in order**, and its own record is one of them. -/
theorem Ordered.term (h : Flattening.term names t s = .ok (r, s')) :
    Ordered names.length s' ∧ r < s'.records.size ∧ s.records.size ≤ s'.records.size := by
  induction t generalizing s s' r with
  | leaf label x =>
    rcases term_leaf_cases h with ⟨hn, rfl⟩ | ⟨hn, s1, hstep, rfl⟩
    · exact ⟨hs, hs.nodes_lt _ _ hn, Nat.le_refl _⟩
    · exact hs.atom hstep
  | app label f a ihf iha =>
    rcases term_app_cases h with ⟨hn, rfl⟩ | ⟨hn, fn, s1, arg, s2, hf, ha, rfl, rfl⟩
    · exact ⟨hs, hs.nodes_lt _ _ hn, Nat.le_refl _⟩
    · obtain ⟨hs1, hfn, hle1⟩ := ihf hs hf
      obtain ⟨hs2, harg, hle2⟩ := iha hs1 ha
      refine ⟨hs2.push ⟨by omega, harg⟩ trivial (prefix_refl _) hs2.globals_succ, ?_, ?_⟩
      · simp
      · simp only [Array.size_push]
        omega

end

end Ordered

section Good

variable {U : List Term} {label : Nat}

theorem Good.label_mem_insert (hs : Good U names.length s) (hlabel : label ∈ U.map Term.label)
    (l r' : Nat) (hl : (s.nodes.insert label r)[l]? = some r') : l ∈ U.map Term.label := by
  rcases getElem?_insert_cases hl with ⟨rfl, -⟩ | hl
  · exact hlabel
  · exact hs.label_mem l r' hl

theorem Good.covered_insert (hs : Good U names.length s) (hnone : s.nodes[label]? = none) (r' : Nat)
    (hr' : r' < s.records.size) : ∃ l : Nat, (s.nodes.insert label r)[l]? = some r' := by
  obtain ⟨l, hl⟩ := hs.covered r' hr'
  have hne : label ≠ l := by
    rintro rfl
    rw [hnone] at hl
    cases hl
  exact ⟨l, (getElem?_insert_of_ne hne).trans hl⟩

theorem Good.remember (hs : Good U names.length s) (hr : r < s.records.size)
    (hlabel : label ∈ U.map Term.label) (hnone : s.nodes[label]? = none) :
    Good U names.length { s with nodes := s.nodes.insert label r } :=
  ⟨hs.toOrdered.remember hr, hs.textFits, hs.prims_le, hs.label_mem_insert hlabel,
    hs.covered_insert hnone⟩

theorem Good.push (hs : Good U names.length s) (hlabel : label ∈ U.map Term.label)
    (hnone : s.nodes[label]? = none) (hback : new.RefersBack s.records.size)
    (htables : new.InTables prims.length names.length) (hfits : new.TextFits)
    (hprims : s.prims <+: prims) (hlen : prims.length ≤ s.prims.length + 1)
    (hglobals : ∀ i r : Nat, globals[i]? = some r → r < s.records.size + 1) :
    Good U names.length
      { records := s.records.push new, nodes := s.nodes.insert label s.records.size, globals,
        prims } := by
  refine ⟨hs.toOrdered.push hback htables hprims hglobals, ?_, ?_, hs.label_mem_insert hlabel, ?_⟩
  · intro r hr
    rcases Array.mem_push.1 hr with hr | rfl
    · exact hs.textFits r hr
    · exact hfits
  · have hle := hs.prims_le
    simp only [Array.size_push]
    omega
  · intro r hr
    rw [Array.size_push] at hr
    rcases Nat.lt_succ_iff_lt_or_eq.1 hr with hr | rfl
    · exact hs.covered_insert hnone r hr
    · exact ⟨label, Std.HashMap.getElem?_insert_self⟩

theorem Good.atom {x : Atom} {s1 : Flattening} (hs : Good U names.length s)
    (hx : x.StandsIn names) (hlabel : label ∈ U.map Term.label) (hnone : s.nodes[label]? = none)
    (h : AtomStep names x s r s1) :
    Good U names.length { s1 with nodes := s1.nodes.insert label r } := by
  have hgrow := hs.globals_succ
  have hself := prefix_refl s.prims
  cases h with
  | comb c => exact hs.push hlabel hnone trivial trivial trivial hself (Nat.le_succ _) hgrow
  | lit l => exact hs.push hlabel hnone trivial trivial hx hself (Nat.le_succ _) hgrow
  | prim hprims hlen hp =>
    have hi := (List.getElem?_eq_some_iff.1 hp).1
    exact hs.push hlabel hnone trivial hi trivial hprims hlen hgrow
  | known hname hg => exact hs.remember (hs.globals_lt _ _ hg) hlabel hnone
  | @global name s i hname hg =>
    have hi := (List.getElem?_eq_some_iff.1 hname).1
    exact hs.push hlabel hnone trivial hi trivial hself (Nat.le_succ _) (hs.globals_insert i)

theorem label_notMem {f a : Term} (hU : ∀ s ∈ U, ∀ t ∈ U, s.label = t.label → s = t)
    (happ : .app label f a ∈ U) (hsub : t.subterms ⊆ U)
    (hlt : sizeOf t < sizeOf (Term.app label f a)) : label ∉ t.subterms.map Term.label := by
  intro hmem
  obtain ⟨u, hu, hlabel⟩ := mem_map.1 hmem
  have heq : u = .app label f a := hU u (hsub hu) _ happ hlabel
  have hle := Term.sizeOf_le_of_mem_subterms hu
  rw [heq] at hle
  omega

/-- Flattening a term keeps the records in order, one for each label met. -/
theorem Good.term (hs : Good U names.length s) (hsub : t.subterms ⊆ U)
    (hshared : ∀ s ∈ U, ∀ t ∈ U, s.label = t.label → s = t)
    (hstands : ∀ label x, Term.leaf label x ∈ U → x.StandsIn names)
    (h : Flattening.term names t s = .ok (r, s')) : Good U names.length s' := by
  have hself := hsub t.self_mem_subterms
  have hlabel : t.label ∈ U.map Term.label := mem_map_of_mem hself
  induction t generalizing s s' r with
  | leaf label x =>
    rcases term_leaf_cases h with ⟨-, rfl⟩ | ⟨hn, s1, hstep, rfl⟩
    · exact hs
    · exact hs.atom (hstands label x hself) hlabel hn hstep
  | app label f a ihf iha =>
    rcases term_app_cases h with ⟨-, rfl⟩ | ⟨hn, fn, s1, arg, s2, hf, ha, rfl, rfl⟩
    · exact hs
    · have hsubf : f.subterms ⊆ U := fun u hu => hsub (by simp [Term.subterms, hu])
      have hsuba : a.subterms ⊆ U := fun u hu => hsub (by simp [Term.subterms, hu])
      have hs1 := ihf hs hsubf hf (hsubf f.self_mem_subterms)
        (mem_map_of_mem (hsubf f.self_mem_subterms))
      have hs2 := iha hs1 hsuba ha (hsuba a.self_mem_subterms)
        (mem_map_of_mem (hsuba a.self_mem_subterms))
      obtain ⟨-, hfn, -⟩ := hs.toOrdered.term hf
      obtain ⟨-, harg, hle⟩ := hs1.toOrdered.term ha
      -- the node has no record yet, because it is not inside its own parts
      have hn2 : s2.nodes[label]? = none := by
        rw [nodes_of_term ha (label_notMem hshared hself hsuba (by simp only [Term.app.sizeOf_spec]; omega)),
          nodes_of_term hf (label_notMem hshared hself hsubf (by simp only [Term.app.sizeOf_spec]; omega)), hn]
      exact hs2.push hlabel hn2 ⟨by omega, harg⟩ trivial trivial (prefix_refl _) (Nat.le_succ _)
        hs2.globals_succ

end Good

section Definitions

variable {d : Definition} {ds : List Definition} {es : List DefEntry}

theorem definitions_cons_cases (h : (d :: ds).mapM (definition names) s = .ok (es, s')) :
    ∃ root s1 rest, term names d.body s = .ok (root, s1) ∧
      ds.mapM (definition names) s1 = .ok (rest, s') ∧
      es = ⟨d.name, UInt32.ofNat d.arity, root⟩ :: rest := by
  rw [mapM_cons] at h
  obtain ⟨e, s1, he, h⟩ := bind_eq_ok.1 h
  obtain ⟨root, s2, hroot, he⟩ := bind_eq_ok.1 he
  obtain ⟨rest, s3, hrest, h⟩ := bind_eq_ok.1 h
  cases he
  cases h
  exact ⟨root, s1, rest, hroot, hrest, rfl⟩

theorem exists_definitions (ds : List Definition)
    (hds : ∀ d ∈ ds, ∀ label x, Term.leaf label x ∈ d.body.subterms → x.Closed names)
    (s : Flattening) : ∃ es s', ds.mapM (definition names) s = .ok (es, s') := by
  induction ds generalizing s with
  | nil => exact ⟨[], s, rfl⟩
  | cons d ds ih =>
    obtain ⟨root, s1, hroot⟩ := exists_term d.body (hds d mem_cons_self) s
    obtain ⟨rest, s2, hrest⟩ := ih (fun d hd => hds d (mem_cons_of_mem _ hd)) s1
    have hd : definition names d s = .ok (⟨d.name, UInt32.ofNat d.arity, root⟩, s1) :=
      (bind_of_ok hroot).trans rfl
    refine ⟨⟨d.name, UInt32.ofNat d.arity, root⟩ :: rest, s2, ?_⟩
    rw [mapM_cons, bind_of_ok hd, bind_of_ok hrest]
    rfl

theorem names_of_definitions (h : ds.mapM (definition names) s = .ok (es, s')) :
    es.map (·.name) = ds.map (·.name) := by
  induction ds generalizing s es with
  | nil => cases h; rfl
  | cons d ds ih =>
    obtain ⟨root, s1, rest, -, hrest, rfl⟩ := definitions_cons_cases h
    rw [map_cons, map_cons, ih hrest]

theorem Ordered.definitions (hs : Ordered names.length s)
    (h : ds.mapM (definition names) s = .ok (es, s')) :
    Ordered names.length s' ∧ (∀ e ∈ es, e.root < s'.records.size) ∧
      s.records.size ≤ s'.records.size := by
  induction ds generalizing s es with
  | nil =>
    cases h
    exact ⟨hs, by simp, Nat.le_refl _⟩
  | cons d ds ih =>
    obtain ⟨root, s1, rest, hroot, hrest, rfl⟩ := definitions_cons_cases h
    obtain ⟨hs1, hlt, hle⟩ := hs.term hroot
    obtain ⟨hs2, hlts, hle'⟩ := ih hs1 hrest
    refine ⟨hs2, ?_, by omega⟩
    intro e he
    rcases mem_cons.1 he with rfl | he
    · show root < s'.records.size
      omega
    · exact hlts e he

theorem Good.definitions (hs : Good U names.length s) (hsub : ∀ d ∈ ds, d.body.subterms ⊆ U)
    (hshared : ∀ s ∈ U, ∀ t ∈ U, s.label = t.label → s = t)
    (hstands : ∀ label x, Term.leaf label x ∈ U → x.StandsIn names)
    (h : ds.mapM (definition names) s = .ok (es, s')) : Good U names.length s' := by
  induction ds generalizing s es with
  | nil =>
    cases h
    exact hs
  | cons d ds ih =>
    obtain ⟨root, s1, rest, hroot, hrest, rfl⟩ := definitions_cons_cases h
    exact ih (hs.term (hsub d mem_cons_self) hshared hstands hroot)
      (fun d hd => hsub d (mem_cons_of_mem _ hd)) hrest

end Definitions

theorem Good.size_le {n : Nat} (hs : Good U n s) :
    s.records.size ≤ (U.map Term.label).toFinset.card := by
  choose label hlabel using hs.covered
  let f : Fin s.records.size → Nat := fun r => label r r.isLt
  have hf : Function.Injective f := by
    intro r r' heq
    have hr := hlabel r r.isLt
    have hr' := hlabel r' r'.isLt
    rw [show label r r.isLt = label r' r'.isLt from heq, hr'] at hr
    exact Fin.ext (Option.some.inj hr).symm
  calc s.records.size = (Finset.univ.image f).card := by
        rw [Finset.card_image_of_injective _ hf, Finset.card_univ, Fintype.card_fin]
    _ ≤ (U.map Term.label).toFinset.card := by
        refine Finset.card_le_card fun l hl => ?_
        obtain ⟨r, -, rfl⟩ := Finset.mem_image.1 hl
        exact mem_toFinset.2 (hs.label_mem _ _ (hlabel r r.isLt))

end Flattening

/-!
## The image
-/

theorem Primitive.addressable_name (p : Primitive) : Addressable p.name := by
  cases p <;> decide

namespace Program

open Flattening Fallible

variable {p : Program} {image : Image}

/-- **A program that has an image**: no variable is left in it, and every name is defined. -/
structure Closed (p : Program) : Prop where
  leaves : ∀ label x, Term.leaf label x ∈ p.nodes → x.Closed p.names
  entry : ∀ name, p.entry = some name → name ∈ p.names

theorem WellFormed.closed (h : p.WellFormed) : p.Closed :=
  ⟨fun label x hx => (h.stands label x hx).closed, h.entry⟩

theorem subterms_subset {d : Definition} (hd : d ∈ p.defs) : d.body.subterms ⊆ p.nodes :=
  fun _ ht => mem_flatMap.2 ⟨d, hd, ht⟩

/-- An image is the flattened definitions, with their tables. -/
theorem toImage_cases (h : p.toImage = .ok image) : ∃ defs s,
    p.defs.mapM (definition p.names) .empty = .ok (defs, s) ∧
      image = ⟨s.records.toList, defs, s.prims.map (·.name),
        p.entry.bind fun name => lastIndex? name p.names⟩ := by
  unfold toImage at h
  change (Except.bind (p.defs.mapM (definition p.names) .empty) _) = _ at h
  cases hdefs : p.defs.mapM (definition p.names) .empty with
  | error e =>
    rw [hdefs] at h
    cases h
  | ok r =>
    rw [hdefs] at h
    refine ⟨r.1, r.2, rfl, ?_⟩
    cases he : p.entry with
    | none =>
      simp only [Except.bind, he] at h
      cases h
      rfl
    | some name =>
      simp only [Except.bind, he] at h
      cases hi : lastIndex? name (p.defs.map (·.name)) with
      | none =>
        rw [hi] at h
        cases h
      | some i =>
        rw [hi] at h
        cases h
        rw [← hi]
        rfl

theorem Closed.exists_toImage (h : p.Closed) : ∃ defs s,
    p.defs.mapM (definition p.names) .empty = .ok (defs, s) ∧
      p.toImage = .ok ⟨s.records.toList, defs, s.prims.map (·.name),
        p.entry.bind fun name => lastIndex? name p.names⟩ := by
  obtain ⟨defs, s, hdefs⟩ : ∃ defs s, p.defs.mapM (definition p.names) .empty = .ok (defs, s) :=
    exists_definitions p.defs (fun d hd label x hx => h.leaves label x (subterms_subset hd hx)) .empty
  refine ⟨defs, s, hdefs, ?_⟩
  unfold toImage
  show (Except.bind (p.defs.mapM (definition p.names) .empty) _) = _
  rw [hdefs]
  cases he : p.entry with
  | none => rfl
  | some name =>
    obtain ⟨i, hi⟩ : ∃ i, lastIndex? name p.names = some i := by
      rw [← Option.ne_none_iff_exists']
      intro hnone
      exact lastIndex?_eq_none.1 hnone (h.entry name he)
    have hi' : lastIndex? name (p.defs.map (·.name)) = some i := hi
    simp only [Except.bind, hi', Option.bind_some, hi]
    rfl

theorem length_of_definitions {defs : List DefEntry} {s s' : Flattening}
    (h : p.defs.mapM (definition p.names) s = .ok (defs, s')) : defs.length = p.names.length := by
  rw [← length_map (f := fun d : DefEntry => d.name), names_of_definitions h]
  rfl

/-- **The references of every image of a program are in order.** -/
theorem inOrder_of_toImage (himage : p.toImage = .ok image) : image.InOrder := by
  obtain ⟨defs, s, hdefs, rfl⟩ := toImage_cases himage
  obtain ⟨hs, hroots, -⟩ := (Ordered.empty p.names.length).definitions hdefs
  have hlen := length_of_definitions hdefs
  refine ⟨?_, ?_, ?_, ?_⟩
  · intro i r hr
    exact hs.refersBack i r (by rw [← Array.getElem?_toList]; exact hr)
  · intro r hr
    simp only [length_map, hlen]
    exact hs.inTables r (Array.mem_def.2 hr)
  · simpa using hroots
  · intro e he
    obtain ⟨name, -, hlast⟩ := Option.bind_eq_some_iff.1 he
    show e < defs.length
    rw [hlen]
    exact (List.getElem?_eq_some_iff.1 (getElem?_of_lastIndex? hlast)).1

theorem WellFormed.toImage_wellFormed (h : p.WellFormed) (himage : p.toImage = .ok image) :
    image.WellFormed := by
  have horder := inOrder_of_toImage himage
  obtain ⟨defs, s, hdefs, rfl⟩ := toImage_cases himage
  have hs := (Good.empty p.nodes p.names.length).definitions
    (fun d hd => subterms_subset hd) h.shared h.stands hdefs
  have hlen := length_of_definitions hdefs
  have hsize := hs.size_le
  have hcount := h.nodeCount_lt
  unfold nodeCount at hcount
  have hdefsLt := h.defs_lt
  have hdefsLen : p.names.length = p.defs.length := length_map _
  refine ⟨?_, ?_, ?_, horder.refersBack, horder.inTables, horder.roots, horder.entry, ?_, ?_, ?_⟩
  · simp only [Array.length_toList]
    omega
  · show defs.length < UInt32.size
    omega
  · have hle := hs.prims_le
    simp only [length_map]
    omega
  · exact fun r hr => hs.textFits r (Array.mem_def.2 hr)
  · intro d hd
    refine h.addressable d.name ?_
    show d.name ∈ p.defs.map (·.name)
    rw [← names_of_definitions hdefs]
    exact mem_map_of_mem hd
  · intro name hname
    obtain ⟨q, -, rfl⟩ := mem_map.1 hname
    exact q.addressable_name

end Program

end GraphReduction
