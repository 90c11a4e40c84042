import GraphReduction.Proofs.Compile.Scope

/-!
# Labels of compiled programs

A compilation takes every label once, for one node. Abstraction leaves nodes as they are or makes new
ones, and a default that stands in several slots is one node in all of them, so two nodes of a program
that have the same label are the same. This is what the loader relies on when it gives them one cell.
-/

namespace GraphReduction

open List

variable {slots : List (Option Term)}

/-- The nodes made so far, by label, and the first label that none of them has. -/
structure Ledger where
  next : Nat
  node : Nat → Term

namespace Ledger

variable {α β : Type} {l l' l'' : Ledger} {s t f a e : Term} {other : Option Term} {xs : List α}

/-- More nodes have been made. -/
structure Grows (l l' : Ledger) : Prop where
  next_le : l.next ≤ l'.next
  same : ∀ k < l.next, l'.node k = l.node k

theorem Grows.refl (l : Ledger) : l.Grows l := ⟨Nat.le_refl _, fun _ _ => rfl⟩

theorem Grows.trans (h : l.Grows l') (h' : l'.Grows l'') : l.Grows l'' :=
  ⟨Nat.le_trans h.next_le h'.next_le, fun k hk =>
    (h'.same k (Nat.lt_of_lt_of_le hk h.next_le)).trans (h.same k hk)⟩

/-- Every node of a term is in the ledger. -/
def Has (l : Ledger) (t : Term) : Prop := ∀ s ∈ t.subterms, s.label < l.next ∧ l.node s.label = s

namespace Has

theorem grow (h : l.Has t) (hl : l.Grows l') : l'.Has t := by
  intro s hs
  obtain ⟨hlt, hnode⟩ := h s hs
  exact ⟨Nat.lt_of_lt_of_le hlt hl.next_le, (hl.same _ hlt).trans hnode⟩

theorem fn {n : Nat} (h : l.Has (.app n f a)) : l.Has f := fun s hs =>
  h s (mem_cons_of_mem _ (mem_append_left _ hs))

theorem arg {n : Nat} (h : l.Has (.app n f a)) : l.Has a := fun s hs =>
  h s (mem_cons_of_mem _ (mem_append_right _ hs))

theorem compositionParts (h : l.Has t) {p q : Term} (hpq : t.compositionParts? = some (p, q)) :
    l.Has p ∧ l.Has q := by
  unfold Term.compositionParts? at hpq
  split at hpq
  · cases hpq
    exact ⟨h.fn.arg, h.arg⟩
  · cases hpq

end Has

/-- The ledger with one more node. -/
def enter (l : Ledger) (t : Term) : Ledger := ⟨l.next + 1, Function.update l.node l.next t⟩

theorem grows_enter (l : Ledger) (t : Term) : l.Grows (l.enter t) := by
  refine ⟨Nat.le_succ _, fun k hk => ?_⟩
  show Function.update l.node l.next t k = _
  rw [Function.update_of_ne (Nat.ne_of_lt hk)]

theorem has_enter (hlabel : t.label = l.next)
    (h : ∀ s ∈ t.subterms, s = t ∨ ∃ u, l.Has u ∧ s ∈ u.subterms) : (l.enter t).Has t := by
  intro s hs
  rcases h s hs with rfl | ⟨u, hu, hsu⟩
  · rw [hlabel]
    exact ⟨Nat.lt_succ_self _, Function.update_self ..⟩
  · exact hu.grow (l.grows_enter t) s hsu

/-!
## Computations that take labels
-/

/-- A computation that enters the nodes it makes. -/
def Enters (l : Ledger) (x : Fresh α) (Q : Ledger → α → Prop) : Prop :=
  ∃ l', l.Grows l' ∧ (x l.next).2 = l'.next ∧ Q l' (x l.next).1

section Enters

variable {x : Fresh α} {g : α → Fresh β} {Q : Ledger → α → Prop} {R : Ledger → β → Prop}
  {args : List Term}

theorem Enters.pure {b : α} (h : Q l b) : l.Enters (Pure.pure b) Q := ⟨l, .refl l, rfl, h⟩

theorem Enters.bind (hx : l.Enters x Q) (hg : ∀ l' b, l.Grows l' → Q l' b → l'.Enters (g b) R) :
    l.Enters (x >>= g) R := by
  obtain ⟨l1, hl1, hnext, hq⟩ := hx
  obtain ⟨l2, hl2, hnext2, hr⟩ := hg l1 _ hl1 hq
  have hrun : (x >>= g) l.next = g (x l.next).1 l1.next := by
    rw [← hnext]
    rfl
  exact ⟨l2, hl1.trans hl2, by rw [hrun, hnext2], by rw [hrun]; exact hr⟩

theorem enters_newLeaf (y : Atom) : l.Enters (Term.newLeaf y) Has :=
  ⟨l.enter (.leaf l.next y), l.grows_enter _, rfl, has_enter rfl fun _ hs =>
    Or.inl (mem_singleton.1 hs)⟩

theorem enters_newApp (hf : l.Has f) (ha : l.Has a) : l.Enters (Term.newApp f a) Has := by
  refine ⟨l.enter (.app l.next f a), l.grows_enter _, rfl, has_enter rfl fun s hs => ?_⟩
  rcases mem_cons.1 hs with hs | hs
  · exact Or.inl hs
  · rcases mem_append.1 hs with hs | hs
    · exact Or.inr ⟨f, hf, hs⟩
    · exact Or.inr ⟨a, ha, hs⟩

theorem enters_newApps (hf : l.Has f) (hargs : ∀ a ∈ args, l.Has a) :
    l.Enters (f.newApps args) Has := by
  induction args generalizing l f with
  | nil => exact .pure hf
  | cons a args ih =>
    obtain ⟨ha, hargs⟩ := forall_mem_cons.1 hargs
    exact (enters_newApp hf ha).bind fun l' f' hl hf' => ih hf' fun b hb => (hargs b hb).grow hl

theorem enters_newComb (c : Combinator) (hargs : ∀ a ∈ args, l.Has a) :
    l.Enters (Term.newComb c args) Has :=
  (enters_newLeaf _).bind fun _ _ hl hhead => enters_newApps hhead fun b hb => (hargs b hb).grow hl

theorem enters_mapM {g : α → Fresh Term} (h : ∀ b ∈ xs, ∀ l', l.Grows l' → l'.Enters (g b) Has) :
    l.Enters (xs.mapM g) fun l' ts => ∀ t ∈ ts, l'.Has t := by
  induction xs generalizing l with
  | nil => exact .pure (forall_mem_nil _)
  | cons b xs ih =>
    obtain ⟨hb, hxs⟩ := forall_mem_cons.1 h
    rw [mapM_cons]
    refine (hb l (.refl l)).bind fun l1 t hl1 ht =>
      (ih fun c hc l' hl' => hxs c hc l' (hl1.trans hl')).bind fun l2 ts hl2 hts => .pure ?_
    exact forall_mem_cons.2 ⟨ht.grow hl2, hts⟩

end Enters

/-!
## Abstraction
-/

/-- Abstraction enters the nodes it makes. -/
theorem enters_abstractVar (x : Name) (h : l.Has e) :
    l.Enters (e.abstractVar x) fun l' r => l'.Has (r.getD e) := by
  have comb {l : Ledger} {e : Term} (c : Combinator) {args : List Term} (hargs : ∀ a ∈ args, l.Has a) :
      l.Enters (some <$> Term.newComb c args) fun l' r => l'.Has (r.getD e) := by
    rw [map_eq_pure_bind]
    exact (enters_newComb c hargs).bind fun l' t _ ht => .pure ht
  induction e generalizing l with
  | leaf n y =>
    cases y with
    | var y =>
      unfold Term.abstractVar
      split
      · exact comb .I (forall_mem_nil _)
      · exact .pure h
    | _ => exact .pure h
  | app n f a ihf iha =>
    refine (ihf h.fn).bind fun l1 rf hl1 hf => (iha (h.arg.grow hl1)).bind fun l2 ra hl2 ha => ?_
    replace hf := hf.grow hl2
    refine Term.abstractApp_cases (Q := fun y => l2.Enters y fun l' r => l'.Has (r.getD (.app n f a)))
      (fun _ _ _ ht => ht.compositionParts) hf ha (fun _ _ => .pure (h.grow (hl1.trans hl2)))
      (fun hrf _ => .pure ?_) fun c args _ _ hargs => comb c hargs
    rw [hrf] at hf
    exact hf

theorem enters_bracket (x : Name) (h : l.Has e) : l.Enters (e.bracket x) Has := by
  refine (enters_abstractVar x h).bind fun l' r hl hr => ?_
  cases r with
  | some t => exact .pure hr
  | none => exact enters_newComb .K (forall_mem_singleton.2 hr)

theorem enters_bracketAll (xs : List Name) (h : l.Has e) : l.Enters (e.bracketAll xs) Has := by
  induction xs with
  | nil => exact .pure h
  | cons x xs ih => exact ih.bind fun _ _ _ ht => enters_bracket x ht

/-!
## Case tables
-/

theorem enters_constantIn (k : Nat) (h : l.Has t) : l.Enters (Compile.constantIn t k) Has := by
  induction k generalizing l t with
  | zero => exact .pure h
  | succ k ih =>
    exact (enters_newComb .K (forall_mem_singleton.2 h)).bind fun _ _ _ ht => ih ht

theorem enters_slotTerm {slot : Option Term} (hother : ∀ d, other = some d → l.Has d)
    (hslot : ∀ t, slot = some t → l.Has t) (arity : UInt32) :
    l.Enters (Compile.slotTerm other arity slot) Has := by
  cases slot with
  | some t => exact .pure (hslot t rfl)
  | none =>
    cases other with
    | some d => exact enters_constantIn _ (hother d rfl)
    | none => exact enters_newLeaf _

theorem enters_assembleCase {scrut : Term} (hscrut : l.Has scrut)
    (hslots : ∀ t, some t ∈ slots → l.Has t) (hother : ∀ d, other = some d → l.Has d)
    (arities : List UInt32) : l.Enters (Compile.assembleCase scrut arities slots other) Has := by
  refine (enters_newComb _ (forall_mem_singleton.2 hscrut)).bind fun l1 head hl1 hhead =>
    (enters_mapM fun slot hmem l' hl' => ?_).bind fun l2 alts hl2 halts =>
      enters_newApps (hhead.grow hl2) halts
  refine enters_slotTerm (fun d hd => (hother d hd).grow (hl1.trans hl')) (fun t ht => ?_) slot.2
  refine (hslots t ?_).grow (hl1.trans hl')
  rw [← ht]
  exact (of_mem_zip hmem).1

/-!
## Steps of compilation
-/

/-- A step of compilation that enters the nodes it makes, if it does not fail. -/
def Records (l : Ledger) (x : CompileM α) (Q : Ledger → α → Prop) : Prop :=
  ∀ d b s, x ⟨l.next, d⟩ = (.ok b, s) → ∃ l', l.Grows l' ∧ s.nextLabel = l'.next ∧ Q l' b

namespace Records

variable {x : CompileM α} {g : α → CompileM β} {Q : Ledger → α → Prop} {R : Ledger → β → Prop}

theorem pure {b : α} (h : Q l b) : l.Records (Pure.pure b) Q := by
  intro d b' s hrun
  cases hrun
  exact ⟨l, .refl l, rfl, h⟩

theorem throw (e : CompileError) : l.Records (MonadExcept.throw e : CompileM α) Q := by
  intro d b s hrun
  cases hrun

theorem bind (hx : l.Records x Q) (hg : ∀ l' b, l.Grows l' → Q l' b → l'.Records (g b) R) :
    l.Records (x >>= g) R := by
  intro d c s hrun
  obtain ⟨b, s1, hrun1, hrun2⟩ := Compile.bind_eq_ok hrun
  obtain ⟨l1, hl1, hnext, hq⟩ := hx d b s1 hrun1
  have hs1 : s1 = ⟨l1.next, s1.defaults⟩ := by rw [← hnext]
  rw [hs1] at hrun2
  obtain ⟨l2, hl2, hnext2, hr2⟩ := hg l1 b hl1 hq s1.defaults c s hrun2
  exact ⟨l2, hl1.trans hl2, hnext2, hr2⟩

theorem labelling {x : Fresh α} (h : l.Enters x Q) : l.Records (Compile.labelling x) Q := by
  obtain ⟨l', hl, hnext, hq⟩ := h
  intro d b s hrun
  cases hrun
  exact ⟨l', hl, hnext, hq⟩

theorem mapM {P : Ledger → β → Prop} (hP : ∀ l l' b, l.Grows l' → P l b → P l' b)
    (h : ∀ b ∈ xs, ∀ l', l.Grows l' → l'.Records (g b) P) :
    l.Records (xs.mapM g) fun l' bs => ∀ b ∈ bs, P l' b := by
  induction xs generalizing l with
  | nil => exact .pure (forall_mem_nil _)
  | cons b xs ih =>
    obtain ⟨hb, hxs⟩ := forall_mem_cons.1 h
    rw [mapM_cons]
    refine (hb l (.refl l)).bind fun l1 c hl1 hc =>
      (ih fun b' hb' l' hl' => hxs b' hb' l' (hl1.trans hl')).bind fun l2 cs hl2 hcs => .pure ?_
    exact forall_mem_cons.2 ⟨hP _ _ _ hl2 hc, hcs⟩

end Records

end Ledger

/-!
## Expressions and programs
-/

namespace Compile

open Ledger

variable {l : Ledger} {ctx : Context}

theorem records_slotsOf {arities : List UInt32} {alts : List (Alt Core)}
    (halts : ∀ alt ∈ alts, ∀ l : Ledger, l.Records (expr ctx alt.body) Has)
    (hslots : ∀ t, some t ∈ slots → l.Has t) :
    l.Records (slotsOf ctx arities slots alts) fun l' slots' => ∀ t, some t ∈ slots' → l'.Has t := by
  induction alts generalizing l slots with
  | nil => exact .pure hslots
  | cons alt alts ih =>
    obtain ⟨halt, halts⟩ := forall_mem_cons.1 halts
    have hcheck : l.Records (ExceptT.mk (Pure.pure (checkAlt arities slots alt)) : CompileM Unit)
        fun _ _ => True := by
      intro d b s hrun
      obtain rfl : (⟨l.next, d⟩ : CompileState) = s := congrArg Prod.snd hrun
      exact ⟨l, .refl l, rfl, trivial⟩
    refine hcheck.bind fun l0 _ hl0 _ => (halt l0).bind fun l1 body hl1 hbody =>
      (Records.labelling (enters_bracketAll alt.binders hbody)).bind fun l2 t hl2 ht =>
        ih halts fun t' ht' => ?_
    rcases mem_or_eq_of_mem_set ht' with ht' | ht'
    · exact (hslots t' ht').grow ((hl0.trans hl1).trans hl2)
    · cases ht'
      exact ht

/-- Compilation enters the nodes it makes: by the shape of the term. -/
theorem records_expr (c : Core) (l : Ledger) : l.Records (expr ctx c) Has := by
  induction c generalizing l with
  | var x => exact .labelling (enters_newLeaf _)
  | global x =>
    unfold expr
    split
    · exact .labelling (enters_newLeaf _)
    · exact .throw _
  | lit k =>
    refine .labelling ((enters_newLeaf _).bind fun l1 t hl1 ht => ?_)
    cases k with
    | str text =>
      exact (enters_newLeaf _).bind fun l2 unpack hl2 hunpack =>
        enters_newApps hunpack (forall_mem_singleton.2 (ht.grow hl2))
    | _ => exact .pure ht
  | prim _ | comb _ | con _ _ => exact .labelling (enters_newLeaf _)
  | app f a ihf iha =>
    exact (ihf l).bind fun l1 f' _ hf' => (iha l1).bind fun l2 a' hl2 ha' =>
      .labelling (enters_newApp (hf'.grow hl2) ha')
  | lam x body ih => exact (ih l).bind fun l1 body' _ hbody => .labelling (enters_bracket x hbody)
  | letIn x rhs body ihr ihb =>
    exact (ihb l).bind fun l1 body' _ hbody =>
      (Records.labelling (enters_bracket x hbody)).bind fun l2 f _ hf =>
        (ihr l2).bind fun l3 rhs' hl3 hrhs => .labelling (enters_newApp (hf.grow hl3) hrhs)
  | caseOf scrut arities alts other ihs iha iho =>
    have hslots : l.Records (slotsOf ctx arities (replicate arities.length none) alts) _ :=
      records_slotsOf iha fun t ht => by cases eq_of_mem_replicate ht
    have hdefault : ∀ l : Ledger, l.Records (otherOf ctx other) fun l' d => ∀ t, d = some t → l'.Has t := by
      intro l
      cases other with
      | none => exact .pure fun t ht => by cases ht
      | some e => exact (iho e rfl l).bind fun l' t _ ht => .pure fun t' ht' => Option.some.inj ht' ▸ ht
    refine hslots.bind fun l1 slots hl1 hslots => (hdefault l1).bind fun l2 d hl2 hd => ?_
    have hslots : ∀ t, some t ∈ slots → l2.Has t := fun t ht => (hslots t ht).grow hl2
    have direct (other' : Option Term) (hother' : ∀ t, other' = some t → l2.Has t) :
        l2.Records (expr ctx scrut >>= fun s => labelling (assembleCase s arities slots other')) Has :=
      (ihs l2).bind fun l3 s hl3 hs => .labelling (enters_assembleCase hs
        (fun t ht => (hslots t ht).grow hl3) (fun t ht => (hother' t ht).grow hl3) arities)
    cases d with
    | none => exact direct none hd
    | some d =>
      dsimp only
      split
      · have hname : l2.Records freshDefault fun _ _ => True := by
          intro k x s hrun
          cases hrun
          exact ⟨l2, .refl l2, rfl, trivial⟩
        refine hname.bind fun l3 x hl3 _ => (Records.labelling (enters_newLeaf _)).bind fun l4 v hl4 hv =>
          (ihs l4).bind fun l5 s hl5 hs => .labelling ?_
        have hlater : l2.Grows l5 := (hl3.trans hl4).trans hl5
        refine (enters_assembleCase hs (fun t ht => (hslots t ht).grow hlater)
          (fun t ht => Option.some.inj ht ▸ hv.grow hl5) arities).bind fun l6 t hl6 ht =>
            (enters_bracket x ht).bind fun l7 f hl7 hf => ?_
        exact enters_newApp hf ((hd d rfl).grow ((hlater.trans hl6).trans hl7))
      · exact direct (some d) hd

theorem records_binding (names : List Name) (b : Binding Core) (l : Ledger) :
    l.Records (binding names b) fun l' d => l'.Has d.body := by
  refine (records_expr b.body l).bind fun l1 body _ hbody =>
    (Records.labelling (enters_bracketAll b.params hbody)).bind fun l2 t _ ht => ?_
  split
  · exact .throw _
  · exact .pure ht

theorem records_definitions (bs : List (Binding Core)) (names : List Name) (l : Ledger) :
    l.Records (bs.mapM (binding names)) fun l' defs => ∀ d ∈ defs, l'.Has d.body :=
  Records.mapM (fun _ _ _ hl hd => hd.grow hl) fun b _ l' _ => records_binding names b l'

end Compile

/-- **Nodes of a compiled module with the same label are one node.** -/
theorem Module.shared_of_compile {m : Module} {c : Compiler} {p : Program}
    (hp : (c.compile m).1 = .ok p) : ∀ s ∈ p.nodes, ∀ t ∈ p.nodes, s.label = t.label → s = t := by
  obtain ⟨-, defs, s, hdefs, hprogram⟩ := definitions_of_compile hp
  -- no label is taken yet, so it does not matter which nodes the ledger starts with
  obtain ⟨l, -, -, hl⟩ := Compile.records_definitions _ _ ⟨0, fun _ => default⟩ _ _ _ hdefs
  have hnode : ∀ s ∈ p.nodes, l.node s.label = s := by
    intro s hs
    obtain ⟨d, hd, hs⟩ := mem_flatMap.1 hs
    rw [hprogram] at hd
    obtain ⟨d', hd', rfl⟩ := mem_map.1 hd
    exact (hl d' hd' s hs).2
  intro s hs t ht hlabel
  rw [← hnode s hs, hlabel, hnode t ht]

end GraphReduction
