import GraphReduction.Compile
import GraphReduction.Proofs.Core.Lifting
import GraphReduction.Proofs.Load.Decoded

/-!
# Compiled programs are closed

The term of an expression has no leaves but the variables in scope and defined names, so the term of
a definition, with its parameters abstracted, has no variable. Compilation fails only for what the
reader lets pass: a name that is defined twice, and a case with two alternatives for a constructor.
-/

namespace GraphReduction

open List

variable {x : Name} {e : CompileError} {names : List Name}

/-!
## Leaves of terms
-/

namespace Term

/-- Every leaf has `P`. -/
def All (P : Atom → Prop) : Term → Prop
  | leaf _ x => P x
  | app _ f a => f.All P ∧ a.All P

variable {P Q : Atom → Prop} {t : Term} {args : List Term}

theorem All.mono (h : t.All P) (hPQ : ∀ x, P x → Q x) : t.All Q := by
  induction t with
  | leaf label x => exact hPQ x h
  | app label f a ihf iha => exact ⟨ihf h.1, iha h.2⟩

theorem All.of_leaf (h : t.All P) {label : Nat} {x : Atom} (hx : leaf label x ∈ t.subterms) : P x := by
  induction t with
  | leaf label' y =>
    cases mem_singleton.1 hx
    exact h
  | app label' f a ihf iha =>
    rcases mem_cons.1 hx with hx | hx
    · cases hx
    · rcases mem_append.1 hx with hx | hx
      · exact ihf h.1 hx
      · exact iha h.2 hx

theorem all_newApps (h : t.All P) (hargs : ∀ a ∈ args, a.All P) (n : Nat) :
    (t.newApps args n).1.All P := by
  induction args generalizing t n with
  | nil => exact h
  | cons a args ih =>
    obtain ⟨ha, hargs⟩ := forall_mem_cons.1 hargs
    exact ih (t := .app n t a) ⟨h, ha⟩ hargs (n + 1)

theorem all_newComb {c : Combinator} (hc : P (.comb c)) (hargs : ∀ a ∈ args, a.All P) (n : Nat) :
    (newComb c args n).1.All P :=
  all_newApps (t := .leaf n (.comb c)) hc hargs (n + 1)

theorem all_compositionParts (h : t.All P) {p q : Term} (hpq : t.compositionParts? = some (p, q)) :
    p.All P ∧ q.All P := by
  unfold compositionParts? at hpq
  split at hpq
  · cases hpq
    exact ⟨h.1.2, h.2⟩
  · cases hpq

/-- How abstraction of `x` goes on at an application when both parts are abstracted. -/
def abstractApp (x : Name) (f a : Term) (rf ra : Option Term) : Fresh (Option Term) :=
  match rf, ra with
  | none, none => return none
  | none, some a' =>
    if a.isVar x then return some f
    else match a'.compositionParts? with
      | some (p, q) => some <$> newComb .B' [f, p, q]
      | none => some <$> newComb .B [f, a']
  | some f', none =>
    match f'.compositionParts? with
    | some (p, q) => some <$> newComb .C' [p, q, a]
    | none => some <$> newComb .C [f', a]
  | some f', some a' =>
    match f'.compositionParts? with
    | some (p, q) => some <$> newComb .S' [p, q, a']
    | none => some <$> newComb .S [f', a']

theorem abstractVar_app (x : Name) (label : Nat) (f a : Term) : (app label f a).abstractVar x =
    (do abstractApp x f a (← f.abstractVar x) (← a.abstractVar x)) := rfl

/-- **The rule for an application**: nothing is made, or the function is the result, or a combinator is applied
to at most three terms. These are the abstracted parts, the parts themselves if the variable is not in them,
or what a composition among these is made of. -/
theorem abstractApp_cases {f a : Term} {rf ra : Option Term} {P : Term → Prop}
    {Q : Fresh (Option Term) → Prop}
    (hparts : ∀ t p q, P t → t.compositionParts? = some (p, q) → P p ∧ P q) (hf : P (rf.getD f))
    (ha : P (ra.getD a)) (hnone : rf = none → ra = none → Q (pure none))
    (heta : rf = none → ra ≠ none → Q (pure (some f)))
    (hcomb : ∀ c args, rf ≠ none ∨ ra ≠ none → args.length ≤ 3 → (∀ t ∈ args, P t) →
      Q (some <$> newComb c args)) : Q (abstractApp x f a rf ra) := by
  cases rf with
  | none =>
    cases ra with
    | none => exact hnone rfl rfl
    | some a' =>
      have hmade : some a' ≠ none := Option.some_ne_none a'
      rw [abstractApp]
      split
      · exact heta rfl hmade
      · split
        · obtain ⟨hp, hq⟩ := hparts a' _ _ ha ‹_›
          exact hcomb _ _ (.inr hmade) le_rfl (by simpa using ⟨hf, hp, hq⟩)
        · exact hcomb _ _ (.inr hmade) (by simp) (by simpa using ⟨hf, ha⟩)
  | some f' =>
    have hmade : some f' ≠ none := Option.some_ne_none f'
    cases ra with
    | none | some =>
      rw [abstractApp]
      split
      · obtain ⟨hp, hq⟩ := hparts f' _ _ hf ‹_›
        exact hcomb _ _ (.inl hmade) le_rfl (by simpa using ⟨hp, hq, ha⟩)
      · exact hcomb _ _ (.inl hmade) (by simp) (by simpa using ⟨hf, ha⟩)

/-- Abstracting `x` leaves the other atoms and adds combinators only. -/
theorem all_abstractVar (hcomb : ∀ c, P (.comb c)) {e : Term} (h : e.All fun y => y = .var x ∨ P y)
    (n : Nat) : ((e.abstractVar x n).1.getD e).All P := by
  induction e generalizing n with
  | leaf label y =>
    cases y with
    | var y =>
      unfold abstractVar
      split
      · exact hcomb .I
      · rename_i hxy
        refine h.resolve_left fun h => hxy ?_
        cases h
        rfl
    | _ => exact h.resolve_left fun h => by cases h
  | app label f a ihf iha =>
    have hf := ihf h.1 n
    have ha := iha h.2 (f.abstractVar x n).2
    rw [abstractVar_app]
    refine abstractApp_cases (Q := fun y => ((y _).1.getD (app label f a)).All P)
      (fun _ _ _ ht => all_compositionParts ht) hf ha (fun hrf hra => ?_) (fun hrf _ => ?_)
      fun c args _ _ hargs => all_newComb (hcomb c) hargs _
    · rw [hrf] at hf
      rw [hra] at ha
      exact ⟨hf, ha⟩
    · rw [hrf] at hf
      exact hf

theorem all_bracket (hcomb : ∀ c, P (.comb c)) {e : Term} (h : e.All fun y => y = .var x ∨ P y)
    (n : Nat) : (e.bracket x n).1.All P := by
  have habstract := all_abstractVar hcomb h n
  unfold bracket
  simp only [bind, StateT.bind]
  cases hr : e.abstractVar x n with
  | mk r n1 =>
  rw [hr] at habstract
  cases r with
  | some t => exact habstract
  | none => exact all_newComb (hcomb .K) (forall_mem_singleton.2 habstract) n1

end Term

/-- A leaf is a variable in scope, or stands for itself. -/
def Atom.Scoped (names Γ : List Name) : Atom → Prop
  | .global name => name ∈ names
  | .var x => x ∈ Γ
  | _ => True

theorem Atom.Scoped.closed {x : Atom} (h : x.Scoped names []) : x.Closed names := by
  cases x with
  | var x => exact absurd h not_mem_nil
  | _ => exact h

namespace Term

variable {names Γ : List Name} {e : Term}

theorem findVar_of_scoped (h : e.All (Atom.Scoped names [])) : e.findVar = none := by
  induction e with
  | leaf label x =>
    cases x with
    | var x => exact absurd h not_mem_nil
    | _ => rfl
  | app label f a ihf iha => rw [findVar, ihf h.1, iha h.2, Option.or_none]

theorem All.weaken {Γ' : List Name} (h : e.All (Atom.Scoped names Γ)) (hsub : Γ ⊆ Γ') :
    e.All (Atom.Scoped names Γ') := by
  refine h.mono fun x hx => ?_
  cases x with
  | var x => exact hsub hx
  | _ => exact hx

theorem scoped_bracket (h : e.All (Atom.Scoped names (x :: Γ))) (n : Nat) :
    (e.bracket x n).1.All (Atom.Scoped names Γ) := by
  refine all_bracket (fun _ => trivial) (h.mono fun y hy => ?_) n
  cases y with
  | var y =>
    rcases mem_cons.1 hy with rfl | hy
    · exact .inl rfl
    · exact .inr hy
  | _ => exact .inr hy

theorem scoped_bracketAll {xs : List Name} (h : e.All (Atom.Scoped names (xs ++ Γ))) (n : Nat) :
    (e.bracketAll xs n).1.All (Atom.Scoped names Γ) := by
  induction xs generalizing Γ with
  | nil => exact h
  | cons x xs ih =>
    refine scoped_bracket (ih (h.weaken fun y hy => ?_)) _
    simp only [cons_append, mem_cons, mem_append] at hy ⊢
    tauto

end Term

/-!
## Steps of compilation
-/

/-- **How the translation of an accepted module fails.** With `2 ^ 32` binders, which take as much
source text, the fields of a constructor are counted wrong. -/
def CompileError.Permitted (size : Nat) : CompileError → Prop
  | duplicateDefinition _ | duplicateAlternative _ => True
  | binderMismatch .. => UInt32.size ≤ size
  | _ => False

namespace Compile

variable {α β : Type} {slots : List (Option Term)} {f : α → CompileM β} {xs : List α}
  {arities : List UInt32}

/-- **What a step of compilation gives**, and how it fails. -/
def Compiles (E : CompileError → Prop) (x : CompileM α) (Q : α → Prop) : Prop :=
  ∀ s, match (x s).1 with
    | .ok a => Q a
    | .error e => E e

theorem bind_eq_ok {x : CompileM α} {s s' : CompileState} {b : β} (h : (x >>= f) s = (.ok b, s')) :
    ∃ a s1, x s = (.ok a, s1) ∧ f a s1 = (.ok b, s') := by
  have hbind : (x >>= f) s = ExceptT.bindCont f (x s).1 (x s).2 := rfl
  rw [hbind] at h
  cases hr : x s with
  | mk r s1 =>
  rw [hr] at h
  cases r with
  | ok a => exact ⟨a, s1, rfl, h⟩
  | error e => cases h

namespace Compiles

variable {E : CompileError → Prop} {Q : α → Prop} {R : β → Prop}

theorem pure {a : α} (h : Q a) : Compiles E (Pure.pure a) Q := fun _ => h

theorem throw (h : E e) : Compiles E (MonadExcept.throw e : CompileM α) Q :=
  fun _ => h

theorem bind {x : CompileM α} {f : α → CompileM β} (hx : Compiles E x Q)
    (hf : ∀ a, Q a → Compiles E (f a) R) : Compiles E (x >>= f) R := by
  intro s
  have hs := hx s
  have hbind : (x >>= f) s = ExceptT.bindCont f (x s).1 (x s).2 := rfl
  rw [hbind]
  cases hr : x s with
  | mk r s' =>
  rw [hr] at hs
  cases r with
  | ok a => exact hf a hs s'
  | error e => exact hs

theorem labelling {x : Fresh α} (h : ∀ n, Q (x n).1) : Compiles E (Compile.labelling x) Q :=
  fun s => h s.nextLabel

theorem mapM {R : α → β → Prop} (h : ∀ a ∈ xs, Compiles E (f a) (R a)) :
    Compiles E (xs.mapM f) (Forall₂ R xs) := by
  induction xs with
  | nil => exact .pure .nil
  | cons a xs ih =>
    obtain ⟨ha, hxs⟩ := forall_mem_cons.1 h
    rw [mapM_cons]
    exact ha.bind fun b hb => (ih hxs).bind fun bs hbs => .pure (.cons hb hbs)

end Compiles

/-!
## Case tables
-/

theorem forall_mem_mapM {R : β → Prop} {f : α → Fresh β} (h : ∀ a ∈ xs, ∀ n, R (f a n).1)
    (n : Nat) : ∀ b ∈ (xs.mapM f n).1, R b := by
  induction xs generalizing n with
  | nil => exact forall_mem_nil _
  | cons a xs ih =>
    obtain ⟨ha, hxs⟩ := forall_mem_cons.1 h
    rw [mapM_cons]
    exact forall_mem_cons.2 ⟨ha n, ih hxs _⟩

section Table

variable {names Γ : List Name} {other : Option Term}

theorem scoped_constantIn {t : Term} (h : t.All (Atom.Scoped names Γ)) (k n : Nat) :
    (constantIn t k n).1.All (Atom.Scoped names Γ) := by
  induction k generalizing t n with
  | zero => exact h
  | succ k ih => exact ih (Term.all_newComb (c := .K) trivial (forall_mem_singleton.2 h) n) _

theorem scoped_slotTerm {slot : Option Term}
    (hother : ∀ d, other = some d → d.All (Atom.Scoped names Γ))
    (hslot : ∀ t, slot = some t → t.All (Atom.Scoped names Γ)) (arity : UInt32) (n : Nat) :
    (slotTerm other arity slot n).1.All (Atom.Scoped names Γ) := by
  cases slot with
  | some t => exact hslot t rfl
  | none =>
    cases other with
    | some d => exact scoped_constantIn (hother d rfl) arity.toNat n
    | none => trivial

theorem scoped_assembleCase {scrut : Term} (hscrut : scrut.All (Atom.Scoped names Γ))
    (hslots : ∀ t, some t ∈ slots → t.All (Atom.Scoped names Γ))
    (hother : ∀ d, other = some d → d.All (Atom.Scoped names Γ)) (arities : List UInt32) (n : Nat) :
    (assembleCase scrut arities slots other n).1.All (Atom.Scoped names Γ) := by
  refine Term.all_newApps (Term.all_newComb trivial (forall_mem_singleton.2 hscrut) n)
    (forall_mem_mapM ?_ _) _
  rintro ⟨slot, arity⟩ hmem
  refine scoped_slotTerm hother (fun t ht => hslots t ?_) arity
  rw [← ht]
  exact (of_mem_zip hmem).1

end Table

/-!
## Expressions
-/

variable {size : Nat} {Γ : List Name} {ctx : Context}

/-- An alternative that fits its type fails only by standing second. -/
theorem permitted_of_checkAlt {alt : Alt Core} (hfits : ∃ k, arities[alt.tag.toNat]? = some k ∧
      (size < UInt32.size → alt.binders.length = k.toNat))
    (he : checkAlt arities slots alt = .error e) : e.Permitted size := by
  obtain ⟨k, hk, hlen⟩ := hfits
  unfold checkAlt at he
  rw [hk] at he
  dsimp only at he
  split at he
  · rename_i hne
    cases he
    exact not_lt.1 fun hlt => hne (hlen hlt)
  · split at he <;> cases he
    trivial

/-- Every slot of a table closes over the binders of its alternative. -/
theorem compiles_slotsOf {alts : List (Alt Core)}
    (hfits : ∀ alt ∈ alts, ∃ k, arities[alt.tag.toNat]? = some k ∧
      (size < UInt32.size → alt.binders.length = k.toNat))
    (halts : ∀ alt ∈ alts, Compiles (·.Permitted size) (expr ctx alt.body) fun t =>
      t.All (Atom.Scoped ctx.globals (alt.binders ++ Γ)))
    (hslots : ∀ t, some t ∈ slots → t.All (Atom.Scoped ctx.globals Γ)) :
    Compiles (·.Permitted size) (slotsOf ctx arities slots alts) fun slots' =>
      ∀ t, some t ∈ slots' → t.All (Atom.Scoped ctx.globals Γ) := by
  induction alts generalizing slots with
  | nil => exact .pure hslots
  | cons alt alts ih =>
    obtain ⟨hfit, hfits⟩ := forall_mem_cons.1 hfits
    obtain ⟨halt, halts⟩ := forall_mem_cons.1 halts
    have hcheck : Compiles (·.Permitted size)
        (ExceptT.mk (Pure.pure (checkAlt arities slots alt)) : CompileM Unit) fun _ => True := by
      intro s
      have hrun : ((ExceptT.mk (Pure.pure (checkAlt arities slots alt)) : CompileM Unit) s).1 =
          checkAlt arities slots alt := rfl
      rw [hrun]
      cases he : checkAlt arities slots alt with
      | ok _ => trivial
      | error e => exact permitted_of_checkAlt hfit he
    refine hcheck.bind fun _ _ => halt.bind fun body hbody => (Compiles.labelling
      (fun n => Term.scoped_bracketAll hbody n)).bind fun t ht => ih hfits halts fun t' ht' => ?_
    rcases mem_or_eq_of_mem_set ht' with ht' | ht'
    · exact hslots t' ht'
    · cases ht'
      exact ht

/-- **The term of an expression in scope** has the variables in scope. -/
theorem compiles_expr {c : Core} (h : c.Scoped (· ∈ ctx.globals) size Γ) :
    Compiles (·.Permitted size) (expr ctx c) fun t => t.All (Atom.Scoped ctx.globals Γ) := by
  induction c generalizing Γ with
  | var x =>
    cases h with
    | var hx => exact .labelling fun _ => hx
  | global x =>
    cases h with
    | global hx =>
      unfold expr
      rw [if_pos hx]
      exact .labelling fun _ => hx
  | lit l =>
    refine .labelling fun n => ?_
    cases l with
    | str _ => exact ⟨trivial, trivial⟩
    | _ => trivial
  | prim _ | comb _ | con _ _ => exact .labelling fun _ => trivial
  | app f a ihf iha =>
    cases h with
    | app hf ha =>
      exact (ihf hf).bind fun f' hf' => (iha ha).bind fun a' ha' => .labelling fun _ => ⟨hf', ha'⟩
  | lam x body ih =>
    cases h with
    | lam hbody =>
      exact (ih hbody).bind fun body' hbody' => .labelling fun n => Term.scoped_bracket hbody' n
  | letIn x rhs body ihr ihb =>
    cases h with
    | letIn hrhs hbody =>
      exact (ihb hbody).bind fun body' hbody' =>
        (Compiles.labelling fun n => Term.scoped_bracket hbody' n).bind fun f hf =>
        (ihr hrhs).bind fun rhs' hrhs' => .labelling fun _ => ⟨hf, hrhs'⟩
  | caseOf scrut arities alts other ihs iha iho =>
    obtain ⟨hscrut, hfits, halts, hother⟩ := Core.scoped_caseOf.1 h
    have hslots := compiles_slotsOf (hfits _ rfl) (fun alt halt => iha alt halt (halts alt halt))
      fun t (ht : some t ∈ replicate arities.length none) => nomatch eq_of_mem_replicate ht
    have hdefault : Compiles (·.Permitted size) (otherOf ctx other) fun d => ∀ t, d = some t →
        t.All (Atom.Scoped ctx.globals Γ) := by
      cases other with
      | none => exact .pure fun t ht => nomatch ht
      | some e =>
        exact (iho e rfl (hother e rfl)).bind fun t ht => .pure fun t' ht' => Option.some.inj ht' ▸ ht
    refine hslots.bind fun slots hslots => hdefault.bind fun d hd => ?_
    cases d with
    | none =>
      exact (ihs hscrut).bind fun scrut' hscrut' =>
        .labelling fun n => scoped_assembleCase hscrut' hslots hd arities n
    | some d =>
      dsimp only
      split
      · have hfresh : Compiles (·.Permitted size) freshDefault fun _ => True := fun _ => trivial
        refine hfresh.bind fun x _ => (Compiles.labelling (Q := fun v =>
          v.All (Atom.Scoped ctx.globals (x :: Γ))) fun _ => mem_cons_self).bind fun v hv =>
          (ihs hscrut).bind fun scrut' hscrut' => .labelling fun n => ⟨?_, hd d rfl⟩
        have hsub : Γ ⊆ x :: Γ := subset_cons_self x Γ
        exact Term.scoped_bracket (scoped_assembleCase (hscrut'.weaken hsub)
          (fun t ht => (hslots t ht).weaken hsub) (fun t ht => Option.some.inj ht ▸ hv) arities n) _
      · exact (ihs hscrut).bind fun scrut' hscrut' =>
          .labelling fun n => scoped_assembleCase hscrut' hslots hd arities n

theorem compiles_binding {b : Binding Core} (h : b.body.Scoped (· ∈ names) size b.params) :
    Compiles (·.Permitted size) (binding names b) fun d =>
      d.name = b.name ∧ d.body.All (Atom.Scoped names []) := by
  rw [← append_nil b.params] at h
  have hexpr : Compiles (·.Permitted size) (expr ⟨names, b.name⟩ b.body) _ := compiles_expr h
  refine hexpr.bind fun body hbody =>
    (Compiles.labelling fun n => Term.scoped_bracketAll hbody n).bind fun body' hbody' => ?_
  simp only [Term.findVar_of_scoped hbody']
  exact .pure ⟨rfl, hbody'⟩

/-- A scoped module compiles to a closed program. -/
theorem compiles_program {m : Module}
    (h : ∀ d ∈ m.defs, d.body.Scoped (· ∈ m.defs.map (·.name)) size d.params) :
    Compiles (·.Permitted size) (program m) Program.Closed := by
  have hlift := Module.scoped_lift h
  have hdefs := Compiles.mapM fun b hb => compiles_binding (hlift b hb)
  have hrest : Compiles (·.Permitted size) (do
      let defs ← m.lift.mapM (binding (m.lift.map (·.name)))
      let entry := if defs.any (·.name == Program.entryPoint) then some Program.entryPoint else none
      return (⟨m.name, annotateArities defs, entry⟩ : Program)) Program.Closed := by
    refine hdefs.bind fun defs hdefs => .pure ?_
    have hnames : (annotateArities defs).map (·.name) = m.lift.map (·.name) := by
      rw [annotateArities, map_map, ← forall₂_eq_eq_eq, forall₂_map_left_iff,
        forall₂_map_right_iff]
      exact hdefs.flip.imp fun d b hd => hd.1
    refine ⟨fun label x hx => ?_, fun name hname => ?_⟩
    · obtain ⟨d, hd, hx⟩ := mem_flatMap.1 hx
      obtain ⟨d', hd', rfl⟩ := mem_map.1 hd
      obtain ⟨⟨i, hi⟩, rfl⟩ := get_of_mem hd'
      obtain ⟨hlen, hget⟩ := forall₂_iff_get.1 hdefs
      have hbody := (hget i (hlen ▸ hi) hi).2
      show x.Closed ((annotateArities defs).map (·.name))
      rw [hnames]
      exact (hbody.of_leaf hx).closed
    · obtain ⟨hany, hentry⟩ := Option.ite_none_right_eq_some.1 hname
      obtain ⟨d, hd, hdname⟩ := any_eq_true.1 hany
      show name ∈ (annotateArities defs).map (·.name)
      rw [← Option.some.inj hentry, ← beq_iff_eq.1 hdname]
      exact mem_map.2 ⟨_, mem_map_of_mem hd, rfl⟩
  unfold program
  split
  · exact (Compiles.throw (Q := fun _ => True) trivial).bind fun _ _ => hrest
  · exact hrest

end Compile

namespace Module

variable {m : Module} {size : Nat} {c : Compiler} {p : Program}

/-- **What a compiled module consists of**: no name was defined twice, and the definitions are those of
the lifted bindings. -/
theorem definitions_of_compile (hp : (c.compile m).1 = .ok p) :
    Compile.duplicate? [] (m.defs.map (·.name)) = none ∧ ∃ defs s,
      m.lift.mapM (Compile.binding (m.lift.map (·.name))) ⟨0, c.defaults⟩ = (.ok defs, s) ∧
      p = ⟨m.name, annotateArities defs,
        if defs.any (·.name == Program.entryPoint) then some Program.entryPoint else none⟩ := by
  have hrun : Compile.program m ⟨0, c.defaults⟩ = (.ok p, _) := Prod.ext hp rfl
  unfold Compile.program at hrun
  cases hdup : Compile.duplicate? [] (m.defs.map (·.name)) with
  | some x =>
    rw [hdup] at hrun
    cases hrun
  | none =>
    rw [hdup] at hrun
    obtain ⟨defs, s, hdefs, hrest⟩ := Compile.bind_eq_ok hrun
    exact ⟨rfl, defs, s, hdefs, (Except.ok.inj (congrArg Prod.fst hrest)).symm⟩

theorem permitted_of_compile
    (h : ∀ d ∈ m.defs, d.body.Scoped (· ∈ m.defs.map (·.name)) size d.params)
    (he : (c.compile m).1 = .error e) : e.Permitted size := by
  have hprogram := Compile.compiles_program h ⟨0, c.defaults⟩
  rwa [show (Compile.program m ⟨0, c.defaults⟩).1 = .error e from he] at hprogram

theorem closed_of_compile (h : ∀ d ∈ m.defs, d.body.Scoped (· ∈ m.defs.map (·.name)) size d.params)
    (hp : (c.compile m).1 = .ok p) : p.Closed := by
  have hprogram := Compile.compiles_program h ⟨0, c.defaults⟩
  rwa [show (Compile.program m ⟨0, c.defaults⟩).1 = .ok p from hp] at hprogram

/-- **Accepted sources are translated.** In a module that is read, every variable is bound and every
top-level name is defined. Compiling it fails only on a name that is defined twice or on a second
alternative for a constructor; fields are counted wrong only in texts of `2 ^ 32` characters or more.
If it is compiled then it has an image, and the image is loaded as the program is: unless memory is
short or a definition is an alias of itself. -/
theorem translated_of_read {name source : String} (h : Module.read name source = .ok m) :
    (∀ d ∈ m.defs, d.body.Scoped (· ∈ m.defs.map (·.name)) source.length d.params) ∧
    (∀ (c : Compiler) e, (c.compile m).1 = .error e →
      (∃ x, e = .duplicateDefinition x) ∨ (∃ tag, e = .duplicateAlternative tag) ∨
        (UInt32.size ≤ source.length ∧ ∃ tag expected found, e = .binderMismatch tag expected found)) ∧
    ∀ (c : Compiler) p, (c.compile m).1 = .ok p → ∃ image, p.toImage = .ok image ∧
      ∀ load ∈ [image.load Primitive.ofName?, p.load], ∀ heap e heap',
        load heap = .error e heap' →
          (∃ n, e = .runtime (.outOfMemory n)) ∨ (∃ x, e = .selfAlias x) ∨
            ((∃ f, e = .runtime (.malformed f)) ∧ ¬ heap.FreeList fun _ => False) := by
  have hscoped := scoped_of_read h
  refine ⟨hscoped, fun c e he => ?_, fun c p hp => ?_⟩
  · have hpermitted := permitted_of_compile hscoped he
    cases e with
    | duplicateDefinition x => exact .inl ⟨x, rfl⟩
    | duplicateAlternative tag => exact .inr (.inl ⟨tag, rfl⟩)
    | binderMismatch tag expected found => exact .inr (.inr ⟨hpermitted, tag, expected, found, rfl⟩)
    | _ => exact hpermitted.elim
  · have hclosed := closed_of_compile hscoped hp
    obtain ⟨defs, s, -, himage⟩ := hclosed.exists_toImage
    refine ⟨_, himage, ?_⟩
    rw [List.forall_mem_cons, List.forall_mem_singleton]
    refine ⟨fun heap e heap' he => ?_, fun heap e heap' he => hclosed.load_error he⟩
    refine (Program.inOrder_of_toImage himage).load_error (fun name hname => ?_) he
    obtain ⟨q, -, rfl⟩ := List.mem_map.1 hname
    rw [Load.ofName?_name]
    rfl

/-- Groups that are lifted out with a capture, and groups that are tied. -/
def knottedSource : String :=
  "data List = Nil | Cons 2\n" ++
  "def walk x = letrec f = \\ys -> case ys of { Cons y zs -> g zs; _ -> x }; g = \\zs -> f zs in f\n" ++
  "def main = letrec ones = Cons 1 twos; twos = Cons 2 ones in walk ones (let ones = Nil in ones)\n"

theorem translated_of_read_knottedSource : ∃ m p image, Module.read "knots" knottedSource = .ok m ∧
    m.compile = .ok p ∧ p.defs.length = 4 ∧ p.toImage = .ok image ∧
    ∀ load ∈ [image.load Primitive.ofName?, p.load], ∀ heap e heap',
      load heap = .error e heap' →
        (∃ n, e = .runtime (.outOfMemory n)) ∨ (∃ x, e = .selfAlias x) ∨
          ((∃ f, e = .runtime (.malformed f)) ∧ ¬ heap.FreeList fun _ => False) := by
  have hlen : ((Module.read "knots" knottedSource).toOption.bind fun m =>
      m.compile.toOption.map (·.defs.length)) = some 4 := by decide +kernel
  obtain ⟨m, hm, hlen⟩ := Option.bind_eq_some_iff.1 hlen
  obtain ⟨p, hp, hlen⟩ := Option.map_eq_some_iff.1 hlen
  have hread := eq_ok_of_toOption hm
  have hcompile := eq_ok_of_toOption hp
  obtain ⟨-, -, hload⟩ := translated_of_read hread
  obtain ⟨image, himage, hload⟩ := hload {} p hcompile
  exact ⟨m, p, image, hread, hcompile, hlen, himage, hload⟩

end Module

end GraphReduction
