import GraphReduction.Compile
import GraphReduction.Proofs.Core.Alpha

/-!
# Compiled code does not depend on local names

Modules that differ in local names only are compiled step by step to terms of the same shape with the
same labels, whose variables refer to the same binders. Abstraction removes the variables, so the
programs are equal. One name is special: compilation makes up `$d~1`, `$d~2`, … for defaults that
several slots share, and these are the names that binders called `$d` get.
-/

namespace GraphReduction

open List

variable {α β γ δ : Type} {Γ : BinderPairs} {xs : List α} {ys : List β}

/-!
## Terms that differ in variables
-/

/-- Two computations that take the same labels and give related results. -/
def FreshAlike (T : α → β → Prop) (x : Fresh α) (y : Fresh β) : Prop :=
  ∀ n, (x n).2 = (y n).2 ∧ T (x n).1 (y n).1

namespace FreshAlike

variable {T : α → β → Prop} {U : γ → δ → Prop}

theorem pure {a : α} {b : β} (h : T a b) : FreshAlike T (Pure.pure a) (Pure.pure b) :=
  fun _ => ⟨rfl, h⟩

theorem bind {x : Fresh α} {y : Fresh β} {f : α → Fresh γ} {g : β → Fresh δ} (hx : FreshAlike T x y)
    (hf : ∀ a b, T a b → FreshAlike U (f a) (g b)) : FreshAlike U (x >>= f) (y >>= g) := by
  intro n
  obtain ⟨hn, hab⟩ := hx n
  show (f (x n).1 (x n).2).2 = (g (y n).1 (y n).2).2 ∧ U (f (x n).1 (x n).2).1 (g (y n).1 (y n).2).1
  rw [← hn]
  exact hf _ _ hab _

theorem mapM {V : α → β → Prop} {f : α → Fresh γ} {g : β → Fresh δ}
    (h : ∀ a b, V a b → FreshAlike U (f a) (g b)) (hxy : Forall₂ V xs ys) :
    FreshAlike (Forall₂ U) (xs.mapM f) (ys.mapM g) := by
  induction hxy with
  | nil => exact .pure .nil
  | cons hab _ ih =>
    rw [mapM_cons, mapM_cons]
    exact (h _ _ hab).bind fun c d hcd => ih.bind fun cs ds hcds => .pure (.cons hcd hcds)

end FreshAlike

/-- `M` under a further binder, `x` on one side and `y` on the other. -/
def Under (x y : Name) (M : Name → Name → Prop) (a b : Name) : Prop :=
  a = x ∧ b = y ∨ a ≠ x ∧ b ≠ y ∧ M a b

namespace Term

/-- **Terms that differ in variables only**, which are related by `M`. -/
inductive Alike (M : Name → Name → Prop) : Term → Term → Prop where
  | var {x y} (label) : M x y → Alike M (.leaf label (.var x)) (.leaf label (.var y))
  | atom {x : Atom} (label) : (∀ y, x ≠ .var y) → Alike M (.leaf label x) (.leaf label x)
  | app {f a g b} (label) : Alike M f g → Alike M a b → Alike M (.app label f a) (.app label g b)

variable {M M' : Name → Name → Prop} {t u : Term} {x y : Name} {as bs : List Term}

theorem Alike.mono (h : t.Alike M u) (hM : ∀ a b, M a b → M' a b) : t.Alike M' u := by
  induction h with
  | var label hxy => exact .var label (hM _ _ hxy)
  | atom label hx => exact .atom label hx
  | app label _ _ ihf iha => exact .app label ihf iha

theorem Alike.eq (h : t.Alike (· = ·) u) : t = u := by
  induction h with
  | var label hxy => rw [hxy]
  | atom label hx => rfl
  | app label _ _ ihf iha => rw [ihf, iha]

theorem Alike.isApp_eq (h : t.Alike M u) : t.isApp = u.isApp := by
  cases h <;> rfl

theorem Alike.findVar (h : t.Alike M u) : Option.Rel M t.findVar u.findVar := by
  induction h with
  | var label hxy => exact .some hxy
  | @atom x label hx =>
    have hnone : (Term.leaf label x).findVar = none := by
      cases x with
      | var y => exact absurd rfl (hx y)
      | _ => rfl
    rw [hnone]
    exact .none
  | @app f a g b label _ _ ihf iha =>
    rw [Term.findVar, Term.findVar]
    generalize f.findVar = p, g.findVar = q at ihf
    cases ihf with
    | none => exact iha
    | some hxy => exact .some hxy

theorem Alike.isVar_eq (h : t.Alike (Under x y M) u) : t.isVar x = u.isVar y := by
  cases h with
  | @var a b label hab =>
    rcases hab with ⟨rfl, rfl⟩ | ⟨ha, hb, -⟩
    · simp [isVar]
    · simp [isVar, ha.symm, hb.symm]
  | @atom a label ha =>
    cases a with
    | var z => exact absurd rfl (ha z)
    | _ => rfl
  | app label _ _ => rfl

theorem alike_newLeaf {z : Atom} (h : ∀ y, z ≠ .var y) :
    FreshAlike (Alike M) (newLeaf z) (newLeaf z) := fun n => ⟨rfl, .atom n h⟩

theorem alike_newVar (h : M x y) : FreshAlike (Alike M) (newLeaf (.var x)) (newLeaf (.var y)) :=
  fun n => ⟨rfl, .var n h⟩

theorem alike_newApp {f g a b : Term} (hf : f.Alike M g) (ha : a.Alike M b) :
    FreshAlike (Alike M) (newApp f a) (newApp g b) := fun n => ⟨rfl, .app n hf ha⟩

theorem alike_newApps (h : t.Alike M u) (hab : Forall₂ (Alike M) as bs) :
    FreshAlike (Alike M) (t.newApps as) (u.newApps bs) := by
  induction hab generalizing t u with
  | nil => exact .pure h
  | cons ha _ ih => exact (alike_newApp h ha).bind fun _ _ => ih

theorem alike_newComb (c : Combinator) (hab : Forall₂ (Alike M) as bs) :
    FreshAlike (Alike M) (newComb c as) (newComb c bs) :=
  (alike_newLeaf (z := .comb c) nofun).bind fun _ _ h => alike_newApps h hab

theorem alike_compositionParts (h : t.Alike M u) :
    Option.Rel (fun p q => p.1.Alike M q.1 ∧ p.2.Alike M q.2) t.compositionParts?
      u.compositionParts? := by
  -- the shape that is looked for has three nodes
  cases h with
  | var _ _ | atom _ _ => exact .none
  | app label hf hq =>
    cases hf with
    | var _ _ | atom _ _ => exact .none
    | app label hb hp =>
      cases hb with
      | var label hxy => exact .none
      | @atom z label hz =>
        cases z with
        | comb c => cases c <;> first | exact .none | exact .some ⟨hp, hq⟩
        | _ => exact .none
      | app label _ _ => exact .none

/-- What abstraction gives for two terms: nothing for both, which then have not got the variable, or
terms that are alike. -/
inductive Abstracted (M : Name → Name → Prop) (t u : Term) : Option Term → Option Term → Prop where
  | none : t.Alike M u → Abstracted M t u none none
  | some {r s} : r.Alike M s → Abstracted M t u (some r) (some s)

theorem abstracted_newComb (c : Combinator) (hab : Forall₂ (Alike M) as bs) :
    FreshAlike (Abstracted M t u) (some <$> newComb c as) (some <$> newComb c bs) := fun n =>
  ⟨(alike_newComb c hab n).1, .some (alike_newComb c hab n).2⟩

/-- Abstraction of corresponding variables keeps two terms alike. -/
theorem alike_abstractVar (h : t.Alike (Under x y M) u) :
    FreshAlike (Abstracted M t u) (t.abstractVar x) (u.abstractVar y) := by
  induction h with
  | @var a b label hab =>
    rcases hab with ⟨rfl, rfl⟩ | ⟨ha, hb, hab⟩
    · simp only [abstractVar, if_true]
      exact abstracted_newComb .I .nil
    · simp only [abstractVar, if_neg ha.symm, if_neg hb.symm]
      exact .pure (.none (.var label hab))
  | @atom z label hz =>
    cases z with
    | var z => exact absurd rfl (hz z)
    | _ => exact .pure (.none (.atom label hz))
  | @app f a g b label hf ha ihf iha =>
    refine ihf.bind fun rf rg hfg => iha.bind fun ra rb hab => ?_
    cases hfg with
    | none hfg =>
      cases hab with
      | none hab => exact .pure (.none (.app label hfg hab))
      | @some a' b' hab =>
        simp only [ha.isVar_eq]
        split
        · exact .pure (.some hfg)
        · have hparts := alike_compositionParts hab
          generalize a'.compositionParts? = p, b'.compositionParts? = q at hparts
          cases hparts with
          | none => exact abstracted_newComb .B (.cons hfg (.cons hab .nil))
          | some hpq => exact abstracted_newComb .B' (.cons hfg (.cons hpq.1 (.cons hpq.2 .nil)))
    | @some f' g' hfg =>
      have hparts := alike_compositionParts hfg
      generalize hp : f'.compositionParts? = p, hq : g'.compositionParts? = q at hparts
      cases hab with
      | none hab =>
        simp only [hp, hq]
        cases hparts with
        | none => exact abstracted_newComb .C (.cons hfg (.cons hab .nil))
        | some hpq => exact abstracted_newComb .C' (.cons hpq.1 (.cons hpq.2 (.cons hab .nil)))
      | some hab =>
        simp only [hp, hq]
        cases hparts with
        | none => exact abstracted_newComb .S (.cons hfg (.cons hab .nil))
        | some hpq => exact abstracted_newComb .S' (.cons hpq.1 (.cons hpq.2 (.cons hab .nil)))

theorem alike_bracket (h : t.Alike (Under x y M) u) :
    FreshAlike (Alike M) (t.bracket x) (u.bracket y) := by
  refine (alike_abstractVar h).bind fun r s hrs => ?_
  cases hrs with
  | none htu => exact alike_newComb .K (.cons htu .nil)
  | some hrs => exact .pure hrs

theorem alike_bracketAll {xs ys : List Name} (hlength : xs.length = ys.length)
    (h : t.Alike (SameBinder (Γ.under xs ys)) u) :
    FreshAlike (Alike (SameBinder Γ)) (t.bracketAll xs) (u.bracketAll ys) := by
  induction xs generalizing ys Γ with
  | nil =>
    obtain rfl : ys = [] := length_eq_zero_iff.1 hlength.symm
    exact .pure h
  | cons x xs ih =>
    cases ys with
    | nil => cases hlength
    | cons y ys =>
      rw [BinderPairs.under_cons] at h
      exact (ih (Nat.succ.inj hlength) h).bind fun _ _ => alike_bracket

end Term

/-!
## Steps of compilation
-/

namespace Compile

variable {t u : Term} {R : Nat → Nat → Prop}

/-- **Two steps of compilation that fail alike or give related results**, and take the same labels. `R`
relates the numbers of defaults before and after. -/
def Alongside (R : Nat → Nat → Prop) (T : α → β → Prop) (x : CompileM α) (y : CompileM β) : Prop :=
  ∀ n d d', R d d' → (x ⟨n, d⟩).2.nextLabel = (y ⟨n, d'⟩).2.nextLabel ∧
    R (x ⟨n, d⟩).2.defaults (y ⟨n, d'⟩).2.defaults ∧ match (x ⟨n, d⟩).1, (y ⟨n, d'⟩).1 with
      | .ok a, .ok b => T a b
      | .error e, .error e' => e = e'
      | _, _ => False

namespace Alongside

variable {T : α → β → Prop} {U : γ → δ → Prop}

theorem pure {a : α} {b : β} (h : T a b) : Alongside R T (Pure.pure a) (Pure.pure b) :=
  fun _ _ _ hd => ⟨rfl, hd, h⟩

theorem throw (e : CompileError) :
    Alongside R T (MonadExcept.throw e : CompileM α) (MonadExcept.throw e : CompileM β) :=
  fun _ _ _ hd => ⟨rfl, hd, rfl⟩

theorem check (r : Except CompileError Unit) : Alongside R (fun _ _ => True)
    (ExceptT.mk (return r) : CompileM Unit) (ExceptT.mk (return r)) := by
  cases r with
  | ok _ => exact fun _ _ _ hd => ⟨rfl, hd, trivial⟩
  | error _ => exact fun _ _ _ hd => ⟨rfl, hd, rfl⟩

theorem bind {x : CompileM α} {y : CompileM β} {f : α → CompileM γ} {g : β → CompileM δ}
    (hx : Alongside R T x y) (hf : ∀ a b, T a b → Alongside R U (f a) (g b)) :
    Alongside R U (x >>= f) (y >>= g) := by
  intro n d d' hd
  have hs := hx n d d' hd
  have hbindx : (x >>= f) ⟨n, d⟩ = ExceptT.bindCont f (x ⟨n, d⟩).1 (x ⟨n, d⟩).2 := rfl
  have hbindy : (y >>= g) ⟨n, d'⟩ = ExceptT.bindCont g (y ⟨n, d'⟩).1 (y ⟨n, d'⟩).2 := rfl
  rw [hbindx, hbindy]
  generalize x ⟨n, d⟩ = r, y ⟨n, d'⟩ = q at hs
  obtain ⟨r, n1, d1⟩ := r
  obtain ⟨q, n2, d2⟩ := q
  obtain ⟨rfl, hd1, hs⟩ := hs
  cases r with
  | ok a =>
    cases q with
    | ok b => exact hf a b hs n1 d1 d2 hd1
    | error e => exact hs.elim
  | error e =>
    cases q with
    | ok b => exact hs.elim
    | error e' =>
      obtain rfl : e = e' := hs
      exact ⟨rfl, hd1, rfl⟩

theorem labelling {x : Fresh α} {y : Fresh β} (h : FreshAlike T x y) :
    Alongside R T (Compile.labelling x) (Compile.labelling y) :=
  fun n _ _ hd => ⟨(h n).1, hd, (h n).2⟩

theorem mapM {f : α → CompileM γ} {g : β → CompileM δ}
    (hxy : Forall₂ (fun a b => Alongside R U (f a) (g b)) xs ys) :
    Alongside R (Forall₂ U) (xs.mapM f) (ys.mapM g) := by
  induction hxy with
  | nil => exact .pure .nil
  | cons hab _ ih =>
    rw [mapM_cons, mapM_cons]
    exact hab.bind fun c d hcd => ih.bind fun cs ds hcds => .pure (.cons hcd hcds)

theorem fst_eq {x y : CompileM α} (h : Alongside R (· = ·) x y) (n : Nat) {d d' : Nat} (hd : R d d') :
    (x ⟨n, d⟩).1 = (y ⟨n, d'⟩).1 := by
  obtain ⟨-, -, hresult⟩ := h n d d' hd
  generalize (x ⟨n, d⟩).1 = r, (y ⟨n, d'⟩).1 = q at hresult
  cases r with
  | ok a =>
    cases q with
    | ok b => exact congrArg _ hresult
    | error e => exact hresult.elim
  | error e =>
    cases q with
    | ok b => exact hresult.elim
    | error e' => exact congrArg _ hresult

end Alongside

/-!
## Case tables
-/

/-- Names of which both or neither are a certain name that is made up for a default. -/
def SameDefault (x y : Name) : Prop := ∀ k : Nat, x = "$d~" ++ toString k ↔ y = "$d~" ++ toString k

theorem sameDefault_of_sameBinder (hΓ : ∀ p ∈ Γ, SameDefault p.1 p.2) {x y : Name}
    (h : SameBinder Γ x y) : SameDefault x y := by
  induction Γ with
  | nil =>
    obtain rfl : x = y := h
    exact fun k => Iff.rfl
  | cons p Γ ih =>
    obtain ⟨hp, hΓ⟩ := forall_mem_cons.1 hΓ
    rcases h with ⟨rfl, rfl⟩ | ⟨-, -, h⟩
    · exact hp
    · exact ih hΓ h

section Table

variable {M : Name → Name → Prop} {slots slots' : List (Option Term)}

/-- Slots that are filled alike. -/
abbrev SlotsAlike (M : Name → Name → Prop) : List (Option Term) → List (Option Term) → Prop :=
  Forall₂ (Option.Rel (Term.Alike M))

theorem SlotsAlike.mono {M' : Name → Name → Prop} (h : SlotsAlike M slots slots')
    (hM : ∀ t u : Term, t.Alike M u → t.Alike M' u) : SlotsAlike M' slots slots' := by
  refine h.imp fun o o' ho => ?_
  cases ho with
  | none => exact .none
  | some ht => exact .some (hM _ _ ht)

theorem SlotsAlike.isNone_eq {o o' : Option Term} (h : Option.Rel (Term.Alike M) o o') :
    o.isNone = o'.isNone := by
  cases h <;> rfl

theorem SlotsAlike.length_missing (h : SlotsAlike M slots slots') :
    (slots.filter Option.isNone).length = (slots'.filter Option.isNone).length := by
  induction h with
  | nil => rfl
  | cons ho _ ih =>
    rw [filter_cons, filter_cons, isNone_eq ho]
    split
    · rw [length_cons, length_cons, ih]
    · exact ih

theorem SlotsAlike.isSome_join (h : SlotsAlike M slots slots') (i : Nat) :
    (slots[i]?).join.isSome = (slots'[i]?).join.isSome := by
  induction h generalizing i with
  | nil => rfl
  | cons ho _ ih =>
    cases i with
    | zero => cases ho <;> rfl
    | succ i => exact ih i

theorem SlotsAlike.set (h : SlotsAlike M slots slots') (htu : t.Alike M u) (i : Nat) :
    SlotsAlike M (slots.set i (some t)) (slots'.set i (some u)) := by
  induction h generalizing i with
  | nil => exact .nil
  | cons ho hs ih =>
    cases i with
    | zero => exact .cons (.some htu) hs
    | succ i => exact .cons ho (ih i)

theorem SlotsAlike.zip (h : SlotsAlike M slots slots') (arities : List UInt32) :
    Forall₂ (fun p q => Option.Rel (Term.Alike M) p.1 q.1 ∧ p.2 = q.2)
      (slots.zip arities) (slots'.zip arities) := by
  induction h generalizing arities with
  | nil => exact .nil
  | cons ho _ ih =>
    cases arities with
    | nil => exact .nil
    | cons arity arities => exact .cons ⟨ho, rfl⟩ (ih arities)

theorem slotsAlike_replicate (n : Nat) :
    SlotsAlike M (replicate n none) (replicate n none) := by
  induction n with
  | zero => exact .nil
  | succ n ih => exact .cons .none ih

theorem alike_constantIn (h : t.Alike M u) (k : Nat) :
    FreshAlike (Term.Alike M) (constantIn t k) (constantIn u k) := by
  induction k generalizing t u with
  | zero => exact .pure h
  | succ k ih => exact (Term.alike_newComb .K (.cons h .nil)).bind fun _ _ => ih

theorem alike_slotTerm {other other' slot slot' : Option Term}
    (hother : Option.Rel (Term.Alike M) other other') (hslot : Option.Rel (Term.Alike M) slot slot')
    (arity : UInt32) :
    FreshAlike (Term.Alike M) (slotTerm other arity slot) (slotTerm other' arity slot') := by
  cases hslot with
  | some h => exact .pure h
  | none =>
    cases hother with
    | some h => exact alike_constantIn h arity.toNat
    | none => exact Term.alike_newLeaf nofun

theorem alike_assembleCase {scrut scrut' : Term} {other other' : Option Term}
    (hscrut : scrut.Alike M scrut') (hslots : SlotsAlike M slots slots')
    (hother : Option.Rel (Term.Alike M) other other') (arities : List UInt32) :
    FreshAlike (Term.Alike M) (assembleCase scrut arities slots other)
      (assembleCase scrut' arities slots' other') := by
  refine (Term.alike_newComb _ (.cons hscrut .nil)).bind fun head head' hhead => ?_
  refine (FreshAlike.mapM (U := Term.Alike M) ?_ (hslots.zip arities)).bind fun alts alts' halts =>
    Term.alike_newApps hhead halts
  rintro ⟨slot, arity⟩ ⟨slot', arity'⟩ ⟨hslot, rfl⟩
  exact alike_slotTerm hother hslot arity

theorem needsName_eq (hslots : SlotsAlike M slots slots') {d d' : Term} (hd : d.Alike M d') :
    needsName slots d = needsName slots' d' := by
  have hvar : d.findVar.isSome = d'.findVar.isSome := by
    have hrel := hd.findVar
    generalize d.findVar = p, d'.findVar = q at hrel
    cases hrel <;> rfl
  rw [needsName, needsName, hslots.length_missing, hd.isApp_eq, hvar]

theorem checkAlt_eq (hslots : SlotsAlike M slots slots') (arities : List UInt32)
    {alt alt' : Alt Core} (htag : alt.tag = alt'.tag)
    (hlength : alt.binders.length = alt'.binders.length) :
    checkAlt arities slots alt = checkAlt arities slots' alt' := by
  rw [checkAlt, checkAlt, htag, hlength, hslots.isSome_join]

end Table

/-!
## Expressions
-/

/-- The two expressions are lifted as they are, and compiled to terms that are alike. -/
def ExprsAlike (owner : Name) (Γ : BinderPairs) (e e' : Expr) : Prop :=
  ∀ s, ∃ c c', Lift.lift owner e s = (c, s) ∧ Lift.lift owner e' s = (c', s) ∧
    ∀ ctx, Alongside (· = ·) (Term.Alike (SameBinder Γ)) (expr ctx c) (expr ctx c')

variable {owner : Name}

/-- The jump tables of matching alternatives are filled alike. -/
theorem alongside_slotsOf {alts alts' : List (Alt Expr)} (hlength : alts.length = alts'.length)
    (htags : ∀ p ∈ alts.zip alts', p.1.tag = p.2.tag)
    (hbinders : ∀ p ∈ alts.zip alts', p.1.binders.length = p.2.binders.length)
    (h : ∀ p ∈ alts.zip alts',
      ExprsAlike owner (Γ.under p.1.binders p.2.binders) p.1.body p.2.body) (arities : List UInt32)
    (s : LiftState) :
    ∃ cs cs', Lift.liftAlts owner alts s = (cs, s) ∧ Lift.liftAlts owner alts' s = (cs', s) ∧
      ∀ ctx slots slots', SlotsAlike (SameBinder Γ) slots slots' →
        Alongside (· = ·) (SlotsAlike (SameBinder Γ)) (slotsOf ctx arities slots cs)
          (slotsOf ctx arities slots' cs') := by
  induction alts generalizing alts' with
  | nil =>
    obtain rfl : alts' = [] := length_eq_zero_iff.1 hlength.symm
    exact ⟨[], [], rfl, rfl, fun _ _ _ hslots => .pure hslots⟩
  | cons alt alts ih =>
    cases alts' with
    | nil => cases hlength
    | cons alt' alts' =>
    obtain ⟨tag, xs, body⟩ := alt
    obtain ⟨tag', ys, body'⟩ := alt'
    obtain ⟨htag, hts⟩ := forall_mem_cons.1 htags
    obtain ⟨hbinder, hbs⟩ := forall_mem_cons.1 hbinders
    obtain ⟨hbody, hbodies⟩ := forall_mem_cons.1 h
    obtain rfl : tag = tag' := htag
    obtain ⟨c, c', hc, hc', hcc⟩ := hbody s
    obtain ⟨cs, cs', hcs, hcs', hrest⟩ := ih (Nat.succ.inj hlength) hts hbs hbodies
    refine ⟨⟨tag, xs, c⟩ :: cs, ⟨tag, ys, c'⟩ :: cs', ?_, ?_, fun ctx slots slots' hslots => ?_⟩
    · simp only [Lift.liftAlts, bind, StateT.bind] at hc hcs ⊢
      simp only [hc, hcs]
      rfl
    · simp only [Lift.liftAlts, bind, StateT.bind] at hc' hcs' ⊢
      simp only [hc', hcs']
      rfl
    · rw [slotsOf, slotsOf,
        show checkAlt arities slots ⟨tag, xs, c⟩ = checkAlt arities slots' ⟨tag, ys, c'⟩ from
          checkAlt_eq hslots arities rfl hbinder]
      exact (Alongside.check _).bind fun _ _ _ => (hcc ctx).bind fun t t' ht =>
        (Alongside.labelling (Term.alike_bracketAll hbinder ht)).bind fun u u' hu =>
          hrest ctx _ _ (hslots.set hu tag.toNat)

/-- Binding a name that was made up for a default on both sides does not part names related by `M`. -/
def DefaultsApart (R : Nat → Nat → Prop) (M : Name → Name → Prop) : Prop :=
  ∀ d d', R d d' → R (d + 1) (d' + 1) ∧
    ∀ a b, M a b → Under ("$d~" ++ toString d) ("$d~" ++ toString d') M a b

theorem defaultsApart_sameBinder (hΓ : ∀ p ∈ Γ, SameDefault p.1 p.2) :
    DefaultsApart (· = ·) (SameBinder Γ) := by
  rintro d _ rfl
  refine ⟨rfl, fun x y hxy => ?_⟩
  have hsame := sameDefault_of_sameBinder hΓ hxy d
  by_cases hx : x = "$d~" ++ toString d
  · exact .inl ⟨hx, hsame.1 hx⟩
  · exact .inr ⟨hx, fun hy => hx (hsame.2 hy), hxy⟩

theorem alongside_global {M : Name → Name → Prop} (ctx : Context) (x : Name) :
    Alongside R (Term.Alike M) (expr ctx (.global x)) (expr ctx (.global x)) := by
  rw [expr]
  split
  · exact .labelling (Term.alike_newLeaf nofun)
  · exact .throw _

theorem alongside_lit {M : Name → Name → Prop} (ctx : Context) (l : Literal) :
    Alongside R (Term.Alike M) (expr ctx (.lit l)) (expr ctx (.lit l)) := by
  refine .labelling ((Term.alike_newLeaf (M := M) (z := .lit l) nofun).bind fun t u h => ?_)
  cases l with
  | str text =>
    exact (Term.alike_newLeaf (M := M) (z := .prim .unpack) nofun).bind fun f g hfg =>
      Term.alike_newApps hfg (.cons h .nil)
  | _ => exact .pure h

/-- A default that several slots share is bound by name on both sides, or on neither. -/
theorem alongside_caseOf {ctx : Context} {M : Name → Name → Prop} (hM : DefaultsApart R M)
    {scrut scrut' : Core} {alts alts' : List (Alt Core)} {other other' : Option Core}
    (arities : List UInt32)
    (hslots : Alongside R (SlotsAlike M) (slotsOf ctx arities (replicate arities.length none) alts)
      (slotsOf ctx arities (replicate arities.length none) alts'))
    (hother : Alongside R (Option.Rel (Term.Alike M)) (otherOf ctx other) (otherOf ctx other'))
    (hscrut : Alongside R (Term.Alike M) (expr ctx scrut) (expr ctx scrut')) :
    Alongside R (Term.Alike M) (expr ctx (.caseOf scrut arities alts other))
      (expr ctx (.caseOf scrut' arities alts' other')) := by
  rw [expr, expr]
  refine hslots.bind fun slots slots' hslots => hother.bind fun o o' ho => ?_
  cases ho with
  | none =>
    exact hscrut.bind fun t t' ht => .labelling (alike_assembleCase ht hslots .none arities)
  | @some d d' hd =>
    simp only [needsName_eq hslots hd]
    split
    · have hfresh : Alongside R (fun x y => ∃ d d', R d d' ∧ x = "$d~" ++ toString d ∧
          y = "$d~" ++ toString d') freshDefault freshDefault :=
        fun _ d d' h => ⟨rfl, (hM d d' h).1, d + 1, d' + 1, (hM d d' h).1, rfl, rfl⟩
      refine hfresh.bind fun x y hxy => ?_
      obtain ⟨k, k', hk, rfl, rfl⟩ := hxy
      have under {t t' : Term} (h : t.Alike M t') := h.mono (hM k k' hk).2
      have hvar : Under ("$d~" ++ toString k) ("$d~" ++ toString k') M ("$d~" ++ toString k)
          ("$d~" ++ toString k') := .inl ⟨rfl, rfl⟩
      refine (Alongside.labelling (Term.alike_newVar hvar)).bind fun v v' hv =>
        hscrut.bind fun t t' ht => .labelling ?_
      have hcase := alike_assembleCase (under ht) (hslots.mono fun _ _ => under) (.some hv) arities
      exact hcase.bind fun u u' hu => (Term.alike_bracket hu).bind fun w w' hw =>
        Term.alike_newApp hw hd
    · exact hscrut.bind fun t t' ht => .labelling (alike_assembleCase ht hslots (.some hd) arities)

/-- **The terms of expressions that differ in local names only.** -/
theorem alongside_expr {e e' : Expr} (h : e.Alpha SameDefault Γ e')
    (hΓ : ∀ p ∈ Γ, SameDefault p.1 p.2) : ExprsAlike owner Γ e e' := by
  induction h with
  | @var Γ x y hxy => exact fun s => ⟨_, _, rfl, rfl, fun ctx => .labelling (Term.alike_newVar hxy)⟩
  | global x => exact fun s => ⟨_, _, rfl, rfl, fun ctx => alongside_global ctx x⟩
  | lit l => exact fun s => ⟨_, _, rfl, rfl, fun ctx => alongside_lit ctx l⟩
  | prim p => exact fun s => ⟨_, _, rfl, rfl, fun ctx => .labelling (Term.alike_newLeaf nofun)⟩
  | comb _ | con _ _ => exact fun s => ⟨_, _, rfl, rfl, fun ctx => .labelling (Term.alike_newLeaf nofun)⟩
  | app _ _ ihf iha =>
    intro s
    obtain ⟨f, g, hf, hg, hfg⟩ := ihf hΓ s
    obtain ⟨a, b, ha, hb, hab⟩ := iha hΓ s
    refine ⟨.app f a, .app g b, ?_, ?_, ?_⟩
    · simp only [Lift.lift, bind, StateT.bind, hf, ha]
      rfl
    · simp only [Lift.lift, bind, StateT.bind, hg, hb]
      rfl
    · exact fun ctx => (hfg ctx).bind fun t t' ht => (hab ctx).bind fun u u' hu =>
        .labelling (Term.alike_newApp ht hu)
  | @lam Γ x y body body' hxy _ ih =>
    intro s
    obtain ⟨b, b', hb, hb', hbb⟩ := ih (forall_mem_cons.2 ⟨hxy, hΓ⟩) s
    refine ⟨.lam x b, .lam y b', ?_, ?_, ?_⟩
    · simp only [Lift.lift, bind, StateT.bind, hb]
      rfl
    · simp only [Lift.lift, bind, StateT.bind, hb']
      rfl
    · exact fun ctx => (hbb ctx).bind fun t t' ht => .labelling (Term.alike_bracket ht)
  | @letIn Γ x y rhs rhs' body body' _ hxy _ ihr ihb =>
    intro s
    obtain ⟨r, r', hr, hr', hrr⟩ := ihr hΓ s
    obtain ⟨b, b', hb, hb', hbb⟩ := ihb (forall_mem_cons.2 ⟨hxy, hΓ⟩) s
    refine ⟨.letIn x r b, .letIn y r' b', ?_, ?_, ?_⟩
    · simp only [Lift.lift, bind, StateT.bind, hr, hb]
      rfl
    · simp only [Lift.lift, bind, StateT.bind, hr', hb']
      rfl
    · exact fun ctx => (hbb ctx).bind fun t t' ht =>
        (Alongside.labelling (Term.alike_bracket ht)).bind fun f f' hf =>
          (hrr ctx).bind fun u u' hu => .labelling (Term.alike_newApp hf hu)
  | @caseOf Γ scrut scrut' alts alts' other other' arities _ hlength htags hbinders _ hsome _ ihs iha
      iho =>
    intro s
    obtain ⟨c, c', hc, hc', hcc⟩ := ihs hΓ s
    obtain ⟨cs, cs', hcs, hcs', hslots⟩ := alongside_slotsOf (Γ := Γ) hlength htags
      (fun p hp => (hbinders p hp).length_eq)
      (fun p hp => iha p hp (BinderPairs.forall_under hΓ (hbinders p hp))) arities s
    -- the defaults are there on both sides or on neither
    have hother : ∃ o o', Lift.liftOther owner other s = (o, s) ∧
        Lift.liftOther owner other' s = (o', s) ∧ ∀ ctx,
        Alongside (· = ·) (Option.Rel (Term.Alike (SameBinder Γ))) (otherOf ctx o) (otherOf ctx o') := by
      cases other with
      | none =>
        cases other' with
        | none => exact ⟨none, none, rfl, rfl, fun _ => .pure .none⟩
        | some e' => cases hsome
      | some e =>
        cases other' with
        | none => cases hsome
        | some e' =>
          obtain ⟨d, d', hd, hd', hdd⟩ := iho e e' rfl rfl hΓ s
          refine ⟨some d, some d', ?_, ?_, fun ctx => (hdd ctx).bind fun t t' ht => .pure (.some ht)⟩
          · simp only [Lift.liftOther, bind, StateT.bind, hd]
            rfl
          · simp only [Lift.liftOther, bind, StateT.bind, hd']
            rfl
    obtain ⟨o, o', ho, ho', hother⟩ := hother
    refine ⟨.caseOf c arities cs o, .caseOf c' arities cs' o', ?_, ?_,
      fun ctx => alongside_caseOf (defaultsApart_sameBinder hΓ) arities (hslots ctx _ _ (slotsAlike_replicate _)) (hother ctx)
        (hcc ctx)⟩
    · simp only [Lift.lift, bind, StateT.bind, hc, hcs, ho]
      rfl
    · simp only [Lift.lift, bind, StateT.bind, hc', hcs', ho']
      rfl

/-!
## Modules
-/

/-- Definitions in the form that is compiled have the same name and the same code. -/
def BindingsAlike (b b' : Binding Core) : Prop :=
  b.name = b'.name ∧ ∀ globals, Alongside (· = ·) (· = ·) (binding globals b) (binding globals b')

theorem sameDefault_numbered (x y : Name) (k : Nat) (h : x = "$d" ↔ y = "$d") :
    SameDefault (x ++ "~" ++ toString k) (y ++ "~" ++ toString k) := by
  have hleft : ∀ (z : Name) (j : Nat),
      z ++ "~" ++ toString k = "$d~" ++ toString j ↔ z = "$d" ∧ k = j := by
    intro z j
    constructor
    · exact fun heq => numbered_inj (y := "$d") heq
    · rintro ⟨rfl, rfl⟩
      rfl
  intro j
  rw [hleft, hleft, h]

theorem bindingsAlike_liftBinding {b b' : Binding Expr}
    (h : b.Alpha (fun x y => x = "$d" ↔ y = "$d") b')
    (hfree : b.body.freeOccurrences b.params = []) (n : Nat) :
    ∃ c c' k, Lift.liftBinding b n = ([c], k) ∧ Lift.liftBinding b' n = ([c'], k) ∧
      BindingsAlike c c' := by
  obtain ⟨r, r', k, hr, hr', hrr⟩ := h.rename sameDefault_numbered hfree n
  have hparams : ∀ p ∈ BinderPairs.under [] r.params r'.params, SameDefault p.1 p.2 :=
    BinderPairs.forall_under (forall_mem_nil _) hrr.params
  have hbody : ExprsAlike r.name _ r.body r'.body := alongside_expr hrr.body hparams
  obtain ⟨c, c', hc, hc', halike⟩ := hbody ⟨k, []⟩
  refine ⟨⟨r.name, r.params, c⟩, ⟨r'.name, r'.params, c'⟩, k, ?_, ?_, hrr.name,
    fun globals => ?_⟩
  · simp only [Lift.liftBinding, hr, hc]
  · simp only [Lift.liftBinding, hr', ← hrr.name, hc']
  · rw [binding, binding, ← hrr.name]
    refine (halike _).bind fun t t' ht =>
      (Alongside.labelling (Term.alike_bracketAll hrr.params.length_eq ht)).bind fun u u' hu => ?_
    obtain rfl : u = u' := hu.eq
    cases u.findVar with
    | none => exact .pure rfl
    | some x => exact .throw _

theorem bindingsAlike_liftBindings {bs bs' : List (Binding Expr)}
    (h : Forall₂ (Binding.Alpha fun x y => x = "$d" ↔ y = "$d") bs bs')
    (hfree : ∀ b ∈ bs, b.body.freeOccurrences b.params = []) (n : Nat) :
    Forall₂ BindingsAlike (Lift.liftBindings bs n).1 (Lift.liftBindings bs' n).1 := by
  induction h generalizing n with
  | nil => exact .nil
  | @cons b b' bs bs' hb _ ih =>
    obtain ⟨hfree, hfrees⟩ := forall_mem_cons.1 hfree
    obtain ⟨c, c', k, hc, hc', hcc⟩ := bindingsAlike_liftBinding hb hfree n
    simp only [Lift.liftBindings, bind, StateT.bind, hc, hc']
    exact .cons hcc (ih hfrees k)

theorem map_eq_map_of_forall₂ {f : α → γ} {g : β → γ} (h : Forall₂ (fun a b => f a = g b) xs ys) :
    xs.map f = ys.map g := by
  induction h with
  | nil => rfl
  | cons hab _ ih => rw [map_cons, map_cons, hab, ih]

theorem alongside_program_of_defs {m m' : Module} (hname : m.name = m'.name)
    (hnames : m.defs.map (·.name) = m'.defs.map (·.name))
    (hdefs : Alongside R (Forall₂ (· = ·)) (m.lift.mapM (binding (m.lift.map (·.name))))
      (m'.lift.mapM (binding (m'.lift.map (·.name))))) :
    Alongside R (· = ·) (program m) (program m') := by
  unfold program
  rw [hnames]
  cases duplicate? [] (m'.defs.map (·.name)) with
  | some name => exact .throw _
  | none =>
    refine hdefs.bind fun defs defs' hdd => ?_
    obtain rfl : defs = defs' := forall₂_eq_eq_eq ▸ hdd
    rw [hname]
    exact .pure rfl

theorem alongside_program {m m' : Module} (hclosed : m.Closed)
    (h : m.Alpha (fun x y => x = "$d" ↔ y = "$d") m') :
    Alongside (· = ·) (· = ·) (program m) (program m') := by
  have hnames : m.defs.map (·.name) = m'.defs.map (·.name) :=
    map_eq_map_of_forall₂ (h.defs.imp fun _ _ hb => hb.name)
  have hlift : Forall₂ BindingsAlike m.lift m'.lift :=
    bindingsAlike_liftBindings h.defs hclosed 0
  have hglobals : m.lift.map (·.name) = m'.lift.map (·.name) :=
    map_eq_map_of_forall₂ (hlift.imp fun _ _ hb => hb.1)
  refine alongside_program_of_defs h.name hnames ?_
  rw [hglobals]
  exact .mapM (hlift.imp fun _ _ hb => hb.2 _)

end Compile

/-- **Renaming binders does not change what is compiled**, as long as the name `$d` is neither given to
a binder nor taken away from one. -/
theorem Compiler.compile_eq_of_alpha (c : Compiler) {m m' : Module} (hclosed : m.Closed)
    (h : m.Alpha (fun x y => x = "$d" ↔ y = "$d") m') : c.compile m = c.compile m' := by
  have hprogram := Compile.alongside_program hclosed h
  have hstate := (hprogram 0 c.defaults c.defaults rfl).2.1
  exact Prod.ext (hprogram.fst_eq 0 rfl) (congrArg Compiler.mk hstate)

/-- `f p q = \x -> let y = p in case x of { 1 a b -> a y; _ -> q x }`, for a type with three constructors. -/
def tangled (p q x y a b : Name) : Module where
  name := "tangled"
  datatypes := []
  defs := [⟨"f", [p, q], .lam x (.letIn y (.var p) (.caseOf (.var x) [0, 2, 0]
    [⟨1, [a, b], .app (.var a) (.var y)⟩] (some (.app (.var q) (.var x)))))⟩]

/-- Names that hide others and names with numbers make no difference. -/
theorem compile_eq_of_alpha_tangled : (tangled "p" "q" "x" "y" "a" "b").Closed ∧
    (tangled "p" "q" "x" "y" "a" "b").Alpha (fun x y => x = "$d" ↔ y = "$d")
      (tangled "u" "v" "y~4" "u" "x" "v") ∧
    (tangled "p" "q" "x" "y" "a" "b").compile = (tangled "u" "v" "y~4" "u" "x" "v").compile := by
  have hclosed : (tangled "p" "q" "x" "y" "a" "b").Closed := by
    intro d hd
    obtain rfl := List.mem_singleton.1 hd
    decide
  have halpha : (tangled "p" "q" "x" "y" "a" "b").Alpha (fun x y => x = "$d" ↔ y = "$d")
      (tangled "u" "v" "y~4" "u" "x" "v") := by
    refine ⟨rfl, rfl, .cons ⟨rfl, .cons (by decide) (.cons (by decide) .nil), ?_⟩ .nil⟩
    refine .lam (by decide) (.letIn (.var (by decide)) (by decide) (.caseOf _ (.var (by decide)) rfl
      ?_ ?_ ?_ rfl ?_))
    · exact List.forall_mem_singleton.2 rfl
    · exact List.forall_mem_singleton.2 (.cons (by decide) (.cons (by decide) .nil))
    · exact List.forall_mem_singleton.2 (.app (.var (by decide)) (.var (by decide)))
    · rintro _ _ ⟨⟩ ⟨⟩
      exact .app (.var (by decide)) (.var (by decide))
  exact ⟨hclosed, halpha, congrArg Prod.fst (Compiler.compile_eq_of_alpha {} hclosed halpha)⟩

/-- `main = \x -> case x of { _ -> x 1 }`, for a type with two constructors. -/
def forked (x : Name) : Module where
  name := "forked"
  datatypes := []
  defs := [⟨"main", [], .lam x (.caseOf (.var x) [0, 0] []
    (some (.app (.var x) (.lit (.int 1)))))⟩]

/-- **A binder called `$d` is captured by a default**: the scrutinee becomes the default. -/
theorem Module.compile_ne_of_default_name : (forked "x").Closed ∧ (forked "$d").Closed ∧
    (forked "x").Alpha (fun _ _ => True) (forked "$d") ∧
    (forked "x").compile.map Program.render =
      .ok "main/1 = ((S @ (((C' @ S) @ Case2) @ I)) @ ((C @ I) @ 1))\n" ∧
    (forked "$d").compile.map Program.render =
      .ok "main/1 = ((B @ ((S @ ((S @ Case2) @ I)) @ I)) @ ((C @ I) @ 1))\n" := by
  have hclosed : ∀ x, (forked x).Closed := by
    intro x d hd
    obtain rfl := List.mem_singleton.1 hd
    simp [Expr.freeOccurrences, Expr.freeInAlts, Expr.freeInOther]
  refine ⟨hclosed "x", hclosed "$d", ?_, by cbv, by cbv⟩
  refine ⟨rfl, rfl, .cons ⟨rfl, .nil, .lam trivial (.caseOf _ (.var (by decide)) rfl (by simp)
    (by simp) (by simp) rfl ?_)⟩ .nil⟩
  rintro _ _ ⟨⟩ ⟨⟩
  exact .app (.var (by decide)) (.lit _)

end GraphReduction
