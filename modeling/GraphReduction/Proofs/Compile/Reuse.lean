import GraphReduction.Proofs.Compile.Hygiene
import GraphReduction.Proofs.Core.Lifting

/-!
# A compiler can be used again

Of the modules that were compiled before, a compiler keeps the number of defaults that were given a
name. These names are abstracted away again, and no binder of a module that is read has one of them.
-/

namespace GraphReduction

open List

namespace Compile

variable {P : Name → Prop} {Γ Γ' : List Name} {size : Nat} {ctx : Context}
  {t u : Term}

/-- The same name, with the property `P`. -/
def Own (P : Name → Prop) (x y : Name) : Prop := x = y ∧ P x

/-- No name with the property is made up for a default. -/
def NoDefault (P : Name → Prop) : Prop := ∀ x, P x → ∀ k : Nat, x ≠ "$d~" ++ toString k

theorem defaultsApart_own (hP : NoDefault P) : DefaultsApart (fun _ _ => True) (Own P) := by
  refine fun d d' _ => ⟨trivial, fun x y hxy => ?_⟩
  obtain ⟨rfl, hx⟩ := hxy
  exact .inr ⟨hP x hx d, hP x hx d', rfl, hx⟩

theorem alike_bracket_own (x : Name) (h : t.Alike (Own P) u) :
    FreshAlike (Term.Alike (Own P)) (t.bracket x) (u.bracket x) := by
  refine Term.alike_bracket (h.mono fun a b hab => ?_)
  by_cases ha : a = x
  · exact .inl ⟨ha, hab.1 ▸ ha⟩
  · exact .inr ⟨ha, hab.1 ▸ ha, hab⟩

theorem alike_bracketAll_own (xs : List Name) (h : t.Alike (Own P) u) :
    FreshAlike (Term.Alike (Own P)) (t.bracketAll xs) (u.bracketAll xs) := by
  induction xs with
  | nil => exact .pure h
  | cons x xs ih => exact ih.bind fun _ _ => alike_bracket_own x

theorem alongside_slotsOf_own {alts : List (Alt Core)} {arities : List UInt32}
    {slots slots' : List (Option Term)} (h : ∀ alt ∈ alts,
      Alongside (fun _ _ => True) (Term.Alike (Own P)) (expr ctx alt.body) (expr ctx alt.body))
    (hslots : SlotsAlike (Own P) slots slots') :
    Alongside (fun _ _ => True) (SlotsAlike (Own P)) (slotsOf ctx arities slots alts)
      (slotsOf ctx arities slots' alts) := by
  induction alts generalizing slots slots' with
  | nil => exact .pure hslots
  | cons alt alts ih =>
    obtain ⟨halt, halts⟩ := forall_mem_cons.1 h
    rw [slotsOf, slotsOf, checkAlt_eq hslots arities rfl rfl]
    exact (Alongside.check _).bind fun _ _ _ => halt.bind fun t t' ht =>
      (Alongside.labelling (alike_bracketAll_own _ ht)).bind fun u u' hu => ih halts (hslots.set hu _)

/-- **The number of defaults that were named before does not matter** for the term of an expression. -/
theorem alongside_expr_own {c : Core} (h : c.Scoped (· ∈ ctx.globals) size Γ) (hc : c.Tidy P Γ')
    (hP : NoDefault P) (hΓ : ∀ x ∈ Γ, P x) :
    Alongside (fun _ _ => True) (Term.Alike (Own P)) (expr ctx c) (expr ctx c) := by
  induction c generalizing Γ Γ' with
  | var x =>
    cases h with
    | var hx => exact .labelling (Term.alike_newVar ⟨rfl, hΓ x hx⟩)
  | global x => exact alongside_global ctx x
  | lit l => exact alongside_lit ctx l
  | prim _ | comb _ | con _ _ => exact .labelling (Term.alike_newLeaf nofun)
  | app f a ihf iha =>
    cases h with
    | app hf ha =>
      exact (ihf hf hc.app.1 hΓ).bind fun t t' ht => (iha ha hc.app.2 hΓ).bind fun u u' hu =>
        .labelling (Term.alike_newApp ht hu)
  | lam x body ih =>
    cases h with
    | lam hbody =>
      obtain ⟨⟨hx, -⟩, hcb⟩ := hc.lam
      exact (ih hbody hcb (forall_mem_cons.2 ⟨hx, hΓ⟩)).bind fun t t' ht =>
        .labelling (alike_bracket_own x ht)
  | letIn x rhs body ihr ihb =>
    cases h with
    | letIn hrhs hbody =>
      obtain ⟨hcr, ⟨hx, -⟩, hcb⟩ := hc.letIn
      exact (ihb hbody hcb (forall_mem_cons.2 ⟨hx, hΓ⟩)).bind fun t t' ht =>
        (Alongside.labelling (alike_bracket_own x ht)).bind fun f f' hf =>
          (ihr hrhs hcr hΓ).bind fun u u' hu => .labelling (Term.alike_newApp hf hu)
  | caseOf scrut arities alts other ihs iha iho =>
    obtain ⟨hscrut, -, halts, hother⟩ := Core.scoped_caseOf.1 h
    obtain ⟨hcs, hca, hco⟩ := hc.caseOf
    refine alongside_caseOf (defaultsApart_own hP) arities
      (alongside_slotsOf_own (fun alt halt => ?_) (slotsAlike_replicate _)) ?_ (ihs hscrut hcs hΓ)
    · refine iha alt halt (halts alt halt) (hca alt halt).2 fun x hx => ?_
      exact (mem_append.1 hx).elim (fun hx => ((hca alt halt).1 x hx).1) (hΓ x)
    · cases other with
      | none => exact .pure .none
      | some e =>
        exact (iho e rfl (hother e rfl) (hco e rfl) hΓ).bind fun t t' ht => .pure (.some ht)

theorem alongside_binding_own {b : Binding Core} {globals : List Name}
    (h : b.body.Scoped (· ∈ globals) size b.params) (hb : b.body.Tidy P b.params) (hP : NoDefault P)
    (hparams : ∀ x ∈ b.params, P x) :
    Alongside (fun _ _ => True) (· = ·) (binding globals b) (binding globals b) := by
  have hexpr : Alongside _ _ (expr ⟨globals, b.name⟩ b.body) _ := alongside_expr_own h hb hP hparams
  refine hexpr.bind fun t t' ht =>
    (Alongside.labelling (alike_bracketAll_own b.params ht)).bind fun u u' hu => ?_
  obtain rfl : u = u' := (hu.mono fun _ _ h => h.1).eq
  cases u.findVar with
  | none => exact .pure rfl
  | some x => exact .throw _

end Compile

namespace Compiler

theorem compile_fst_eq {name source : String} {m : Module} (h : Module.read name source = .ok m)
    (c c' : Compiler) : (c.compile m).1 = (c'.compile m).1 := by
  have hscoped := Module.scoped_lift (Module.scoped_of_read h)
  obtain ⟨-, htidy, -⟩ := Module.lift_of_read h fun _ => none
  have hP : Compile.NoDefault (baseName · ≠ "$d") := by
    rintro x hx k rfl
    exact hx (baseName_numbered "$d" k)
  have hdefs := Compile.Alongside.mapM (forall₂_same.2 fun b hb =>
    Compile.alongside_binding_own (hscoped b hb) (htidy b hb).1 hP (htidy b hb).2)
  exact (Compile.alongside_program_of_defs rfl rfl hdefs).fst_eq 0 trivial

/-- What a compiler gives for modules one after the other. -/
def compileAll (c : Compiler) : List Module → List (Except CompileError Program)
  | [] => []
  | m :: ms => (c.compile m).1 :: (c.compile m).2.compileAll ms

/-- **Compilation does not depend on history.** Whatever was compiled before with the same compiler, and
whether that failed or not: a module that is read has the program or the error that it has on its own,
with the same sharing. -/
theorem compileAll_eq_map (c : Compiler) (ms : List Module)
    (h : ∀ m ∈ ms, ∃ name source, Module.read name source = .ok m) :
    c.compileAll ms = ms.map Module.compile := by
  induction ms generalizing c with
  | nil => rfl
  | cons m ms ih =>
    obtain ⟨⟨name, source, hm⟩, hms⟩ := forall_mem_cons.1 h
    rw [compileAll, map_cons, ih _ hms, compile_fst_eq hm c {}]
    rfl

/-- Two slots share a default, which is given a name. -/
def sharingSource : String :=
  "data Answer = Yes | No | Unknown\ndef ask f x = case x of \x7b Yes -> x; _ -> f x \x7d\n"

/-- The name of the default is another one when the module is compiled again. -/
theorem compileAll_eq_map_sharingSource : ∃ m, Module.read "sharing" sharingSource = .ok m ∧
    (compile {} m).2.defaults = 1 ∧ compileAll {} [m, m] = [m.compile, m.compile] := by
  have hnamed : ((Module.read "sharing" sharingSource).toOption.map fun m => (compile {} m).2.defaults) =
      some 1 := by decide +kernel
  obtain ⟨m, hm, hnamed⟩ := Option.map_eq_some_iff.1 hnamed
  have hread := eq_ok_of_toOption hm
  refine ⟨m, hread, hnamed, compileAll_eq_map {} [m, m] ?_⟩
  simp only [forall_mem_cons, not_mem_nil, false_imp_iff, implies_true, and_true]
  exact ⟨⟨_, _, hread⟩, _, _, hread⟩

end Compiler

end GraphReduction
