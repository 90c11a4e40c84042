import GraphReduction.Proofs.Core.Alpha
import GraphReduction.Proofs.Core.Lifting

/-!
# Lifted definitions stand on their own

* `Expr.ScopedIn.of_closed`: a closed expression is in scope, without anything said of its size.
* `Binding.Standalone`: a definition without groups, whose binders are all different.
* `Module.standalone_lift`: **lifting a closed module gives such definitions**, those of the module
  among them.
-/

namespace GraphReduction

open List

variable {D : Name → Prop} {Γ : List Name}

namespace Expr

/-- No free names and known globals: that is all scoping asks. -/
theorem ScopedIn.of_closed {e : Expr} (hfree : ∀ x, x ∉ e.freeOccurrences Γ)
    (hD : ∀ g, .global g ∈ e.mentions → D g) : e.ScopedIn D none Γ := by
  induction e generalizing Γ with
  | var x => exact .var (by_contra fun hx => hfree x (by simp [freeOccurrences, hx]))
  | global x => exact .global (hD x (mem_singleton_self _))
  | lit _ | prim _ | comb _ | con _ _ => constructor
  | app f a ihf iha =>
    simp only [freeOccurrences, mentions, mem_append] at hfree hD
    exact .app (ihf (fun x hx => hfree x (.inl hx)) fun g hg => hD g (.inl hg))
      (iha (fun x hx => hfree x (.inr hx)) fun g hg => hD g (.inr hg))
  | lam x body ih => exact .lam (ih hfree fun g hg => hD g (mem_cons_of_mem _ hg))
  | letIn x rhs body ihr ihb =>
    simp only [freeOccurrences, mentions, mem_append, mem_cons] at hfree hD
    exact .letIn (ihr (fun x hx => hfree x (.inl hx)) fun g hg => hD g (.inr (.inl hg)))
      (ihb (fun x hx => hfree x (.inr hx)) fun g hg => hD g (.inr (.inr hg)))
  | letRec binds body ihbinds ihbody =>
    rw [mentions_letRec] at hD
    simp only [freeOccurrences, groupMentions, mem_append, mem_cons, mem_flatMap, mem_freeInBinds] at hfree hD
    refine .letRec (fun _ h => by cases h) (fun b hb => ihbinds b hb (fun x hx => ?_) fun g hg => ?_)
      (ihbody (fun x hx => hfree x (.inr hx)) fun g hg => hD g (.inr (.inr hg)))
    · exact hfree x (.inl ⟨b, hb, hx⟩)
    · exact hD g (.inr (.inl ⟨b, hb, .inr hg⟩))
  | caseOf scrut arities alts other ihs iha iho =>
    rw [mentions_caseOf] at hD
    simp only [freeOccurrences, caseMentions, altMentions, mem_append, mem_flatMap, mem_freeInAlts,
      mem_freeInOther, Option.mem_toList] at hfree hD
    refine .caseOf (ihs (fun x hx => hfree x (.inl (.inl hx))) fun g hg => hD g (.inl hg))
      (fun _ h => by cases h)
      (fun alt halt => iha alt halt (fun x hx => ?_)
      fun g hg => ?_) fun e he => iho e he (fun x hx => ?_) fun g hg => ?_
    · exact hfree x (.inl (.inr ⟨alt, halt, hx⟩))
    · exact hD g (.inr (.inl ⟨alt, halt, .inr hg⟩))
    · exact hfree x (.inr ⟨e, he, hx⟩)
    · exact hD g (.inr (.inr ⟨e, he, hg⟩))

end Expr

namespace Core

theorem group_notMem (c : Core) : .group ∉ c.mentions := by
  induction c with
  | caseOf scrut arities alts other ihs iha iho =>
    rw [mentions_caseOf]
    simp only [caseMentions, altMentions, mem_append, mem_flatMap, mem_map, Option.mem_toList]
    rintro (h | ⟨alt, halt, h | h⟩ | ⟨e, he, h⟩)
    · exact ihs h
    · simp at h
    · exact iha alt halt h
    · exact iho e he h
  | _ => simp_all [mentions, toExpr, Expr.mentions]

/-- Every global that is mentioned is known. -/
theorem ScopedIn.global_mem {c : Core} {size : Option Nat} (h : c.ScopedIn D size Γ) {g : Name}
    (hg : .global g ∈ c.mentions) : D g := by
  induction c generalizing Γ with
  | global x =>
    cases h with
    | global hx => cases mem_singleton.1 hg; exact hx
  | app f a ihf iha =>
    cases h with
    | app hf ha => exact (mem_append.1 hg).elim (ihf hf) (iha ha)
  | lam x body ih =>
    cases h with
    | lam hbody => exact ih hbody ((mem_cons.1 hg).resolve_left nofun)
  | letIn x rhs body ihr ihb =>
    cases h with
    | letIn hrhs hbody =>
      exact (mem_append.1 ((mem_cons.1 hg).resolve_left nofun)).elim (ihr hrhs) (ihb hbody)
  | caseOf scrut arities alts other ihs iha iho =>
    obtain ⟨hscrut, -, halts, hother⟩ := scoped_caseOf.1 h
    rw [mentions_caseOf] at hg
    simp only [caseMentions, altMentions, mem_append, mem_flatMap, mem_map, Option.mem_toList] at hg
    rcases hg with hg | ⟨alt, halt, hg | hg⟩ | ⟨e, he, hg⟩
    · exact ihs hscrut hg
    · simp at hg
    · exact iha alt halt (halts alt halt) hg
    · exact iho e he (hother e he) hg
  | _ => cases hg

end Core

/-- **A definition that stands on its own**: without groups, with binders that are all different, and
with nothing but its parameters and `globals` in scope. -/
structure Binding.Standalone (globals : Name → Prop) (b : Binding Core) : Prop where
  flat : .group ∉ b.body.mentions
  distinct : ∀ x, b.params.count x + b.body.mentions.count (.binder x) ≤ 1
  closed : ∀ x ∈ b.body.freeVars, x ∈ b.params
  known : ∀ g, .global g ∈ b.body.mentions → globals g

theorem Lift.Tidied.count_le {N : Naming} {b : Binding Core} (h : Lift.Tidied N b) (x : Name) :
    b.params.count x + b.body.mentions.count (.binder x) ≤ 1 := by
  have hparams := nodup_iff_count_le_one.1 h.nodup x
  have hbody : b.body.mentions.count (.binder x) ≤ 1 := h.body.once x
  by_cases hx : x ∈ b.params
  · have : b.body.mentions.count (.binder x) = 0 := count_eq_zero.2 fun hmem => (h.body.named x hmem).2 hx
    omega
  · rw [count_eq_zero.2 hx]
    omega

/-- **What lifting gives for a closed module** without marks in its top-level names: definitions that
stand on their own, with different names if the module has no two of the same, and the definitions of
the module in their order. -/
theorem Module.standalone_lift {m : Module} (hclosed : m.Closed)
    (hmark : ∀ d ∈ m.defs, '$' ∉ d.name.toList) :
    (∀ b ∈ m.lift, b.Standalone fun g => (∃ d ∈ m.defs, .global g ∈ d.body.mentions) ∨
      g ∈ m.lift.map (·.name)) ∧
    ((m.defs.map (·.name)).Nodup → (m.lift.map (·.name)).Nodup) ∧
    ((m.lift.filter ('$' ∉ ·.name.toList)).map fun b => (b.name, b.params.length)) =
      m.defs.map fun d => (d.name, d.params.length) := by
  have hscoped : ∀ d ∈ m.defs, d.body.ScopedIn (fun g => (∃ d ∈ m.defs, .global g ∈ d.body.mentions) ∨
      g ∈ m.lift.map (·.name)) none d.params := fun d hd =>
    .of_closed (fun x hx => absurd (hclosed d hd ▸ hx) not_mem_nil) fun g hg => .inl ⟨d, hd, hg⟩
  have hlifted := Lift.scoped_liftBindings hscoped 0 fun b hb => .inr (mem_map_of_mem hb)
  obtain ⟨-, hnames, hkept, htidy, -⟩ := Lift.liftBindings_spec (N := .any) (Δ := fun _ => none)
    (fun d _ => ⟨d.body.spelled_any, fun _ _ => trivial⟩)
    (fun d hd => (hscoped d hd).weaken (fun _ _ => trivial) (List.Subset.refl _)) hmark 0
  exact ⟨fun b hb => ⟨b.body.group_notMem, (htidy b hb).1.count_le, fun x hx =>
    (hlifted b hb).mem_of_freeVars hx, fun g hg => (hlifted b hb).global_mem hg⟩, hnames, hkept⟩

/-- A function with a group of one definition inside. -/
def Module.loop : Module :=
  ⟨"loop", [], [⟨"main", ["x"], .letRec [("f", .lam "y" (.app (.var "f") (.var "x")))] (.var "f")⟩]⟩

theorem Module.standalone_lift_loop :
    (∀ b ∈ loop.lift, b.Standalone fun g => (∃ d ∈ loop.defs, .global g ∈ d.body.mentions) ∨
      g ∈ loop.lift.map (·.name)) ∧
    loop.lift.length = 2 ∧ (loop.lift.map (·.name)).Nodup ∧
    ((loop.lift.filter ('$' ∉ ·.name.toList)).map fun b => (b.name, b.params.length)) = [("main", 1)] := by
  obtain ⟨hall, hnodup, hkept⟩ := standalone_lift (m := loop) (by unfold Module.Closed; decide) (by decide)
  exact ⟨hall, by decide, hnodup (by decide), hkept⟩

end GraphReduction
