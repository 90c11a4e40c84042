import GraphReduction.Proofs.Compile.Meaning
import GraphReduction.Proofs.Core.Lifting

/-!
# The value of a module and its program

* `Module.nodup_of_compile`: no two definitions of a module that compiles have the same name.
* `Module.means_of_compile`: **the top-level names of a program mean the definitions of the module.**
* `Module.yields_of_value`: **the entry point of a program has the value of the module** as a tree.
-/

namespace GraphReduction

open List

theorem Compile.nodup_of_duplicate? {seen xs : List Name} (h : duplicate? seen xs = none) :
    xs.Nodup ∧ ∀ x ∈ xs, x ∉ seen := by
  induction xs generalizing seen with
  | nil => exact ⟨nodup_nil, forall_mem_nil _⟩
  | cons x xs ih =>
    rw [duplicate?] at h
    split at h
    · cases h
    · rename_i hx
      obtain ⟨hnodup, hnot⟩ := ih h
      refine ⟨nodup_cons.2 ⟨fun hmem => hnot x hmem mem_cons_self, hnodup⟩,
        forall_mem_cons.2 ⟨hx, fun y hy hmem => hnot y hy (mem_cons_of_mem _ hmem)⟩⟩

namespace Module

variable {name source : String} {m : Module} {c : Compiler} {p : Program}

theorem nodup_of_compile (h : (c.compile m).1 = .ok p) : (m.defs.map (·.name)).Nodup :=
  (Compile.nodup_of_duplicate? (definitions_of_compile h).1).1

/-- **The top-level names of a program mean the definitions of the module.** -/
theorem means_of_compile (hread : Module.read name source = .ok m)
    (hp : (c.compile m).1 = .ok p) : ∀ d ∈ m.defs, Lift.Means p.tree? d := by
  obtain ⟨hnodup, htidy, hmeans⟩ := lift_of_read hread p.tree?
  refine hmeans (defines_of_compile (scoped_lift (scoped_of_read hread)) htidy ?_
    (hnodup (nodup_of_compile hp)) hp)
  rintro x hx k rfl
  exact hx (baseName_numbered "$d" k)

/-- **The entry point of a program has the value of the module.** -/
theorem yields_of_value (hread : Module.read name source = .ok m)
    (hp : (c.compile m).1 = .ok p) {fuel : Nat} {v : Value} (hv : m.value? .listedTag fuel = some v) :
    Tree.Yields p.tree? (.atom (.global Program.entryPoint)) v := by
  have hmeans := means_of_compile hread hp
  have hscoped := scoped_of_read hread
  have hentry : (Expr.global Program.entryPoint).Closed source.length := .global trivial
  refine yields_evaluateValue (σ := .var) (fun x e he => ?_) hv hentry (.refl _)
  obtain ⟨d, hd, rfl⟩ := Option.map_eq_some_iff.1 he
  have hmem := mem_of_find?_eq_some hd
  obtain rfl : d.name = x := by simpa using find?_some hd
  refine ⟨?_, hmeans d hmem⟩
  have hbody : d.body.Scoped (fun _ => True) source.length d.params :=
    (hscoped d hmem).weaken (fun _ _ => trivial) (List.Subset.refl _)
  rw [← append_nil d.params] at hbody
  exact hbody.lams

end Module

end GraphReduction
