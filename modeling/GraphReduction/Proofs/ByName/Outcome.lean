import GraphReduction.Proofs.ByName.Program
import GraphReduction.Proofs.Compile.Sharing
import GraphReduction.Proofs.Load.Unfolding
import GraphReduction.Proofs.Machine.Evaluation

/-!
# From sources to outcomes

A source is read, translated to combinators, loaded as a graph and reduced. If evaluation by name gives
its entry point a value, that is the outcome of the run, unless the machine runs out of memory or stack.
-/

namespace GraphReduction

namespace Module

variable {name source : String} {m : Module} {c : Compiler} {p : Program}

theorem entry_of_compile (hp : (c.compile m).1 = .ok p) {x : Name} (hx : p.entry = some x) :
    x = Program.entryPoint := by
  obtain ⟨-, defs, s, -, rfl⟩ := definitions_of_compile hp
  exact (Option.some.inj (Option.ite_none_right_eq_some.1 hx).2).symm

/-- **A run ends with the value of the module.** Let a source be read, compiled and loaded into a new
machine, and let evaluation by name give its entry point the value `v`, with the default of a case for
the tags without an alternative that the type of the case lists with as many fields. Then a run gives `v`
or ends because memory or stack is exhausted.

The table of a case is counted with 32 bits, so the evaluation has to come to no case on `2 ^ 32`
constructors. That a program can be loaded does not rule them out: if the alternatives are the parameters
of a function in their order, abstraction leaves the bare combinator. -/
theorem run_of_value (hread : Module.read name source = .ok m)
    (hp : (c.compile m).1 = .ok p) {config : Config} {world : World} {id : Nat} {machine : Machine}
    (hload : (Machine.new config world).loadProgram p = (.ok id, machine)) {depth : Nat} {v : Value}
    (hv : m.value? .listedTag depth = some v) (fuel : Nat) :
    Meets (Machine.run fuel id) machine (fun outcome _ => outcome = .value v)
      fun e _ => e.Exhausted := by
  obtain ⟨hpinned, G, σ, entry, hunfolds, hentry, hred⟩ :=
    Machine.unfolds_of_loadProgram (shared_of_compile hp) hload
  obtain rfl := entry_of_compile hp hentry
  have hyields := yields_of_value hread hp hv
  exact Machine.run_of_yields hunfolds hpinned (hred.yields hyields) fuel

deriving instance DecidableEq for Term, Definition, Program

/-- The integer that a value is. -/
def intOf? : Value → Option Int64
  | .int n => some n
  | _ => none

theorem intOf?_eq_some {o : Option Value} {n : Int64} (h : o.bind intOf? = some n) :
    o = some (.int n) := by
  obtain ⟨v, rfl, hv⟩ := Option.bind_eq_some_iff.1 h
  cases v with
  | int k =>
    cases hv
    rfl
  | _ => cases hv

/-- Two lists that refer to each other. -/
def zigzagSource : String :=
  "data List = Nil | Cons 2\n" ++
  "def rest xs = case xs of { Cons y ys -> ys; _ -> xs }\n" ++
  "def main = letrec a = Cons 1 b; b = Cons 2 a in case rest a of { Cons x c -> #+ x 2; _ -> 0 }\n"

/-- What they are compiled to. -/
def zigzagProgram : Program :=
  let c (label : Nat) (c : Combinator) : Term := .leaf label (.comb c)
  let n (label : Nat) (n : Int64) : Term := .leaf label (.lit (.int n))
  let two : Term := .app 28 (.app 27 (c 26 .C) (.leaf 18 (.prim .add))) (n 21 2)
  let next : Term := .app 57 (.app 56 (c 55 .C') (c 36 (.caseOf 2))) (.leaf 33 (.global "rest"))
  let body : Term := .app 67 (.app 66 (c 65 .C') (c 40 .K)) (.app 61 (.app 60 (c 59 .C)
    (.app 58 next (n 32 0))) (.app 31 (.app 30 (c 29 .B) (c 23 .K)) two))
  let first : Term := .app 81 (.app 80 (c 79 .C) (c 47 (.caseOf 1))) (.app 45 (c 44 .K) (c 43 .I))
  let second : Term := .app 88 (.app 87 (c 86 .C) (c 74 (.caseOf 1))) (c 70 .K)
  let pair : Term := .app 113 (.app 112 (c 111 .C') (c 94 (.con 0 2))) (.app 97 (c 95 (.con 1 2)) (n 96 1))
  let lists : Term := .app 130 (.app 129 (c 128 .C') pair) (.app 103 (c 101 (.con 1 2)) (n 102 2))
  let first' : Term := .app 144 (.app 143 (c 142 .C) (c 120 (.caseOf 1))) (.app 118 (c 117 .K) (c 116 .I))
  let second' : Term := .app 151 (.app 150 (c 149 .C) (c 137 (.caseOf 1))) (c 133 .K)
  { module := "zigzag"
    entry := some "main"
    defs := [
      ⟨"rest", 1, .app 17 (.app 16 (c 15 .C) (.app 14 (.app 13 (c 12 .S) (c 6 (.caseOf 2))) (c 11 .I)))
        (.app 3 (c 2 .K) (c 1 .I))⟩,
      ⟨"main", 0, .app 157 (.app 92 (.app 91 (.app 90 (c 89 .S') body) first) second)
        (.app 156 (c 93 .Y) (.app 155 (.app 154 (.app 153 (c 152 .S') lists) first') second'))⟩] }

theorem run_of_value_zigzagSource : ∃ m p id machine, Module.read "zigzag" zigzagSource = .ok m ∧
    m.compile = .ok p ∧ (Machine.new {} default).loadProgram p = (.ok id, machine) ∧
    m.value? .listedTag 11 = some (.int 4) ∧
    ∀ fuel, Meets (Machine.run fuel id) machine (fun outcome _ => outcome = .value (.int 4))
      fun e _ => e.Exhausted := by
  have hfacts : ((Module.read "zigzag" zigzagSource).toOption.bind fun m => m.compile.toOption.map fun p =>
      (p, (m.value? .listedTag 11).bind intOf?)) = some (zigzagProgram, some 4) := by decide +kernel
  have hid : ((Machine.new {} default).loadProgram zigzagProgram).1.toOption = some 1 := by cbv
  obtain ⟨m, hm, hfacts⟩ := Option.bind_eq_some_iff.1 hfacts
  obtain ⟨p, hp, hfacts⟩ := Option.map_eq_some_iff.1 hfacts
  obtain ⟨rfl, hvalue⟩ := Prod.mk.inj hfacts
  have hread := eq_ok_of_toOption hm
  have hcompile := eq_ok_of_toOption hp
  have hload : _ = (Except.ok 1, _) := Prod.ext (eq_ok_of_toOption hid) rfl
  have hv := intOf?_eq_some hvalue
  refine ⟨m, _, 1, _, hread, hcompile, hload, hv, fun fuel => ?_⟩
  exact run_of_value (c := {}) hread hcompile hload hv fuel

/-- A case on the type `A` whose scrutinee has the second tag, as `A1` has, but no field. -/
def foreignDefaultSource : String :=
  "data A = A0 | A1 1\n" ++
  "data B = B0 | B1\n" ++
  "def main = case B1 of { A0 -> 1; _ -> 2 }\n"

/-- What it is compiled to. -/
def foreignDefaultProgram : Program :=
  let c (label : Nat) (c : Combinator) : Term := .leaf label (.comb c)
  let n (label : Nat) (n : Int64) : Term := .leaf label (.lit (.int n))
  { module := "defaults"
    entry := some "main"
    defs := [⟨"main", 0, .app 8 (.app 7 (.app 4 (c 3 (.caseOf 2)) (c 2 (.con 1 0))) (n 0 1))
      (.app 6 (c 5 .K) (n 1 2))⟩] }

/-- The description of the function that a run ended with. -/
def functionOf? : EStateM.Result Halt Machine Outcome → Option String
  | .ok (.value (.function what)) _ => some what
  | _ => none

theorem functionOf?_eq_some {r : EStateM.Result Halt Machine Outcome} {what : String}
    (h : functionOf? r = some what) : ∃ machine, r = .ok (.value (.function what)) machine := by
  unfold functionOf? at h
  split at h
  · cases h
    exact ⟨_, rfl⟩
  · cases h

/-- **A default waits for the fields that the type of the case lists.** With the default for any other
tag the value would be 2; the run ends with a function, since the default takes the field of `A1`. -/
theorem function_of_foreignDefault : ∃ m p id machine machine',
    Module.read "defaults" foreignDefaultSource = .ok m ∧ m.compile = .ok p ∧
    (Machine.new {} default).loadProgram p = (.ok id, machine) ∧
    m.value? .anyTag 4 = some (.int 2) ∧
    Machine.run 9 id machine = .ok (.value (.function "K applied to 1 arguments")) machine' := by
  have hfacts : ((Module.read "defaults" foreignDefaultSource).toOption.bind fun m =>
      m.compile.toOption.map fun p => (p, (m.value? .anyTag 4).bind intOf?)) =
        some (foreignDefaultProgram, some 2) := by decide +kernel
  have hid : ((Machine.new {} default).loadProgram foreignDefaultProgram).1.toOption = some 0 := by cbv
  have hrun : functionOf? (Machine.run 9 0 ((Machine.new {} default).loadProgram
      foreignDefaultProgram).2) = some "K applied to 1 arguments" := by cbv
  obtain ⟨m, hm, hfacts⟩ := Option.bind_eq_some_iff.1 hfacts
  obtain ⟨p, hp, hfacts⟩ := Option.map_eq_some_iff.1 hfacts
  obtain ⟨rfl, hvalue⟩ := Prod.mk.inj hfacts
  obtain ⟨machine', hrun⟩ := functionOf?_eq_some hrun
  exact ⟨m, _, 0, _, machine', eq_ok_of_toOption hm, eq_ok_of_toOption hp,
    Prod.ext (eq_ok_of_toOption hid) rfl, intOf?_eq_some hvalue, hrun⟩

end Module

end GraphReduction
