import GraphReduction.Abstraction
import GraphReduction.Core.Lift
import GraphReduction.Program

/-!
# Compilation

A module is compiled definition by definition: recursive groups are lifted, the body becomes a
combinator term with its binders abstracted away, and arities are filled in at the end.

* A string is unpacked lazily at run time.
* `let x = e in b` is `([x]b) e`, so that `e` is one shared argument.
* A case is `Case n` applied to the scrutinee and to one slot per constructor of the type. A slot
  without an alternative holds the default, behind one `K` per field, or `noMatch`.
-/

namespace GraphReduction

/-- Why a module cannot be compiled. -/
inductive CompileError where
  | freeVariable (definition var : Name)
  | unknownGlobal (definition name : Name)
  | unknownTag (tag : UInt32) (constructors : Nat)
  | binderMismatch (tag expected : UInt32) (found : Nat)
  | duplicateAlternative (tag : UInt32)
  | duplicateDefinition (name : Name)
deriving DecidableEq

def CompileError.message : CompileError → String
  | freeVariable definition var =>
    "unresolved free variable `" ++ var ++ "` in definition `" ++ definition ++ "`"
  | unknownGlobal definition name =>
    "reference to unknown global `" ++ name ++ "` in definition `" ++ definition ++ "`"
  | unknownTag tag constructors =>
    "case alternative with tag " ++ toString tag.toNat ++ " on a type with " ++
      toString constructors ++ " constructors"
  | binderMismatch tag expected found =>
    "case alternative for tag " ++ toString tag.toNat ++ " binds " ++ toString found ++
      " fields, constructor has " ++ toString expected.toNat
  | duplicateAlternative tag => "duplicate case alternative for tag " ++ toString tag.toNat
  | duplicateDefinition name => "duplicate top-level definition `" ++ name ++ "`"

/-- The next unused label, and the number of defaults that were given a name so far. -/
structure CompileState where
  nextLabel : Nat
  defaults : Nat

abbrev CompileM := ExceptT CompileError (StateM CompileState)

namespace Compile

/-- A step that only takes labels. -/
def labelling {α : Type} (x : Fresh α) : CompileM α := fun s =>
  let (a, nextLabel) := x s.nextLabel
  (.ok a, { s with nextLabel })

/-- A name for a default that several slots share. -/
def freshDefault : CompileM Name := fun s =>
  (.ok ("$d~" ++ toString (s.defaults + 1)), { s with defaults := s.defaults + 1 })

/-- What is known about the definition being compiled. -/
structure Context where
  /-- Every top-level name of the module, lifted ones included. -/
  globals : List Name
  definition : Name

/-- Checks that an alternative fits its type and is the first for its constructor. -/
def checkAlt (arities : List UInt32) (slots : List (Option Term)) (alt : Alt Core) :
    Except CompileError Unit :=
  match arities[alt.tag.toNat]? with
  | none => .error (.unknownTag alt.tag arities.length)
  | some expected =>
    if alt.binders.length ≠ expected.toNat then
      .error (.binderMismatch alt.tag expected alt.binders.length)
    else if ((slots[alt.tag.toNat]?).join).isSome then
      .error (.duplicateAlternative alt.tag)
    else .ok ()

/-- `n` applications of `K` around a term. -/
def constantIn (t : Term) : Nat → Fresh Term
  | 0 => return t
  | n + 1 => do
    let k ← Term.newComb .K [t]
    constantIn k n

/-- What stands in a slot: its alternative, else the default, else `noMatch`. -/
def slotTerm (other : Option Term) (arity : UInt32) : Option Term → Fresh Term
  | some alt => return alt
  | none =>
    match other with
    | some d => constantIn d arity.toNat
    | none => Term.newLeaf (.prim .noMatch)

/-- `Case n` applied to the scrutinee and the slots. -/
def assembleCase (scrut : Term) (arities : List UInt32) (slots : List (Option Term))
    (other : Option Term) : Fresh Term := do
  let head ← Term.newComb (.caseOf (UInt32.ofNat arities.length)) [scrut]
  let alts ← (slots.zip arities).mapM fun (slot, arity) => slotTerm other arity slot
  head.newApps alts

/-- Whether a default has to be bound by name: several slots use it, and it still mentions
variables, so that abstraction would copy it into each slot. -/
def needsName (slots : List (Option Term)) (d : Term) : Bool :=
  (slots.filter Option.isNone).length > 1 && d.isApp && d.findVar.isSome

mutual

/-- The term of an expression. -/
def expr (ctx : Context) : Core → CompileM Term
  | .var x => labelling (Term.newLeaf (.var x))
  | .global x =>
    if x ∈ ctx.globals then labelling (Term.newLeaf (.global x))
    else throw (.unknownGlobal ctx.definition x)
  | .lit l => labelling do
    let t ← Term.newLeaf (.lit l)
    match l with
    | .str _ => (← Term.newLeaf (.prim .unpack)).newApps [t]
    | _ => return t
  | .prim p => labelling (Term.newLeaf (.prim p))
  | .comb c => labelling (Term.newLeaf (.comb c))
  | .con tag arity => labelling (Term.newLeaf (.comb (.con tag arity)))
  | .app f a => do
    let f ← expr ctx f
    let a ← expr ctx a
    labelling (Term.newApp f a)
  | .lam x body => do
    let body ← expr ctx body
    labelling (body.bracket x)
  | .letIn x rhs body => do
    let body ← expr ctx body
    let body ← labelling (body.bracket x)
    let rhs ← expr ctx rhs
    labelling (Term.newApp body rhs)
  | .caseOf scrut arities alts other => do
    let slots ← slotsOf ctx arities (List.replicate arities.length none) alts
    let other ← otherOf ctx other
    match other with
    | some d =>
      if needsName slots d then
        let x ← freshDefault
        let v ← labelling (Term.newLeaf (.var x))
        let scrut ← expr ctx scrut
        labelling do
          let t ← assembleCase scrut arities slots (some v)
          Term.newApp (← t.bracket x) d
      else
        let scrut ← expr ctx scrut
        labelling (assembleCase scrut arities slots (some d))
    | none =>
      let scrut ← expr ctx scrut
      labelling (assembleCase scrut arities slots none)

/-- One slot per constructor, filled with the alternatives in order. -/
def slotsOf (ctx : Context) (arities : List UInt32) (slots : List (Option Term)) :
    List (Alt Core) → CompileM (List (Option Term))
  | [] => return slots
  | ⟨tag, binders, body⟩ :: alts => do
    ExceptT.mk (return checkAlt arities slots ⟨tag, binders, body⟩)
    let body ← expr ctx body
    let t ← labelling (body.bracketAll binders)
    slotsOf ctx arities (slots.set tag.toNat (some t)) alts

def otherOf (ctx : Context) : Option Core → CompileM (Option Term)
  | none => return none
  | some e => do
    let t ← expr ctx e
    return some t

end

/-- The closed term of a definition. -/
def binding (globals : List Name) (b : Binding Core) : CompileM Definition := do
  let body ← expr ⟨globals, b.name⟩ b.body
  let body ← labelling (body.bracketAll b.params)
  match body.findVar with
  | some x => throw (.freeVariable b.name x)
  | none => return ⟨b.name, 0, body⟩

/-- The first name that is in the list a second time. -/
def duplicate? (seen : List Name) : List Name → Option Name
  | [] => none
  | x :: xs => if x ∈ seen then some x else duplicate? (x :: seen) xs

/-- The program of a module. -/
def program (m : Module) : CompileM Program := do
  if let some name := duplicate? [] (m.defs.map (·.name)) then
    throw (.duplicateDefinition name)
  let bindings := m.lift
  let defs ← bindings.mapM (binding (bindings.map (·.name)))
  let entry := if defs.any (·.name == Program.entryPoint) then some Program.entryPoint else none
  return ⟨m.name, annotateArities defs, entry⟩

end Compile

/-- Numbers the shared defaults of all modules compiled with it. The lifter, the top-level names and
the definition at hand are made anew for each module, so they are no part of it. -/
structure Compiler where
  defaults : Nat := 0

/-- Compiles a module. -/
def Compiler.compile (c : Compiler) (m : Module) : Except CompileError Program × Compiler :=
  let (r, s) := Compile.program m ⟨0, c.defaults⟩
  (r, ⟨s.defaults⟩)

/-- The program of a module compiled on its own. -/
def Module.compile (m : Module) : Except CompileError Program :=
  (Compiler.compile {} m).1

end GraphReduction
