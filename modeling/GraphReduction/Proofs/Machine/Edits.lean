import GraphReduction.Proofs.Machine.Contract

/-!
# What rules and actions are made of

By itself a rule or an action does one small thing after the other: it writes or takes a cell, collects,
performs an operation on the world, or counts. It never touches the registers.
-/

namespace GraphReduction

/-- A cell of a kind that evaluation makes: of all primitives, only the one that unpacks strings. -/
def Cell.IsMade (c : Cell) : Prop := ∀ p, c = .prim p → p = .unpack

namespace Cell.IsMade

theorem app (f a : Nat) : IsMade (.app f a) := fun _ h => by cases h

theorem ind (t : Nat) : IsMade (.ind t) := fun _ h => by cases h

theorem comb (c : Combinator) : IsMade (.comb c) := fun _ h => by cases h

theorem scalar (s : Scalar) : IsMade (.scalar s) := fun _ h => by cases h

theorem int (n : Int64) : IsMade (.int n) := scalar _

theorem unpack : IsMade (.prim .unpack) := fun _ h => by cases h; rfl

theorem boolCell (b : Bool) : IsMade (Machine.boolCell b) := comb _

theorem doubleCell (x : Double) : IsMade (Machine.doubleCell x) := scalar _

end Cell.IsMade

/-- An error about a cell that is not what it was read as. -/
def Halt.IsMistake : Halt → Prop
  | .error (.typeMismatch ..) | .error (.malformed (.notAnApplication _)) => True
  | _ => False

namespace Machine

variable {α β : Type}

/-!
## Reading
-/

/-- The value of a cell, as far as `read` finds one in it. -/
def valueOf {α : Type} (read : Cell → Option α) (p : Primitive) (expected : String) (id : Nat) :
    Run α := do
  let v ← resolve id
  match read (← cell v) with
  | some a => return a
  | none => mismatch p expected v

def readInt : Cell → Option Int64
  | .scalar (.int n) => some n
  | _ => none

def readChar : Cell → Option Char
  | .scalar (.char c) => some c
  | _ => none

def readDouble : Cell → Option Double
  | .scalar (.double x) => some x
  | _ => none

def readPtr : Cell → Option UInt64
  | .scalar (.ptr address) => some address
  | _ => none

theorem intValue_eq (p : Primitive) (id : Nat) : intValue p id = valueOf readInt p "an integer" id :=
  congrArg (Bind.bind (resolve id)) (funext fun v => congrArg (Bind.bind (cell v)) (funext fun c => by
    cases c with | scalar s => cases s <;> rfl | _ => rfl))

theorem charValue_eq (p : Primitive) (id : Nat) : charValue p id = valueOf readChar p "a character" id :=
  congrArg (Bind.bind (resolve id)) (funext fun v => congrArg (Bind.bind (cell v)) (funext fun c => by
    cases c with | scalar s => cases s <;> rfl | _ => rfl))

theorem doubleValue_eq (p : Primitive) (id : Nat) : doubleValue p id = valueOf readDouble p "a double" id :=
  congrArg (Bind.bind (resolve id)) (funext fun v => congrArg (Bind.bind (cell v)) (funext fun c => by
    cases c with | scalar s => cases s <;> rfl | _ => rfl))

theorem ptrValue_eq (p : Primitive) (id : Nat) : ptrValue p id = valueOf readPtr p "a pointer" id :=
  congrArg (Bind.bind (resolve id)) (funext fun v => congrArg (Bind.bind (cell v)) (funext fun c => by
    cases c with | scalar s => cases s <;> rfl | _ => rfl))

/-- A computation that only reads. -/
def Reads (x : Run α) : Prop :=
  ∀ m, Meets x m (fun _ m' => m' = m) fun e m' => e.IsMistake ∧ m' = m

namespace Reads

theorem bind {x : Run α} {g : α → Run β} (hx : Reads x) (hg : ∀ a, Reads (g a)) : Reads (x >>= g) := by
  intro m
  exact (hx m).bind fun a m' e => e ▸ hg a m

theorem pure (a : α) : Reads (Pure.pure a : Run α) := fun _ => rfl

theorem top : Reads Machine.top := fun _ => rfl

theorem entry (i : Nat) : Reads (Machine.entry i) := fun _ => rfl

theorem cell (id : Nat) : Reads (Machine.cell id) := fun _ => rfl

theorem resolve (id : Nat) : Reads (Machine.resolve id) := fun _ => rfl

theorem spine (id : Nat) : Reads (Machine.spine id) := fun _ => rfl

theorem isWhnf (id : Nat) : Reads (Machine.isWhnf id) := fun _ => rfl

theorem describe (id : Nat) : Reads (Machine.describe id) := fun _ => rfl

theorem mismatch (p : Primitive) (expected : String) (id : Nat) :
    Reads (Machine.mismatch p expected id : Run α) := fun _ => ⟨trivial, rfl⟩

theorem arg (t i : Nat) : Reads (Machine.arg t i) := by
  refine (entry _).bind fun id => (cell id).bind fun c => ?_
  split
  · exact pure _
  · exact fun _ => ⟨trivial, rfl⟩

theorem valueOf (read : Cell → Option α) (p : Primitive) (expected : String) (id : Nat) :
    Reads (Machine.valueOf read p expected id) := by
  refine (resolve id).bind fun v => (cell v).bind fun c => ?_
  split
  · exact pure _
  · exact mismatch _ _ _

theorem intValue (p : Primitive) (id : Nat) : Reads (Machine.intValue p id) :=
  intValue_eq p id ▸ valueOf _ _ _ _

theorem charValue (p : Primitive) (id : Nat) : Reads (Machine.charValue p id) :=
  charValue_eq p id ▸ valueOf _ _ _ _

theorem doubleValue (p : Primitive) (id : Nat) : Reads (Machine.doubleValue p id) :=
  doubleValue_eq p id ▸ valueOf _ _ _ _

theorem ptrValue (p : Primitive) (id : Nat) : Reads (Machine.ptrValue p id) :=
  ptrValue_eq p id ▸ valueOf _ _ _ _

theorem intArg (p : Primitive) (t i : Nat) : Reads (Machine.intArg p t i) :=
  (arg _ _).bind fun _ => intValue _ _

theorem charArg (p : Primitive) (t i : Nat) : Reads (Machine.charArg p t i) :=
  (arg _ _).bind fun _ => charValue _ _

theorem doubleArg (p : Primitive) (t i : Nat) : Reads (Machine.doubleArg p t i) :=
  (arg _ _).bind fun _ => doubleValue _ _

theorem ptrArg (p : Primitive) (t i : Nat) : Reads (Machine.ptrArg p t i) :=
  (arg _ _).bind fun _ => ptrValue _ _

theorem firstUnevaluated (t i n : Nat) : Reads (Machine.firstUnevaluated t i n) := by
  induction n generalizing i with
  | zero => exact pure _
  | succ n ih =>
    refine (arg _ _).bind fun a => (isWhnf a).bind fun b => ?_
    cases b with
    | true => exact ih (i + 1)
    | false => exact pure _

theorem actionArg (t i : Nat) : Reads (Machine.actionArg t i) :=
  (entry _).bind fun _ => (spine _).bind fun _ => pure _

end Reads

/-!
## Edits
-/

/-- One small change, which is none of a register. -/
inductive Edit : Machine → Machine → Prop
  | write (m : Machine) (x : Nat) {c : Cell} : c.IsMade → Edit m { m with heap := m.heap.set x c }
  | alloc {m : Machine} {c : Cell} {id : Nat} {heap : Heap} : c.IsMade →
    Heap.alloc c m.heap = .ok id heap → Edit m { m with heap }
  | collect (m : Machine) : Edit m { m with heap := (Heap.collect (m.stack.toList ++ m.pinned) m.heap).2 }
  | answered {m : Machine} {o : Operation} {a : o.Answer} {world : World} :
    o.perform m.world = .ok a world → Edit m { m with world, performed := o :: m.performed }
  | refused {m : Machine} {o : Operation} {e : RuntimeError} {world : World} :
    o.perform m.world = .error e world → Edit m { m with world, performed := o :: m.performed }
  | count {m : Machine} {stats : Stats} : m.stats.steps ≤ stats.steps → Edit m { m with stats }

/-- The relation holds across every edit, and across several. -/
structure Allows (R : Machine → Machine → Prop) : Prop where
  refl : ∀ m, R m m
  trans : ∀ {m m1 m2}, R m m1 → R m1 m2 → R m m2
  edit : ∀ {m m'}, Edit m m' → R m m'

/-- The relation holds across the computation, however it ends. -/
def Leaves {α : Type} (R : Machine → Machine → Prop) (x : Run α) : Prop :=
  ∀ m, Meets x m (fun _ m' => R m m') fun _ m' => R m m'

/-!
## Small operations
-/

variable {R : Machine → Machine → Prop} {x y : Run α} {c : Cell}

theorem Leaves.ite {p : Prop} [Decidable p] (hx : Leaves R x) (hy : Leaves R y) :
    Leaves R (if p then x else y) := by
  split
  · exact hx
  · exact hy

namespace Allows

theorem bind (hR : Allows R) {g : α → Run β} (hx : Leaves R x) (hg : ∀ a, Leaves R (g a)) :
    Leaves R (x >>= g) := by
  intro m
  refine (hx m).bind fun a m1 h1 => ?_
  exact (hg a m1).mono (fun _ _ h2 => hR.trans h1 h2) fun _ _ h2 => hR.trans h1 h2

theorem reads (hR : Allows R) (h : Reads x) : Leaves R x :=
  fun m => (h m).mono (fun _ _ e => e ▸ hR.refl m) fun _ _ e => e.2 ▸ hR.refl m

theorem read (hR : Allows R) {g : α → Run β} (hx : Reads x) (hg : ∀ a, Leaves R (g a)) :
    Leaves R (x >>= g) := hR.bind (hR.reads hx) hg

variable (hR : Allows R)

include hR

theorem pure (a : α) : Leaves R (Pure.pure a : Run α) := hR.reads (.pure a)

theorem fail (e : RuntimeError) : Leaves R (Machine.fail e : Run α) := fun m => hR.refl m

theorem malformed (g : GraphFault) : Leaves R (Machine.malformed g : Run α) := hR.fail _

theorem get : Leaves R (MonadState.get : Run Machine) := fun m => hR.refl m

theorem setCell (id : Nat) (hc : c.IsMade) : Leaves R (Machine.setCell id c) :=
  fun m => hR.edit (.write m id hc)

theorem alloc (hc : c.IsMade) : Leaves R (Machine.alloc c) := by
  intro m
  unfold Meets Machine.alloc
  cases h : Heap.alloc c m.heap with
  | ok id heap => exact hR.edit (.alloc hc h)
  | error e heap =>
    -- a heap that refuses is not changed
    have hheap : heap = m.heap := by
      unfold Heap.alloc at h
      split at h <;> split at h <;> cases h <;> rfl
    subst hheap
    exact hR.refl m

theorem app (f a : Nat) : Leaves R (Machine.app f a) := hR.alloc (.app f a)

theorem reserve (n : Nat) : Leaves R (Machine.reserve n) := by
  have hcollect : Leaves R Machine.collect := fun m => hR.edit (.collect m)
  exact hR.bind hR.get fun _ => .ite (hR.bind hcollect fun _ => hR.bind hR.get fun _ =>
    .ite (hR.fail _) (hR.pure _)) (hR.pure _)

theorem safePoint : Leaves R Machine.safePoint := hR.reserve _

theorem overwrite (redex : Nat) (hc : c.IsMade) : Leaves R (Machine.overwrite redex c) :=
  hR.bind (hR.setCell _ hc) fun _ => hR.pure _

theorem forward (redex target : Nat) : Leaves R (Machine.forward redex target) :=
  hR.bind (hR.read (.resolve _) fun _ => .ite (hR.bind (hR.malformed _) fun _ => hR.setCell _ (.ind _))
    (hR.setCell _ (.ind _))) fun _ => hR.pure _

theorem countTick (label : Int64) : Leaves R (Machine.countTick label) :=
  fun _ => hR.edit (.count (Nat.le_refl _))

theorem onWorld (o : Operation) : Leaves R (Machine.onWorld o) := by
  intro m
  unfold Meets Machine.onWorld
  cases h : o.perform m.world with
  | ok a world => exact hR.edit (.answered h)
  | error e world => exact hR.edit (.refused h)

end Allows

/-!
## Rules and actions
-/

section Rules

variable {ev : Evaluators} (hR : Allows R)

include hR

theorem leaves_applyAll (f : Nat) (args : List Nat) : Leaves R (applyAll f args) := by
  induction args generalizing f with
  | nil => exact hR.pure _
  | cons a args ih => exact hR.bind (hR.app _ _) fun _ => ih _

theorem leaves_selectAlternative (n t tag : Nat) : Leaves R (selectAlternative n t tag) := by
  refine hR.read (.arg _ _) fun a => hR.read (.spine a) fun p => hR.read (.entry _) fun r =>
    hR.read (.arg _ _) fun alt => ?_
  split
  · exact hR.forward _ _
  · exact hR.bind (leaves_applyAll hR _ _) fun _ => hR.overwrite _ (.app _ _)

theorem leaves_fireCase (n t : Nat) : Leaves R (fireCase n t) := by
  refine hR.read (.arg _ _) fun a => hR.read (.isWhnf a) fun b => .ite (hR.pure _) ?_
  refine hR.read (.resolve a) fun v => hR.read (.spine v) fun p => hR.read (.cell _) fun c => ?_
  split
  · rename_i tag arity
    have hselect : Leaves R (do reserve arity.toNat; selectAlternative n t tag.toNat) :=
      hR.bind (hR.reserve _) fun _ => leaves_selectAlternative hR _ _ _
    have hrange : Leaves R (do
        if n ≤ tag.toNat then fail (.patternMatchFailure tag (UInt32.ofNat n))
        reserve arity.toNat
        selectAlternative n t tag.toNat) := .ite (hR.bind (hR.fail _) fun _ => hselect) hselect
    exact .ite (hR.read (.describe _) fun _ => hR.bind (hR.fail _) fun _ => hrange) hrange
  · exact hR.read (.describe _) fun _ => hR.fail _

theorem leaves_fire (c : Combinator) (t : Nat) : Leaves R (fire c t) := by
  cases c with
  | caseOf n => exact leaves_fireCase hR _ _
  | con _ _ | ioBind | ioThen | ioReturn => exact hR.malformed _
  | _ =>
    simp only [fire]
    repeat' with_reducible first
      | refine hR.read (.arg _ _) fun _ => ?_ | refine hR.read (.entry _) fun _ => ?_ | apply hR.app
      | apply hR.forward | refine hR.overwrite _ (.app _ _) | refine hR.bind ?_ fun _ => ?_

theorem leaves_overwriteString (redex : Nat) (s : String) :
    Leaves R (stringCell s >>= overwrite redex) := by
  simp only [stringCell, bind_assoc, pure_bind]
  exact hR.bind (hR.alloc (.scalar _)) fun _ => hR.bind (hR.alloc .unpack) fun _ =>
    hR.overwrite _ (.app _ _)

theorem leaves_fireUnpack (t : Nat) : Leaves R (fireUnpack t) := by
  refine hR.read (.arg _ _) fun a => hR.read (.resolve a) fun s => hR.read (.entry _) fun r =>
    hR.read (.cell s) fun c => ?_
  split
  · exact hR.overwrite _ (.comb _)
  · exact hR.bind (hR.alloc (.scalar _)) fun _ => hR.bind (hR.alloc (.scalar _)) fun _ =>
      hR.read (.entry _) fun _ => hR.bind (hR.app _ _) fun _ => hR.bind (hR.alloc (.comb _)) fun _ =>
      hR.bind (hR.app _ _) fun _ => hR.overwrite _ (.app _ _)
  · exact hR.reads (.mismatch _ _ _)

/-- A primitive only edits: one case for each. -/
theorem leaves_firePrimitive (hperform : ∀ id, Leaves R (ev.perform id))
    (hnormalize : ∀ id, Leaves R (ev.normalize id)) (p : Primitive) (t : Nat) :
    Leaves R (firePrimitive ev p t) := by
  cases p with
  | perform =>
    simp only [firePrimitive]
    exact hR.read (.entry _) fun _ => hR.read (.arg _ _) fun _ => hR.bind (hperform _) fun _ =>
      hR.forward _ _
  | error =>
    simp only [firePrimitive]
    exact hR.read (.entry _) fun _ => hR.read (.arg _ _) fun _ => hR.bind (hnormalize _) fun _ =>
      hR.fail _
  | showInt =>
    exact hR.read (.entry _) fun _ => hR.read (.intArg _ _ _) fun _ =>
      leaves_overwriteString hR _ _
  | showDouble =>
    exact hR.read (.entry _) fun _ => hR.read (.doubleArg _ _ _) fun _ =>
      leaves_overwriteString hR _ _
  | _ =>
    simp only [firePrimitive, intRule, divisionRule, doubleRule]
    repeat' with_reducible first
      | refine hR.read (.entry _) fun _ => ?_ | refine hR.read (.arg _ _) fun _ => ?_
      | refine hR.read (.intArg _ _ _) fun _ => ?_ | refine hR.read (.charArg _ _ _) fun _ => ?_
      | refine hR.read (.doubleArg _ _ _) fun _ => ?_ | refine hR.read (.ptrArg _ _ _) fun _ => ?_
      | apply hR.countTick | apply hR.forward
      | refine hR.overwrite _ (.int _) | refine hR.overwrite _ (.boolCell _)
      | refine hR.overwrite _ (.doubleCell _) | refine hR.overwrite _ (.scalar _)
      | apply hR.fail | apply hR.malformed | apply leaves_fireUnpack hR
      | refine hR.bind ?_ fun _ => ?_ | refine Leaves.ite ?_ ?_ | split

theorem leaves_fireStrict (hperform : ∀ id, Leaves R (ev.perform id))
    (hnormalize : ∀ id, Leaves R (ev.normalize id)) (p : Primitive) (t : Nat) :
    Leaves R (fireStrict ev p t) := by
  refine hR.read (.firstUnevaluated _ _ _) fun r => ?_
  split
  · exact hR.pure _
  · exact leaves_firePrimitive hR hperform hnormalize _ _

theorem leaves_resultCell {c : Cell} (hc : c.IsMade) : Leaves R (resultCell c) :=
  hR.bind hR.safePoint fun _ => hR.alloc hc

theorem leaves_argumentCells (unpack cons nil : Nat) (args : List String) :
    Leaves R (argumentCells unpack cons nil args) := by
  induction args with
  | nil => exact hR.pure _
  | cons s args ih =>
    exact hR.bind ih fun _ => hR.bind (hR.alloc (.scalar _)) fun _ => hR.bind (hR.app _ _) fun _ =>
      hR.bind (hR.app _ _) fun _ => hR.app _ _

theorem leaves_argumentList : Leaves R argumentList :=
  hR.bind (hR.onWorld _) fun _ => hR.bind (hR.reserve _) fun _ => hR.bind (hR.alloc .unpack) fun _ =>
    hR.bind (hR.alloc (.comb _)) fun _ => hR.bind (hR.alloc (.comb _)) fun _ =>
    leaves_argumentCells hR _ _ _ _

theorem leaves_execute {whnf : Nat → Run Nat} {normalize : Nat → Run Value}
    (hwhnf : ∀ id, Leaves R (whnf id)) (hnormalize : ∀ id, Leaves R (normalize id)) (p : Primitive)
    (t : Nat) : Leaves R (execute whnf normalize p t) := by
  cases p <;> simp only [execute]
  all_goals
    repeat' with_reducible first
      | refine hR.read (.actionArg _ _) fun _ => ?_ | refine leaves_resultCell hR (.comb _)
      | refine leaves_resultCell hR (.int _) | refine leaves_resultCell hR (.scalar _)
      | apply leaves_argumentList hR | refine hR.reads (.intValue _ _)
      | refine hR.reads (.charValue _ _) | refine hR.reads (.ptrValue _ _)
      | apply hR.onWorld | apply hR.fail | apply hR.pure | apply hwhnf | apply hnormalize
      | refine hR.bind ?_ fun _ => ?_ | split

end Rules

end Machine

end GraphReduction
