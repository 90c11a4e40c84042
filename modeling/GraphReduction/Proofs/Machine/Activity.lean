import GraphReduction.Proofs.Machine.Edits
import GraphReduction.Proofs.Machine.Sound

/-!
# What a machine is doing

A machine is called from outside to load something or to evaluate a definition, and each call
goes through turns of the three loops, which start further evaluations. `Leads` says how one
state leads to the next: from a turn to the turn after it, to the evaluations that it starts, and
to where it ends.

On its way a machine asks for room: at the start of every turn of unwinding and of the I/O loop, before
a case applies an alternative to fields, and before the result of an action is made. `Blame` says which
of these requests an evaluation comes to that fails for want of memory.
-/

namespace GraphReduction

namespace Machine

/-- The calls that evaluate a definition. -/
inductive EntryPoint where
  | whnf | perform | normalize | run

/-- Evaluates a cell, whatever comes of it. -/
def EntryPoint.call : EntryPoint → (fuel id : Nat) → Run Unit
  | whnf, fuel, id => do let _ ← Machine.whnf fuel id
  | perform, fuel, id => do let _ ← Machine.perform fuel id
  | normalize, fuel, id => do let _ ← Machine.normalize fuel id
  | run, fuel, id => do let _ ← Machine.run fuel id

/-- What holds of the four evaluations holds of a call. -/
theorem meets_call {m : Machine} {fuel id : Nat} {Q : Machine → Prop} {E : Halt → Machine → Prop}
    (call : EntryPoint) (hwhnf : Meets (Machine.whnf fuel id) m (fun _ m' => Q m') E)
    (hperform : Meets (Machine.perform fuel id) m (fun _ m' => Q m') E)
    (hnormalize : Meets (Machine.normalize fuel id) m (fun _ m' => Q m') E)
    (hrun : Meets (Machine.run fuel id) m (fun _ m' => Q m') E) :
    Meets (call.call fuel id) m (fun _ m' => Q m') E := by
  cases call with
  | whnf => exact meets_bind.2 hwhnf
  | perform => exact meets_bind.2 hperform
  | normalize => exact meets_bind.2 hnormalize
  | run => exact meets_bind.2 hrun

section Leaves

variable {R : Machine → Machine → Prop} {fuel : Nat} (hR : Allows R)
  (hwhnf : ∀ id, Leaves R (whnf fuel id)) (hperform : ∀ id, Leaves R (perform fuel id))
  (hnormalize : ∀ id, Leaves R (normalize fuel id))

include hR hwhnf hperform hnormalize

/-- What holds across the three evaluations holds across a run. -/
theorem leaves_run (id : Nat) : Leaves R (run fuel id) := by
  have hevaluate : Leaves R (evaluate fuel id) :=
    hR.bind (hwhnf id) fun v => hR.bind hR.get fun _ =>
      .ite (hR.bind (hperform v) fun r => hnormalize r) (hnormalize id)
  intro m
  have hflush : ∀ m1, R m m1 → Meets (onWorld .flushAll) m1 (fun _ m2 => R m m2) fun _ m2 => R m m2 :=
    fun m1 h1 => (hR.onWorld .flushAll m1).mono (fun _ _ h2 => hR.trans h1 h2) fun _ _ h2 => hR.trans h1 h2
  refine meets_run ((hevaluate m).mono (fun v m1 h1 => hflush m1 h1) fun e m1 h1 => ?_)
  exact ⟨fun _ _ => flushed_of_meets (hflush m1 h1), flushed_of_meets (hflush m1 h1)⟩

theorem leaves_call (call : EntryPoint) (id : Nat) : Leaves R (call.call fuel id) := fun m =>
  meets_call call (hwhnf id m) (hperform id m) (hnormalize id m)
    (leaves_run hR hwhnf hperform hnormalize id m)

end Leaves

/-- What a machine is doing. -/
inductive Activity where
  /-- Waiting for a call from outside. -/
  | idle
  /-- Starting to evaluate a cell that is not on the stack yet. -/
  | whnf (fuel id : Nat)
  | perform (fuel id : Nat)
  | normalize (fuel id : Nat)
  /-- Starting a turn of unwinding, and looking at the spine after its safe point. -/
  | unwind (outer fuel base : Nat)
  | look (outer fuel base : Nat)
  /-- Starting a turn of the I/O loop, and running the action that it has evaluated. -/
  | performFrom (fuel : Nat) (binds : List Bool)
  | act (fuel : Nat) (binds : List Bool)
  /-- Starting a turn of normalisation. -/
  | normalizeFrom (base fuel : Nat) (pending : List OpenValue)
  /-- At the end of a loop or a call, before the registers are set back. -/
  | returned
  | failed (e : Halt)
  /-- A load has failed. -/
  | failedLoad (e : LoadError)

/-- How a machine goes on, with evaluations that end as one step. -/
inductive Leads : Activity → Machine → Activity → Machine → Prop
  -- calls from outside
  | loadProgram {m : Machine} (p : Program) : Leads .idle m .idle (m.loadProgram p).2
  | loadImage {m : Machine} (image : Image) : Leads .idle m .idle (m.loadImage image).2
  | loadProgramFails {m : Machine} {p : Program} {e : LoadError} :
    (m.loadProgram p).1 = .error e → Leads .idle m (.failedLoad e) (m.loadProgram p).2
  | loadImageFails {m : Machine} {image : Image} {e : LoadError} :
    (m.loadImage image).1 = .error e → Leads .idle m (.failedLoad e) (m.loadImage image).2
  | callReturns {m m' : Machine} {fuel id : Nat} (call : EntryPoint) : id ∈ m.pinned →
    call.call fuel id m = .ok () m' → Leads .idle m .idle m'
  | callStops {m m' : Machine} {fuel id : Nat} {e : Halt} (call : EntryPoint) : id ∈ m.pinned →
    call.call fuel id m = .error e m' → Leads .idle m .idle m'
  | callFails {m m' : Machine} {fuel id : Nat} {e : Halt} (call : EntryPoint) : id ∈ m.pinned →
    call.call fuel id m = .error e m' → Leads .idle m (.failed e) m'
  | callWhnf {m : Machine} {fuel id : Nat} : id ∈ m.pinned → Leads .idle m (.whnf fuel id) m
  | callPerform {m : Machine} {fuel id : Nat} : id ∈ m.pinned → Leads .idle m (.perform fuel id) m
  | callNormalize {m : Machine} {fuel id : Nat} : id ∈ m.pinned →
    Leads .idle m (.normalize fuel id) m
  -- what a run does after its entry point is in weak head normal form
  | runPerform {m m1 : Machine} {fuel id v : Nat} : id ∈ m.pinned →
    Machine.whnf fuel id m = .ok v m1 → Leads .idle m (.perform fuel v) m1
  | runResult {m m1 m2 : Machine} {fuel id v r : Nat} : id ∈ m.pinned →
    Machine.whnf fuel id m = .ok v m1 → Machine.perform fuel v m1 = .ok r m2 →
    Leads .idle m (.normalize fuel r) m2
  | runNormalize {m m1 : Machine} {fuel id v : Nat} : id ∈ m.pinned →
    Machine.whnf fuel id m = .ok v m1 → Leads .idle m (.normalize fuel id) m1
  -- the start of an evaluation
  | startWhnf {m m1 : Machine} {fuel id : Nat} : (do enter; push id : Run Unit) m = .ok () m1 →
    Leads (.whnf fuel id) m (.unwind m1.frames.size fuel m.stack.size) m1
  | startPerform {m m1 : Machine} {fuel id : Nat} : (do enter; push id : Run Unit) m = .ok () m1 →
    Leads (.perform fuel id) m (.performFrom fuel []) m1
  | startNormalize {m m1 : Machine} {fuel id : Nat} : (do enter; push id : Run Unit) m = .ok () m1 →
    Leads (.normalize fuel id) m (.normalizeFrom m.stack.size fuel []) m1
  -- unwinding; a rule is one step, and makes room for its cells before it takes any
  | safePoint {m m1 : Machine} {outer fuel base : Nat} : Machine.safePoint m = .ok () m1 →
    Leads (.unwind outer (fuel + 1) base) m (.look outer fuel base) m1
  | makeRoom {m m1 : Machine} {outer fuel base n : Nat} : reserve n m = .ok () m1 →
    Leads (.look outer fuel base) m (.look outer fuel base) m1
  | again {m m1 : Machine} {outer fuel base : Nat} :
    step ⟨Machine.perform fuel, Machine.normalize fuel⟩ base m = .ok .again m1 →
    Leads (.look outer fuel base) m (.unwind outer fuel base) m1
  | force {m m1 m2 : Machine} {outer fuel base base' id : Nat} :
    step ⟨Machine.perform fuel, Machine.normalize fuel⟩ base m = .ok (.force id) m1 →
    suspend base id m1 = .ok base' m2 →
    Leads (.look outer fuel base) m (.unwind outer fuel base') m2
  | resume {m m1 m2 : Machine} {outer fuel base base' : Nat} :
    step ⟨Machine.perform fuel, Machine.normalize fuel⟩ base m = .ok .done m1 →
    m1.frames.size ≠ outer → Machine.resume base m1 = .ok base' m2 →
    Leads (.look outer fuel base) m (.unwind outer fuel base') m2
  | performIO {m : Machine} {outer fuel base a : Nat} :
    m.heap.get (m.stack.getD (m.stack.size - 1) 0) = .prim .perform →
    arg (m.stack.size - 1) 1 m = .ok a m → Leads (.look outer fuel base) m (.perform fuel a) m
  | errorText {m : Machine} {outer fuel base a : Nat} :
    m.heap.get (m.stack.getD (m.stack.size - 1) 0) = .prim .error →
    arg (m.stack.size - 1) 1 m = .ok a m → Leads (.look outer fuel base) m (.normalize fuel a) m
  -- the I/O loop
  | evaluateAction {m m1 : Machine} {fuel : Nat} {binds : List Bool} :
    Machine.safePoint m = .ok () m1 →
    Leads (.performFrom (fuel + 1) binds) m
      (.whnf fuel (m1.stack.getD (m1.stack.size - 1) 0)) m1
  | act {m m1 m2 : Machine} {fuel action : Nat} {binds : List Bool} :
    Machine.safePoint m = .ok () m1 →
    Machine.whnf fuel (m1.stack.getD (m1.stack.size - 1) 0) m1 = .ok action m2 →
    Leads (.performFrom (fuel + 1) binds) m (.act fuel binds)
      { m2 with stack := m2.stack.setIfInBounds (m1.stack.size - 1) action }
  | bind {m m1 : Machine} {fuel x k : Nat} {binds : List Bool} :
    actionForm m.heap (m.stack.getD (m.stack.size - 1) 0) = .bind x k →
    (do setEntry (m.stack.size - 1) k; push x : Run Unit) m = .ok () m1 →
    Leads (.act fuel binds) m (.performFrom fuel (true :: binds)) m1
  | sequence {m m1 : Machine} {fuel x y : Nat} {binds : List Bool} :
    actionForm m.heap (m.stack.getD (m.stack.size - 1) 0) = .sequence x y →
    (do setEntry (m.stack.size - 1) y; push x : Run Unit) m = .ok () m1 →
    Leads (.act fuel binds) m (.performFrom fuel (false :: binds)) m1
  | result {m m1 : Machine} {fuel x : Nat} {b : Bool} {binds : List Bool} :
    actionForm m.heap (m.stack.getD (m.stack.size - 1) 0) = .result x →
    handOver (m.stack.size - 1) b x m = .ok () m1 →
    Leads (.act fuel (b :: binds)) m (.performFrom fuel binds) m1
  | executed {m m1 m2 : Machine} {fuel x : Nat} {p : Primitive} {b : Bool} {binds : List Bool} :
    execute (Machine.whnf fuel) (Machine.normalize fuel) p (m.stack.size - 1) m = .ok x m1 →
    handOver (m.stack.size - 1) b x m1 = .ok () m2 →
    Leads (.act fuel (b :: binds)) m (.performFrom fuel binds) m2
  -- the arguments of an action, one after the other
  | argWhnf {m : Machine} {fuel i a : Nat} {binds : List Bool} :
    actionArg (m.stack.size - 1) i m = .ok a m → Leads (.act fuel binds) m (.whnf fuel a) m
  | argNormalize {m : Machine} {fuel i a : Nat} {binds : List Bool} :
    actionArg (m.stack.size - 1) i m = .ok a m → Leads (.act fuel binds) m (.normalize fuel a) m
  | argEvaluated {m m1 : Machine} {fuel i a v : Nat} {binds : List Bool} :
    actionArg (m.stack.size - 1) i m = .ok a m → Machine.whnf fuel a m = .ok v m1 →
    Leads (.act fuel binds) m (.act fuel binds) m1
  | argNormalized {m m1 : Machine} {fuel i a : Nat} {v : Value} {binds : List Bool} :
    actionArg (m.stack.size - 1) i m = .ok a m → Machine.normalize fuel a m = .ok v m1 →
    Leads (.act fuel binds) m (.act fuel binds) m1
  | operation {m m1 : Machine} {fuel : Nat} {binds : List Bool} {o : Operation} {a : o.Answer} :
    onWorld o m = .ok a m1 → Leads (.act fuel binds) m (.act fuel binds) m1
  | resultRoom {m m1 : Machine} {fuel n : Nat} {binds : List Bool} : reserve n m = .ok () m1 →
    Leads (.act fuel binds) m (.act fuel binds) m1
  -- normalisation
  | evaluateField {m : Machine} {base fuel : Nat} {pending : List OpenValue} :
    base < m.stack.size →
    Leads (.normalizeFrom base (fuel + 1) pending) m
      (.whnf fuel (m.stack.getD (m.stack.size - 1) 0)) m
  | openFields {m m1 m2 : Machine} {base fuel v : Nat} {pending : List OpenValue} {tag : UInt32}
    {fields : List Nat} : base < m.stack.size →
    Machine.whnf fuel (m.stack.getD (m.stack.size - 1) 0) m = .ok v m1 →
    valueForm m1.heap v = .inr (tag, fields) →
    pushAll fields { m1 with stack := m1.stack.shrink (m.stack.size - 1) } = .ok () m2 →
    Leads (.normalizeFrom base (fuel + 1) pending) m
      (.normalizeFrom base fuel (⟨tag, fields.length, []⟩ :: pending)) m2
  | closeField {m m1 : Machine} {base fuel v : Nat} {pending pending' : List OpenValue}
    {value : Value} : base < m.stack.size →
    Machine.whnf fuel (m.stack.getD (m.stack.size - 1) 0) m = .ok v m1 →
    valueForm m1.heap v = .inl value → closeValue value pending = .inr pending' →
    Leads (.normalizeFrom base (fuel + 1) pending) m (.normalizeFrom base fuel pending')
      { m1 with stack := m1.stack.shrink (m.stack.size - 1) }
  -- the ends of the loops
  | unwindReturns {m m' : Machine} {outer fuel base v : Nat} :
    Machine.unwind outer fuel base m = .ok v m' → Leads (.unwind outer fuel base) m .returned m'
  | unwindFails {m m' : Machine} {outer fuel base : Nat} {e : Halt} :
    Machine.unwind outer fuel base m = .error e m' →
    Leads (.unwind outer fuel base) m (.failed e) m'
  | performReturns {m m' : Machine} {fuel v : Nat} {binds : List Bool} :
    Machine.performFrom fuel binds m = .ok v m' → Leads (.performFrom fuel binds) m .returned m'
  | performFails {m m' : Machine} {fuel : Nat} {binds : List Bool} {e : Halt} :
    Machine.performFrom fuel binds m = .error e m' →
    Leads (.performFrom fuel binds) m (.failed e) m'
  | normalizeReturns {m m' : Machine} {base fuel : Nat} {pending : List OpenValue} {v : Value} :
    Machine.normalizeFrom base fuel pending m = .ok v m' →
    Leads (.normalizeFrom base fuel pending) m .returned m'
  | normalizeFails {m m' : Machine} {base fuel : Nat} {pending : List OpenValue} {e : Halt} :
    Machine.normalizeFrom base fuel pending m = .error e m' →
    Leads (.normalizeFrom base fuel pending) m (.failed e) m'

/-- The evaluations that a call starts, one after the other. -/
inductive EntryPoint.Starts (fuel id : Nat) (m : Machine) : EntryPoint → Activity → Machine → Prop
  | whnf : Starts fuel id m .whnf (.whnf fuel id) m
  | perform : Starts fuel id m .perform (.perform fuel id) m
  | normalize : Starts fuel id m .normalize (.normalize fuel id) m
  | runWhnf : Starts fuel id m .run (.whnf fuel id) m
  | runPerform {m1 : Machine} {v : Nat} : Machine.whnf fuel id m = .ok v m1 →
    isActionIn m1.heap v = true → Starts fuel id m .run (.perform fuel v) m1
  | runResult {m1 m2 : Machine} {v r : Nat} : Machine.whnf fuel id m = .ok v m1 →
    isActionIn m1.heap v = true → Machine.perform fuel v m1 = .ok r m2 →
    Starts fuel id m .run (.normalize fuel r) m2
  | runNormalize {m1 : Machine} {v : Nat} : Machine.whnf fuel id m = .ok v m1 →
    isActionIn m1.heap v = false → Starts fuel id m .run (.normalize fuel id) m1

/-!
## Requests
-/

/-- How an evaluation goes on, in any number of steps. -/
inductive Onward : Activity → Machine → Activity → Machine → Prop
  | here {a : Activity} {m : Machine} : Onward a m a m
  | next {a a1 a' : Activity} {m m1 m' : Machine} : Leads a m a1 m1 → Onward a1 m1 a' m' →
    Onward a m a' m'

/-- **What a machine asks room for**, by activity. -/
inductive Requests : Activity → Machine → Nat → Prop
  | unwind {m : Machine} {outer fuel base : Nat} :
    Requests (.unwind outer (fuel + 1) base) m Heap.reserve
  | performFrom {m : Machine} {fuel : Nat} {binds : List Bool} :
    Requests (.performFrom (fuel + 1) binds) m Heap.reserve
  /-- A case is about to apply an alternative to the fields of a constructor. -/
  | fields {m : Machine} {outer fuel base scrut : Nat} {n tag arity : UInt32} :
    m.heap.get (m.stack.getD (m.stack.size - 1) 0) = .comb (.caseOf n) →
    arg (m.stack.size - 1) 1 m = .ok scrut m → m.isWhnfIn scrut = true →
    m.heap.get (spineOf m.heap scrut).1 = .comb (.con tag arity) →
    Requests (.look outer fuel base) m arity.toNat
  | result {m : Machine} {fuel : Nat} {binds : List Bool} :
    Requests (.act fuel binds) m Heap.reserve
  /-- The list of the arguments of the program: four cells for each, and three more. -/
  | arguments {m : Machine} {fuel : Nat} {binds : List Bool} :
    actionForm m.heap (m.stack.getD (m.stack.size - 1) 0) = .primitive .getArgs →
    Requests (.act fuel binds) m (4 * m.world.args.length + 3)

/-- **A request that is denied**: right after a collection there is room for fewer cells than were
asked for. -/
structure RoomDenied (m : Machine) (n capacity : Nat) (h : Heap) : Prop where
  fails : reserve n m = .error (.error (.outOfMemory capacity)) { m with heap := h }
  collected : h = (Heap.collect m.roots m.heap).2
  few : h.freeCells < max n Heap.reserve

/-- **The list of the arguments took the last cell**, and the bind that takes it needs one more. -/
structure ArgumentsTookAll (a : Activity) (m : Machine) (capacity : Nat) (h : Heap) : Prop where
  binds : ∃ fuel binds, a = .act fuel (true :: binds)
  form : actionForm m.heap (m.stack.getD (m.stack.size - 1) 0) = .primitive .getArgs
  many : 16 ≤ m.world.args.length
  fails : ∃ list m1 m2, argumentList m = .ok list m1 ∧ m1.heap.freeCells = 0 ∧
    handOver (m.stack.size - 1) true list m1 = .error (.error (.outOfMemory capacity)) m2 ∧ m2.heap = h

/-- **Where the blame lies** if an evaluation fails for want of memory. -/
def Blame (a : Activity) (m : Machine) (e : Halt) (m' : Machine) : Prop :=
  ∀ capacity, e = .error (.outOfMemory capacity) → ∃ a1 m1, Onward a m a1 m1 ∧
    ((∃ n, Requests a1 m1 n ∧ RoomDenied m1 n capacity m'.heap) ∨
      ArgumentsTookAll a1 m1 capacity m'.heap)

end Machine

end GraphReduction
