import GraphReduction.Machine.Rules

/-!
# Running programs

Three loops evaluate a cell: `unwind` to weak head normal form, `performFrom` as an action, and
`normalizeFrom` completely. They start each other, so they share one bound on their length,
which every turn of a loop uses up by one. A bound that is large enough does not change what is
computed.

A rule that waits for an argument suspends its spine on the stack, and the argument is unwound
above it. The right operands of sequenced actions and the fields still to be normalised wait on
the same stack, so none of this nests.
-/

namespace GraphReduction

/-- How a run ended. -/
inductive Outcome where
  /-- The normal form of the entry point, or of the result of its action. -/
  | value (v : Value)
  /-- The program asked to exit. -/
  | exit (status : Int32)

namespace Machine

/-!
## Actions
-/

/-- Performs an operation on the world and takes note of it. -/
def onWorld (o : Operation) : Run o.Answer := fun m =>
  let performed := o :: m.performed
  match o.perform m.world with
  | .ok a world => .ok a { m with world, performed }
  | .error e world => .error (.error e) { m with world, performed }

/-- Argument `i`, counting from zero, of the action at stack position `top`. -/
def actionArg (top i : Nat) : Run Nat := do
  let action ← entry top
  let (_, args) ← spine action
  return args.getD i action

/-- The arguments of the program, as a list of lazily unpacked strings. -/
def argumentCells (unpack cons nil : Nat) : List String → Run Nat
  | [] => return nil
  | s :: rest => do
    let list ← argumentCells unpack cons nil rest
    let text ← alloc (.scalar (.text s s.toList))
    let string ← app unpack text
    let cell ← app cons string
    app cell list

def argumentList : Run Nat := do
  let args ← onWorld .args
  reserve (4 * args.length + 3)
  let unpack ← alloc (.prim .unpack)
  let cons ← alloc (.comb .cons)
  let nil ← alloc (.comb .nil)
  argumentCells unpack cons nil args

/-- The cell of the result of an action. -/
def resultCell (c : Cell) : Run Nat := do
  safePoint
  alloc c

/-- Executes the action at stack position `top`, evaluating its arguments with `whnf` and
`normalize`. -/
def execute (whnf : Nat → Run Nat) (normalize : Nat → Run Value) (p : Primitive) (top : Nat) :
    Run Nat := do
  let int (i : Nat) : Run Int64 := do intValue p (← whnf (← actionArg top i))
  let char (i : Nat) : Run Char := do charValue p (← whnf (← actionArg top i))
  let ptr (i : Nat) : Run UInt64 := do ptrValue p (← whnf (← actionArg top i))
  let string (i : Nat) : Run String := do
    let v ← normalize (← actionArg top i)
    match v.toString? with
    | some s => return s
    | none => fail (.typeMismatch p.name "a string" v.render)
  let unit := Cell.comb .unit
  match p with
  | .getChar =>
    let h ← int 0
    resultCell (.int (← onWorld (.getChar h)))
  | .putChar =>
    let h ← int 0
    let c ← char 1
    onWorld (.putChar h c)
    resultCell unit
  | .flush =>
    let h ← int 0
    onWorld (.flush h)
    resultCell unit
  | .openFile =>
    let path ← string 0
    let mode ← int 1
    resultCell (.int (← onWorld (.openFile path mode)))
  | .close =>
    let h ← int 0
    onWorld (.close h)
    resultCell unit
  | .getArgs => argumentList
  | .exit =>
    let code ← int 0
    onWorld .flushAll
    fail (.exit code.toInt32)
  | .malloc =>
    let words ← int 0
    resultCell (.scalar (.ptr (← onWorld (.malloc words))))
  | .free =>
    let address ← ptr 0
    onWorld (.free address)
    resultCell unit
  | .peek =>
    let address ← ptr 0
    resultCell (.int (← onWorld (.peek address)))
  | .poke =>
    let address ← ptr 0
    let value ← int 1
    onWorld (.poke address value)
    resultCell unit
  | p => fail (.notAnAction p.name)

/-- What an action in weak head normal form asks for. -/
inductive ActionForm where
  | result (id : Nat)
  | bind (first : Nat) (next : Nat)
  | sequence (first second : Nat)
  | primitive (p : Primitive)
  | other

def actionForm (h : Heap) (id : Nat) : ActionForm :=
  match spineOf h id with
  | (head, args) =>
    match h.get head, args with
    | .comb .ioReturn, [x] => .result x
    | .comb .ioBind, [x, k] => .bind x k
    | .comb .ioThen, [x, y] => .sequence x y
    | .prim p, args => if p.isAction && args.length == p.arity then .primitive p else .other
    | _, _ => .other

/-!
## Normal forms
-/

/-- A constructor with fields still to come; those that are there have the last one first. -/
structure OpenValue where
  tag : UInt32
  missing : Nat
  fields : List Value

/-- Adds a value to the innermost open constructor and closes those that are complete. -/
def closeValue (v : Value) : List OpenValue → Value ⊕ List OpenValue
  | [] => .inl v
  | o :: rest =>
    if o.missing ≤ 1 then closeValue (.con o.tag (v :: o.fields).reverse) rest
    else .inr ({ o with missing := o.missing - 1, fields := v :: o.fields } :: rest)

def scalarValue : Scalar → Value
  | .int n => .int n
  | .char c => .char c
  | .double x => .double x
  | .ptr address => .ptr address
  | .text _ unread => .str (String.ofList unread)

/-- What a cell in weak head normal form is: a constructor with fields, or a finished value. -/
def valueForm (h : Heap) (id : Nat) : Value ⊕ (UInt32 × List Nat) :=
  match spineOf h id with
  | (head, args) =>
    match h.get head with
    | .comb (.con tag arity) =>
      if args.length ≠ arity.toNat then .inl (.function (describeIn h id))
      else if args.isEmpty then .inl (.con tag [])
      else .inr (tag, args)
    | .scalar s => if args.isEmpty then .inl (scalarValue s) else .inl (.function (describeIn h id))
    | _ => .inl (.function (describeIn h id))

/-- Pushes cells, the first one last. -/
def pushAll : List Nat → Run Unit
  | [] => return ()
  | id :: ids => do
    pushAll ids
    push id

/-!
## The loops
-/

/-- Suspends the spine at `base` and starts on an argument above it. Gives the new base. -/
def suspend (base id : Nat) : Run Nat := do
  enter
  modify fun m => { m with frames := m.frames.push base }
  push id
  top

/-- Drops a finished spine and goes back to the one suspended below it, whose base it gives. -/
def resume (base : Nat) : Run Nat := do
  truncate base
  let suspended := (← get).frames.back?.getD base
  modify fun m => { m with frames := m.frames.pop, depth := m.depth - 1 }
  return suspended

/-- Drops the finished action at stack position `top` and goes on to the right operand below it,
which is applied to the result if it takes one. -/
def handOver (top : Nat) (takesResult : Bool) (result : Nat) : Run Unit := do
  truncate top
  if takesResult then
    let next ← app (← entry (top - 1)) result
    setEntry (top - 1) next

mutual

/-- Unwinds the spine at `base` to weak head normal form. `outer` is the number of suspended
spines that belong to other evaluations. -/
def unwind (outer : Nat) : (fuel : Nat) → (base : Nat) → Run Nat
  | 0, _ => throw .outOfFuel
  | fuel + 1, base => do
    safePoint
    let ev : Evaluators :=
      { perform := fun id => nested id fun _ => performFrom fuel []
        normalize := fun id => nested id fun base => normalizeFrom base fuel [] }
    match ← step ev base with
    | .again => unwind outer fuel base
    | .force id => do
      let base ← suspend base id
      unwind outer fuel base
    | .done => do
      if (← get).frames.size = outer then entry base
      else
        let base ← resume base
        unwind outer fuel base
termination_by structural fuel => fuel

/-- Runs the action on top of the stack. For each action around it, `binds` says whether its
right operand, which is below it on the stack, takes the result. -/
def performFrom : (fuel : Nat) → (binds : List Bool) → Run Nat
  | 0, _ => throw .outOfFuel
  | fuel + 1, binds => do
    let whnf (id : Nat) : Run Nat :=
      nested id fun base => do unwind (← get).frames.size fuel base
    let normalize (id : Nat) : Run Value :=
      nested id fun base => normalizeFrom base fuel []
    safePoint
    let top ← top
    let action ← whnf (← entry top)
    setEntry top action
    let finish (result : Nat) : Run Nat := do
      match binds with
      | [] => return result
      | takesResult :: binds =>
        handOver top takesResult result
        performFrom fuel binds
    match actionForm (← get).heap action with
    | .result x => finish x
    | .bind x k =>
      setEntry top k
      push x
      performFrom fuel (true :: binds)
    | .sequence x y =>
      setEntry top y
      push x
      performFrom fuel (false :: binds)
    | .primitive p => finish (← execute whnf normalize p top)
    | .other => fail (.notAnAction (← describe action))
termination_by structural fuel => fuel

/-- Evaluates the cells on the stack above `base`, the top one first, as the missing fields of
the open constructors. -/
def normalizeFrom (base : Nat) : (fuel : Nat) → (pending : List OpenValue) → Run Value
  | 0, _ => throw .outOfFuel
  | fuel + 1, pending => do
    if (← get).stack.size ≤ base then malformed .nothingToNormalize
    let top ← top
    let v ← nested (← entry top) fun base => do unwind (← get).frames.size fuel base
    truncate top
    match valueForm (← get).heap v with
    | .inr (tag, fields) =>
      pushAll fields
      normalizeFrom base fuel (⟨tag, fields.length, []⟩ :: pending)
    | .inl value =>
      match closeValue value pending with
      | .inl value => return value
      | .inr pending => normalizeFrom base fuel pending
termination_by structural fuel => fuel

end

/-- Evaluates a cell to weak head normal form and gives the cell that holds it. -/
def whnf (fuel : Nat) (id : Nat) : Run Nat :=
  nested id fun base => do unwind (← get).frames.size fuel base

/-- Runs an action and gives the cell of its result. -/
def perform (fuel : Nat) (id : Nat) : Run Nat := nested id fun _ => performFrom fuel []

/-- Evaluates a cell completely. -/
def normalize (fuel : Nat) (id : Nat) : Run Value :=
  nested id fun base => normalizeFrom base fuel []

/-- Runs a cell if it is an action, else evaluates it completely. -/
def evaluate (fuel : Nat) (id : Nat) : Run Value := do
  let v ← whnf fuel id
  if isActionIn (← get).heap v then
    let result ← perform fuel v
    normalize fuel result
  else normalize fuel id

/-- Runs the entry point of a program and flushes what it has written. -/
def run (fuel : Nat) (id : Nat) : Run Outcome := fun m =>
  match evaluate fuel id m with
  | .ok v m => (do onWorld .flushAll; return .value v : Run Outcome) m
  | .error e m =>
    match onWorld .flushAll m with
    | .ok _ m | .error _ m =>
      match e with
      | .error (.exit status) => .ok (.exit status) m
      | e => .error e m

end Machine

end GraphReduction
