import GraphReduction.Machine.Basic
import GraphReduction.Value

/-!
# Reduction rules

A rule fires on a head whose arguments are on the stack and overwrites the root of the redex. A
rule that is strict in an argument which is not evaluated yet does not fire, and gives that
argument instead.
-/

namespace GraphReduction

/-- The evaluations that a rule can start on its own. -/
structure Evaluators where
  /-- Runs an action and gives the cell of its result. -/
  perform : Nat → Run Nat
  /-- Evaluates a cell completely. -/
  normalize : Nat → Run Value

namespace Machine

/-- What a rule did: it fired, or it waits for an argument to be evaluated. -/
inductive Fired where
  | yes
  | waitingFor (id : Nat)

/-- Overwrites the redex with a cell. -/
def overwrite (redex : Nat) (c : Cell) : Run Fired := do
  setCell redex c
  return .yes

/-- Makes the redex stand for another cell. -/
def forward (redex target : Nat) : Run Fired := do
  updateInd redex target
  return .yes

/-!
## Combinators
-/

/-- Applies a function to all arguments but the last. -/
def applyAll (f : Nat) : List Nat → Run Nat
  | [] => return f
  | a :: args => do
    let fa ← app f a
    applyAll fa args

/-- Overwrites a `Case` with `n` alternatives by the one of a tag, applied to the fields of the
scrutinee. -/
def selectAlternative (n top tag : Nat) : Run Fired := do
  let (_, fields) ← spine (← arg top 1)
  let redex ← entry (top - (n + 1))
  let alt ← arg top (tag + 2)
  match fields.getLast? with
  | none => forward redex alt
  | some last =>
    let f ← applyAll alt fields.dropLast
    overwrite redex (.app f last)

/-- `Case n s a₀ … aₙ₋₁`: once `s` is evaluated, the alternative of its tag is applied to its
fields. -/
def fireCase (n top : Nat) : Run Fired := do
  let scrut ← arg top 1
  if !(← isWhnf scrut) then return .waitingFor scrut
  let scrut ← resolve scrut
  let (head, fields) ← spine scrut
  match ← cell head with
  | .comb (.con tag arity) =>
    if fields.length ≠ arity.toNat then
      fail (.typeMismatch "case" "a saturated constructor" (← describe scrut))
    if n ≤ tag.toNat then fail (.patternMatchFailure tag (UInt32.ofNat n))
    reserve arity.toNat
    -- A collection may have made the spine skip indirections, so it is read again.
    selectAlternative n top tag.toNat
  | _ => fail (.typeMismatch "case" "a saturated constructor" (← describe scrut))

/-- Fires a combinator whose head is at stack position `top`. -/
def fire (c : Combinator) (top : Nat) : Run Fired := do
  match c with
  | .I => forward (← entry (top - 1)) (← arg top 1)
  | .K =>
    let x ← arg top 1
    let _ ← arg top 2
    forward (← entry (top - 2)) x
  | .A =>
    let _ ← arg top 1
    let y ← arg top 2
    forward (← entry (top - 2)) y
  | .Y =>
    let f ← arg top 1
    let redex ← entry (top - 1)
    overwrite redex (.app f redex)
  | .S =>
    let f ← arg top 1
    let g ← arg top 2
    let x ← arg top 3
    let fx ← app f x
    let gx ← app g x
    overwrite (← entry (top - 3)) (.app fx gx)
  | .B =>
    let f ← arg top 1
    let g ← arg top 2
    let x ← arg top 3
    let gx ← app g x
    overwrite (← entry (top - 3)) (.app f gx)
  | .C =>
    let f ← arg top 1
    let x ← arg top 2
    let y ← arg top 3
    let fy ← app f y
    overwrite (← entry (top - 3)) (.app fy x)
  | .S' =>
    let c ← arg top 1
    let f ← arg top 2
    let g ← arg top 3
    let x ← arg top 4
    let fx ← app f x
    let cfx ← app c fx
    let gx ← app g x
    overwrite (← entry (top - 4)) (.app cfx gx)
  | .B' =>
    let c ← arg top 1
    let f ← arg top 2
    let g ← arg top 3
    let x ← arg top 4
    let gx ← app g x
    let fgx ← app f gx
    overwrite (← entry (top - 4)) (.app c fgx)
  | .C' =>
    let c ← arg top 1
    let f ← arg top 2
    let g ← arg top 3
    let x ← arg top 4
    let fx ← app f x
    let cfx ← app c fx
    overwrite (← entry (top - 4)) (.app cfx g)
  | .caseOf n => fireCase n.toNat top
  | .con .. | .ioBind | .ioThen | .ioReturn => malformed (.cannotFire c)

/-!
## Primitives
-/

/-- The first of the arguments `i`, `i + 1`, … that is not evaluated, of `n` arguments. -/
def firstUnevaluated (top i : Nat) : (n : Nat) → Run (Option Nat)
  | 0 => return none
  | n + 1 => do
    let a ← arg top i
    if ← isWhnf a then firstUnevaluated top (i + 1) n
    else return some a

def intArg (p : Primitive) (top i : Nat) : Run Int64 := do intValue p (← arg top i)
def charArg (p : Primitive) (top i : Nat) : Run Char := do charValue p (← arg top i)
def doubleArg (p : Primitive) (top i : Nat) : Run Double := do doubleValue p (← arg top i)
def ptrArg (p : Primitive) (top i : Nat) : Run UInt64 := do ptrValue p (← arg top i)

/-- A cell for a truth value. -/
def boolCell (b : Bool) : Cell := .comb (.ofBool b)

def doubleCell (x : Double) : Cell := .scalar (.double x)

/-- A cell for a string that is unpacked lazily. -/
def stringCell (s : String) : Run Cell := do
  let text ← alloc (.scalar (.text s s.toList))
  let unpack ← alloc (.prim .unpack)
  return .app unpack text

/-- Combines two integer arguments. -/
def intRule (p : Primitive) (redex top : Nat) (f : Int64 → Int64 → Cell) : Run Fired := do
  let x ← intArg p top 1
  let y ← intArg p top 2
  overwrite redex (f x y)

/-- Divides two integer arguments. -/
def divisionRule (p : Primitive) (redex top : Nat) (f : Int64 → Int64 → Int64) : Run Fired := do
  let x ← intArg p top 1
  let y ← intArg p top 2
  if y = 0 then fail .divisionByZero
  overwrite redex (.int (f x y))

/-- Combines two double arguments. -/
def doubleRule (p : Primitive) (redex top : Nat) (f : Double → Double → Cell) : Run Fired := do
  let x ← doubleArg p top 1
  let y ← doubleArg p top 2
  overwrite redex (f x y)

/-- The character with a code point, if there is one. -/
def charOf? (n : Int64) : Option Char :=
  if 0 ≤ n.toInt ∧ n.toInt.toNat.isValidChar then some (Char.ofNat n.toInt.toNat) else none

/-- Counts a tick. -/
def countTick (label : Int64) : Run Unit := modify fun m =>
  { m with stats := { m.stats with
    ticks := m.stats.ticks + 1
    labels := m.stats.labels.alter label.toInt fun n => some (n.getD 0 + 1) } }

/-- A string becomes its first character in front of the rest, or the empty list. -/
def fireUnpack (top : Nat) : Run Fired := do
  let s ← resolve (← arg top 1)
  let redex ← entry (top - 1)
  match ← cell s with
  | .scalar (.text _ []) => overwrite redex (.comb .nil)
  | .scalar (.text whole (c :: unread)) =>
    let head ← alloc (.scalar (.char c))
    let rest ← alloc (.scalar (.text whole unread))
    let rest ← app (← entry top) rest
    let cons ← alloc (.comb .cons)
    let cell ← app cons head
    overwrite redex (.app cell rest)
  | _ => mismatch .unpack "a string literal" s

/-- Fires a primitive whose head is at stack position `top` and whose leading arguments are
evaluated as far as it asks. -/
def firePrimitive (ev : Evaluators) (p : Primitive) (top : Nat) : Run Fired := do
  let redex ← entry (top - p.arity)
  match p with
  | .add => intRule p redex top fun x y => .int (x + y)
  | .sub => intRule p redex top fun x y => .int (x - y)
  | .mul => intRule p redex top fun x y => .int (x * y)
  | .quot => divisionRule p redex top fun x y => x / y
  | .rem => divisionRule p redex top fun x y => x % y
  | .neg => overwrite redex (.int (-(← intArg p top 1)))
  | .eq => intRule p redex top fun x y => boolCell (x == y)
  | .ne => intRule p redex top fun x y => boolCell (x != y)
  | .lt => intRule p redex top fun x y => boolCell (x < y)
  | .le => intRule p redex top fun x y => boolCell (x ≤ y)
  | .gt => intRule p redex top fun x y => boolCell (x > y)
  | .ge => intRule p redex top fun x y => boolCell (x ≥ y)
  | .ord => overwrite redex (.int (Int64.ofNat (← charArg p top 1).toNat))
  | .chr =>
    let n ← intArg p top 1
    match charOf? n with
    | some c => overwrite redex (.scalar (.char c))
    | none => fail (.typeMismatch p.name "a Unicode scalar value" (renderInt n))
  | .fadd => doubleRule p redex top fun x y => doubleCell (x.add y)
  | .fsub => doubleRule p redex top fun x y => doubleCell (x.sub y)
  | .fmul => doubleRule p redex top fun x y => doubleCell (x.mul y)
  | .fdiv => doubleRule p redex top fun x y => doubleCell (x.div y)
  | .feq => doubleRule p redex top fun x y => boolCell (x.numEq y)
  | .flt => doubleRule p redex top fun x y => boolCell (x.numLt y)
  | .fle => doubleRule p redex top fun x y => boolCell (x.numLe y)
  | .intToDouble => overwrite redex (doubleCell (.ofInt64 (← intArg p top 1)))
  | .doubleToInt => overwrite redex (.int (← doubleArg p top 1).toInt64)
  | .showInt =>
    let n ← intArg p top 1
    overwrite redex (← stringCell (renderInt n))
  | .showDouble =>
    let x ← doubleArg p top 1
    overwrite redex (← stringCell (x.render .literal))
  | .seq => forward redex (← arg top 2)
  | .tick =>
    countTick (← intArg p top 1)
    forward redex (← arg top 2)
  | .error =>
    let v ← ev.normalize (← arg top 1)
    fail (.userError (v.toString?.getD v.render))
  | .noMatch => fail .noMatch
  | .unpack => fireUnpack top
  | .nullPtr => overwrite redex (.scalar (.ptr 0))
  | .ptrAdd =>
    let address ← ptrArg p top 1
    let offset ← intArg p top 2
    overwrite redex (.scalar (.ptr (address + offset.toUInt64)))
  | .ptrEq =>
    let x ← ptrArg p top 1
    let y ← ptrArg p top 2
    overwrite redex (boolCell (x == y))
  | .perform =>
    let result ← ev.perform (← arg top 1)
    forward redex result
  | .stdin => overwrite redex (.int World.stdinHandle)
  | .stdout => overwrite redex (.int World.stdoutHandle)
  | .stderr => overwrite redex (.int World.stderrHandle)
  | .getChar | .putChar | .flush | .openFile | .close | .getArgs | .exit | .malloc | .free
  | .peek | .poke => malformed (.actionReduced p)

/-- Fires a primitive, or gives the first of its strict arguments that is not evaluated. -/
def fireStrict (ev : Evaluators) (p : Primitive) (top : Nat) : Run Fired := do
  match ← firstUnevaluated top 1 p.forced with
  | some a => return .waitingFor a
  | none => firePrimitive ev p top

/-!
## Unwinding
-/

/-- What unwinding does after a look at the top of the stack. -/
inductive Progress where
  | again
  /-- Evaluate this cell first, then look at the same spine again. -/
  | force (id : Nat)
  /-- The spine is in weak head normal form. -/
  | done

/-- Drops the head and the arguments of a rule of arity `n` that has fired. -/
def afterRule (top n : Nat) : Fired → Run Progress
  | .waitingFor a => return .force a
  | .yes => do
    modify fun m => { m with stats := { m.stats with steps := m.stats.steps + 1 } }
    truncate (top - n + 1)
    return .again

/-- Looks at the top of the stack, whose spine starts at `base`. -/
def step (ev : Evaluators) (base : Nat) : Run Progress := do
  let top ← top
  let id ← entry top
  let available := top - base
  match ← cell id with
  | .app f _ =>
    push f
    return .again
  | .ind target =>
    if target = id then malformed .loop
    setEntry top target
    return .again
  | .comb c =>
    match c.arity with
    | some n => if n ≤ available then afterRule top n (← fire c top) else return .done
    | none => return .done
  | .prim p =>
    if p.isAction || available < p.arity then return .done
    afterRule top p.arity (← fireStrict ev p top)
  | .scalar _ =>
    if available = 0 then return .done
    fail (.notAFunction (← describe id))
  | .free _ => malformed (.unallocated id)

end Machine

end GraphReduction
