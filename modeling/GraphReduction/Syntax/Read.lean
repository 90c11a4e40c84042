import GraphReduction.Syntax.Expr
import GraphReduction.Syntax.Scan

/-!
# Reading modules

A recursive descent parser that also settles scoping. A name bound by an enclosing parameter,
lambda, let or alternative is a variable; every other name refers to a top-level definition,
and is checked against them once the whole module is read. Constructors are looked up in the
data declarations that precede their use.

The functions for one construct take the function that reads a nested expression as an
argument, and `readExpr` ties the knot on a bound for the depth of nesting. Each level takes at
least one token, so the number of tokens is bound enough.
-/

namespace GraphReduction.Read

/-- A declared constructor: its tag, its number of fields and the index of its type. -/
structure ConstructorInfo where
  tag : UInt32
  arity : UInt32
  type : Nat

/-- The data declarations read so far. -/
structure Declared where
  datatypes : List DataDecl
  constructors : List (Name × ConstructorInfo)

/-- What an expression is read under: the declarations and the enclosing binders. -/
structure Scope where
  declared : Declared
  locals : List Name

/-- `xs` are bound further in. -/
def Scope.bind (sc : Scope) (xs : List Name) : Scope := { sc with locals := xs ++ sc.locals }

/-- The tokens to be read, and the references to top-level names met so far, last one first. -/
structure Pending where
  tokens : List Token
  globals : List (Name × Position)

abbrev ReadM := StateT Pending (Except ReadError)

/-- Stands for the next token of an empty list. -/
def noToken : Token := ⟨.endOfInput, ⟨0, 0, 0⟩, "EOF"⟩

def fail {α : Type} (pos : Position) (fault : GrammarFault) : ReadM α :=
  throw (.grammar pos fault)

/-- Refuses a token. -/
def unexpected {α : Type} (what : Expectation) (found : Token) : ReadM α :=
  fail found.pos (.expected what found)

def peek : ReadM Token := do
  return (← get).tokens.headD noToken

/-- Takes the next token. The last one is never used up. -/
def advance : ReadM Token := do
  let s ← get
  match s.tokens with
  | [] => return noToken
  | [t] => return t
  | t :: ts =>
    set { s with tokens := ts }
    return t

/-- Takes a token of the given kind. -/
def expect (kind : TokenKind) : ReadM Token := do
  let t ← advance
  if t.kind = kind then return t else unexpected (.token kind) t

/-- Takes the next token if it is of the given kind. -/
def accept (kind : TokenKind) : ReadM Bool := do
  if (← peek).kind = kind then
    let _ ← advance
    return true
  else return false

/-- Takes identifiers as long as there are any. -/
def params : ReadM (List Name) := do
  let s ← get
  let isParam : Token → Bool := fun t => t.kind = .identifier
  set { s with tokens := s.tokens.dropWhile isParam }
  return (s.tokens.takeWhile isParam).map Token.lexeme

/-- The names that a `letrec` binds, found by looking ahead from its first binding. `depth`
counts open brackets and inner lets, `start` says that a binding starts here. -/
def letRecNames (depth : Nat) (start : Bool) : List Token → List Name
  | [] => []
  | t :: ts =>
    match t.kind with
    | .identifier =>
      if start && depth == 0 then t.lexeme :: letRecNames depth false ts
      else letRecNames depth false ts
    | .leftParen | .leftBrace | .kwLet | .kwLetRec => letRecNames (depth + 1) false ts
    | .rightParen | .rightBrace => letRecNames (depth - 1) false ts
    | .kwIn => if depth = 0 then [] else letRecNames (depth - 1) false ts
    | .semicolon => letRecNames depth (depth == 0) ts
    | .endOfInput => []
    | _ => letRecNames depth false ts

def lookupConstructor (declared : Declared) (t : Token) : ReadM ConstructorInfo :=
  match declared.constructors.lookup t.lexeme with
  | some info => return info
  | none => fail t.pos (.unknownConstructor t.lexeme)

section Forms

/- `nested` reads an expression one level further in. -/
variable (nested : Scope → ReadM Expr)

/-- `\x y -> e`. -/
def lambda (sc : Scope) : ReadM Expr := do
  let _ ← expect .backslash
  let xs ← params
  if xs.isEmpty then unexpected .parameter (← advance)
  let _ ← expect .arrow
  let body ← nested (sc.bind xs)
  return .lams xs body

/-- `x y z = e`, where the parameters become lambdas around the right hand side. -/
def binding (sc : Scope) : ReadM (Name × Expr) := do
  let x ← expect .identifier
  let xs ← params
  let _ ← expect .equal
  let rhs ← nested (sc.bind xs)
  return (x.lexeme, .lams xs rhs)

/-- The rest of a `let`. Each binding sees the ones before it. -/
def letRest (sc : Scope) : Nat → ReadM Expr
  | 0 => do unexpected .atom (← peek)
  | bound + 1 => do
    let (x, rhs) ← binding nested sc
    let sc := sc.bind [x]
    if ← accept .semicolon then
      let body ← letRest sc bound
      return .letIn x rhs body
    let _ ← expect .kwIn
    let body ← nested sc
    return .letIn x rhs body

/-- The bindings of a `letrec`, all of which are in scope. -/
def letRecBindings (sc : Scope) : Nat → ReadM (List (Name × Expr))
  | 0 => do unexpected .atom (← peek)
  | bound + 1 => do
    let b ← binding nested sc
    if ← accept .semicolon then
      let bs ← letRecBindings sc bound
      return b :: bs
    return [b]

/-- `letrec x = e; y = f in g`. -/
def letRec (sc : Scope) (bound : Nat) : ReadM Expr := do
  let _ ← expect .kwLetRec
  let sc := sc.bind (letRecNames 0 true (← get).tokens)
  let binds ← letRecBindings nested sc bound
  let _ ← expect .kwIn
  let body ← nested sc
  return .letRec binds body

/-- The alternatives of a case read so far, the last one first, and the type they belong to. -/
structure Alternatives where
  type : Option Nat := none
  alts : List (Alt Expr) := []
  other : Option Expr := none

/-- `Con x y -> e`. -/
def alternative (sc : Scope) (acc : Alternatives) : ReadM Alternatives := do
  let con ← expect .constructor
  let info ← lookupConstructor sc.declared con
  match acc.type with
  | some d =>
    if d ≠ info.type then
      let type := (sc.declared.datatypes[d]?.map DataDecl.name).getD ""
      fail con.pos (.foreignConstructor con.lexeme type)
  | none => pure ()
  let xs ← params
  if xs.length ≠ info.arity.toNat then
    fail con.pos (.fieldCount con.lexeme info.arity.toNat xs.length)
  let _ ← expect .arrow
  let body ← nested (sc.bind xs)
  return { acc with type := some info.type, alts := ⟨info.tag, xs, body⟩ :: acc.alts }

/-- The alternatives up to the closing brace. Of several defaults the last one counts. -/
def alternatives (sc : Scope) (acc : Alternatives) : Nat → ReadM Alternatives
  | 0 => do unexpected .atom (← peek)
  | bound + 1 => do
    if (← peek).kind = .rightBrace then return acc
    let acc ←
      if ← accept .underscore then do
        let _ ← expect .arrow
        let e ← nested sc
        pure { acc with other := some e }
      else alternative nested sc acc
    if ← accept .semicolon then alternatives sc acc bound else return acc

/-- `case e of { … }`. -/
def caseOf (sc : Scope) (bound : Nat) : ReadM Expr := do
  let _ ← expect .kwCase
  let scrut ← nested sc
  let _ ← expect .kwOf
  let _ ← expect .leftBrace
  let acc ← alternatives nested sc {} bound
  let close ← expect .rightBrace
  match acc.type with
  | none => fail close.pos .emptyCase
  | some d =>
    let arities := (sc.declared.datatypes[d]?.map DataDecl.arities).getD []
    return .caseOf scrut arities acc.alts.reverse acc.other

/-- A name, a literal, a primitive or an expression in parentheses. -/
def atom (sc : Scope) : ReadM Expr := do
  let t ← advance
  match t.kind with
  | .identifier =>
    if t.lexeme ∈ sc.locals then return .var t.lexeme
    modify fun s => { s with globals := (t.lexeme, t.pos) :: s.globals }
    return .global t.lexeme
  | .constructor =>
    let info ← lookupConstructor sc.declared t
    return .con info.tag info.arity
  | .int n => return .lit (.int n)
  | .double x => return .lit (.double x)
  | .char c => return .lit (.char c)
  | .string s => return .lit (.str s)
  | .primitive name =>
    match Primitive.ofName? name, Combinator.ofName? name with
    | some p, _ => return .prim p
    | none, some c => return .comb c
    | none, none => fail t.pos (.unknownPrimitive name)
  | .leftParen =>
    let e ← nested sc
    let _ ← expect .rightParen
    return e
  | _ => unexpected .atom t

/-- Whether a token can start an atom. -/
def startsAtom : TokenKind → Bool
  | .identifier | .constructor | .int _ | .double _ | .char _ | .string _ | .primitive _
  | .leftParen => true
  | _ => false

/-- Whether a token starts an expression that extends as far as possible. -/
def startsBlock : TokenKind → Bool
  | .backslash | .kwLet | .kwLetRec | .kwCase => true
  | _ => false

/-- The arguments of `f`. The last one may be a lambda, a let or a case without parentheses. -/
def arguments (sc : Scope) (f : Expr) : Nat → ReadM Expr
  | 0 => do unexpected .atom (← peek)
  | bound + 1 => do
    let kind := (← peek).kind
    if startsAtom kind then
      let a ← atom nested sc
      arguments sc (.app f a) bound
    else if startsBlock kind then
      let a ← nested sc
      return .app f a
    else return f

/-- An expression. -/
def form (bound : Nat) (sc : Scope) : ReadM Expr := do
  match (← peek).kind with
  | .backslash => lambda nested sc
  | .kwLet =>
    let _ ← expect .kwLet
    letRest nested sc bound
  | .kwLetRec => letRec nested sc bound
  | .kwCase => caseOf nested sc bound
  | _ =>
    let f ← atom nested sc
    arguments nested sc f bound

end Forms

/-- An expression with at most `bound` levels of nesting. -/
def readExpr : Nat → Scope → ReadM Expr
  | 0, _ => do unexpected .atom (← peek)
  | bound + 1, sc => form (readExpr bound) bound sc

/-- The constructors of a data declaration after `=`, numbered from `tag`; `index` is the number
of the declaration. -/
def readConstructors (index : Nat) (known : List (Name × ConstructorInfo)) (tag : Nat) :
    Nat → ReadM (List (Name × UInt32) × List (Name × ConstructorInfo))
  | 0 => do unexpected .declaration (← peek)
  | bound + 1 => do
    let con ← expect .constructor
    let arity ←
      match (← peek).kind with
      | .int k =>
        let t ← advance
        if 0 ≤ k.toInt && k.toInt.toNat < UInt32.size then pure (UInt32.ofNat k.toInt.toNat)
        else unexpected .arity t
      | _ => pure 0
    if (known.lookup con.lexeme).isSome then fail con.pos (.constructorTwice con.lexeme)
    let known := (con.lexeme, ⟨UInt32.ofNat tag, arity, index⟩) :: known
    if ← accept .bar then
      let (cons, known) ← readConstructors index known (tag + 1) bound
      return ((con.lexeme, arity) :: cons, known)
    return ([(con.lexeme, arity)], known)

/-- `data Name = Con k | …`. -/
def readData (declared : Declared) (bound : Nat) : ReadM Declared := do
  let _ ← expect .kwData
  let name ← expect .constructor
  let _ ← expect .equal
  let (cons, known) ←
    readConstructors declared.datatypes.length declared.constructors 0 bound
  return ⟨declared.datatypes ++ [⟨name.lexeme, cons⟩], known⟩

/-- `def name params = e`. -/
def readDef (declared : Declared) (bound : Nat) : ReadM (Binding Expr) := do
  let _ ← expect .kwDef
  let name ← expect .identifier
  let xs ← params
  let _ ← expect .equal
  let body ← readExpr bound ⟨declared, xs⟩
  return ⟨name.lexeme, xs, body⟩

/-- The declarations and definitions up to the end of the input, `exprBound` being the bound for
expressions. -/
def readItems (exprBound : Nat) (declared : Declared) :
    Nat → ReadM (List DataDecl × List (Binding Expr))
  | 0 => do unexpected .declaration (← peek)
  | bound + 1 => do
    let t ← peek
    match t.kind with
    | .kwData =>
      let declared ← readData declared exprBound
      readItems exprBound declared bound
    | .kwDef =>
      let d ← readDef declared exprBound
      let (datatypes, defs) ← readItems exprBound declared bound
      return (datatypes, d :: defs)
    | .endOfInput => return (declared.datatypes, [])
    | _ => unexpected .declaration t

end Read

/-- A module from its tokens. Every reference to a top-level name must have a definition; the
first one in the text that has none is reported. -/
def Module.ofTokens (name : String) (tokens : List Token) : Except ReadError Module := do
  let bound := 2 * tokens.length + 2
  let ((datatypes, defs), rest) ←
    (Read.readItems bound ⟨[], []⟩ bound).run ⟨tokens, []⟩
  let module : Module := ⟨name, datatypes, defs⟩
  match rest.globals.reverse.find? fun (x, _) => (module.get? x).isNone with
  | some (x, pos) => throw (.grammar pos (.unbound x))
  | none => return module

/-- Reads a source text as the module `name`. -/
def Module.read (name source : String) : Except ReadError Module := do
  Module.ofTokens name (← tokenize source)

end GraphReduction
