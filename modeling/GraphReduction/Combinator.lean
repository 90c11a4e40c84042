/-!
# Combinators

The closed set of combinators that a compiled program is made of: the basis `S K I B C A` with
the variants `S' B' C'` that keep more structure, the fixed point `Y`, constructors, the case
dispatcher, and the three combinators that sequence I/O actions.
-/

namespace GraphReduction

inductive Combinator where
  /-- `S f g x` is `f x (g x)`. -/
  | S
  /-- `K x y` is `x`. -/
  | K
  /-- `I x` is `x`. -/
  | I
  /-- `B f g x` is `f (g x)`. -/
  | B
  /-- `C f x y` is `f y x`. -/
  | C
  /-- `A x y` is `y`. -/
  | A
  /-- `Y f` is `f (Y f)`, tied into a cycle. -/
  | Y
  /-- `S' c f g x` is `c (f x) (g x)`. -/
  | S'
  /-- `B' c f g x` is `c (f (g x))`. -/
  | B'
  /-- `C' c f g x` is `c (f x) g`. -/
  | C'
  /-- A constructor. Applied to `arity` fields it is a value. -/
  | con (tag arity : UInt32)
  /-- `Case n s a₀ … aₙ₋₁` evaluates `s` to a constructor with tag `t` and applies `aₜ` to its
  fields. -/
  | caseOf (alternatives : UInt32)
  /-- Runs an action and hands its result to a function that gives the next one. -/
  | ioBind
  /-- Runs two actions and keeps the result of the second. -/
  | ioThen
  /-- The action that only has a result. -/
  | ioReturn
deriving DecidableEq, Inhabited

namespace Combinator

def ofFalse : Combinator := .con 0 0
def ofTrue : Combinator := .con 1 0
def nil : Combinator := .con 0 0
def cons : Combinator := .con 1 2
def unit : Combinator := .con 0 0

/-- The constructor of a truth value. -/
def ofBool (b : Bool) : Combinator := if b then ofTrue else ofFalse

/-- The number of arguments that a combinator fires on. Constructors and the I/O combinators
never fire. -/
def arity : Combinator → Option Nat
  | I | Y => some 1
  | K | A => some 2
  | S | B | C => some 3
  | S' | B' | C' => some 4
  | caseOf n => some (n.toNat + 1)
  | con .. | ioBind | ioThen | ioReturn => none

/-- The byte that stands for a combinator in a definitions file. -/
def code : Combinator → UInt8
  | S => 0
  | K => 1
  | I => 2
  | B => 3
  | C => 4
  | A => 5
  | Y => 6
  | S' => 7
  | B' => 8
  | C' => 9
  | con .. => 10
  | caseOf _ => 11
  | ioBind => 12
  | ioThen => 13
  | ioReturn => 14

/-- Whether the combinator builds an action. -/
def isAction : Combinator → Bool
  | ioBind | ioThen | ioReturn => true
  | _ => false

/-- The combinators that a program text can name. -/
def ofName? (name : String) : Option Combinator :=
  if name = "IO.>>=" then some ioBind
  else if name = "IO.>>" then some ioThen
  else if name = "IO.return" then some ioReturn
  else none

def render : Combinator → String
  | S => "S"
  | K => "K"
  | I => "I"
  | B => "B"
  | C => "C"
  | A => "A"
  | Y => "Y"
  | S' => "S'"
  | B' => "B'"
  | C' => "C'"
  | con tag arity => "Con" ++ toString tag.toNat ++ "/" ++ toString arity.toNat
  | caseOf n => "Case" ++ toString n.toNat
  | ioBind => "IO.>>="
  | ioThen => "IO.>>"
  | ioReturn => "IO.return"

end Combinator

end GraphReduction
