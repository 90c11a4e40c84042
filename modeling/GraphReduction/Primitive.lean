/-!
# Primitive operations

Each primitive has a name, an arity, and a number of leading arguments that are evaluated
before it fires. I/O primitives are actions: for the reducer they are values, and they take
effect only when the I/O driver executes them.
-/

namespace GraphReduction

inductive Primitive where
  | add | sub | mul | quot | rem | neg
  | eq | ne | lt | le | gt | ge
  | ord | chr
  | fadd | fsub | fmul | fdiv | feq | flt | fle
  | intToDouble | doubleToInt
  | showInt | showDouble
  | seq | error | noMatch | tick
  | unpack
  | nullPtr | ptrAdd | ptrEq
  | perform
  | stdin | stdout | stderr
  | getChar | putChar | flush | openFile | close
  | getArgs | exit
  | malloc | free | peek | poke
deriving DecidableEq, Inhabited

namespace Primitive

/-- Every primitive once. -/
def all : List Primitive :=
  [add, sub, mul, quot, rem, neg, eq, ne, lt, le, gt, ge, ord, chr, fadd, fsub, fmul, fdiv, feq,
   flt, fle, intToDouble, doubleToInt, showInt, showDouble, seq, error, noMatch, tick, unpack,
   nullPtr, ptrAdd, ptrEq, perform, stdin, stdout, stderr, getChar, putChar, flush, openFile,
   close, getArgs, exit, malloc, free, peek, poke]

/-- The name of a primitive in program texts and definitions files. -/
def name : Primitive → String
  | add => "+"
  | sub => "-"
  | mul => "*"
  | quot => "quot"
  | rem => "rem"
  | neg => "neg"
  | eq => "=="
  | ne => "/="
  | lt => "<"
  | le => "<="
  | gt => ">"
  | ge => ">="
  | ord => "ord"
  | chr => "chr"
  | fadd => "f+"
  | fsub => "f-"
  | fmul => "f*"
  | fdiv => "f/"
  | feq => "f=="
  | flt => "f<"
  | fle => "f<="
  | intToDouble => "itof"
  | doubleToInt => "ftoi"
  | showInt => "ishow"
  | showDouble => "fshow"
  | seq => "seq"
  | error => "error"
  | noMatch => "noMatch"
  | tick => "tick"
  | unpack => "fromUTF8"
  | nullPtr => "pnull"
  | ptrAdd => "p+"
  | ptrEq => "p=="
  | perform => "IO.performIO"
  | stdin => "IO.stdin"
  | stdout => "IO.stdout"
  | stderr => "IO.stderr"
  | getChar => "IO.hGetChar"
  | putChar => "IO.hPutChar"
  | flush => "IO.hFlush"
  | openFile => "IO.openFile"
  | close => "IO.hClose"
  | getArgs => "IO.getArgs"
  | exit => "IO.exit"
  | malloc => "IO.malloc"
  | free => "IO.free"
  | peek => "IO.peek"
  | poke => "IO.poke"

def ofName? (s : String) : Option Primitive :=
  all.find? fun p => p.name == s

/-- The number of arguments that a primitive fires on, or that an action is executed with. -/
def arity : Primitive → Nat
  | noMatch | nullPtr | stdin | stdout | stderr | getArgs => 0
  | neg | ord | chr | intToDouble | doubleToInt | showInt | showDouble | error | unpack
  | perform | getChar | flush | close | exit | malloc | free | peek => 1
  | _ => 2

/-- The number of leading arguments evaluated before the primitive fires. -/
def forced : Primitive → Nat
  | seq | tick => 1
  | perform => 0
  | p => p.arity

/-- Whether the primitive is an action. -/
def isAction : Primitive → Bool
  | getChar | putChar | flush | openFile | close | getArgs | exit | malloc | free | peek | poke =>
    true
  | _ => false

end Primitive

end GraphReduction
