/-!
# Command line options

How the words of a command line become options. An option with a value takes it from the same
word or from the next one, which must not look like an option. Every option but `-v` is given at
most once. Program arguments follow a `--`.
-/

namespace GraphReduction

namespace CommandLine

inductive Flag where
  | compile | output | run | cache | heap | stack | depth | gcStress | visualize | verbose
deriving DecidableEq

namespace Flag

def takesValue : Flag → Bool
  | gcStress | verbose => false
  | _ => true

def ofLong? (name : String) : Option Flag :=
  [("compile", compile), ("output", output), ("run", run), ("cache", cache), ("heap", heap),
   ("stack", stack), ("depth", depth), ("gc-stress", gcStress), ("visualize", visualize)].lookup name

def ofShort? : Char → Option Flag
  | 'c' => some compile
  | 'o' => some output
  | 'r' => some run
  | 'v' => some verbose
  | _ => none

end Flag

/-- The options given, with their values, and the program arguments. -/
structure Matches where
  given : List (Flag × String) := []
  args : List String := []

namespace Matches

def value? (m : Matches) (o : Flag) : Option String := m.given.lookup o

def has (m : Matches) (o : Flag) : Bool := (m.value? o).isSome

end Matches

/-- Why a command line is not run. -/
inductive Refusal where
  /-- It does not follow the rules. -/
  | usage
  /-- It asks for help or for the version. -/
  | information
deriving DecidableEq

/-- Adds an option. -/
def give (m : Matches) (o : Flag) (value : String) : Except Refusal Matches :=
  if m.has o ∧ o ≠ .verbose then .error .usage else .ok { m with given := (o, value) :: m.given }

/-- Whether a word looks like an option. A single dash is a value. -/
def looksLikeOption (word : String) : Bool :=
  match word.toList with
  | '-' :: _ :: _ => true
  | _ => false

/-- What the options in a word ask for: nothing more, or a value for one of them. -/
inductive Pending where
  | none
  | value (o : Flag)

/-- A word of short options, without its dash. An option with a value takes what is left of the
word, after an equals sign if there is one. -/
def shortOptions (m : Matches) : List Char → Except Refusal (Matches × Pending)
  | [] => .ok (m, .none)
  | c :: cs =>
    if c = 'h' ∨ c = 'V' then .error .information
    else
      match Flag.ofShort? c with
      | .none => .error .usage
      | some o =>
        if o.takesValue then
          match cs with
          | [] => .ok (m, .value o)
          | '=' :: cs => (give m o (String.ofList cs)).map (·, .none)
          | cs => (give m o (String.ofList cs)).map (·, .none)
        else
          match give m o "" with
          | .ok m => shortOptions m cs
          | .error e => .error e

/-- A word with a long option, without its dashes. -/
def longOption (m : Matches) (word : List Char) : Except Refusal (Matches × Pending) :=
  let name := String.ofList (word.takeWhile (· != '='))
  let attached := (word.dropWhile (· != '=')).tail?
  if (name = "help" ∨ name = "version") ∧ attached = .none then .error .information
  else
    match Flag.ofLong? name, attached with
    | .none, _ => .error .usage
    | some o, some value =>
      if o.takesValue then (give m o (String.ofList value)).map (·, .none) else .error .usage
    | some o, .none =>
      if o.takesValue then .ok (m, .value o) else (give m o "").map (·, .none)

/-- Reads words, of which the first may be the value of a pending option. -/
def readWords (m : Matches) (pending : Pending) : List String → Except Refusal Matches
  | [] =>
    match pending with
    | .none => .ok m
    | .value _ => .error .usage
  | word :: rest =>
    match pending with
    | .value o =>
      if looksLikeOption word then .error .usage
      else
        match give m o word with
        | .ok m => readWords m .none rest
        | .error e => .error e
    | .none =>
      match word.toList with
      | ['-', '-'] => .ok { m with args := rest }
      | '-' :: '-' :: cs =>
        match longOption m cs with
        | .ok (m, pending) => readWords m pending rest
        | .error e => .error e
      | '-' :: c :: cs =>
        match shortOptions m (c :: cs) with
        | .ok (m, pending) => readWords m pending rest
        | .error e => .error e
      | _ => .error .usage

/-- Checks which options go together. Those that need `--compile` are accepted with `--run`,
which excludes it. -/
def check (m : Matches) : Except Refusal Matches :=
  if m.has .compile ∧ m.has .run then .error .usage
  else if (m.has .output ∨ m.has .visualize) ∧ ¬ m.has .compile ∧ ¬ m.has .run then .error .usage
  else .ok m

/-- Reads a command line. -/
def parse (argv : List String) : Except Refusal Matches := do
  let m ← readWords {} .none argv
  check m

end CommandLine

end GraphReduction
