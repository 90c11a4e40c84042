import GraphReduction.CommandLine.Options
import GraphReduction.Diagram.Draw
import GraphReduction.Session

/-!
# The command line

What a command line does: it compiles a program or reads a definitions file, and writes the
definitions file or runs the program.
-/

namespace GraphReduction

namespace CommandLine

/-- What a command leaves behind. -/
structure Report where
  /-- The exit status, a byte. -/
  status : Nat
  stdout : String
  stderr : String
  files : FileSystem

/-- The lines of standard error that report an error. They are of interest when the status
is 1. -/
def Report.errors (r : Report) : List String :=
  if r.status = 1 then (r.stderr.splitOn "\n").filter (·.startsWith "error: ") else []

/-!
## Values of options
-/

inductive NumberError where
  | empty
  | invalidDigit
  | tooLarge
deriving DecidableEq

def NumberError.message : NumberError → String
  | empty => "cannot parse integer from empty string"
  | invalidDigit => "invalid digit found in string"
  | tooLarge => "number too large to fit in target type"

/-- Reads digits from left to right, up to 64 bits. -/
def readDigits (n : Nat) : List Char → Except NumberError Nat
  | [] => .ok n
  | c :: cs =>
    if ¬ c.isDigit then .error .invalidDigit
    else
      let n := 10 * n + (c.toNat - '0'.toNat)
      if n < UInt64.size then readDigits n cs else .error .tooLarge

/-- Reads a number, which may have a plus sign. -/
def readNumber (s : String) : Except NumberError Nat :=
  match s.toList with
  | [] => .error .empty
  | ['+'] => .error .invalidDigit
  | '+' :: cs => readDigits 0 cs
  | cs => readDigits 0 cs

/-- The number given with an option, or the one that is used without it. -/
def numberOr (m : Matches) (flag : Flag) (name : String) (default : Nat) : Except String Nat :=
  match m.value? flag with
  | none => .ok default
  | some v =>
    (readNumber v).mapError fun e =>
      "invalid value " ++ Text.quoteString v ++ " for --" ++ name ++ ": " ++ e.message

/-- The configuration that the options ask for. -/
def configOf (m : Matches) : Except String Config := do
  let defaults : Config := {}
  let heapCells ← numberOr m .heap "heap" defaults.heapCells
  let stackLimit ← numberOr m .stack "stack" defaults.stackLimit
  let depthLimit ← numberOr m .depth "depth" defaults.depthLimit
  let config : Config :=
    { heapCells
      stackLimit
      depthLimit
      gcStress := m.has .gcStress
      cacheDir := m.value? .cache
      args := m.args }
  config.validate.mapError (·.message)
  return config

/-- The name of the module in a file: the last component of the path without its extension. -/
def moduleName (path : String) : String :=
  let components := (path.splitOn "/").filter fun c => c != "" && c != "."
  match components.getLast? with
  | none => "Main"
  | some ".." => "Main"
  | some file =>
    match (file.toList.reverse.dropWhile (· != '.')).reverse.dropLast with
    | [] => file
    | stem => String.ofList stem

/-!
## Commands
-/

/-- Writes the picture of a program. -/
def drawTo (path name source : String) (fs : FileSystem) : Except String FileSystem := do
  let m ← (Module.read name source).mapError (·.message)
  let p ← m.compile.mapError (·.message)
  (fs.write (path ++ ".dot") (p.draw "g").render.toUTF8.toList).mapError (·.message)

/-- The image of the program in a file, with a picture if one is asked for. -/
def compileFile (m : Matches) (config : Config) (path : String) (fs : FileSystem) :
    Except String Image × FileSystem :=
  match fs.readText path with
  | .error e => (.error (path ++ ": " ++ e.message), fs)
  | .ok source =>
    let name := moduleName path
    let drawn : Except String FileSystem := match m.value? .visualize with
      | none => .ok fs
      | some out => drawTo out name source fs
    match drawn with
    | .error e => (.error e, fs)
    | .ok fs =>
      let (r, fs) := compileImage config fs name source
      (r.mapError Failure.message, fs)

/-- The image that the options name. -/
def imageFor (m : Matches) (config : Config) (fs : FileSystem) : Except String Image × FileSystem :=
  match m.value? .compile, m.value? .run with
  | some path, _ => compileFile m config path fs
  | none, some path =>
    match fs.read path with
    | .error e => (.error (path ++ ": " ++ e.message), fs)
    | .ok bytes => ((Image.decode bytes).mapError (·.message), fs)
  | none, none => (.error "nothing to do, pass --compile or --run", fs)

/-- A command that failed, after the program has written to the standard streams. -/
def failed (message : String) (w : World) : Report :=
  { status := 1
    stdout := w.stdout
    stderr := w.stderr ++ "error: " ++ message ++ "\n"
    files := w.files }

/-- Runs an image and prints its result, unless that is the unit value. -/
def runProgram (fuel : Nat) (config : Config) (image : Image) (w : World) : Report :=
  match runImage fuel config image w with
  | (.error e, w) => failed e.message w
  | (.ok (.exit status), w) => ⟨(status.toInt % 256).toNat, w.stdout, w.stderr, w.files⟩
  | (.ok (.value v), w) =>
    let printed := if v.same (.con 0 []) then "" else v.render ++ "\n"
    ⟨0, w.stdout ++ printed, w.stderr, w.files⟩

/-- Does what the options ask for. -/
def perform (fuel : Nat) (m : Matches) (input : Bytes) (fs : FileSystem) : Report :=
  match configOf m with
  | .error e => failed e (.ofInput input [] fs)
  | .ok config =>
    match imageFor m config fs with
    | (.error e, fs) => failed e (.ofInput input [] fs)
    | (.ok image, fs) =>
      match m.value? .output with
      | some path =>
        match fs.write path image.encode with
        | .ok fs => ⟨0, "", "", fs⟩
        | .error e => failed (path ++ ": " ++ e.message) (.ofInput input [] fs)
      | none => runProgram fuel config image (.ofInput input config.args fs)

/-- Runs a command line in a directory. -/
def run (fuel : Nat) (argv : List String) (input : Bytes) (fs : FileSystem) : Report :=
  match parse argv with
  | .error .usage => ⟨2, "", "", fs⟩
  | .error .information => ⟨0, "", "", fs⟩
  | .ok m => perform fuel m input fs

end CommandLine

end GraphReduction
