import GraphReduction.CommandLine.Run

/-!
# The program

Reads the working directory, the files that the command line names elsewhere and standard input,
runs the command line on them, and writes back what it changed.
-/

namespace GraphReduction

namespace CommandLine

/-- More turns than a run can take in practice. -/
def fuel : Nat := 1000000000000000000

/-- The path of a location. -/
def pathOf (at' : Location) : String := "/" ++ "/".intercalate at'

/-- What is at a path. Only ordinary files are read. -/
def nodeAt? (path : String) : IO (Option FileNode) := do
  try
    match (← (System.mkFilePath [path]).metadata).type with
    | .dir => return some .directory
    | .file => return some (.file (← IO.FS.readBinFile path).toList)
    | _ => return none
  catch _ => return none

/-- The file or directory at a location, with what is in it down to a number of levels. -/
def snapshot (at' : Location) : (levels : Nat) → IO (List (Location × FileNode))
  | 0 => return []
  | levels + 1 => do
    match ← nodeAt? (pathOf at') with
    | none => return []
    | some (.file content) => return [(at', .file content)]
    | some .directory =>
      let mut nodes := [(at', .directory)]
      for entry in ← (System.mkFilePath [pathOf at']).readDir do
        nodes := nodes ++ (← snapshot (at' ++ [entry.fileName]) levels)
      return nodes

/-- What is at a location, and the directories above it. -/
def probe (at' : Location) : IO (List (Location × FileNode)) := do
  let mut nodes := []
  for n in List.range at'.length do
    if ← (System.mkFilePath [pathOf (at'.take n)]).isDir then
      nodes := nodes ++ [(at'.take n, .directory)]
  return nodes ++ (← snapshot at' 2)

/-- The files that a command can reach: those below the working directory, and those that its
options and arguments name. -/
def reachable (argv : List String) (cwd : Location) : IO FileSystem := do
  let mut nodes ← snapshot cwd 16
  let named : List String := match parse argv with
    | .ok m => m.given.map Prod.snd ++ m.args
    | .error _ => []
  for path in named do
    let at' := FileSystem.locationOf cwd path
    if path ≠ "" ∧ ¬ cwd.isPrefixOf at' then nodes := nodes ++ (← probe at')
  return ⟨cwd, nodes⟩

/-- Writes the files and directories that are new or changed, and removes those that are gone. -/
def writeBack (before after : FileSystem) : IO Unit := do
  for (at', node) in after.nodes.reverse do
    if before.get? at' ≠ some node then
      match node with
      | .directory => IO.FS.createDirAll (pathOf at')
      | .file content => IO.FS.writeBinFile (pathOf at') ⟨content.toArray⟩
  for (at', node) in before.nodes do
    if node ≠ .directory ∧ (after.get? at').isNone then IO.FS.removeFile (pathOf at')

/-- Everything up to the end of a stream. -/
partial def readAll (stream : IO.FS.Stream) (before : ByteArray) : IO ByteArray := do
  let block ← stream.read 4096
  if block.isEmpty then return before
  readAll stream (before ++ block)

/-- Whether a command line runs a program, which may read standard input. -/
def runsProgram (argv : List String) : Bool :=
  match parse argv with
  | .ok m => !m.has .output
  | .error _ => false

end CommandLine

end GraphReduction

open GraphReduction CommandLine in
def main (argv : List String) : IO UInt32 := do
  let cwd := FileSystem.locationOf [] (← IO.currentDir).toString
  let files ← reachable argv cwd
  let input ← if runsProgram argv then readAll (← IO.getStdin) .empty else pure .empty
  let report := CommandLine.run fuel argv input.toList files
  IO.print report.stdout
  IO.eprint report.stderr
  writeBack files report.files
  return UInt32.ofNat report.status
