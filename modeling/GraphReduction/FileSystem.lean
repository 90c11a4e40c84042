import GraphReduction.Binary.Encode

/-!
# Files

A tree of directories and files as a pure value. A path text is looked up from the root if it
starts with a slash and from the working directory otherwise. Every component but the last has
to be a directory that exists; the last one is up to the operation.
-/

namespace GraphReduction

/-- Why a file operation fails. -/
inductive FileError where
  | notFound
  | alreadyExists
  | notADirectory
  | isADirectory
  | nameTooLong
  | nulInName
  | invalidText
deriving DecidableEq

def FileError.message : FileError → String
  | notFound => "No such file or directory (os error 2)"
  | alreadyExists => "File exists (os error 17)"
  | notADirectory => "Not a directory (os error 20)"
  | isADirectory => "Is a directory (os error 21)"
  | nameTooLong => "File name too long (os error 36)"
  | nulInName => "file name contained an unexpected NUL byte"
  | invalidText => "stream did not contain valid UTF-8"

/-- The names from the root down to a file or directory. -/
abbrev Location := List String

inductive FileNode where
  | file (content : Bytes)
  | directory
deriving DecidableEq

/-- What is at each location, and the working directory. That directory and those above it exist
whether they are listed or not. -/
structure FileSystem where
  cwd : Location
  nodes : List (Location × FileNode)

namespace FileSystem

/-- Nothing but the working directory. It and the directory around it have names that no path
can spell, so nothing else is known of the tree. -/
def empty : FileSystem := ⟨["", ""], []⟩

instance : Inhabited FileSystem := ⟨empty⟩

def get? (fs : FileSystem) (at' : Location) : Option FileNode :=
  if at'.isPrefixOf fs.cwd then some .directory else fs.nodes.lookup at'

/-- Removes what is at a location. -/
def erase (fs : FileSystem) (at' : Location) : FileSystem :=
  { fs with nodes := fs.nodes.filter fun n => n.1 != at' }

/-- Puts a file or directory at a location, in place of what was there. -/
def put (fs : FileSystem) (at' : Location) (n : FileNode) : FileSystem :=
  { fs with nodes := (at', n) :: (fs.erase at').nodes }

/-- The contents of a file. -/
def content (fs : FileSystem) (at' : Location) : Bytes :=
  match fs.get? at' with
  | some (.file content) => content
  | _ => []

/-- Every file below the working directory with its contents, by its location from there. -/
def files (fs : FileSystem) : List (Location × Bytes) :=
  fs.nodes.filterMap fun (at', n) =>
    match n with
    | .file content =>
      if fs.cwd.isPrefixOf at' then some (at'.drop fs.cwd.length, content) else none
    | .directory => none

/-!
## Paths
-/

/-- The longest name of a file, and the first length of a path that is refused, in bytes. -/
def nameLimit : Nat := 255
def pathLimit : Nat := 4096

/-- What a path names. -/
inductive Target where
  /-- A directory that exists: the root, or what `.` or `..` at the end stands for. -/
  | directory (at' : Location)
  /-- A name in a directory that exists. With a slash after it, it can only be a directory. -/
  | entry (dir : Location) (name : String) (slash : Bool)

/-- Where a target is. It need not exist, but its name must not be too long. -/
def Target.location : Target → Except FileError Location
  | directory at' => .ok at'
  | entry dir name _ =>
    if nameLimit < name.utf8ByteSize then .error .nameTooLong else .ok (dir ++ [name])

/-- The target of one component in a directory. -/
def Target.ofName (dir : Location) (name : String) (slash : Bool) : Target :=
  if name = "." then .directory dir
  else if name = ".." then .directory dir.dropLast
  else .entry dir name slash

/-- One component further down, to a directory that exists. -/
def enter (fs : FileSystem) (dir : Location) (name : String) : Except FileError Location := do
  let at' ← (Target.ofName dir name true).location
  match fs.get? at' with
  | none => throw .notFound
  | some (.file _) => throw .notADirectory
  | some .directory => return at'

/-- Follows all components but the last. `slash` says whether one stands after the last. -/
def walk (fs : FileSystem) (slash : Bool) (dir : Location) : List String → Except FileError Target
  | [] => .ok (.directory dir)
  | [name] => .ok (.ofName dir name slash)
  | name :: rest => do
    let dir ← fs.enter dir name
    fs.walk slash dir rest

/-- The names in a path, without empty ones. -/
def components (path : String) : List String :=
  ((path.toList.splitOn '/').map String.ofList).filter (· != "")

/-- Whether a path starts from the root. -/
def isAbsolute (path : String) : Bool := path.toList.head? == some '/'

/-- Where one component leads from a directory. -/
def descend (dir : Location) (name : String) : Location :=
  if name = "." then dir else if name = ".." then dir.dropLast else dir ++ [name]

/-- Where a path leads if all directories on it exist. -/
def locationOf (cwd : Location) (path : String) : Location :=
  (components path).foldl descend (if isAbsolute path then [] else cwd)

/-- What a path names. -/
def locate (fs : FileSystem) (path : String) : Except FileError Target := do
  if path.toList.contains '\x00' then throw .nulInName
  if path = "" then throw .notFound
  if pathLimit ≤ path.utf8ByteSize then throw .nameTooLong
  fs.walk (path.toList.getLast? == some '/') (if isAbsolute path then [] else fs.cwd)
    (components path)

/-!
## Operations
-/

/-- Opens a file or directory that exists. -/
def openExisting (fs : FileSystem) (path : String) : Except FileError Location := do
  let target ← fs.locate path
  let at' ← target.location
  match fs.get? at', target with
  | none, _ => throw .notFound
  | some (.file _), .entry _ _ true => throw .notADirectory
  | some _, _ => return at'

/-- Opens a file for writing, creating it if there is none. A slash after the name makes it a
directory, whatever is there. -/
def openOrCreate (fs : FileSystem) (path : String) : Except FileError (Location × FileSystem) := do
  match ← fs.locate path with
  | .directory _ | .entry _ _ true => throw .isADirectory
  | target =>
    let at' ← target.location
    match fs.get? at' with
    | none => return (at', fs.put at' (.file []))
    | some (.file _) => return (at', fs)
    | some .directory => throw .isADirectory

def read (fs : FileSystem) (path : String) : Except FileError Bytes := do
  let at' ← fs.openExisting path
  match fs.get? at' with
  | some (.file content) => return content
  | _ => throw .isADirectory

def readText (fs : FileSystem) (path : String) : Except FileError String := do
  let content ← fs.read path
  match String.fromUTF8? ⟨content.toArray⟩ with
  | some s => return s
  | none => throw .invalidText

/-- Writes a whole file. -/
def write (fs : FileSystem) (path : String) (content : Bytes) : Except FileError FileSystem := do
  let (at', fs) ← fs.openOrCreate path
  return fs.put at' (.file content)

def isDirectory (fs : FileSystem) (path : String) : Bool :=
  match fs.openExisting path with
  | .ok at' => fs.get? at' == some .directory
  | .error _ => false

def makeDirectory (fs : FileSystem) (path : String) : Except FileError FileSystem := do
  let at' ← (← fs.locate path).location
  match fs.get? at' with
  | none => return fs.put at' .directory
  | some _ => throw .alreadyExists

/-- The path of the directory that a path's last component is in. -/
def parentPath (path : String) : String :=
  let parent := "/".intercalate ((components path).filter (· != ".")).dropLast
  if isAbsolute path then "/" ++ parent else parent

/-- Creates a directory and, as far as `levels` reaches, those above it. Directories made on the
way stay when a later one cannot be made. -/
def makeDirectoriesUpTo : (levels : Nat) → String → FileSystem → Except FileError Unit × FileSystem
  | 0, _, fs => (.ok (), fs)
  | levels + 1, path, fs =>
    if path = "" then (.ok (), fs)
    else
      match fs.makeDirectory path with
      | .ok fs => (.ok (), fs)
      | .error e =>
        if e = .notFound then
          match makeDirectoriesUpTo levels (parentPath path) fs with
          | (.error e, fs) => (.error e, fs)
          | (.ok (), fs) =>
            match fs.makeDirectory path with
            | .ok fs => (.ok (), fs)
            | .error e => (if fs.isDirectory path then .ok () else .error e, fs)
        else (if fs.isDirectory path then .ok () else .error e, fs)

/-- Creates a directory and those above it, unless they exist. -/
def makeDirectories (fs : FileSystem) (path : String) : Except FileError Unit × FileSystem :=
  makeDirectoriesUpTo (path.length + 1) path fs

def removeFile (fs : FileSystem) (path : String) : Except FileError FileSystem := do
  let target ← fs.locate path
  let at' ← target.location
  match fs.get? at', target with
  | none, _ => throw .notFound
  | some .directory, _ => throw .isADirectory
  | some (.file _), .entry _ _ true => throw .notADirectory
  | some (.file _), _ => return fs.erase at'

/-- Moves a file over another one. -/
def rename (fs : FileSystem) (source target : String) : Except FileError FileSystem := do
  let content ← fs.read source
  let at' ← (← fs.locate target).location
  match fs.get? at' with
  | some .directory => throw .isADirectory
  | _ =>
    let fs ← fs.removeFile source
    return fs.put at' (.file content)

end FileSystem

end GraphReduction
