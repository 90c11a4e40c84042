import GraphReduction.Cache.Entry
import GraphReduction.FileSystem
import GraphReduction.Syntax.Expr

/-!
# The module cache

Compiled images by module name, valid for exactly the source they were compiled from. A store
lives in memory only, or is backed by a directory with one file per module. Files are read when
a module is first looked up and written by `flush`, each to a temporary file that is then moved
into place. A file that cannot be read as an entry counts as none and is removed by the next
flush.
-/

namespace GraphReduction

inductive CacheError where
  | file (path : String) (cause : FileError)
deriving DecidableEq

def CacheError.message : CacheError → String
  | file path cause => "cache I/O error on " ++ path ++ ": " ++ cause.message

structure CacheStore where
  dir : Option String := none
  entries : List (String × CacheEntry) := []
  /-- Modules whose file the next flush writes, in ascending order. -/
  dirty : List String := []
  /-- Modules whose file the next flush removes, in ascending order. -/
  dropped : List String := []

namespace CacheStore

/-- A store without a directory. -/
def inMemory : CacheStore := {}

/-- A store backed by a directory, which is created if there is none. -/
def openDirectory (dir : String) (fs : FileSystem) : Except CacheError CacheStore × FileSystem :=
  match fs.makeDirectories dir with
  | (.ok (), fs) => (.ok { dir := some dir }, fs)
  | (.error e, fs) => (.error (.file dir e), fs)

/-- A file in a directory. -/
def joinPath (dir file : String) : String :=
  if dir = "" ∨ dir.toList.getLast? = some '/' then dir ++ file else dir ++ "/" ++ file

/-- The file name of the entry of a module. -/
def fileName (module : String) : String :=
  String.ofList (module.toList.map fun c => if c = '/' then '_' else c) ++ ".tcache"

/-- The file of the entry of a module. -/
def entryPath (s : CacheStore) (module : String) : Option String :=
  s.dir.map fun dir => joinPath dir (fileName module)

def get? (s : CacheStore) (module : String) : Option CacheEntry := s.entries.lookup module

/-- The modules with an entry in memory. -/
def modules (s : CacheStore) : List String := s.entries.map Prod.fst

def eraseEntry (s : CacheStore) (module : String) : CacheStore :=
  { s with entries := s.entries.filter fun e => e.1 != module }

def putEntry (s : CacheStore) (module : String) (e : CacheEntry) : CacheStore :=
  { s with entries := (module, e) :: (s.eraseEntry module).entries }

/-- Puts an entry into the store, to be written by the next flush. -/
def putDirty (s : CacheStore) (module : String) (e : CacheEntry) : CacheStore :=
  { s.putEntry module e with
    dirty := insertName module s.dirty
    dropped := s.dropped.filter (· != module) }

/-- What the file of a module holds, if there is one. -/
def readFile (s : CacheStore) (fs : FileSystem) (module : String) :
    Option (Option CacheEntry) :=
  match s.entryPath module with
  | none => none
  | some path =>
    match fs.read path with
    | .ok bytes => some (CacheEntry.decode module bytes).toOption
    | .error .notFound => none
    | .error _ => some none

/-- Reads the file of a module if the store does not know about the module yet. -/
def refresh (s : CacheStore) (fs : FileSystem) (module : String) : CacheStore :=
  if (s.get? module).isSome ∨ module ∈ s.dropped then s
  else
    match s.readFile fs module with
    | none => s
    | some none => { s with dropped := insertName module s.dropped }
    | some (some e) => s.putEntry module e

/-- Forgets a module, whose file the next flush removes. -/
def invalidate (s : CacheStore) (module : String) : CacheStore :=
  { s.eraseEntry module with
    dirty := s.dirty.filter (· != module)
    dropped := insertName module s.dropped }

/-- The image of a module, if it was compiled from exactly this source. An entry for another
source is forgotten. -/
def lookup (s : CacheStore) (fs : FileSystem) (module source : String) :
    Option Image × CacheStore :=
  let s := s.refresh fs module
  match s.get? module with
  | none => (none, s)
  | some e =>
    if e.fingerprint = .ofSource source then (some e.image, s) else (none, s.invalidate module)

def insert (s : CacheStore) (module source : String) (image : Image) : CacheStore :=
  s.putDirty module ⟨.ofSource source, image⟩

/-- Takes over all entries of another store. -/
def merge (s other : CacheStore) : CacheStore :=
  other.entries.foldr (fun (module, e) s => s.putDirty module e) s

/-- Removes the files of modules, up to the first that cannot be removed. -/
def removeFiles (dir : String) : List String → FileSystem → Except CacheError Unit × FileSystem
  | [], fs => (.ok (), fs)
  | module :: modules, fs =>
    let path := joinPath dir (fileName module)
    match fs.removeFile path with
    | .ok fs => removeFiles dir modules fs
    | .error .notFound => removeFiles dir modules fs
    | .error e => (.error (.file path e), fs)

/-- Writes a file by way of a temporary one. -/
def writeAtomically (path : String) (bytes : Bytes) (fs : FileSystem) :
    Except CacheError Unit × FileSystem :=
  let temporary := path ++ ".tmp"
  match fs.write temporary bytes with
  | .error e => (.error (.file temporary e), fs)
  | .ok fs =>
    match fs.rename temporary path with
    | .error e => (.error (.file path e), fs)
    | .ok fs => (.ok (), fs)

/-- Writes the files of modules, up to the first that cannot be written. -/
def writeFiles (s : CacheStore) (dir : String) :
    List String → FileSystem → Except CacheError Unit × FileSystem
  | [], fs => (.ok (), fs)
  | module :: modules, fs =>
    match s.get? module with
    | none => s.writeFiles dir modules fs
    | some e =>
      match writeAtomically (joinPath dir (fileName module)) (e.encode module) fs with
      | (.ok (), fs) => s.writeFiles dir modules fs
      | (.error e, fs) => (.error e, fs)

/-- Removes the files of forgotten modules, then writes those of new entries. What was to be
done is no longer on the lists afterwards, whether it was done or not. -/
def flush (s : CacheStore) (fs : FileSystem) : Except CacheError Unit × CacheStore × FileSystem :=
  match s.dir with
  | none => (.ok (), { s with dirty := [], dropped := [] }, fs)
  | some dir =>
    match removeFiles dir s.dropped fs with
    | (.error e, fs) => (.error e, { s with dropped := [] }, fs)
    | (.ok (), fs) =>
      let (r, fs) := s.writeFiles dir s.dirty fs
      (r, { s with dirty := [], dropped := [] }, fs)

end CacheStore

end GraphReduction
