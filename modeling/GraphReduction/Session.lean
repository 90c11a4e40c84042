import GraphReduction.Cache.Store
import GraphReduction.Compile
import GraphReduction.Image.Flatten
import GraphReduction.Machine.Run
import GraphReduction.Syntax.Read

/-!
# From source to result

A source is read, compiled and flattened into an image, unless the cache has the image already.
The image is loaded into a new machine and run.
-/

namespace GraphReduction

/-- What can go wrong on the way. -/
inductive Failure where
  | read (e : ReadError)
  | compile (e : CompileError)
  | format (e : FormatError)
  | cache (e : CacheError)
  | config (e : ConfigError)
  | load (e : LoadError)
  | runtime (e : RuntimeError)
  /-- The bound on the length of the run was too low. -/
  | outOfFuel

def Failure.message : Failure → String
  | read e => e.message
  | compile e => e.message
  | format e => e.message
  | cache e => e.message
  | config e => e.message
  | load e => e.message
  | runtime e => e.message
  | outOfFuel => "run out of fuel"

/-- The image of a source, without a cache. -/
def imageOfSource (name source : String) : Except Failure Image := do
  let m ← (Module.read name source).mapError .read
  let p ← m.compile.mapError .compile
  p.toImage.mapError .format

namespace CacheStore

/-- The image of a source, from the store if it is there. A new image is put into the store and
written out. -/
def compile (s : CacheStore) (fs : FileSystem) (name source : String) :
    Except Failure Image × CacheStore × FileSystem :=
  match s.lookup fs name source with
  | (some image, s) => (.ok image, s, fs)
  | (none, s) =>
    match imageOfSource name source with
    | .error e => (.error e, s, fs)
    | .ok image =>
      match (s.insert name source image).flush fs with
      | (.ok (), s, fs) => (.ok image, s, fs)
      | (.error e, s, fs) => (.error (.cache e), s, fs)

end CacheStore

/-- The image of a source, by way of the configured cache. -/
def compileImage (config : Config) (fs : FileSystem) (name source : String) :
    Except Failure Image × FileSystem :=
  match config.cacheDir with
  | none =>
    let (r, _, fs) := CacheStore.inMemory.compile fs name source
    (r, fs)
  | some dir =>
    match CacheStore.openDirectory dir fs with
    | (.error e, fs) => (.error (.cache e), fs)
    | (.ok s, fs) =>
      let (r, _, fs) := s.compile fs name source
      (r, fs)

/-- Loads an image into a new machine and runs its entry point. -/
def runImage (fuel : Nat) (config : Config) (image : Image) (world : World) :
    Except Failure Outcome × World :=
  match config.validate with
  | .error e => (.error (.config e), world)
  | .ok () =>
    match (Machine.new config { world with args := config.args }).loadImage image with
    | (.error e, m) => (.error (.load e), m.world)
    | (.ok entry, m) =>
      match Machine.run fuel entry m with
      | .ok outcome m => (.ok outcome, m.world)
      | .error (.error e) m => (.error (.runtime e), m.world)
      | .error .outOfFuel m => (.error .outOfFuel, m.world)

end GraphReduction
