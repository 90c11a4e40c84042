import GraphReduction.Cache.Fingerprint
import GraphReduction.Image.Decode

/-!
# Cache entries

A compiled module together with the fingerprint of its source. In a file the entry also carries
the name of the module, so that a file under the wrong name is not taken for another module.
-/

namespace GraphReduction

structure CacheEntry where
  fingerprint : Fingerprint
  image : Image
deriving DecidableEq

namespace CacheEntry

/-- `TRNC`. -/
def magic : Bytes := [0x54, 0x52, 0x4e, 0x43]

def version : Nat := 1

/-- The bytes of the entry of a module. -/
def encode (e : CacheEntry) (module : String) : Bytes :=
  let image := e.image.encode
  magic ++ Binary.littleEndian 2 version ++ e.fingerprint.bytes ++ Binary.text module ++
    Binary.varint image.length ++ image

open Decoder in
def decoder (module : String) : Decoder CacheEntry := do
  let start ← take magic.length
  if start ≠ magic then throw .badMagic
  let found ← word 2
  if found ≠ version then throw (.versionMismatch found version)
  let fingerprint ← take Fingerprint.size
  let name ← text
  if name ≠ module then throw (.malformed (.otherModule name))
  let size ← varint
  let bytes ← take size
  let image ← Image.decode bytes
  let left ← remaining
  if 0 < left then throw (.malformed (.bytesAfterImage left))
  return ⟨⟨fingerprint⟩, image⟩

/-- The entry of a module in the bytes of a file. -/
def decode (module : String) (bytes : Bytes) : Except FormatError CacheEntry :=
  ((decoder module).run ⟨bytes, 0⟩).map Prod.fst

end CacheEntry

end GraphReduction
