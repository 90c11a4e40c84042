import GraphReduction.FileSystem
import GraphReduction.RuntimeError
import Std.Data.HashMap

/-!
# The world of a program

Everything that actions touch outside the heap: file handles, raw memory, the program arguments
and the files themselves.

Handles are small integers. 0, 1 and 2 are the standard streams, and an opened file gets the
lowest number that is not in use. File input is read and file output written in blocks of
8 KiB. A pointer is a block number, counted from one, above 32 bits of word offset, so zero is
never a valid address.
-/

namespace GraphReduction

/-- A position in a file. -/
structure FileCursor where
  location : Location
  offset : Nat

inductive Channel where
  /-- Bytes read ahead, and the file that more come from, if any. -/
  | input (ahead : Bytes) (file : Option FileCursor)
  /-- Standard output or standard error. -/
  | console (isError : Bool)
  /-- Text not yet written to a file, and where it goes: to the cursor or to the end. -/
  | output (pending : String) (file : FileCursor) (append : Bool)

/-- Raw memory of `size` words. Words not written to are zero. -/
structure Block where
  size : Nat
  words : Std.HashMap Nat Int64

structure World where
  handles : Array (Option Channel)
  blocks : Array (Option Block)
  args : List String
  files : FileSystem
  stdout : String
  stderr : String

abbrev WorldM := EStateM RuntimeError World

namespace World

/-- A world with the given standard input, arguments and files. -/
def ofInput (input : Bytes) (args : List String) (files : FileSystem) : World :=
  { handles := #[some (.input input none), some (.console false), some (.console true)]
    blocks := #[]
    args
    files
    stdout := ""
    stderr := "" }

instance : Inhabited World := ⟨ofInput [] [] .empty⟩

/-- The handles of the standard streams. -/
def stdinHandle : Int64 := 0
def stdoutHandle : Int64 := 1
def stderrHandle : Int64 := 2

/-- What `getChar` returns at the end of the input. -/
def endOfInput : Int64 := -1

/-- The size of a file buffer. -/
def bufferSize : Nat := 8192

def fail {α : Type} (p : Primitive) (cause : String) : WorldM α := throw (.foreign p cause)

/-- The position of an open handle. -/
def slot? (w : World) (handle : Int64) : Option Nat :=
  if 0 ≤ handle.toInt ∧ ((w.handles[handle.toInt.toNat]?).join).isSome then
    some handle.toInt.toNat
  else none

/-- The channel of an open handle, and its position. -/
def channel (p : Primitive) (handle : Int64) : WorldM (Nat × Channel) := do
  let w ← get
  match w.slot? handle with
  | none => fail p ("invalid or closed handle " ++ renderInt handle)
  | some i =>
    match (w.handles[i]?).join with
    | none => fail p ("invalid or closed handle " ++ renderInt handle)
    | some c => return (i, c)

def setChannel (i : Nat) (c : Option Channel) : WorldM Unit :=
  modify fun w => { w with handles := w.handles.setIfInBounds i c }

/-!
## Input
-/

/-- Reads the next block of a file if nothing is read ahead. -/
def refill (p : Primitive) (ahead : Bytes) (file : Option FileCursor) :
    WorldM (Bytes × Option FileCursor) := do
  match ahead, file with
  | [], some cursor =>
    let w ← get
    match w.files.get? cursor.location with
    | some .directory => fail p FileError.isADirectory.message
    | _ =>
      let block := ((w.files.content cursor.location).drop cursor.offset).take bufferSize
      return (block, some { cursor with offset := cursor.offset + block.length })
  | _, _ => return (ahead, file)

/-- The next byte of an input handle, if there is one. -/
def nextByte (p : Primitive) (i : Nat) : WorldM (Option UInt8) := do
  match ((← get).handles[i]?).join with
  | some (.input ahead file) =>
    let (ahead, file) ← refill p ahead file
    match ahead with
    | [] =>
      setChannel i (some (.input [] file))
      return none
    | b :: rest =>
      setChannel i (some (.input rest file))
      return some b
  | _ => return none

/-- The next `n` bytes of an input handle. -/
def nextBytes (p : Primitive) (i : Nat) : Nat → WorldM Bytes
  | 0 => return []
  | n + 1 => do
    match ← nextByte p i with
    | none => fail p "failed to fill whole buffer"
    | some b =>
      let rest ← nextBytes p i n
      return b :: rest

/-- The number of bytes of a character, by its first one. -/
def sequenceLength (first : UInt8) : Option Nat :=
  if first ≤ 0x7f then some 1
  else if 0xc0 ≤ first ∧ first ≤ 0xdf then some 2
  else if 0xe0 ≤ first ∧ first ≤ 0xef then some 3
  else if 0xf0 ≤ first ∧ first ≤ 0xf7 then some 4
  else none

def isContinuation (b : UInt8) : Bool := 0x80 ≤ b && b ≤ 0xbf

/-- The bytes that can come second in a character of at least two bytes. -/
def isSecond (first second : UInt8) : Bool :=
  if first ≤ 0xc1 then false
  else if first = 0xe0 then 0xa0 ≤ second && second ≤ 0xbf
  else if first = 0xed then 0x80 ≤ second && second ≤ 0x9f
  else if first = 0xf0 then 0x90 ≤ second && second ≤ 0xbf
  else if first = 0xf4 then 0x80 ≤ second && second ≤ 0x8f
  else if 0xf4 < first then false
  else isContinuation second

/-- How many bytes at the start of a broken character belong together. -/
def brokenLength : Bytes → Nat
  | b :: c :: rest => if isSecond b c then 2 + (rest.takeWhile isContinuation).length else 1
  | _ => 1

/-- The character that bytes encode, or the number of bytes to blame. -/
def decodeChar (bs : Bytes) : Except Nat Char :=
  match String.fromUTF8? ⟨bs.toArray⟩ with
  | some s =>
    match s.toList with
    | [c] => .ok c
    | _ => .error 1
  | none => .error (brokenLength bs)

/-- The code point of the next character, or `endOfInput`. -/
def getChar (handle : Int64) : WorldM Int64 := do
  let p := Primitive.getChar
  let (i, c) ← channel p handle
  match c with
  | .console _ | .output .. => fail p "handle is not readable"
  | .input .. =>
    match ← nextByte p i with
    | none => return endOfInput
    | some first =>
      match sequenceLength first with
      | none => fail p "invalid UTF-8 input"
      | some n =>
        let rest ← nextBytes p i (n - 1)
        match decodeChar (first :: rest) with
        | .ok c => return Int64.ofNat c.toNat
        | .error k =>
          fail p ("invalid utf-8 sequence of " ++ toString k ++ " bytes from index 0")

/-!
## Output
-/

/-- The contents of a file after bytes were written over it from an offset on. -/
def overwrite (content : Bytes) (offset : Nat) (bytes : Bytes) : Bytes :=
  content.take offset ++ List.replicate (offset - content.length) 0 ++ bytes ++
    content.drop (offset + bytes.length)

/-- Writes what is pending on the handle at a position. -/
def flushSlot (i : Nat) : WorldM Unit := modify fun w =>
  match (w.handles[i]?).join with
  | some (.output pending file append) =>
    if pending.isEmpty then w
    else
      let bytes := pending.toUTF8.toList
      let old := w.files.content file.location
      let new := if append then old ++ bytes else overwrite old file.offset bytes
      { w with
        files := w.files.put file.location (.file new)
        handles := w.handles.setIfInBounds i
          (some (.output "" { file with offset := file.offset + bytes.length } append)) }
  | _ => w

def putChar (handle : Int64) (c : Char) : WorldM Unit := do
  let p := Primitive.putChar
  let (i, ch) ← channel p handle
  match ch with
  | .input .. => fail p "handle is not writable"
  | .console false => modify fun w => { w with stdout := w.stdout.push c }
  | .console true => modify fun w => { w with stderr := w.stderr.push c }
  | .output pending .. =>
    if bufferSize < pending.utf8ByteSize + c.utf8Size then flushSlot i
    modify fun w =>
      match (w.handles[i]?).join with
      | some (.output pending file append) =>
        { w with handles := w.handles.setIfInBounds i (some (.output (pending.push c) file append)) }
      | _ => w

def flush (handle : Int64) : WorldM Unit := do
  let (i, _) ← channel .flush handle
  flushSlot i

/-- Writes what is pending on the first `n` handles. -/
def flushBelow : Nat → WorldM Unit
  | 0 => return ()
  | n + 1 => do
    flushBelow n
    flushSlot n

/-- Writes what is pending on any handle, the lowest first. -/
def flushAll : WorldM Unit := do
  flushBelow (← get).handles.size

/-!
## Opening and closing
-/

/-- Puts a channel at the lowest position not in use. -/
def install (c : Channel) : WorldM Nat := fun w =>
  match w.handles.findIdx? Option.isNone with
  | some i => .ok i { w with handles := w.handles.setIfInBounds i (some c) }
  | none => .ok w.handles.size { w with handles := w.handles.push (some c) }

/-- Opens a file for reading (mode 0), writing (1) or appending (2). -/
def openFile (path : String) (mode : Int64) : WorldM Int64 := do
  let p := Primitive.openFile
  let fs := (← get).files
  if mode = 0 then
    match fs.openExisting path with
    | .error e => fail p (path ++ ": " ++ e.message)
    | .ok location =>
      let i ← install (.input [] (some ⟨location, 0⟩))
      return Int64.ofNat i
  else if mode = 1 ∨ mode = 2 then
    match fs.openOrCreate path with
    | .error e => fail p (path ++ ": " ++ e.message)
    | .ok (location, fs) =>
      let fs := if mode = 1 then fs.put location (.file []) else fs
      modify fun w => { w with files := fs }
      let i ← install (.output "" ⟨location, 0⟩ (mode = 2))
      return Int64.ofNat i
  else fail p ("unknown mode " ++ renderInt mode)

def close (handle : Int64) : WorldM Unit := do
  let (i, _) ← channel .close handle
  flushSlot i
  setChannel i none

/-!
## Raw memory
-/

/-- The block number and the word offset of an address. -/
def splitAddress (address : UInt64) : Nat × Nat :=
  (address.toNat / UInt32.size, address.toNat % UInt32.size)

def malloc (words : Int64) : WorldM UInt64 := do
  if words < 0 then fail .malloc ("negative size " ++ renderInt words)
  modify fun w => { w with blocks := w.blocks.push (some ⟨words.toInt.toNat, ∅⟩) }
  return UInt64.ofNat ((← get).blocks.size * UInt32.size)

def free (address : UInt64) : WorldM Unit := do
  let (block, offset) := splitAddress address
  let shown := Text.hexNumeral address.toNat 0
  if offset ≠ 0 ∨ block = 0 then fail .free (shown ++ " is not the start of a block")
  match ((← get).blocks[block - 1]?).join with
  | none => fail .free (shown ++ " is not allocated")
  | some _ => modify fun w => { w with blocks := w.blocks.setIfInBounds (block - 1) none }

/-- The block that an address is in, and its position there. -/
def find? (w : World) (address : UInt64) : Option (Block × Nat) :=
  let (block, offset) := splitAddress address
  if block = 0 then none
  else
    match (w.blocks[block - 1]?).join with
    | some b => if offset < b.size then some (b, offset) else none
    | none => none

def invalidAddress {α : Type} (p : Primitive) (address : UInt64) : WorldM α :=
  fail p ("invalid address " ++ Text.hexNumeral address.toNat 0)

def peek (address : UInt64) : WorldM Int64 := do
  match (← get).find? address with
  | none => invalidAddress .peek address
  | some (b, offset) => return b.words.getD offset 0

def poke (address : UInt64) (value : Int64) : WorldM Unit := do
  match (← get).find? address with
  | none => invalidAddress .poke address
  | some (b, offset) =>
    modify fun w =>
      { w with
        blocks := w.blocks.setIfInBounds ((splitAddress address).1 - 1)
          (some { b with words := b.words.insert offset value }) }

end World

/-!
## Operations
-/

/-- What a program can ask of the world. -/
inductive Operation where
  | getChar (handle : Int64)
  | putChar (handle : Int64) (c : Char)
  | flush (handle : Int64)
  | flushAll
  | openFile (path : String) (mode : Int64)
  | close (handle : Int64)
  | args
  | malloc (words : Int64)
  | free (address : UInt64)
  | peek (address : UInt64)
  | poke (address : UInt64) (value : Int64)
deriving DecidableEq

namespace Operation

/-- What an operation gives back. -/
abbrev Answer : Operation → Type
  | getChar _ | openFile .. | peek _ => Int64
  | malloc _ => UInt64
  | args => List String
  | putChar .. | flush _ | flushAll | close _ | free _ | poke .. => Unit

/-- Performs an operation. -/
def perform : (o : Operation) → WorldM o.Answer
  | getChar handle => World.getChar handle
  | putChar handle c => World.putChar handle c
  | flush handle => World.flush handle
  | flushAll => World.flushAll
  | openFile path mode => World.openFile path mode
  | close handle => World.close handle
  | args => do return (← get).args
  | malloc words => World.malloc words
  | free address => World.free address
  | peek address => World.peek address
  | poke address value => World.poke address value

end Operation

end GraphReduction
