/-
Module: JsonSidecar.Zstd.Earlier.Version
Purpose: The earlier versions of the format, which are told by the first byte of a frame, and the headers
  of their frames.
Main exports: Version, Version.ofStart?, Shape, Shape.read, Buffers
-/
import JsonSidecar.Zstd.Header

namespace JsonSidecar.Zstd.Earlier

/-- The earlier versions whose frames can be read in portions. -/
inductive Version where
  | fourth
  | fifth
  | sixth
  | seventh
deriving DecidableEq, Repr

/-- The version of a frame that begins with some four bytes. -/
def Version.ofStart? (start : Bytes) : Option Version :=
  if start.drop 1 ≠ magic.drop 1 then none
  else
    match start.head? with
    | some 0x24 => some .fourth
    | some 0x25 => some .fifth
    | some 0x26 => some .sixth
    | some 0x27 => some .seventh
    | _ => none

/-- The least number of bytes that are worth a copy. -/
def Version.leastCopy (version : Version) : Nat :=
  match version with
  | .fourth => 4
  | .fifth => 4
  | .sixth => 3
  | .seventh => 3

/-- What the header of a frame settles: the greatest block that is expected, the size of the buffer that its
    contents need, and whether a checksum stands in the end mark. -/
structure Shape where
  block : Nat
  buffer : Nat
  checksum : Bool
deriving DecidableEq, Repr

namespace Shape

/-- The shape for a window: the buffer holds the window, a block and a margin. -/
def ofWindow (window : Nat) (checksum : Bool) : Shape :=
  let block := min window maxBlock
  ⟨block, window + block + 16, checksum⟩

/-- Read the one byte of the fourth and the fifth version; the buffer is the window. -/
def readShort (bytes : Bytes) : Except IoKind (Shape × Bytes) := do
  let (byte, rest) ← take? 1 bytes
  let n := ofLittleEndian byte
  if n < 16 then return (⟨maxBlock, 2 ^ (n + 11), false⟩, rest) else throw .other

/-- Read the header of the sixth version, which tells the window and the size of the contents. -/
def readSixth (bytes : Bytes) : Except IoKind (Shape × Bytes) := do
  let (byte, rest) ← take? 1 bytes
  let n := ofLittleEndian byte
  let (_, rest) ← take? ([0, 1, 2, 8].getD (n / 64) 0) rest
  if n / 32 % 2 = 1 then throw .other
  return (ofWindow (2 ^ (n % 16 + 12)) false, rest)

/-- The greatest window of the seventh version. -/
def maxWindow : Nat := 2 ^ 27

/-- Read the header of the seventh version, whose fields are those of today.  If the contents are one
    segment, the low half of their size is the window. -/
def readSeventh (bytes : Bytes) : Except IoKind (Shape × Bytes) := do
  let (header, rest) ← Header.read bytes
  let window := header.window % 2 ^ 32
  if maxWindow < window || header.dictionary ≠ 0 then throw .other
  return (ofWindow (max window 1024) header.checksum, rest)

/-- Read a header from behind the first four bytes of a frame. -/
def read (version : Version) (bytes : Bytes) : Except IoKind (Shape × Bytes) :=
  match version with
  | .fourth => readShort bytes
  | .fifth => readShort bytes
  | .sixth => readSixth bytes
  | .seventh => readSeventh bytes

end Shape

/-- The sizes of the reader's buffers: one gathers a block from several portions, and one holds contents.
    They stay for later frames of the same version. -/
structure Buffers where
  version : Version
  input : Nat
  output : Nat
deriving DecidableEq, Repr

/-- The buffers for a frame, which are as large as an earlier frame made them if that is more. -/
def Buffers.suited (shape : Shape) (version : Version) (kept : Option Buffers) : Buffers :=
  match kept.filter fun buffers => buffers.version = version with
  | some kept => ⟨version, max kept.input shape.block, max kept.output shape.buffer⟩
  | none => ⟨version, shape.block, shape.buffer⟩

end JsonSidecar.Zstd.Earlier
