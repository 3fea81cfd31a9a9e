/-
Module: JsonSidecar.Zstd.Earlier.Frame
Purpose: Frames of the earlier versions: blocks up to an end mark, which are unpacked in a buffer whose size
  follows from the header.
Main exports: Earlier.readFrame
-/
import JsonSidecar.Zstd.Block
import JsonSidecar.Zstd.Checksum
import JsonSidecar.Zstd.Earlier.Coded
import JsonSidecar.Zstd.Earlier.Extended
import JsonSidecar.Zstd.Earlier.Ring

namespace JsonSidecar.Zstd.Earlier

/-- What a block is: its contents compressed, its contents, one byte repeated, or the end mark. -/
inductive Kind where
  | compressed
  | plain
  | repeated
  | finish
deriving DecidableEq, Repr

/-- The kind with a number below four. -/
def Kind.ofNumber (number : Nat) : Kind :=
  match number with
  | 0 => .compressed
  | 1 => .plain
  | 2 => .repeated
  | _ => .finish

/-- The three bytes in front of a block, as a number whose first byte counts most. -/
def readHead (bytes : Bytes) : Except IoKind (Nat × Bytes) := do
  let (head, rest) ← take? 3 bytes
  return (ofLittleEndian head.reverse, rest)

/-- The bits of the digest that an end mark holds. -/
def checkOf (content : Array UInt8) : Nat :=
  (Xxh64.digest content.toList).toNat / 2 ^ 11 % 2 ^ 22

/-- The bytes of a block, which may be gathered from several portions unless it is too large for that.
    The first number is that of all bytes of the file. -/
def takeBlock (total : Nat) (buffers : Buffers) (size : Nat) (bytes : Bytes) :
    Except IoKind (Bytes × Bytes) :=
  let present := atHand total bytes
  if 0 < present && present < size && buffers.input < size then .error .other else take? size bytes

/-- What has been read of a frame: its contents, the buffer, and what later blocks may refer to. -/
structure Progress where
  content : Array UInt8
  ring : Ring
  memory : Memory
deriving DecidableEq, Repr

/-- Nothing has been read. -/
def Progress.start (buffers : Buffers) : Progress := ⟨#[], Ring.start buffers.output, Memory.start⟩

/-- Go on behind a block.  The buffer is looked at only if the block is not empty. -/
def Progress.add (shape : Shape) (p : Progress) (ring : Ring) (memory : Memory) : Progress :=
  let data := ring.since p.ring.place
  ⟨p.content ++ data, if data.isEmpty then ring else ring.turn shape.block, memory⟩

/-- The sequences of a block.  The seventh version keeps tables and distances from block to block; the sixth
    begins each with distances of one. -/
def readSequences? (version : Version) (memory : Memory) (bytes : Array UInt8) :
    Option (List Sequence × Option Tables × Recent) :=
  match version with
  | .fourth | .fifth => (Extended.read? version bytes).map fun s => (s, none, memory.recent)
  | .sixth => (Coded.read? version none ⟨1, 1, 1⟩ bytes).map fun (s, _, _) => (s, none, memory.recent)
  | .seventh => Coded.read? version memory.tables memory.recent bytes

/-- The greatest size of a compressed block. -/
def maxCompressed (version : Version) : Nat := if version = .fourth then maxBlock else maxBlock - 1

/-- Unpack a compressed block into the buffer. -/
def unpack? (version : Version) (memory : Memory) (ring : Ring) (block : Array UInt8) :
    Option (Ring × Memory) := do
  if maxCompressed version < block.size then none
  let literals ← Literals.read? version memory.tree block
  let (sequences, tables, recent) ←
    readSequences? version memory (block.extract literals.length block.size)
  let ring ← ring.run? version.leastCopy sequences ⟨literals.content, literals.count, 0⟩
  let tree := if version = .seventh then literals.tree else none
  return (ring, ⟨tree, tables, recent⟩)

/-- Read the blocks of a frame to its end mark; the second number bounds them.  A block of no bytes ends a
    frame too, and no block repeats a byte. -/
def readBlocks (version : Version) (total : Nat) (shape : Shape) (buffers : Buffers) :
    Nat → Progress → Bytes → Except IoKind (Progress × Bytes)
  | 0, _, _ => .error .unexpectedEnd
  | bound + 1, p, bytes => do
    let (head, rest) ← readHead bytes
    let size := head % 2 ^ 19
    match Kind.ofNumber (head / 2 ^ 22) with
    | .finish =>
      if shape.checksum && head % 2 ^ 22 ≠ checkOf p.content then throw .other else return (p, rest)
    | .repeated =>
      let _ ← take? 1 rest
      throw .other
    | kind =>
      if size = 0 then return (p, rest)
      let (data, rest) ← takeBlock total buffers size rest
      let unpacked :=
        if kind = .plain then (p.ring.append? data.toArray).map fun ring => (ring, p.memory)
        else unpack? version p.memory p.ring data.toArray
      match unpacked with
      | some (ring, memory) => readBlocks version total shape buffers bound (p.add shape ring memory) rest
      | none => throw .other

/-- Read a frame from behind its first four bytes, given the buffers that are there. -/
def readFrame (version : Version) (kept : Option Buffers) (total : Nat) (bytes : Bytes) :
    Except IoKind (Array UInt8 × Buffers × Bytes) := do
  let (shape, rest) ← Shape.read version bytes
  let buffers := Buffers.suited shape version kept
  let (p, rest) ←
    readBlocks version total shape buffers (rest.length + 1) (Progress.start buffers) rest
  return (p.content, buffers, rest)

end JsonSidecar.Zstd.Earlier
