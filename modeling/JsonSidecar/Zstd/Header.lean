/-
Module: JsonSidecar.Zstd.Header
Purpose: What a frame says of itself in front of its blocks, and the headers of the blocks.
Main exports: magic, atHand, Header, Header.read, BlockKind, BlockHeader, BlockHeader.bytes, BlockHeader.read
-/
import JsonSidecar.Blob.Error
import JsonSidecar.Bytes

namespace JsonSidecar.Zstd

/-- The first bytes of a frame. -/
def magic : Bytes := [0x28, 0xb5, 0x2f, 0xfd]

/-- The greatest size of a block in any frame. -/
def maxBlock : Nat := 2 ^ 17

/-- The first `count` bytes and the rest, if there are so many. -/
def take? (count : Nat) (bytes : Bytes) : Except IoKind (Bytes × Bytes) :=
  if count ≤ bytes.length then .ok (bytes.take count, bytes.drop count) else .error .unexpectedEnd

/-- How many bytes are taken from a file at a time. -/
def portion : Nat := maxBlock + 3

/-- How many of the bytes that are left of a file are at hand, or will be with the next portion if there
    are none; the number is that of all bytes of the file. -/
def atHand (total : Nat) (left : Bytes) : Nat :=
  min left.length (portion - (total - left.length) % portion)

/-- The header of a frame: how far back its blocks may refer, the size of its contents if it is told, the
    number of the dictionary it needs or zero, and whether a checksum follows the blocks. -/
structure Header where
  window : Nat
  size : Option Nat
  dictionary : Nat
  checksum : Bool
deriving DecidableEq, Repr

namespace Header

/-- How many bytes the number of a dictionary takes. -/
def dictionaryWidth (descriptor : Nat) : Nat := [0, 1, 2, 4].getD (descriptor % 4) 0

/-- Whether the contents are one segment, whose size is the window. -/
def isSingle (descriptor : Nat) : Bool := descriptor / 32 % 2 = 1

/-- How many bytes the size of the contents takes. -/
def sizeWidth (descriptor : Nat) : Nat :=
  match descriptor / 64 with
  | 0 => if isSingle descriptor then 1 else 0
  | 1 => 2
  | 2 => 4
  | _ => 8

/-- The window that a byte stands for: a power of two and some eighths of it. -/
def windowOf (byte : Nat) : Nat := 2 ^ (byte / 8 + 10) / 8 * (8 + byte % 8)

/-- The size that a number of some width stands for.  Two bytes begin where one byte ends, and the
    greatest number of all says that the size is not known. -/
def sizeOf (width n : Nat) : Option Nat :=
  if width = 0 || n = 2 ^ 64 - 1 then none else some (if width = 2 then n + 256 else n)

/-- Read a header from behind the first four bytes of a frame. -/
def read (bytes : Bytes) : Except IoKind (Header × Bytes) := do
  let (descriptor, bytes) ← take? 1 bytes
  let descriptor := ofLittleEndian descriptor
  let single := isSingle descriptor
  let windowWidth := if single then 0 else 1
  let (fields, rest) ←
    take? (windowWidth + dictionaryWidth descriptor + sizeWidth descriptor) bytes
  let window := ofLittleEndian (fields.take windowWidth)
  let dictionary := ofLittleEndian ((fields.drop windowWidth).take (dictionaryWidth descriptor))
  let size := ofLittleEndian (fields.drop (windowWidth + dictionaryWidth descriptor))
  if descriptor / 8 % 2 = 1 || 31 < window / 8 + 10 then throw .other
  let told := sizeOf (sizeWidth descriptor) size
  return (⟨if single then told.getD size else windowOf window, told, dictionary,
    descriptor / 4 % 2 = 1⟩, rest)

/-- The greatest size of a block in a frame. -/
def blockLimit (header : Header) : Nat := min header.window maxBlock

end Header

/-- What the bytes of a block are: its contents, one byte that is repeated, or its contents compressed. -/
inductive BlockKind where
  | plain
  | repeated
  | compressed
deriving DecidableEq, Repr

/-- The header of a block: whether it is the last one, what its bytes are, and a size.  The size is that
    of the contents if a byte is repeated, and of the bytes otherwise. -/
structure BlockHeader where
  last : Bool
  kind : BlockKind
  size : Nat
deriving DecidableEq, Repr

namespace BlockHeader

/-- The number of a kind. -/
def kindNumber : BlockKind → Nat
  | .plain => 0
  | .repeated => 1
  | .compressed => 2

/-- A header as it is written. -/
def bytes (header : BlockHeader) : Bytes :=
  littleEndian 3
    ((if header.last then 1 else 0) + 2 * kindNumber header.kind + 8 * header.size)

/-- The kind with a number; the last number has none. -/
def kindOf? (number : Nat) : Option BlockKind :=
  match number with
  | 0 => some .plain
  | 1 => some .repeated
  | 2 => some .compressed
  | _ => none

/-- How many bytes follow the header. -/
def length (header : BlockHeader) : Nat := if header.kind = .repeated then 1 else header.size

/-- Read the header of a block. -/
def read (bytes : Bytes) : Except IoKind (BlockHeader × Bytes) := do
  let (head, bytes) ← take? 3 bytes
  let n := ofLittleEndian head
  match kindOf? (n / 2 % 4) with
  | some kind => return (⟨n % 2 = 1, kind, n / 8⟩, bytes)
  | none => throw .other

end BlockHeader

end JsonSidecar.Zstd
