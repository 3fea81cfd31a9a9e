/-
Module: JsonSidecar.Blob.Record
Purpose: The layout of one stored chunk: its length in eight bytes, its bytes, and zeros up to a multiple
  of eight.
Main exports: Chunk.roundUp, Chunk.recordLength, Chunk.record
-/
import JsonSidecar.Bytes

namespace JsonSidecar.Chunk

/-- The bytes in front of the contents of a chunk. -/
def headerLength : Nat := 8

/-- The least multiple of eight that is not below `n`. -/
def roundUp (n : Nat) : Nat := (n + 7) / 8 * 8

/-- The bytes that the record of a chunk of `length` bytes takes. -/
def recordLength (length : Nat) : Nat := roundUp length + headerLength

/-- The zeros behind the contents of a chunk. -/
def padding (length : Nat) : Bytes := List.replicate (roundUp length - length) 0

/-- The record of a chunk. -/
def record (data : Bytes) : Bytes :=
  littleEndian headerLength data.length ++ data ++ padding data.length

end JsonSidecar.Chunk
