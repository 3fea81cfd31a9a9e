/-
Module: JsonSidecar.Blob.Store
Purpose: What a store of chunks offers.  Reading a store goes through a view, a snapshot of what it
  answers; writing turns a store into another one.
Main exports: BlobView, BlobView.ofBytes, BlobView.writeOnly, BlobStore
-/
import JsonSidecar.Blob.Error
import JsonSidecar.Bytes

namespace JsonSidecar

/-- What can be read from a store: how many bytes its records take, and the bytes at an offset. -/
structure BlobView where
  reserved : Nat
  read (offset length : Nat) : Except BlobError Bytes

namespace BlobView

/-- A part of some bytes, which must lie in them as a whole. -/
def slice (data : Bytes) (offset length : Nat) : Except BlobError Bytes :=
  if offset + length ≤ data.length then .ok ((data.drop offset).take length)
  else .error (.outOfRange offset length data.length)

/-- The view of records that are at hand. -/
def ofBytes (data : Bytes) : BlobView := ⟨data.length, slice data⟩

/-- The view of records that cannot be read back. -/
def writeOnly (reserved : Nat) : BlobView := ⟨reserved, fun _ _ => .error .writeOnly⟩

end BlobView

/-- A store of chunks in states of type `σ`. -/
class BlobStore (σ : Type) where
  /-- Append a chunk and tell the offset of its contents; an empty chunk is not stored and has offset
      zero. -/
  write : Bytes → σ → Except BlobError Nat × σ
  /-- What can be read at present. -/
  view : σ → BlobView
  /-- Whether a write has failed. -/
  hasFailed : σ → Bool

end JsonSidecar
