/-
Module: JsonSidecar.Blob.Collection
Purpose: A store in memory.  Its records lie one behind another as in a file, so that offsets stay good
  when the bytes are written out as they are.
Main exports: Collection, Collection.write, Collection.part?, Collection.ofChunks
-/
import JsonSidecar.Blob.Record
import JsonSidecar.Blob.Store

namespace JsonSidecar

/-- The bytes of all records, and for every part the offset and the length of its contents. -/
structure Collection where
  bytes : Bytes
  parts : List (Nat × Nat)
deriving DecidableEq, Repr

namespace Collection

/-- The collection with no chunk. -/
def empty : Collection := ⟨[], []⟩

/-- Append a chunk that is not empty. -/
def append (c : Collection) (data : Bytes) : Collection :=
  ⟨c.bytes ++ Chunk.record data, c.parts ++ [(c.bytes.length + Chunk.headerLength, data.length)]⟩

/-- Append a chunk and tell the offset of its contents. -/
def write (data : Bytes) (c : Collection) : Except BlobError Nat × Collection :=
  if data.isEmpty then (.ok 0, c)
  else (.ok (c.bytes.length + Chunk.headerLength), c.append data)

instance : BlobStore Collection where
  write := write
  view c := BlobView.ofBytes c.bytes
  hasFailed _ := false

/-- The contents of a part by its number. -/
def part? (c : Collection) (index : Nat) : Option Bytes :=
  c.parts[index]?.map fun (offset, length) => (c.bytes.drop offset).take length

/-- The collection of some chunks written in order. -/
def ofChunks (chunks : List Bytes) : Collection :=
  chunks.foldl (fun c data => (write data c).2) empty

/-- The collection as a programmer reads it. -/
def debugText (c : Collection) : String :=
  "BlobCollection \x7b parts: " ++ toString c.parts.length ++ ", bytes: "
    ++ toString c.bytes.length ++ " \x7d"

end Collection

end JsonSidecar
