/-
Module: JsonSidecar.Blob.Loaded
Purpose: Records that were loaded as a whole and are only read.
Main exports: LoadedBlobs, LoadedBlobs.ofBytes
-/
import JsonSidecar.Blob.Store

namespace JsonSidecar

/-- Loaded records and the path they came from, which is empty for records that came from memory. -/
structure LoadedBlobs where
  bytes : Bytes
  path : String
deriving DecidableEq, Repr

namespace LoadedBlobs

/-- Records that are already in memory. -/
def ofBytes (bytes : Bytes) : LoadedBlobs := ⟨bytes, ""⟩

instance : BlobStore LoadedBlobs where
  write _ blobs := (.error .readOnly, blobs)
  view blobs := BlobView.ofBytes blobs.bytes
  hasFailed _ := false

end LoadedBlobs

end JsonSidecar
