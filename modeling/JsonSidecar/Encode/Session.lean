/-
Module: JsonSidecar.Encode.Session
Purpose: One encode in progress: the text so far, the store that arrays go to, and the first failure to
  store one.  A failed write does not stop the encode, so that the text comes out whole; the failure is
  reported when the encode is finished.
Main exports: EncodeSession, EncodeSession.storeChunk, EncodeSession.write, EncodeSession.finish, encode
-/
import JsonSidecar.Blob.Store
import JsonSidecar.Encode.Hint

namespace JsonSidecar

/-- An encode in progress. -/
structure EncodeSession (σ : Type) where
  text : Bytes
  store : Option σ
  threshold : Nat
  error : Option BlobError

namespace EncodeSession

variable {σ : Type}

/-- An encode that has not begun. -/
def start (store : Option σ) (threshold : Nat) : EncodeSession σ := ⟨[], store, threshold, none⟩

/-- Where arrays go. -/
def placement (s : EncodeSession σ) : Placement := ⟨s.store.isSome, s.threshold⟩

/-- Append text. -/
def push (s : EncodeSession σ) (bytes : Bytes) : EncodeSession σ := { s with text := s.text ++ bytes }

variable [BlobStore σ]

/-- Append a chunk to the store and tell the offset of its contents.  The offset is zero for an empty
    chunk, without a store, and when the write fails; only the first such failure is kept. -/
def storeChunk (s : EncodeSession σ) (data : Bytes) : Nat × EncodeSession σ :=
  match data.isEmpty, s.store with
  | false, some store =>
    match BlobStore.write data store with
    | (.ok offset, store) => (offset, { s with store := some store })
    | (.error e, store) => (0, { s with store := some store, error := s.error.or (some e) })
  | _, _ => (0, s)

/-- Append an array as a chunk and its descriptor. -/
def pushArray (s : EncodeSession σ) (array : StoredArray) : EncodeSession σ :=
  let (offset, s) := s.storeChunk array.bytes
  s.push (array.descriptor offset).text

/-- Append a segment. -/
def pushSegment (s : EncodeSession σ) : Segment → EncodeSession σ
  | .text bytes => s.push bytes
  | .array array => s.pushArray array

/-- Append segments in order. -/
def pushSegments (s : EncodeSession σ) (segments : List Segment) : EncodeSession σ :=
  segments.foldl pushSegment s

/-- Append a value of a type. -/
def write {S : Type} (schema : Schema S) (t : Ty S) (v : Val) (s : EncodeSession σ) : EncodeSession σ :=
  s.pushSegments (Val.segments schema s.placement t v)

/-- The text, or the first failure to store an array. -/
def finish (s : EncodeSession σ) : Except BlobError Bytes :=
  match s.error with
  | some e => .error e
  | none => .ok s.text

end EncodeSession

/-- Encode a value of a type, storing arrays of at least `threshold` elements if there is a store. -/
def encode {S σ : Type} [BlobStore σ] (schema : Schema S) (store : Option σ) (threshold : Nat)
    (t : Ty S) (v : Val) : Except BlobError Bytes × Option σ :=
  let s := (EncodeSession.start store threshold).write schema t v
  (s.finish, s.store)

/-- The text of a value that keeps everything in the text. -/
def encodeInline {S : Type} (schema : Schema S) (t : Ty S) (v : Val) : Bytes :=
  (Val.segments schema Placement.inline t v).flatMap fun
    | .text bytes => bytes
    | .array array => (array.descriptor 0).text

end JsonSidecar
