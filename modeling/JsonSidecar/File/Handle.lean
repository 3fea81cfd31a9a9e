/-
Module: JsonSidecar.File.Handle
Purpose: Whatever is open on a disk, under one interface: a writer, a value file that is being written, or
  loaded arrays.
Main exports: Handle, Handle.write, Handle.view, Handle.finish, Handle.drop
-/
import JsonSidecar.File.ValueFile
import JsonSidecar.Zstd.Codec

namespace JsonSidecar

/-- Something open on a disk; a value file comes with the text that was last encoded into it. -/
inductive Handle where
  | writer (writer : BlobWriter)
  | valueFile (file : ValueFile) (last : Option Bytes)
  | loaded (blobs : LoadedBlobs)
deriving DecidableEq, Repr

namespace Handle

/-- The writer of a handle that has one. -/
def writer? : Handle → Option BlobWriter
  | .writer w => some w
  | .valueFile file _ => some file.writer
  | .loaded _ => none

/-- The handle with another state of its writer. -/
def withWriter (w : BlobWriter) : Handle → Handle
  | .writer _ => .writer w
  | .valueFile file last => .valueFile { file with writer := w } last
  | .loaded blobs => .loaded blobs

/-- What can be read. -/
def view : Handle → BlobView
  | .writer w => BlobView.writeOnly w.reserved
  | .valueFile file _ => BlobView.writeOnly file.writer.reserved
  | .loaded blobs => BlobStore.view blobs

/-- Whether a write has failed. -/
def hasFailed (h : Handle) : Bool := (h.writer?.map BlobWriter.failed).getD false

/-- Append a chunk. -/
def write (data : Bytes) (h : Handle) (d : Disk) : (Except BlobError Nat × Handle) × Disk :=
  match h.writer? with
  | some w =>
    let ((r, w), d) := w.write data d
    ((r, h.withWriter w), d)
  | none => ((.error .readOnly, h), d)

/-- Finish the file.  What is only read is finished as it stands. -/
def finish [Codec] (h : Handle) (d : Disk) : (Except BlobError Nat × Handle) × Disk :=
  match h.writer? with
  | some w =>
    let ((r, w), d) := w.finish d
    ((r, h.withWriter w), d)
  | none => ((.ok h.view.reserved, h), d)

/-- Encode a value into the store of a handle; a value file remembers the text. -/
def encode {S : Type} (schema : Schema S) (t : Ty S) (v : Val) (h : Handle) (d : Disk) :
    (Except BlobError Bytes × Handle) × Disk :=
  match h with
  | .valueFile file last =>
    let ((r, file), d) := file.encode schema t v d
    ((r, .valueFile file (r.toOption.or last)), d)
  | .writer w =>
    match JsonSidecar.encode schema (some (OnDisk.mk w d)) 0 t v with
    | (r, some s) => ((r, .writer s.writer), s.disk)
    | (r, none) => ((r, h), d)
  | .loaded blobs => (((JsonSidecar.encode schema (some blobs) 0 t v).1, h), d)

/-- Let go of a handle. -/
def drop [Codec] (h : Handle) (d : Disk) : Disk :=
  match h.writer? with
  | some w => w.drop d
  | none => d

end Handle

end JsonSidecar
