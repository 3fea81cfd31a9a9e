/-
Module: JsonSidecar.File.Writer
Purpose: Stores that write their records to a file: one as they come, each at its own place, and one as a
  compressed stream that reaches the file when it is finished.  Both remember a failed write and both
  hand out the offsets that a collection in memory would.
Main exports: PlainWriter, StreamWriter, BlobWriter, BlobWriter.create, BlobWriter.write,
  BlobWriter.finish, BlobWriter.drop, OnDisk
-/
import JsonSidecar.Blob.Record
import JsonSidecar.Blob.Store
import JsonSidecar.File.Codec
import JsonSidecar.File.Config
import JsonSidecar.File.Disk

namespace JsonSidecar

/-- What a store does on a disk: it fails as a store, and the disk changes even then. -/
abbrev BlobAction (α : Type) : Type := ExceptT BlobError (StateM Disk) α

/-- A failure of the disk as one of the store. -/
def BlobAction.ofDisk {α : Type} (action : DiskAction α) : BlobAction α := fun d =>
  let (result, d) := action d
  (result.mapError .io, d)

/-! ### Records as they come -/

/-- A writer of records at their places.  The bytes that it has given away are counted without bound: runs that give
    away `2 ^ 64` bytes or more, where a counter of one word begins anew, are left out. -/
structure PlainWriter where
  file : OpenFile
  path : String
  reserved : Nat
  failed : Bool
deriving DecidableEq, Repr

namespace PlainWriter

/-- Open a writer on a new or emptied file. -/
def create (path : String) : DiskAction PlainWriter := do
  Disk.createParent path
  let file ← Disk.create path
  return ⟨file, path, 0, false⟩

/-- Write one record at its place. -/
def writeRecord (file : OpenFile) (base : Nat) (data : Bytes) : DiskAction Unit := do
  Disk.writeAt file base (littleEndian Chunk.headerLength data.length)
  Disk.writeAt file (base + Chunk.headerLength) data
  Disk.writeAt file (base + Chunk.headerLength + data.length) (Chunk.padding data.length)

/-- Append a chunk.  Its place is taken even if the write fails. -/
def write (data : Bytes) (w : PlainWriter) (d : Disk) : (Except BlobError Nat × PlainWriter) × Disk :=
  if data.isEmpty then ((.ok 0, w), d)
  else
    let next := { w with reserved := w.reserved + Chunk.recordLength data.length }
    match writeRecord w.file w.reserved data d with
    | (.ok (), d) => ((.ok (w.reserved + Chunk.headerLength), next), d)
    | (.error e, d) => ((.error (.io e), { next with failed := true }), d)

/-- Bring the records to rest and tell how many bytes they take. -/
def finish (w : PlainWriter) : BlobAction Nat := do
  if w.failed then throw .failed
  BlobAction.ofDisk (Disk.sync w.file)
  return w.reserved

end PlainWriter

/-! ### Records as a compressed stream -/

/-- A writer of records through a stream that is compressed at a level.  The stream holds what was written to it until
    it is finished; then there is none any more.  The bytes given away are counted as by `PlainWriter`. -/
structure StreamWriter where
  file : OpenFile
  path : String
  level : Int
  stream : Option Bytes
  reserved : Nat
  failed : Bool
deriving DecidableEq, Repr

namespace StreamWriter

/-- Open a writer on a new or emptied file. -/
def create (path : String) (level : Int := 3) : DiskAction StreamWriter := do
  Disk.createParent path
  let file ← Disk.create path
  return ⟨file, path, level, some [], 0, false⟩

/-- Write to the stream in parts; a part that fails may have been taken up to some byte. -/
def writeParts : List Bytes → Bytes → Disk → (Except IoError Unit × Bytes) × Disk
  | [], stream, d => ((.ok (), stream), d)
  | part :: parts, stream, d =>
    if part.isEmpty then writeParts parts stream d
    else
      match Disk.nextFault d with
      | (.ok (some fault), d) => ((.error fault.error, stream ++ part.take fault.written), d)
      | (_, d) => writeParts parts (stream ++ part) d

/-- Append a chunk.  Its place is taken even if the write fails. -/
def write (data : Bytes) (w : StreamWriter) (d : Disk) :
    (Except BlobError Nat × StreamWriter) × Disk :=
  match data.isEmpty, w.stream with
  | true, _ => ((.ok 0, w), d)
  | false, none => ((.error .closed, w), d)
  | false, some stream =>
    let parts := [littleEndian Chunk.headerLength data.length, data, Chunk.padding data.length]
    let ((result, stream), d) := writeParts parts stream d
    let next := { w with
      stream := some stream, reserved := w.reserved + Chunk.recordLength data.length }
    match result with
    | .ok () => ((.ok (w.reserved + Chunk.headerLength), next), d)
    | .error e => ((.error (.io e), { next with failed := true }), d)

/-- End a stream: compress what is left of it, write it out, bring it to rest, and look how long it became. -/
def finishStream [Codec] (file : OpenFile) (level : Int) (stream : Bytes) : DiskAction Unit := do
  Disk.begin
  let bytes ← Codec.compress level stream
  Disk.writeAt file 0 bytes
  Disk.sync file
  Disk.begin

/-- Finish the stream if that has not been done, and tell how many bytes the records take. -/
def finish [Codec] (w : StreamWriter) (d : Disk) : (Except BlobError Nat × StreamWriter) × Disk :=
  let closed := { w with stream := none }
  let result := if w.failed then .error .failed else .ok w.reserved
  match w.stream with
  | none => ((result, closed), d)
  | some stream =>
    match finishStream w.file w.level stream d with
    | (.ok (), d) => ((result, closed), d)
    | (.error e, d) => ((.error (.io e), { closed with failed := true }), d)

/-- Let go of a writer: a stream that is still open is finished, whatever comes of it. -/
def drop [Codec] (w : StreamWriter) (d : Disk) : Disk := (w.finish d).2

end StreamWriter

/-! ### Either of them -/

/-- A writer as the settings ask for. -/
inductive BlobWriter where
  | plain (writer : PlainWriter)
  | stream (writer : StreamWriter)
deriving DecidableEq, Repr

namespace BlobWriter

/-- Open the writer for the file of stored arrays at a path. -/
def create (path : String) (config : FileConfig) : DiskAction BlobWriter :=
  match config.compression with
  | .none => .plain <$> PlainWriter.create path
  | .zstd level => .stream <$> StreamWriter.create (config.compressedPath path) level

/-- The path of the file that is written. -/
def path : BlobWriter → String
  | .plain w => w.path
  | .stream w => w.path

/-- How many bytes the records take. -/
def reserved : BlobWriter → Nat
  | .plain w => w.reserved
  | .stream w => w.reserved

/-- Whether a write has failed. -/
def failed : BlobWriter → Bool
  | .plain w => w.failed
  | .stream w => w.failed

/-- Append a chunk. -/
def write (data : Bytes) (w : BlobWriter) (d : Disk) : (Except BlobError Nat × BlobWriter) × Disk :=
  match w with
  | .plain w => let ((r, w), d) := w.write data d; ((r, .plain w), d)
  | .stream w => let ((r, w), d) := w.write data d; ((r, .stream w), d)

/-- Finish the file and tell how many bytes the records take. -/
def finish [Codec] (w : BlobWriter) (d : Disk) : (Except BlobError Nat × BlobWriter) × Disk :=
  match w with
  | .plain w => let (r, d) := w.finish d; ((r, .plain w), d)
  | .stream w => let ((r, w), d) := w.finish d; ((r, .stream w), d)

/-- Let go of a writer. -/
def drop [Codec] (w : BlobWriter) (d : Disk) : Disk :=
  match w with
  | .plain _ => d
  | .stream w => w.drop d

end BlobWriter

/-- A writer together with the disk it writes to. -/
structure OnDisk where
  writer : BlobWriter
  disk : Disk
deriving DecidableEq, Repr

instance : BlobStore OnDisk where
  write data s :=
    let ((result, writer), disk) := s.writer.write data s.disk
    (result, ⟨writer, disk⟩)
  view s := BlobView.writeOnly s.writer.reserved
  hasFailed s := s.writer.failed

end JsonSidecar
