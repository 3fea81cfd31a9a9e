/-
Module: JsonSidecar.File.ValueFile
Purpose: A value as a pair of files: its text, and beside it the arrays stored outside the text.  Saving
  finishes the arrays before it touches the text, and afterwards takes away what an earlier save left
  in the other form, because a load would find a plain file first.
Main exports: ValueFileError, ValueFile, ValueFile.create, ValueFile.encode, ValueFile.save,
  ValueFile.load, saveValue, loadValue
-/
import JsonSidecar.Decode.Typed
import JsonSidecar.Encode.Session
import JsonSidecar.File.Atomic
import JsonSidecar.File.Load
import JsonSidecar.File.Writer

namespace JsonSidecar

/-- What can go wrong with a value file. -/
inductive ValueFileError where
  | io (cause : IoError)
  | config (cause : ConfigError)
  | blob (cause : BlobError)
  | decode (cause : DecodeError)
deriving DecidableEq, Repr

/-- The wording of an error. -/
def ValueFileError.message : ValueFileError → String
  | .io cause => "I/O error: " ++ cause.message
  | .config cause => "invalid configuration: " ++ cause.message
  | .blob cause => cause.message
  | .decode cause => cause.message

/-- What is done with value files on a disk. -/
abbrev ValueFileAction (α : Type) : Type := ExceptT ValueFileError (StateM Disk) α

namespace ValueFileAction

variable {α : Type}

/-- A failure of the disk is one of the text file. -/
def ofDisk (action : DiskAction α) : ValueFileAction α := fun d =>
  let (result, d) := action d
  (result.mapError .io, d)

/-- A failure of the disk is one of the stored arrays. -/
def ofBlobDisk (action : DiskAction α) : ValueFileAction α := fun d =>
  let (result, d) := action d
  (result.mapError fun e => .blob (.io e), d)

end ValueFileAction

/-- A value file that is being written. -/
structure ValueFile where
  path : String
  config : FileConfig
  writer : BlobWriter
deriving DecidableEq, Repr

/-- A value as it was loaded: its text, and the stored arrays if there is a file of them. -/
structure LoadedValue where
  text : Bytes
  blobs : Option LoadedBlobs
deriving DecidableEq, Repr

namespace ValueFile

open ValueFileAction

variable [Codec]

/-- Begin a value file: check the settings and open the file of stored arrays. -/
def create (path : String) (config : FileConfig) : ValueFileAction ValueFile := do
  match config.validate with
  | .error e => throw (.config e)
  | .ok () =>
    let writer ← ofBlobDisk (BlobWriter.create (config.blobsPath path) config)
    return ⟨path, config, writer⟩

/-- Encode a value, storing its arrays in this file's store. -/
def encode {S : Type} (schema : Schema S) (t : Ty S) (v : Val) (file : ValueFile) (d : Disk) :
    (Except BlobError Bytes × ValueFile) × Disk :=
  match JsonSidecar.encode schema (some (OnDisk.mk file.writer d)) 0 t v with
  | (result, some s) => ((result, { file with writer := s.writer }), s.disk)
  | (result, none) => ((result, file), d)

/-- The two forms of a text, the one that is written and the one that is not, with the contents. -/
def textForms (file : ValueFile) (text : Bytes) : Except IoError ((String × Bytes) × String) := do
  let compressed := file.config.compressedPath file.path
  if file.config.compressText then
    let bytes ← Codec.compress file.config.textLevel text
    return ((compressed, bytes), file.path)
  else return ((file.path, text), compressed)

/-- The form of the file of stored arrays that is not written. -/
def staleBlobs (file : ValueFile) : String :=
  let plain := file.config.blobsPath file.path
  if file.config.compression.isCompressed then plain else file.config.compressedPath plain

/-- Finish the stored arrays, write the text, and take away the forms not written.  The path of the text
    that was written is the result. -/
def save (text : Bytes) (file : ValueFile) : ValueFileAction String := do
  let _ ← fun d =>
    let ((result, _), d) := file.writer.finish d
    ((result.mapError ValueFileError.blob, d) : Except ValueFileError Nat × Disk)
  let ((target, contents), stale) ← (file.textForms text).mapError ValueFileError.io
  ofDisk (Disk.writeAtomic target contents)
  ofDisk (Disk.removeStale stale)
  ofDisk (Disk.removeStale file.staleBlobs)
  return target

/-- Load the value at a path, with its stored arrays if there is a file of them. -/
def load (path : String) (config : FileConfig) : ValueFileAction LoadedValue := do
  let (text, _) ← ofDisk (Disk.readEither path config)
  match ← ofDisk (Disk.attempt (LoadedBlobs.load (config.blobsPath path) config)) with
  | .ok blobs => return ⟨text, some blobs⟩
  | .error e => if e.kind = .notFound then return ⟨text, none⟩ else throw (.blob (.io e))

end ValueFile

/-- Encode a value and save it at a path. -/
def saveValue [Codec] {S : Type} (schema : Schema S) (path : String) (t : Ty S) (v : Val)
    (config : FileConfig) : ValueFileAction String := do
  let file ← ValueFile.create path config
  let (result, file) ← fun d => let (r, d) := file.encode schema t v d; (.ok r, d)
  match result with
  | .ok text => file.save text
  | .error e =>
    modify file.writer.drop
    throw (.blob e)

/-- Load a value of a type from a path. -/
def loadValue [Codec] {S : Type} (schema : Schema S) (path : String) (t : Ty S) (config : FileConfig) :
    ValueFileAction Val := do
  let loaded ← ValueFile.load path config
  match decode schema (loaded.blobs.map BlobStore.view) t loaded.text with
  | .ok v => return v
  | .error e => throw (.decode e)

end JsonSidecar
