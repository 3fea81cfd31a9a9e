/-
Module: JsonSidecar.File.Load
Purpose: Loading files in either form.  The plain form is tried first, and the compressed one only where
  there is no plain one, so a plain file that cannot be read is not passed over.
Main exports: Disk.readEither, LoadedBlobs.load
-/
import JsonSidecar.Blob.Loaded
import JsonSidecar.File.Codec
import JsonSidecar.File.Config
import JsonSidecar.File.Disk

namespace JsonSidecar

variable [Codec]

/-- The contents of a compressed file. -/
def Disk.readCompressed (path : String) : DiskAction Bytes := do
  let bytes ← Disk.readOpened (← Disk.openToRead path)
  Codec.decompress bytes

/-- The contents of the file at a path or of its compressed form, and the path they came from. -/
def Disk.readEither (path : String) (config : FileConfig) : DiskAction (Bytes × String) := do
  match ← Disk.attempt (Disk.openToRead path) with
  | .ok entry => return (← Disk.readOpened entry, path)
  | .error e =>
    if e.kind = .notFound then
      let compressed := config.compressedPath path
      return (← Disk.readCompressed compressed, compressed)
    else throw e

/-- Load the stored arrays at a path. -/
def LoadedBlobs.load (path : String) (config : FileConfig) : DiskAction LoadedBlobs := do
  let (bytes, path) ← Disk.readEither path config
  return ⟨bytes, path⟩

end JsonSidecar
