/-
Module: JsonSidecar.File.Atomic
Purpose: Replacing a file as a whole: the new contents go into a file beside it, which then takes its
  place in one step.
Main exports: Disk.writeAtomic, Disk.removeStale, writeCollection
-/
import JsonSidecar.Blob.Collection
import JsonSidecar.File.Disk

namespace JsonSidecar

namespace Disk

/-- The path of the file that holds new contents until they are complete. -/
def tempPath (path : String) : String := path ++ ".tmp"

/-- Write the new contents for a path beside it and bring them to rest. -/
def writeTemp (path : String) (data : Bytes) : DiskAction Unit := do
  let file ← create (tempPath path)
  writeAt file 0 data
  sync file

/-- Give a path new contents.  When they cannot be written the file beside it is taken away again. -/
def writeAtomic (path : String) (data : Bytes) : DiskAction Unit := do
  createParent path
  match ← attempt (writeTemp path data) with
  | .ok () => rename (tempPath path) path
  | .error e =>
    let _ ← attempt (remove (tempPath path))
    throw e

/-- Take away a file that may not be there. -/
def removeStale (path : String) : DiskAction Unit := do
  match ← attempt (remove path) with
  | .ok () => return
  | .error e => if e.kind = .notFound then return else throw e

end Disk

/-- Write the records of a collection to a file. -/
def writeCollection (collection : Collection) (path : String) : DiskAction Unit :=
  Disk.writeAtomic path collection.bytes

end JsonSidecar
