/-
Module: JsonSidecar.File.Disk
Purpose: The storage under the files.  Places name entries, and a file keeps its contents while it is open
  even when its name goes.  Any call may fail for a reason of its own: the disk carries the failures that
  lie ahead, one place for each call, so that a statement can range over all of them.
Main exports: Entry, Fault, Disk, DiskAction, Disk.create, Disk.writeAt, Disk.sync, Disk.rename,
  Disk.remove, Disk.openToRead, Disk.readOpened, Disk.createParent
-/
import JsonSidecar.File.Path
import JsonSidecar.File.Source

namespace JsonSidecar

/-- What is at a place: a directory, a file by its number, or a device that is always full. -/
inductive Entry where
  | directory
  | file (number : Nat)
  | fullDevice
deriving DecidableEq, Repr

/-- A failure that a call is going to report; a write still writes the first bytes of its range. -/
structure Fault where
  error : IoError
  written : Nat
deriving DecidableEq, Repr

/-- The entries by place, the contents of all files by number, and the failures ahead. -/
structure Disk where
  tree : List (Place × Entry)
  files : List Bytes
  faults : List (Option Fault)
deriving DecidableEq, Repr

/-- Something done to a disk, which changes it even where it fails. -/
abbrev DiskAction (α : Type) : Type := ExceptT IoError (StateM Disk) α

/-- An open file. -/
inductive OpenFile where
  | file (number : Nat)
  | fullDevice
deriving DecidableEq, Repr

namespace Disk

/-! ### Places and entries -/

/-- A disk with nothing on it. -/
def empty : Disk := ⟨[], [], []⟩

/-- The entries by path. -/
def entries (d : Disk) : List (String × Entry) := d.tree.map fun e => ("/".intercalate e.1, e.2)

/-- What is at a place.  The directory that holds everything is always there. -/
def at? (d : Disk) (place : Place) : Option Entry :=
  if place = [] then some .directory else d.tree.lookup place

/-- Take the name off an entry. -/
def unlinkAt (d : Disk) (place : Place) : Disk := { d with tree := d.tree.filter fun e => e.1 ≠ place }

/-- Put an entry at a place. -/
def linkAt (d : Disk) (place : Place) (entry : Entry) : Disk :=
  { d with tree := (place, entry) :: (d.unlinkAt place).tree }

/-- Take the name off the entry at a path. -/
def unlink (d : Disk) (path : String) : Disk := d.unlinkAt (placeOf path)

/-- Let a path name an entry. -/
def link (d : Disk) (path : String) (entry : Entry) : Disk := d.linkAt (placeOf path) entry

/-- Why a route cannot be followed to its last part, if it cannot. -/
def blocked? (d : Disk) (route : Route) : Option IoKind :=
  route.around.findSome? fun place =>
    match d.at? place with
    | some .directory => none
    | some _ => some .notADirectory
    | none => some .notFound

/-- What is at the end of a route, if it can be followed. -/
def find? (d : Disk) (route : Route) : Option Entry :=
  if (d.blocked? route).isSome then none else d.at? route.place

/-- Why a path cannot be followed to its last part.  The empty path leads nowhere. -/
def obstacle? (d : Disk) (path : String) : Option IoKind :=
  if path = "" then some .notFound else d.blocked? (.ofPath path)

/-- What a path names. -/
def entry? (d : Disk) (path : String) : Option Entry :=
  if (d.obstacle? path).isSome then none else d.at? (placeOf path)

/-- The contents of a file by its number. -/
def contents (d : Disk) (number : Nat) : Bytes := d.files[number]?.getD []

/-- Replace the contents of a file. -/
def setContents (d : Disk) (number : Nat) (bytes : Bytes) : Disk :=
  { d with files := d.files.set number bytes }

/-- Put a new empty file at a place. -/
def addFile (d : Disk) (place : Place) : Disk :=
  { d.linkAt place (.file d.files.length) with files := d.files ++ [[]] }

/-- The contents of an entry, if it is a file. -/
def bytesOf? (d : Disk) : Option Entry → Option Bytes
  | some (.file number) => some (d.contents number)
  | _ => none

/-- The contents of the file at a place. -/
def bytesAt? (d : Disk) (place : Place) : Option Bytes := d.bytesOf? (d.at? place)

/-- The contents of the file at a path. -/
def fileAt? (d : Disk) (path : String) : Option Bytes := d.bytesOf? (d.entry? path)

/-- Some bytes with others written over them from an offset on; a gap is filled with zeros. -/
def overwrite (bytes : Bytes) (offset : Nat) (data : Bytes) : Bytes :=
  bytes.take offset ++ List.replicate (offset - bytes.length) 0 ++ data
    ++ bytes.drop (offset + data.length)

/-! ### Calls -/

/-- The failure laid down for the next call, which is used up. -/
def nextFault : DiskAction (Option Fault) := do
  let d ← get
  set { d with faults := d.faults.drop 1 }
  return d.faults.head?.join

/-- Begin a call: report its failure if one is laid down. -/
def begin : DiskAction Unit := do
  if let some fault ← nextFault then throw fault.error

/-- Follow a route and tell what is at its end. -/
def follow (route : Route) : DiskAction (Option Entry) := do
  let d ← get
  match d.blocked? route with
  | some kind => throw kind.error
  | none => return d.at? route.place

/-- Follow a path and tell what it names. -/
def resolve (path : String) : DiskAction (Option Entry) :=
  if path = "" then throw IoKind.notFound.error else follow (.ofPath path)

/-- Follow a path to a file that may be new.  A slash at its end asks for a directory, which may be missing. -/
def resolveNew (path : String) : DiskAction (Option Entry) :=
  if (Route.ofPath path).ending = .slash then do
    let _ ← follow (Route.ofPath path).trimmed
    return some .directory
  else resolve path

/-- Open a file for writing, new or emptied. -/
def create (path : String) : DiskAction OpenFile := do
  begin
  match ← resolveNew path with
  | some .directory => throw IoKind.isADirectory.error
  | some .fullDevice => return .fullDevice
  | some (.file number) =>
    modify fun d => d.setContents number []
    return .file number
  | none =>
    let d ← get
    set (d.addFile (placeOf path))
    return .file d.files.length

/-- Write bytes at an offset of an open file.  To write nothing takes no call. -/
def writeAt (file : OpenFile) (offset : Nat) (data : Bytes) : DiskAction Unit := do
  if data.isEmpty then return
  let fault ← nextFault
  match file with
  | .fullDevice => throw IoKind.storageFull.error
  | .file number =>
    let written := match fault with
      | some fault => data.take fault.written
      | none => data
    modify fun d => d.setContents number (overwrite (d.contents number) offset written)
    if let some fault := fault then throw fault.error

/-- Bring an open file to rest on the medium.  A device has none. -/
def sync (file : OpenFile) : DiskAction Unit := do
  begin
  match file with
  | .file _ => return
  | .fullDevice => throw IoKind.invalidInput.error

/-- Follow a path to a name that may be new.  What is no name cannot be given to an entry. -/
def resolveName (path : String) : DiskAction (Option Entry) :=
  match (Route.ofPath path).ending with
  | .name => resolve path
  | .slash => follow (Route.ofPath path).trimmed
  | .dots => do
    let _ ← resolve path
    throw IoKind.other.error

/-- Let an entry change its place for one where another entry may be.  It does not take the place of a directory.  Two
    names of one file both stay. -/
def replace (source target : Place) (entry : Entry) (taken : Option Entry) : DiskAction Unit :=
  if taken = some .directory then throw IoKind.isADirectory.error
  else if entry ≠ .fullDevice ∧ taken = some entry then return
  else modify fun d => (d.unlinkAt source).linkAt target entry

/-- Give an entry that is no directory another path, in one step. -/
def rename (source target : String) : DiskAction Unit := do
  begin
  match ← resolve source, ← resolveName target with
  | none, _ => throw IoKind.notFound.error
  | some .directory, _ => throw IoKind.other.error
  | some entry, taken =>
    if (Route.ofPath target).ending = .slash then throw IoKind.notADirectory.error
    else replace (placeOf source) (placeOf target) entry taken

/-- Take away a path that is no directory. -/
def remove (path : String) : DiskAction Unit := do
  begin
  match ← resolve path with
  | none => throw IoKind.notFound.error
  | some .directory => throw IoKind.isADirectory.error
  | some _ => modify fun d => d.unlinkAt (placeOf path)

/-- Make one directory. -/
def createDirectory (route : Route) : DiskAction Unit := do
  begin
  match ← follow route with
  | none => modify fun d => d.linkAt route.place .directory
  | some .directory => return
  | some _ => throw IoKind.notADirectory.error

/-- Make the directories around a path that are not there.  What is there in place of the innermost one
    is left for the next call to complain about. -/
def createParent (path : String) : DiskAction Unit := do
  let d ← get
  let parents := (Route.ofPath path).parents
  match parents.getLast? with
  | none => return
  | some parent =>
    if (d.find? parent).isSome then return
    (parents.filter fun parent => (d.find? parent).isNone).forM createDirectory

/-- Give a path the contents `data`, as it stands and without care for what was there. -/
def put (path : String) (data : Bytes) : DiskAction Unit := do
  createParent path
  let file ← create path
  writeAt file 0 data

/-- Make a directory and those around it. -/
def makeDirectory (path : String) : DiskAction Unit := do
  createParent path
  createDirectory (Route.ofPath path).trimmed

/-- Cut a file to a length, or fill it up with zeros. -/
def truncate (path : String) (length : Nat) : DiskAction Unit := do
  begin
  match ← resolve path with
  | some (.file number) =>
    modify fun d =>
      let bytes := d.contents number
      d.setContents number (bytes.take length ++ List.replicate (length - bytes.length) 0)
  | some .directory => throw IoKind.isADirectory.error
  | some .fullDevice => throw IoKind.invalidInput.error
  | none => throw IoKind.notFound.error

/-- Open for reading what a path names. -/
def openToRead (path : String) : DiskAction Entry := do
  begin
  match ← resolve path with
  | none => throw IoKind.notFound.error
  | some entry => return entry

/-- The contents of what was opened.  A directory can be opened but has none, and a device has no end. -/
def readOpened (entry : Entry) : DiskAction Bytes := do
  match entry with
  | .directory => throw IoKind.isADirectory.error
  | .fullDevice => throw IoKind.other.error
  | .file number =>
    let fault ← nextFault
    let d ← get
    let script := match fault with
      | some fault => [Delivery.portion fault.written, .failed fault.error.kind]
      | none => []
    match (readGrowing Source.stream ⟨d.contents number, script⟩).1 with
    | .ok bytes => return bytes
    | .error kind => throw kind.error

/-- Do something and hand on its failure as a value. -/
def attempt {α : Type} (action : DiskAction α) : DiskAction (Except IoError α) := fun d =>
  let (result, d) := action d
  (.ok result, d)

end Disk

end JsonSidecar
