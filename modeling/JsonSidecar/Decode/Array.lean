/-
Module: JsonSidecar.Decode.Array
Purpose: Readers of descriptors and of the arrays behind them.  Everything a descriptor claims is checked
  before the store is read, so no text can ask for more bytes than the store has.
Main exports: readDescriptor, readStored, readArray, readRows, readMatrix
-/
import JsonSidecar.Blob.Store
import JsonSidecar.Decode.Scalar

namespace JsonSidecar

open Reader

/-- The kind of integers that count elements and bytes. -/
def sizeKind : IntKind := ⟨false, .native⟩

/-- The kind of integers that give places in a store. -/
def offsetKind : IntKind := ⟨false, .w64⟩

/-- One member of a descriptor. -/
inductive DescriptorMember where
  | element (element : Element)
  | shape (shape : List Nat)
  | offset (offset : Nat)
  | byteLength (byteLength : Nat)
  | range (range : NumericRange)
  | unknown
deriving DecidableEq, Repr

namespace DescriptorMember

/-- The element type, if the member gives it. -/
def element? : DescriptorMember → Option Element
  | .element e => some e
  | _ => none

/-- The shape, if the member gives it. -/
def shape? : DescriptorMember → Option (List Nat)
  | .shape s => some s
  | _ => none

/-- The offset, if the member gives it. -/
def offset? : DescriptorMember → Option Nat
  | .offset n => some n
  | _ => none

/-- The length in bytes, if the member gives it. -/
def byteLength? : DescriptorMember → Option Nat
  | .byteLength n => some n
  | _ => none

/-- The range of the elements, if the member gives it. -/
def range? : DescriptorMember → Option NumericRange
  | .range r => some r
  | _ => none

end DescriptorMember

/-- The name by which failures inside a descriptor report it. -/
def descriptorName : String := "ndarray descriptor"

/-- The tag of an element type.  An unknown one is reported behind its literal. -/
def readElement : Reader Element := do
  let tag ← stringBytes descriptorName
  match Element.ofTag? tag with
  | some e => return e
  | none => fail descriptorName (.unknownElement tag)

/-- The value of the member of a descriptor with a given key. -/
def readDescriptorMember (key : Bytes) : Reader DescriptorMember :=
  if key = ascii "dtype" then .element <$> readElement
  else if key = ascii "shape" then
    (fun dims => .shape (dims.map Int.toNat))
      <$> inlineList (Ty.listName sizeKind.name) (readInt sizeKind)
  else if key = ascii "offset" then (fun n => .offset n.toNat) <$> readInt offsetKind
  else if key = ascii "byteLength" then (fun n => .byteLength n.toNat) <$> readInt offsetKind
  else if key = ascii "range" then
    .range <$> readRange
  else do
    passValue descriptorName
    return .unknown

/-- The descriptor that some members make, each given by the last member of its kind.  The range may be
    missing. -/
def Descriptor.ofMembers? (members : List DescriptorMember) : Option Descriptor := do
  let element ← (members.filterMap DescriptorMember.element?).getLast?
  let shape ← (members.filterMap DescriptorMember.shape?).getLast?
  let offset ← (members.filterMap DescriptorMember.offset?).getLast?
  let byteLength ← (members.filterMap DescriptorMember.byteLength?).getLast?
  let range := ((members.filterMap DescriptorMember.range?).getLast?).getD NumericRange.zero
  return ⟨element, shape, offset, byteLength, range⟩

/-- A descriptor. -/
def readDescriptor : Reader Descriptor := do
  Scan.skipSpace
  let start ← Scan.here
  let members ← object descriptorName readDescriptorMember
  match Descriptor.ofMembers? (members.map Prod.snd) with
  | some d => return d
  | none => failAt descriptorName .incompleteDescriptor start.pos

/-- The bytes that a descriptor points at, if it describes an array of the wanted element type and number
    of dimensions and the store has these bytes. -/
def BlobView.fetch (view : BlobView) (element : Element) (rank : Nat) (d : Descriptor) :
    Except Reason Bytes :=
  if d.element ≠ element then .error (.elementMismatch d.element element)
  else if d.shape.length ≠ rank then .error (.rankMismatch d.shape.length rank)
  else if d.expectedByteLength? ≠ some d.byteLength then
    .error (.lengthMismatch d.byteLength d.shape d.element)
  else if d.byteLength = 0 then .ok []
  else if view.reserved < d.offset + d.byteLength then
    .error (.outsideStore d.offset d.byteLength)
  else (view.read d.offset d.byteLength).mapError .unreadable

/-- An array behind a descriptor: its shape and its elements.  Whatever is wrong with the descriptor is
    reported where it begins. -/
def readStored (store : Option BlobView) (element : Element) (expected : String) (rank : Nat) :
    Reader (List Nat × List Datum) := do
  Scan.skipSpace
  let start ← Scan.here
  match store with
  | none => fail expected .noStore
  | some view =>
    let d ← readDescriptor
    match view.fetch element rank d with
    | .ok bytes => return (d.shape, element.readAll bytes)
    | .error reason => failAt expected reason start.pos

/-- An array in one dimension, written in the text or behind a descriptor. -/
def readArray (store : Option BlobView) (element : Element) : Reader (List Datum) := do
  let expected := Ty.listName element.name
  let next ← peek
  if next = some Byte.openBracket then inlineList expected (readScalar element.scalar)
  else if next = some Byte.openBrace then Prod.snd <$> readStored store element expected 1
  else fail expected .expectedBracketOrBrace

/-- A list of arrays in one dimension, written in the text or packed behind one descriptor.  Packed rows
    have elements. -/
def readRows (store : Option BlobView) (element : Element) : Reader (List (List Datum)) := do
  let expected := Ty.listName (Ty.arrayName element 1)
  let next ← peek
  let start ← Scan.here
  if next = some Byte.openBrace then
    let (shape, data) ← readStored store element expected 2
    let rows := shape.headD 0
    let cols := (shape.drop 1).headD 0
    if cols = 0 then
      if rows = 0 then return [] else failAt expected .zeroWidthRows start.pos
    else return chunks cols (data.length / cols) data
  else inlineList expected (readArray store element)

/-- Whether a matrix of the given size can be addressed: the product of its sizes, zeros left out, is at
    most the greatest signed address. -/
def addressable (rows cols : Nat) : Bool :=
  (if rows = 0 then 1 else rows) * (if cols = 0 then 1 else cols) < 2 ^ 63

/-- A matrix: its numbers of rows and columns and its elements row by row. -/
def readMatrix (store : Option BlobView) (element : Element) :
    Reader (Nat × Nat × List Datum) := do
  let expected := Ty.arrayName element 2
  let next ← peek
  let start ← Scan.here
  let (rows, cols, data) ← if next = some Byte.openBrace then do
      let (shape, data) ← readStored store element expected 2
      pure (shape.headD 0, (shape.drop 1).headD 0, data)
    else do
      let rows ← inlineList (Ty.listName (Ty.listName element.name)) (readArray store element)
      let cols := (rows.headD []).length
      if rows.all fun row => row.length = cols then
        pure (rows.length, cols, rows.flatten)
      else failAt expected .unequalRows start.pos
  if addressable rows cols then return (rows, cols, data)
  failAt expected .shapeOverflow start.pos

end JsonSidecar
