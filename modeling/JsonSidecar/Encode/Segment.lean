/-
Module: JsonSidecar.Encode.Segment
Purpose: The encoding of a value before its arrays are stored.  A value becomes a list of segments, each a
  piece of text or an array that is to leave the text.  What leaves the text depends on the placement
  alone and not on the store, so storing the arrays is a pass of its own.
Main exports: Placement, Placement.stores, StoredArray, Segment, Val.segments
-/
import JsonSidecar.Entries
import JsonSidecar.Lexer.Quoted
import JsonSidecar.Type

namespace JsonSidecar

/-- Where arrays go: into a store if one is attached and they have at least `threshold` elements. -/
structure Placement where
  attached : Bool
  threshold : Nat
deriving DecidableEq, Repr

/-- Whether an array of `count` elements goes into the store. -/
def Placement.stores (p : Placement) (count : Nat) : Bool := p.attached && p.threshold ≤ count

/-- Everything stays in the text. -/
def Placement.inline : Placement := ⟨false, 0⟩

/-- An array that leaves the text. -/
structure StoredArray where
  element : Element
  shape : List Nat
  data : List Datum
deriving DecidableEq, Repr

namespace StoredArray

/-- The contents of its chunk. -/
def bytes (a : StoredArray) : Bytes := a.element.writeAll a.data

/-- Its descriptor, once the chunk has a place. -/
def descriptor (a : StoredArray) (offset : Nat) : Descriptor :=
  ⟨a.element, a.shape, offset, a.bytes.length, NumericRange.of a.data⟩

end StoredArray

/-- A piece of an encoding. -/
inductive Segment where
  | text (bytes : Bytes)
  | array (array : StoredArray)
deriving DecidableEq, Repr

/-- Scalars as an array in the text. -/
def dataText (data : List Datum) : Bytes := arrayText (data.map Datum.text)

/-- An array of the given shape, stored or written as `inline`. -/
def arraySegments (p : Placement) (element : Element) (shape : List Nat) (data : List Datum)
    (inline : Bytes) : List Segment :=
  if p.stores data.length then [.array ⟨element, shape, data⟩] else [.text inline]

/-- An array in one dimension. -/
def vectorSegments (p : Placement) (element : Element) (data : List Datum) : List Segment :=
  arraySegments p element [data.length] data (dataText data)

/-- The rows of a matrix. -/
def matrixRows (rows cols : Nat) (data : List Datum) : List (List Datum) := chunks cols rows data

/-- A matrix, whose rows make the array in the text. -/
def matrixSegments (p : Placement) (element : Element) (rows cols : Nat) (data : List Datum) :
    List Segment :=
  arraySegments p element [rows, cols] data (arrayText ((matrixRows rows cols data).map dataText))

/-- The common length of some rows, if they have one and it is not zero. -/
def packedLength? (rows : List (List Datum)) : Option Nat :=
  let length := (rows.headD []).length
  if 0 < length && rows.all fun row => row.length = length then some length else none

/-- Whether some rows go into the store as one array, and with which length. -/
def packs? (p : Placement) (rows : List (List Datum)) : Option Nat :=
  (packedLength? rows).filter fun length => p.stores (rows.length * length)

/-- Segments with commas between them. -/
def separatedSegments : List (List Segment) → List Segment
  | [] => []
  | [part] => part
  | part :: rest => part ++ .text [Byte.comma] :: separatedSegments rest

/-- Segments between an opening and a closing byte. -/
def enclosed (opening closing : UInt8) (parts : List (List Segment)) : List Segment :=
  .text [opening] :: (separatedSegments parts ++ [.text [closing]])

/-- A list of rows, packed into one array or row by row. -/
def rowsSegments (p : Placement) (element : Element) (rows : List (List Datum)) : List Segment :=
  match packs? p rows with
  | some length => [.array ⟨element, [rows.length, length], rows.flatten⟩]
  | none => enclosed Byte.openBracket Byte.closeBracket (rows.map (vectorSegments p element))

namespace Val

variable {S : Type} (schema : Schema S) (p : Placement)

mutual

/-- The segments of a value of a type.  A value that is not of the type has none. -/
def segments : Ty S → Val → List Segment
  | .scalar _, .scalar d => [.text d.text]
  | .string, .text bytes => [.text (Quoted.encode bytes)]
  | .bytes, .text bytes => [.text (Quoted.encode bytes)]
  | .json, .json raw _ => [.text (if raw.isEmpty then Word.null else raw)]
  | .range, .range r => [.text r.text]
  | .descriptor, .descriptor d => [.text d.text]
  | .list (.scalar k), .array data =>
    match k.element? with
    | .some e => vectorSegments p e data
    | .none => [.text (dataText data)]
  | .list (.vector e), .list items => rowsSegments p e (items.map Val.data)
  | .list item, .list items => enclosed Byte.openBracket Byte.closeBracket (itemSegments item items)
  | .option _, .none => [.text Word.null]
  | .option content, .some v => segments content v
  | .boxed content, .referred v => segments content v
  | .shared content, .referred v => segments content v
  | .sortedMap value, .map entries =>
    enclosed Byte.openBrace Byte.closeBrace (entrySegments value entries)
  | .hashMap value, .map entries =>
    -- A hash table gives its entries in any order, so they are sorted by their keys.
    enclosed Byte.openBrace Byte.closeBrace
      (Entries.inOrder (entries.map Prod.fst) (entrySegments value entries))
  | .pair first second, .pair a b =>
    enclosed Byte.openBracket Byte.closeBracket [segments first a, segments second b]
  | .vector e, .array data => vectorSegments p e data
  | .matrix e, .matrix rows cols data => matrixSegments p e rows cols data
  | .record s, .record fields =>
    enclosed Byte.openBrace Byte.closeBrace (fieldSegments (schema s).fields fields)
  | _, _ => []

/-- The segments of each item of a list. -/
def itemSegments (item : Ty S) : List Val → List (List Segment)
  | [] => []
  | v :: rest => segments item v :: itemSegments item rest

/-- The segments of each entry of a map. -/
def entrySegments (value : Ty S) : List (Bytes × Val) → List (List Segment)
  | [] => []
  | (key, v) :: rest =>
    (.text (Quoted.encode key ++ [Byte.colon]) :: segments value v) :: entrySegments value rest

/-- The segments of each field of a record. -/
def fieldSegments : List (Field S) → List Val → List (List Segment)
  | f :: fields, v :: values =>
    (.text (keyText f.key) :: segments f.type v) :: fieldSegments fields values
  | _, _ => []

end

end Val

end JsonSidecar
