/-
Module: JsonSidecar.Type
Purpose: The types that the codec serves, as data, and the values of these types.  Record types are named
  and their fields are looked up in a schema, so that a record may contain itself.  A list of scalars
  is an array, whatever type of list asked for it.
Main exports: Ty, Val, Field, RecordType, Schema, Ty.name
-/
import JsonSidecar.Descriptor

namespace JsonSidecar

/-- The types of values; `S` names the record types. -/
inductive Ty (S : Type) where
  /-- A scalar. -/
  | scalar (kind : Scalar)
  /-- Text that is valid UTF-8. -/
  | string
  /-- Any bytes, written like text. -/
  | bytes
  /-- One value kept as the text it is written in. -/
  | json
  | range
  | descriptor
  | list (item : Ty S)
  | option (content : Ty S)
  /-- A value behind a reference of its own, which does not show in the text. -/
  | boxed (content : Ty S)
  /-- A value behind a reference that others may hold too, which does not show either. -/
  | shared (content : Ty S)
  | sortedMap (value : Ty S)
  | hashMap (value : Ty S)
  | pair (first second : Ty S)
  /-- A one-dimensional array. -/
  | vector (element : Element)
  /-- A two-dimensional array. -/
  | matrix (element : Element)
  | record (name : S)
deriving Repr

/-- Values.  The entries of a map are sorted by key and no key occurs twice; the elements of a matrix
    stand row by row. -/
inductive Val where
  | scalar (datum : Datum)
  | text (bytes : Bytes)
  /-- A value in its text, and whether a store came with it. -/
  | json (text : Bytes) (attached : Bool)
  | range (range : NumericRange)
  | descriptor (descriptor : Descriptor)
  /-- A list of scalars. -/
  | array (data : List Datum)
  /-- A list of anything else. -/
  | list (items : List Val)
  | matrix (rows cols : Nat) (data : List Datum)
  | none
  | some (content : Val)
  /-- A value behind a reference. -/
  | referred (content : Val)
  | map (entries : List (Bytes × Val))
  | pair (first second : Val)
  | record (fields : List Val)
deriving Repr, Inhabited

/-- A field of a record: its key, its type, and its value where a text does not give one. -/
structure Field (S : Type) where
  key : Bytes
  type : Ty S
  default : Val
deriving Repr

/-- A record type: the name by which failures report it, and its fields in written order. -/
structure RecordType (S : Type) where
  name : String
  fields : List (Field S)
deriving Repr

/-- The record types of a program. -/
abbrev Schema (S : Type) : Type := S → RecordType S

/-- The name by which failures report a kind of scalar. -/
def Scalar.name : Scalar → String
  | .bool => "bool"
  | .int k => k.name
  | .double => "f64"
  | .single => "f32"
  | .complex => "blobjson_core::linalg::Complex64"

/-- The element type of the lists of scalars that are arrays with elements outside the text. -/
def Element.name (e : Element) : String := e.scalar.name

namespace Ty

variable {S : Type}

/-- The name by which failures report an array of a given number of dimensions. -/
def arrayName (element : Element) (rank : Nat) : String :=
  "ndarray::ArrayBase<ndarray::data_repr::OwnedRepr<" ++ element.name
    ++ ">, ndarray::dimension::dim::Dim<[usize; " ++ toString rank ++ "]>>"

/-- The name by which failures report text. -/
def stringName : String := "alloc::string::String"

/-- The name by which failures report bytes written like text. -/
def bytesName : String := "blobjson_core::codec::primitives::ByteString"

/-- The name by which failures report a value kept as text. -/
def jsonName : String := "blobjson_core::value::Value"

/-- The name by which failures report a range. -/
def rangeName : String := "blobjson_core::descriptor::NumericRange"

/-- The name by which failures report a descriptor that was asked for as a value. -/
def descriptorName : String := "blobjson_core::descriptor::NdArrayDescriptor"

/-- The name by which failures report a list, from that of its items. -/
def listName (item : String) : String := "alloc::vec::Vec<" ++ item ++ ">"

/-- The name by which failures report a type. -/
def name (schema : Schema S) : Ty S → String
  | .scalar k => k.name
  | .string => stringName
  | .bytes => bytesName
  | .json => jsonName
  | .range => rangeName
  | .descriptor => descriptorName
  | .list item => listName (item.name schema)
  | .option t => "core::option::Option<" ++ t.name schema ++ ">"
  | .boxed t => "alloc::boxed::Box<" ++ t.name schema ++ ">"
  | .shared t => "alloc::sync::Arc<" ++ t.name schema ++ ">"
  | .sortedMap t =>
    "alloc::collections::btree::map::BTreeMap<alloc::string::String, " ++ t.name schema ++ ">"
  | .hashMap t =>
    "std::collections::hash::map::HashMap<alloc::string::String, " ++ t.name schema ++ ">"
  | .pair a b => "(" ++ a.name schema ++ ", " ++ b.name schema ++ ")"
  | .vector e => arrayName e 1
  | .matrix e => arrayName e 2
  | .record s => (schema s).name

end Ty

namespace Val

/-- The elements of an array. -/
def data : Val → List Datum
  | .array data => data
  | _ => []

end Val

end JsonSidecar
