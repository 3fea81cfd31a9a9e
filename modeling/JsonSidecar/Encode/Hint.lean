/-
Module: JsonSidecar.Encode.Hint
Purpose: How much room an encoding can take at most, computed from a value without writing it.  The
  bound follows the same decisions on placement as the encoding itself.
Main exports: Val.lengthBound
-/
import JsonSidecar.Encode.Segment

namespace JsonSidecar

/-- The bound for an array in the text from the bounds for its items: brackets, and a comma for each. -/
def listBound (items : List Nat) : Nat := 2 + (items.map (· + 1)).sum

/-- The bound for scalars of one kind as an array in the text. -/
def dataBound (kind : Scalar) (data : List Datum) : Nat :=
  listBound (data.map fun _ => kind.lengthBound)

/-- The bound for an array that may be stored. -/
def arrayBound (p : Placement) (rank count inline : Nat) : Nat :=
  if p.stores count then Descriptor.lengthBound rank else inline

/-- The bound for an array in one dimension. -/
def vectorBound (p : Placement) (element : Element) (data : List Datum) : Nat :=
  arrayBound p 1 data.length (dataBound element.scalar data)

/-- The bound for a matrix. -/
def matrixBound (p : Placement) (element : Element) (rows cols : Nat) (data : List Datum) : Nat :=
  arrayBound p 2 data.length
    (listBound ((matrixRows rows cols data).map (dataBound element.scalar)))

/-- The bound for a list of rows. -/
def rowsBound (p : Placement) (element : Element) (rows : List (List Datum)) : Nat :=
  match packs? p rows with
  | some _ => Descriptor.lengthBound 2
  | none => listBound (rows.map (vectorBound p element))

namespace Val

variable {S : Type} (schema : Schema S) (p : Placement)

mutual

/-- The greatest length of the text of a value of a type. -/
def lengthBound : Ty S → Val → Nat
  | .scalar k, .scalar _ => k.lengthBound
  | .string, .text bytes => Quoted.encodedLength bytes
  | .bytes, .text bytes => Quoted.encodedLength bytes
  | .json, .json raw _ => if raw.isEmpty then 4 else raw.length
  | .range, .range _ => NumericRange.lengthBound
  | .descriptor, .descriptor d => Descriptor.lengthBound d.shape.length
  | .list (.scalar k), .array data =>
    match k.element? with
    | .some e => vectorBound p e data
    | .none => dataBound k data
  | .list (.vector e), .list items => rowsBound p e (items.map Val.data)
  | .list item, .list items => listBound (itemBounds item items)
  | .option _, .none => 4
  | .option content, .some v => lengthBound content v
  | .boxed content, .referred v => lengthBound content v
  | .shared content, .referred v => lengthBound content v
  | .sortedMap value, .map entries => 2 + entriesBound value entries
  | .hashMap value, .map entries => 2 + entriesBound value entries
  | .pair first second, .pair a b => 3 + lengthBound first a + lengthBound second b
  | .vector e, .array data => vectorBound p e data
  | .matrix e, .matrix rows cols data => matrixBound p e rows cols data
  | .record s, .record fields => 2 + fieldsBound (schema s).fields fields
  | _, _ => 0

/-- The bounds for each item of a list. -/
def itemBounds (item : Ty S) : List Val → List Nat
  | [] => []
  | v :: rest => lengthBound item v :: itemBounds item rest

/-- The bound for the entries of a map: a colon and a comma for each besides the key and the value. -/
def entriesBound (value : Ty S) : List (Bytes × Val) → Nat
  | [] => 0
  | (key, v) :: rest => Quoted.encodedLength key + 2 + lengthBound value v + entriesBound value rest

/-- The bound for the fields of a record: quotes, a colon and a comma for each besides the key and the
    value. -/
def fieldsBound : List (Field S) → List Val → Nat
  | f :: fields, v :: values =>
    f.key.length + 4 + lengthBound f.type v + fieldsBound fields values
  | _, _ => 0

end

end Val

end JsonSidecar
