/-
Module: JsonSidecar.Decode.Typed
Purpose: Readers of all types.  A record type that contains itself has no bound on its depth, so reading
  one is bounded by the bytes ahead: a record takes at least one of them before its fields begin.
Main exports: Ty.readWith, readRecord, Ty.read, decode
-/
import JsonSidecar.Decode.Array
import JsonSidecar.Entries

namespace JsonSidecar

open Reader

variable {S : Type}

/-- One value kept as text, without the white space around it. -/
def readJson (store : Option BlobView) : Reader Val := do
  Scan.skipSpace
  let start ← Scan.here
  passValue Ty.jsonName
  let stop ← Scan.here
  return .json (start.span stop) store.isSome

/-- The entries of a map. -/
def readEntries (expected : String) (value : Reader Val) : Reader Val := do
  let members ← object expected fun key =>
    if Utf8.isValid key then value else fail expected .invalidKey
  return .map (Entries.ofList members)

/-- A record from the readers of its fields.  Members under other keys are passed over, and a field
    without a member has its default. -/
def readFields (expected : String) (fields : List (Field S)) (field : Field S → Reader Val) :
    Reader Val := do
  let members ← object expected fun key =>
    orSkip expected ((fields.find? fun f => f.key = key).map field)
  return .record (fields.map fun f => (lastOf f.key members).getD f.default)

/-- Read a value of a type, with a reader for the records in it. -/
def Ty.readWith (schema : Schema S) (store : Option BlobView) (record : S → Reader Val) :
    Ty S → Reader Val
  | .scalar k => .scalar <$> readScalar k
  | .string => .text <$> readString
  | .bytes => .text <$> stringBytes Ty.bytesName
  | .json => readJson store
  | .range => .range <$> readRange
  | .descriptor => .descriptor <$> readDescriptor
  | .list (.scalar k) =>
    .array <$>
      match k.element? with
      | some e => readArray store e
      | none => inlineList (Ty.listName k.name) (readScalar k)
  | .list (.vector e) => (fun rows => .list (rows.map .array)) <$> readRows store e
  | .list item => .list <$> inlineList (Ty.name schema (.list item)) (item.readWith schema store record)
  | .option content => do
    if ← word Word.null then return .none
    .some <$> content.readWith schema store record
  | .boxed content => .referred <$> content.readWith schema store record
  | .shared content => .referred <$> content.readWith schema store record
  | .sortedMap value =>
    readEntries (Ty.name schema (.sortedMap value)) (value.readWith schema store record)
  | .hashMap value =>
    readEntries (Ty.name schema (.hashMap value)) (value.readWith schema store record)
  | .pair first second => do
    let expected := Ty.name schema (.pair first second)
    expect expected Byte.openBracket .expectedBracket
    let a ← first.readWith schema store record
    expect expected Byte.comma .expectedComma
    let b ← second.readWith schema store record
    expect expected Byte.closeBracket .expectedClosingBracket
    return .pair a b
  | .vector e => .array <$> readArray store e
  | .matrix e => (fun m => .matrix m.1 m.2.1 m.2.2) <$> readMatrix store e
  | .record s => record s

/-- Read a record in which fewer than `bound` records lie inside each other.  With no bytes ahead there
    is no record to read, which is all that a bound of zero has to answer. -/
def readRecord (schema : Schema S) (store : Option BlobView) : Nat → S → Reader Val
  | 0, s => fun c => fail (schema s).name .expectedBrace c.skipSpace
  | bound + 1, s =>
    readFields (schema s).name (schema s).fields fun f =>
      f.type.readWith schema store (readRecord schema store bound)

/-- Read a value of a type. -/
def Ty.read (schema : Schema S) (store : Option BlobView) (t : Ty S) : Reader Val := fun c =>
  t.readWith schema store (readRecord schema store c.rest.length) c

/-- Read a value of a type from a text that holds nothing else. -/
def decode (schema : Schema S) (store : Option BlobView) (t : Ty S) (text : Bytes) :
    Except DecodeError Val :=
  let whole : Reader Val := do
    let v ← t.read schema store
    finish (t.name schema)
    return v
  match whole (Cursor.start text) with
  | .ok v _ => .ok v
  | .fail failure _ => .error (failure.inText text)

end JsonSidecar
