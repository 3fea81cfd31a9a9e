/-
Module: JsonSidecar.Element
Purpose: The scalar kinds whose arrays can leave the text.  Each has a tag by which a descriptor names it
  and a fixed size in bytes, little-endian.
Main exports: Element, Element.tag, Element.ofTag?, Element.size, Element.write, Element.read,
  Datum.rangeValue?, NumericRange, NumericRange.of
-/
import JsonSidecar.Scalar

namespace JsonSidecar

/-- The element types of arrays outside the text. -/
inductive Element where
  | float64
  | float32
  | uint8
  | uint16
  | uint32
  | uint64
  | int8
  | int16
  | int32
  | int64
  | bool
  | complex64
deriving DecidableEq, Repr

namespace Element

/-- All element types. -/
def all : List Element :=
  [.float64, .float32, .uint8, .uint16, .uint32, .uint64, .int8, .int16, .int32, .int64, .bool,
    .complex64]

/-- The name of an element type in a descriptor. -/
def tag : Element → String
  | .float64 => "float64"
  | .float32 => "float32"
  | .uint8 => "uint8"
  | .uint16 => "uint16"
  | .uint32 => "uint32"
  | .uint64 => "uint64"
  | .int8 => "int8"
  | .int16 => "int16"
  | .int32 => "int32"
  | .int64 => "int64"
  | .bool => "bool"
  | .complex64 => "complex64"

/-- The element type with a given tag. -/
def ofTag? (tag : Bytes) : Option Element := all.find? fun e => ascii e.tag == tag

/-- The scalar kind of the elements. -/
def scalar : Element → Scalar
  | .float64 => .double
  | .float32 => .single
  | .uint8 => .int ⟨false, .w8⟩
  | .uint16 => .int ⟨false, .w16⟩
  | .uint32 => .int ⟨false, .w32⟩
  | .uint64 => .int ⟨false, .w64⟩
  | .int8 => .int ⟨true, .w8⟩
  | .int16 => .int ⟨true, .w16⟩
  | .int32 => .int ⟨true, .w32⟩
  | .int64 => .int ⟨true, .w64⟩
  | .bool => .bool
  | .complex64 => .complex

/-- The size of one element in bytes. -/
def size : Element → Nat
  | .uint8 | .int8 | .bool => 1
  | .uint16 | .int16 => 2
  | .float32 | .uint32 | .int32 => 4
  | .float64 | .uint64 | .int64 => 8
  | .complex64 => 16

/-- The bytes of one element.  Negative integers are written in two's complement. -/
def write (e : Element) : Datum → Bytes
  | .bool b => [if b then 1 else 0]
  | .int n => littleEndian e.size (n % 2 ^ (8 * e.size)).toNat
  | .double bits => littleEndian 8 bits.toNat
  | .single bits => littleEndian 4 bits.toNat
  | .complex re im => littleEndian 8 re.toNat ++ littleEndian 8 im.toNat

/-- The bytes of an array. -/
def writeAll (e : Element) (data : List Datum) : Bytes := data.flatMap e.write

/-- The integer whose bytes in two's complement are given. -/
def readInt (signed : Bool) (bytes : Bytes) : Int :=
  let n := ofLittleEndian bytes
  if signed && 2 ^ (8 * bytes.length) ≤ 2 * n then (n : Int) - 2 ^ (8 * bytes.length) else n

/-- One element from its bytes.  Every byte but zero is true. -/
def read (e : Element) (bytes : Bytes) : Datum :=
  match e.scalar with
  | .bool => .bool (bytes != [0])
  | .int k => .int (readInt k.signed bytes)
  | .double => .double (UInt64.ofNat (ofLittleEndian bytes))
  | .single => .single (UInt32.ofNat (ofLittleEndian bytes))
  | .complex =>
    .complex (UInt64.ofNat (ofLittleEndian (bytes.take 8)))
      (UInt64.ofNat (ofLittleEndian (bytes.drop 8)))

/-- The elements whose bytes stand one after another; bytes that make no whole element are left out. -/
def readAll (e : Element) (bytes : Bytes) : List Datum :=
  (chunks e.size (bytes.length / e.size) bytes).map e.read

end Element

/-- The element type of a scalar kind; integers of native width have none. -/
def Scalar.element? : Scalar → Option Element
  | .bool => some .bool
  | .double => some .float64
  | .single => some .float32
  | .complex => some .complex64
  | .int ⟨false, .w8⟩ => some .uint8
  | .int ⟨false, .w16⟩ => some .uint16
  | .int ⟨false, .w32⟩ => some .uint32
  | .int ⟨false, .w64⟩ => some .uint64
  | .int ⟨true, .w8⟩ => some .int8
  | .int ⟨true, .w16⟩ => some .int16
  | .int ⟨true, .w32⟩ => some .int32
  | .int ⟨true, .w64⟩ => some .int64
  | .int ⟨_, .native⟩ => none

/-- The value in double precision by which an element counts for the range of its array, if it is finite
    and of an ordered type. -/
def Datum.rangeValue? : Datum → Option UInt64
  | .bool b => some (UInt64.ofNat (FloatFormat.double.ofInt (if b then 1 else 0)))
  | .int n => some (UInt64.ofNat (FloatFormat.double.ofInt n))
  | .double bits => if FloatFormat.double.isFinite bits.toNat then some bits else none
  | .single bits =>
    if FloatFormat.single.isFinite bits.toNat then
      some (UInt64.ofNat (FloatFormat.widen bits.toNat))
    else none
  | .complex .. => none

/-- A least and a greatest value, in double precision. -/
structure NumericRange where
  min : UInt64
  max : UInt64
deriving DecidableEq, Repr, Inhabited

namespace NumericRange

/-- The range of an array without finite elements. -/
def zero : NumericRange := ⟨0, 0⟩

/-- Where a value stands in the order of numbers. -/
def order (bits : UInt64) : Int := FloatFormat.double.order bits.toNat

/-- Widen a range to a value.  A value that equals a bound leaves the bound as it is. -/
def add (range : NumericRange) (value : UInt64) : NumericRange :=
  ⟨if order value < order range.min then value else range.min,
    if order range.max < order value then value else range.max⟩

/-- The range of some values. -/
def ofValues : List UInt64 → NumericRange
  | [] => zero
  | first :: rest => rest.foldl add ⟨first, first⟩

/-- The range of the finite elements of an array. -/
def of (data : List Datum) : NumericRange := ofValues (data.filterMap Datum.rangeValue?)

/-- The text of a range. -/
def text (range : NumericRange) : Bytes :=
  objectText [(ascii "min", doubleText range.min), (ascii "max", doubleText range.max)]

/-- The greatest length of the text of a range. -/
def lengthBound : Nat := 2 + (3 + 4 + doubleLengthBound) + (3 + 4 + doubleLengthBound)

end NumericRange

end JsonSidecar
