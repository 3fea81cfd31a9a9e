/-
Module: JsonSidecar.Scalar
Purpose: The scalar kinds and their values: truth values, integers of ten kinds, numbers in single and
  double precision, and complex numbers.  Floating-point values are kept as bit patterns, so that equal
  means bit for bit.
Main exports: Width, IntKind, Scalar, Datum, Datum.text, Scalar.lengthBound, Scalar.holds
-/
import JsonSidecar.Number.FloatText
import JsonSidecar.Text.Compose

namespace JsonSidecar

/-- The widths of integers; the native one is that of an address, which is 64 bits. -/
inductive Width where
  | w8
  | w16
  | w32
  | w64
  | native
deriving DecidableEq, Repr

namespace Width

/-- The number of bits; the native width is that of a 64-bit machine. -/
def bits : Width → Nat
  | .w8 => 8
  | .w16 => 16
  | .w32 => 32
  | .w64 => 64
  | .native => 64

/-- The part of a type name that tells the width. -/
def name : Width → String
  | .w8 => "8"
  | .w16 => "16"
  | .w32 => "32"
  | .w64 => "64"
  | .native => "size"

end Width

/-- A kind of integer. -/
structure IntKind where
  signed : Bool
  width : Width
deriving DecidableEq, Repr

namespace IntKind

/-- The name of the integer type. -/
def name (k : IntKind) : String := (if k.signed then "i" else "u") ++ k.width.name

/-- The least integer of the kind. -/
def least (k : IntKind) : Int := if k.signed then -(2 ^ (k.width.bits - 1)) else 0

/-- The greatest integer of the kind. -/
def greatest (k : IntKind) : Int :=
  if k.signed then 2 ^ (k.width.bits - 1) - 1 else 2 ^ k.width.bits - 1

/-- Whether an integer is of the kind. -/
def contains (k : IntKind) (n : Int) : Bool := k.least ≤ n && n ≤ k.greatest

end IntKind

/-- The kinds of scalars. -/
inductive Scalar where
  | bool
  | int (kind : IntKind)
  | double
  | single
  | complex
deriving DecidableEq, Repr

/-- A scalar value; floating-point parts are bit patterns. -/
inductive Datum where
  | bool (b : Bool)
  | int (n : Int)
  | double (bits : UInt64)
  | single (bits : UInt32)
  | complex (re im : UInt64)
deriving DecidableEq, Repr, Inhabited

/-- The text of a number in double precision. -/
def doubleText (bits : UInt64) : Bytes := FloatFormat.double.text bits.toNat

/-- The text of a number in single precision. -/
def singleText (bits : UInt32) : Bytes := FloatFormat.single.text bits.toNat

/-- The text of a scalar value. -/
def Datum.text : Datum → Bytes
  | .bool b => if b then Word.true else Word.false
  | .int n => Decimal.intText n
  | .double bits => doubleText bits
  | .single bits => singleText bits
  | .complex re im => objectText [(ascii "real", doubleText re), (ascii "imag", doubleText im)]

/-- The greatest length of a number in double precision. -/
def doubleLengthBound : Nat := 25

/-- The greatest length of an integer of up to 64 bits. -/
def longIntLengthBound : Nat := 20

namespace Scalar

/-- The greatest length of the text of a scalar of the kind. -/
def lengthBound : Scalar → Nat
  | .bool => 5
  | .int k => if k.width.bits ≤ 32 then 12 else longIntLengthBound
  | .double => doubleLengthBound
  | .single => 20
  | .complex => 17 + 2 * doubleLengthBound

/-- Whether a value is of the kind. -/
def holds : Scalar → Datum → Bool
  | .bool, .bool _ => true
  | .int k, .int n => k.contains n
  | .double, .double _ => true
  | .single, .single _ => true
  | .complex, .complex .. => true
  | _, _ => false

end Scalar

end JsonSidecar
