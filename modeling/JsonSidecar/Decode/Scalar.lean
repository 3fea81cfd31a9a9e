/-
Module: JsonSidecar.Decode.Scalar
Purpose: Readers of scalars, of strings and of ranges.
Main exports: readInt, readFloat, readScalar, readString, readRange
-/
import JsonSidecar.Decode.Reader
import JsonSidecar.Type

namespace JsonSidecar

open Reader

/-- A truth value. -/
def readBool : Reader Bool := do
  if ← word Word.true then return true
  if ← word Word.false then return false
  Scan.skipSpace
  fail Scalar.bool.name .expectedBool

/-- An integer of a given kind.  A number that is none is reported where it begins. -/
def readInt (k : IntKind) : Reader Int := do
  Scan.skipSpace
  let start ← Scan.here
  let literal ← number k.name
  match (literal.int? k.signed).filter k.contains with
  | some n => return n
  | none => failAt k.name (.notOfKind literal.text k.name) start.pos

/-- The bit pattern of the floating-point number nearest to a literal; `null` is no number. -/
def readFloat (f : FloatFormat) (expected : String) : Reader Nat := do
  if ← word Word.null then return f.nanBits
  let literal ← number expected
  return literal.floatBits f

/-- A number in double precision. -/
def readDouble : Reader UInt64 := UInt64.ofNat <$> readFloat .double Scalar.double.name

/-- A number in single precision. -/
def readSingle : Reader UInt32 := UInt32.ofNat <$> readFloat .single Scalar.single.name

/-- The members of an object that holds numbers in double precision under some keys. -/
def readDoubles (expected : String) (keys : List Bytes) : Reader (List (Bytes × Option UInt64)) :=
  object expected fun key => orSkip expected (if key ∈ keys then some readDouble else none)

/-- A complex number.  A part that is not given is zero. -/
def readComplex : Reader Datum := do
  let members ← readDoubles Scalar.complex.name [ascii "real", ascii "imag"]
  return .complex ((lastOf (ascii "real") members).getD 0) ((lastOf (ascii "imag") members).getD 0)

/-- A scalar of a given kind. -/
def readScalar : Scalar → Reader Datum
  | .bool => .bool <$> readBool
  | .int k => .int <$> readInt k
  | .double => .double <$> readDouble
  | .single => .single <$> readSingle
  | .complex => readComplex

/-- A range.  A bound that is not given is zero. -/
def readRange : Reader NumericRange := do
  let members ← readDoubles Ty.rangeName [ascii "min", ascii "max"]
  return ⟨(lastOf (ascii "min") members).getD 0, (lastOf (ascii "max") members).getD 0⟩

/-- A string of valid UTF-8. -/
def readString : Reader Bytes := do
  Scan.skipSpace
  let start ← Scan.here
  let bytes ← stringBytes Ty.stringName
  if Utf8.isValid bytes then return bytes
  failAt Ty.stringName .invalidString start.pos

end JsonSidecar
