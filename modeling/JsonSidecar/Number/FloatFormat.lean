/-
Module: JsonSidecar.Number.FloatFormat
Purpose: Binary floating-point numbers as bit patterns.  Every finite value of a format is a whole
  number of units, the unit being its least positive value; so values compare, round and print by
  arithmetic on natural numbers alone.  Counted in units, consecutive bit patterns are consecutive
  values, which makes rounding a division: the exponent field is where the fraction overflows to.
Main exports: FloatFormat, FloatFormat.double, FloatFormat.single, FloatFormat.classify,
  FloatFormat.nearest, divNearest, FloatFormat.order
-/
import JsonSidecar.Bytes

namespace JsonSidecar

/-- An interchange format: the stored fraction bits, the exponent bits, and how many significant
    decimal digits tell any two of its values apart. -/
structure FloatFormat where
  fractionBits : Nat
  exponentBits : Nat
  decimalDigits : Nat
deriving DecidableEq, Repr

/-- What a bit pattern stands for; a finite value is given in units. -/
inductive FloatClass where
  | nan
  | infinite (negative : Bool)
  | finite (negative : Bool) (units : Nat)
deriving DecidableEq, Repr

/-- The whole number nearest to a quotient; halfway between two, the even one. -/
def divNearest (num den : Nat) : Nat :=
  let quotient := num / den
  let twice := 2 * (num % den)
  if twice < den then quotient
  else if den < twice then quotient + 1
  else quotient + quotient % 2

namespace FloatFormat

/-- Double precision. -/
def double : FloatFormat := ⟨52, 11, 17⟩

/-- Single precision. -/
def single : FloatFormat := ⟨23, 8, 9⟩

variable (f : FloatFormat)

/-- The unit, the least positive value, is two to the power of minus this. -/
def unitExponent : Nat := 2 ^ (f.exponentBits - 1) - 2 + f.fractionBits

/-- The bit that holds the sign. -/
def signBit : Nat := 2 ^ (f.fractionBits + f.exponentBits)

/-- The bit pattern of positive infinity; smaller patterns are finite and larger ones are no numbers. -/
def infinityBits : Nat := (2 ^ f.exponentBits - 1) * 2 ^ f.fractionBits

/-- The bit pattern that stands for a result that is no number. -/
def nanBits : Nat := f.infinityBits + 2 ^ (f.fractionBits - 1)

/-- The bit pattern without its sign. -/
def magnitude (bits : Nat) : Nat := bits % f.signBit

/-- Whether the sign bit is set. -/
def isNegative (bits : Nat) : Bool := f.signBit ≤ bits

/-- The units in the value of a finite pattern without sign.  Below the first power of two the
    fraction counts units; from there on each step of the exponent doubles what a fraction counts. -/
def units (magnitude : Nat) : Nat :=
  let exponent := magnitude / 2 ^ f.fractionBits
  let fraction := magnitude % 2 ^ f.fractionBits
  if exponent = 0 then fraction else (2 ^ f.fractionBits + fraction) * 2 ^ (exponent - 1)

/-- Read a bit pattern. -/
def classify (bits : Nat) : FloatClass :=
  if f.infinityBits < f.magnitude bits then .nan
  else if f.magnitude bits = f.infinityBits then .infinite (f.isNegative bits)
  else .finite (f.isNegative bits) (f.units (f.magnitude bits))

/-- Whether a bit pattern stands for a finite number. -/
def isFinite (bits : Nat) : Bool := f.magnitude bits < f.infinityBits

/-- Whether a bit pattern stands for no number. -/
def isNan (bits : Nat) : Bool := f.infinityBits < f.magnitude bits

/-- The pattern, without sign, of the value nearest to a quotient; halfway between two, the one with
    an even pattern, and infinity beyond the finite values. -/
def nearest (num den : Nat) : Nat :=
  let scaled := num * 2 ^ f.unitExponent
  let exponent := (scaled / den).log2 - f.fractionBits
  min (exponent * 2 ^ f.fractionBits + divNearest scaled (den * 2 ^ exponent)) f.infinityBits

/-- Give a pattern its sign. -/
def withSign (negative : Bool) (magnitude : Nat) : Nat :=
  if negative then f.signBit + magnitude else magnitude

/-- The pattern nearest to an integer. -/
def ofInt (n : Int) : Nat := f.withSign (n < 0) (f.nearest n.natAbs 1)

/-- A number that orders the values that are numbers: the two zeros count alike. -/
def order (bits : Nat) : Int :=
  if f.isNegative bits then -(f.magnitude bits : Int) else f.magnitude bits

/-- The pattern of a single-precision value in double precision, which holds it exactly. -/
def widen (bits : Nat) : Nat :=
  match single.classify bits with
  | .nan => double.nanBits
  | .infinite negative => double.withSign negative double.infinityBits
  | .finite negative units => double.withSign negative (double.nearest units (2 ^ single.unitExponent))

end FloatFormat

end JsonSidecar
