/-
Module: JsonSidecar.Number.FloatText
Purpose: Floating-point numbers as text, and number literals as numbers.  A finite number is written with
  so many significant digits that reading it back gives the same value.  The patterns that are no finite
  number are written all the same: `null` stands for no number and `1e308` for infinity.
Main exports: FloatFormat.text, NumberLiteral.floatBits, NumberLiteral.int?
-/
import JsonSidecar.Lexer.Number
import JsonSidecar.Lexer.Word
import JsonSidecar.Number.Shortest

namespace JsonSidecar

/-- The text of the number with a given bit pattern.  Both zeros are written alike. -/
def FloatFormat.text (f : FloatFormat) (bits : Nat) : Bytes :=
  match f.classify bits with
  | .nan => Word.null
  | .infinite negative => (if negative then [Byte.minus] else []) ++ ascii "1e308"
  | .finite negative units =>
    if units = 0 then [Byte.zero]
    else
      match (Scientific.ofRatio f.decimalDigits units (2 ^ f.unitExponent)).rendered? with
      | some rendering => Scientific.layoutRendering f.decimalDigits negative rendering
      | none => f.plainText negative units

/-- The pattern, without sign, nearest to the number that a run of digits times a power of ten denotes.
    An exponent far out of the format's reach decides without any arithmetic on large powers. -/
def FloatFormat.ofDecimal (f : FloatFormat) (digits : Bytes) (exponent : Int) : Nat :=
  let significant := digits.dropWhile (· == Byte.zero)
  let top := exponent + significant.length
  if significant.isEmpty || top < -(f.unitExponent : Int) then 0
  else if (f.unitExponent : Int) < top then f.infinityBits
  else if 0 ≤ exponent then f.nearest (Decimal.value significant * 10 ^ exponent.toNat) 1
  else f.nearest (Decimal.value significant) (10 ^ (-exponent).toNat)

namespace NumberLiteral

/-- Whether a literal has a minus sign. -/
def isNegative (literal : NumberLiteral) : Bool := literal.sign == some Byte.minus

/-- The power of ten that the exponent part asks for. -/
def exponentValue (literal : NumberLiteral) : Int :=
  match literal.exponent with
  | none => 0
  | some e =>
    if e.sign == some Byte.minus then -(Decimal.value e.digits : Int) else Decimal.value e.digits

/-- The bit pattern nearest to the number that a literal denotes. -/
def floatBits (f : FloatFormat) (literal : NumberLiteral) : Nat :=
  let fraction := literal.fraction.getD []
  f.withSign literal.isNegative
    (f.ofDecimal (literal.whole ++ fraction) (literal.exponentValue - fraction.length))

/-- The integer that a literal denotes.  A point or an exponent makes it none, whatever its value, and
    so does a minus sign where only unsigned numbers are wanted. -/
def int? (signed : Bool) (literal : NumberLiteral) : Option Int :=
  if literal.whole.isEmpty || literal.fraction.isSome || literal.exponent.isSome then none
  else if literal.isNegative then
    if signed then some (-(Decimal.value literal.whole : Int)) else none
  else some (Decimal.value literal.whole)

end NumberLiteral

end JsonSidecar
