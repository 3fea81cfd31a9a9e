/-
Module: JsonSidecar.Number.Scientific
Purpose: A positive quotient rounded to a number of significant decimal digits, and the text layout that
  goes with such a rounding: positional while the exponent is moderate, with an exponent mark
  otherwise, and in both without trailing zeros behind the point.  Between the two lies a rendering in
  scientific notation, from which the layout takes the digits and the exponent again.
Main exports: Scientific, Scientific.ofRatio, Scientific.rendered?, Scientific.layout,
  Scientific.layoutRendering
-/
import JsonSidecar.Number.Decimal
import JsonSidecar.Number.FloatFormat

namespace JsonSidecar

/-- Significant digits, read as a whole number, and the exponent of the first of them. -/
structure Scientific where
  digits : Nat
  exponent : Int
deriving DecidableEq, Repr

namespace Scientific

/-- The exponent of the leading decimal digit of a positive quotient. -/
def leadingExponent (num den : Nat) : Int :=
  if den ≤ num then (Decimal.digitCount (num / den) : Int) - 1
  else -(Decimal.digitCount ((den - 1) / num) : Int)

/-- A positive quotient in units of a power of ten, rounded to nearest, ties to even. -/
def roundAt (num den : Nat) (exponent : Int) : Nat :=
  if 0 ≤ exponent then divNearest num (den * 10 ^ exponent.toNat)
  else divNearest (num * 10 ^ (-exponent).toNat) den

/-- A positive quotient rounded to `precision` significant digits. -/
def ofRatio (precision num den : Nat) : Scientific :=
  let exponent := leadingExponent num den
  let digits := roundAt num den (exponent - (precision - 1 : Nat))
  if digits = 10 ^ precision then ⟨10 ^ (precision - 1), exponent + 1⟩ else ⟨digits, exponent⟩

/-- Drop zeros at the end. -/
def dropTrailingZeros (digits : Bytes) : Bytes :=
  (digits.reverse.dropWhile (· == Byte.zero)).reverse

/-- The digits without the zeros at their end; the first of them stays, whatever it is. -/
def significant (digits : Bytes) : Bytes := digits.take 1 ++ dropTrailingZeros (digits.drop 1)

/-- A decimal exponent with its sign and at least two digits. -/
def exponentText (exponent : Int) : Bytes :=
  0x65 :: (if exponent < 0 then Byte.minus else Byte.plus)
    :: ((if exponent.natAbs < 10 then [Byte.zero] else []) ++ Decimal.text exponent.natAbs)

/-- Lay out a number whose significant digits are given, the first of them not zero, with the decimal
    exponent of the first.  The point stands behind the digit for the ones as long as the exponent is
    at least minus four and the precision covers the integral part. -/
def layout (precision : Nat) (digits : Bytes) (exponent : Int) : Bytes :=
  let digits := significant digits
  if exponent < -4 || (precision : Int) ≤ exponent then
    digits.take 1 ++ (if digits.length ≤ 1 then [] else Byte.dot :: digits.drop 1)
      ++ exponentText exponent
  else if 0 ≤ exponent then
    let whole := exponent.toNat + 1
    if digits.length ≤ whole then digits ++ List.replicate (whole - digits.length) Byte.zero
    else digits.take whole ++ Byte.dot :: digits.drop whole
  else
    Byte.zero :: Byte.dot :: (List.replicate (-exponent - 1).toNat Byte.zero ++ digits)

/-! ### Renderings -/

/-- The byte in front of the exponent of a rendering. -/
def exponentMark : UInt8 := 0x65

/-- Significant digits in scientific notation: a point behind the first digit if others follow it, and the
    exponent with a sign only if it is negative. -/
def rendering (digits : Bytes) (exponent : Int) : Bytes :=
  digits.take 1 ++ (if digits.length ≤ 1 then [] else Byte.dot :: digits.drop 1)
    ++ exponentMark :: Decimal.intText exponent

/-- The bytes that there are for a rendering. -/
def renderingRoom : Nat := 64

/-- The rendering of a rounded number, if it fits the room for it. -/
def rendered? (s : Scientific) : Option Bytes :=
  let text := rendering (Decimal.text s.digits) s.exponent
  if text.length ≤ renderingRoom then some text else none

/-- How many digits of a rendering are laid out. -/
def digitRoom : Nat := 40

/-- The digits in front of the exponent of a rendering. -/
def renderedDigits (text : Bytes) : Bytes :=
  ((text.takeWhile (· != exponentMark)).filter Byte.isDigit).take digitRoom

/-- The exponent of a rendering, as a word of 32 bits. -/
def renderedExponent (text : Bytes) : Int32 :=
  let exponent := (text.dropWhile (· != exponentMark)).drop 1
  let negative := exponent.head? == some Byte.minus
  let unsigned := if negative || exponent.head? == some Byte.plus then exponent.drop 1 else exponent
  let magnitude := (unsigned.filter Byte.isDigit).foldl
    (fun n b => n * 10 + Int32.ofNat (Byte.digitValue b)) 0
  if negative then -magnitude else magnitude

/-- Lay out what a rendering shows, with a sign in front. -/
def layoutRendering (precision : Nat) (negative : Bool) (text : Bytes) : Bytes :=
  (if negative then [Byte.minus] else [])
    ++ layout precision (renderedDigits text) (renderedExponent text).toInt

end Scientific

end JsonSidecar
