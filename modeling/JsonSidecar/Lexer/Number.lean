/-
Module: JsonSidecar.Lexer.Number
Purpose: Number literals: an optional sign, digits with an optional fraction, and an optional exponent.
  One digit is enough, before the point or behind it.  The scan takes the longest literal, so an
  exponent mark behind a mantissa must be followed by exponent digits.
Main exports: NumberLiteral, NumberLiteral.text, NumberLiteral.scan
-/
import JsonSidecar.Cursor
import JsonSidecar.Lexer.Error

namespace JsonSidecar

/-- The exponent part of a number literal. -/
structure ExponentPart where
  mark : UInt8
  sign : Option UInt8
  digits : Bytes
deriving DecidableEq, Repr

/-- A number literal in its parts; `fraction` holds the digits behind the point if there is one. -/
structure NumberLiteral where
  sign : Option UInt8
  whole : Bytes
  fraction : Option Bytes
  exponent : Option ExponentPart
deriving DecidableEq, Repr

namespace NumberLiteral

/-- An exponent part as it is written. -/
def exponentText : Option ExponentPart → Bytes
  | none => []
  | some e => e.mark :: (e.sign.toList ++ e.digits)

/-- A fraction as it is written, with its point. -/
def fractionText : Option Bytes → Bytes
  | none => []
  | some digits => Byte.dot :: digits

/-- The literal as it is written. -/
def text (literal : NumberLiteral) : Bytes :=
  literal.sign.toList ++ literal.whole ++ fractionText literal.fraction
    ++ exponentText literal.exponent

/-- The sign under the cursor, if there is one. -/
def scanSign (c : Cursor) : Option UInt8 × Cursor :=
  match c.passIf? Byte.isSign with
  | some after => (c.peek?, after)
  | none => (none, c)

/-- The digits under the cursor. -/
def scanDigits (c : Cursor) : Bytes × Cursor := (c.rest.takeWhile Byte.isDigit, c.skipDigits)

/-- The fraction under the cursor, if there is one. -/
def scanFraction (c : Cursor) : Option Bytes × Cursor :=
  match c.eat? Byte.dot with
  | some after => (some (scanDigits after).1, (scanDigits after).2)
  | none => (none, c)

/-- The exponent under the cursor, if there is one.  A mark without digits is an error at the mark. -/
def scanExponent : Scan LexError (Option ExponentPart) := fun c =>
  match c.rest, c.passIf? Byte.isExponentMark with
  | mark :: _, some after =>
    let (sign, unsigned) := scanSign after
    let (digits, last) := scanDigits unsigned
    if digits.isEmpty then .fail .expectedExponentDigits c
    else .ok (some ⟨mark, sign, digits⟩) last
  | _, _ => .ok none c

/-- Scan a number literal.  Without a mantissa digit the cursor stays where it was. -/
def scan : Scan LexError NumberLiteral := fun c =>
  let (sign, unsigned) := scanSign c
  let (whole, afterWhole) := scanDigits unsigned
  let (fraction, afterMantissa) := scanFraction afterWhole
  if whole.isEmpty && (fraction.getD []).isEmpty then .fail .expectedNumber c
  else (scanExponent afterMantissa).map fun exponent => ⟨sign, whole, fraction, exponent⟩

end NumberLiteral

end JsonSidecar
