/-
Module: JsonSidecar.Number.Shortest
Purpose: Floating-point numbers with as few significant digits as are read back to the same number, written
  positionally whatever their size.  This is how a number is written for which there is no room to render
  it with all its digits.
Main exports: FloatFormat.shortest, FloatFormat.plainText
-/
import JsonSidecar.Number.Scientific

namespace JsonSidecar

namespace Scientific

/-- The whole numbers of units of a power of ten on both sides of a quotient, the nearer one first; halfway
    between them, the greater one. -/
def neighboursAt (num den : Nat) (place : Int) : List Nat :=
  let scaled := num * 10 ^ (-place).toNat
  let unit := den * 10 ^ place.toNat
  let low := scaled / unit
  if 2 * (scaled % unit) < unit then [low, low + 1] else [low + 1, low]

/-- Digits and their exponent in positional notation. -/
def positional (digits : Bytes) (exponent : Int) : Bytes :=
  if exponent < 0 then
    Byte.zero :: Byte.dot :: (List.replicate (-exponent - 1).toNat Byte.zero ++ digits)
  else
    let whole := exponent.toNat + 1
    if digits.length ≤ whole then digits ++ List.replicate (whole - digits.length) Byte.zero
    else digits.take whole ++ Byte.dot :: digits.drop whole

end Scientific

namespace FloatFormat

variable (f : FloatFormat)

/-- The pattern, without sign, nearest to a whole number of units of a power of ten. -/
def nearestAt (count : Nat) (place : Int) : Nat :=
  f.nearest (count * 10 ^ place.toNat) (10 ^ (-place).toNat)

/-- The shortest digits of a value among those that begin at the place `leading` and have more than `known`
    of them; the first argument says how many more are tried. -/
def shortestFrom (units : Nat) (leading : Int) : Nat → Nat → Scientific
  | 0, _ => Scientific.ofRatio f.decimalDigits units (2 ^ f.unitExponent)
  | more + 1, known =>
    let place := leading - known
    let same := fun count => f.nearestAt count place = f.nearest units (2 ^ f.unitExponent)
    match (Scientific.neighboursAt units (2 ^ f.unitExponent) place).find? same with
    | some count => ⟨count, place + (Decimal.text count).length - 1⟩
    | none => shortestFrom units leading more (known + 1)

/-- The fewest significant digits that are read back as a positive value. -/
def shortest (units : Nat) : Scientific :=
  f.shortestFrom units (Scientific.leadingExponent units (2 ^ f.unitExponent)) f.decimalDigits 0

/-- A positive value in positional notation with a sign in front. -/
def plainText (negative : Bool) (units : Nat) : Bytes :=
  let s := f.shortest units
  (if negative then [Byte.minus] else [])
    ++ Scientific.positional (Scientific.dropTrailingZeros (Decimal.text s.digits)) s.exponent

end FloatFormat

end JsonSidecar
