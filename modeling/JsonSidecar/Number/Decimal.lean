/-
Module: JsonSidecar.Number.Decimal
Purpose: Whole numbers in decimal digits: written without leading zeros, and read from any run of digits.
Main exports: Decimal.text, Decimal.intText, Decimal.value, Decimal.digitCount
-/
import JsonSidecar.Bytes

namespace JsonSidecar.Decimal

/-- The decimal digits of `n`, most significant first, if there are at most `bound` of them. -/
def digits : Nat → Nat → Bytes
  | 0, _ => []
  | bound + 1, n =>
    if n < 10 then [Byte.digit n] else digits bound (n / 10) ++ [Byte.digit (n % 10)]

/-- The decimal text of a number; a number has no more digits than its successor counts. -/
def text (n : Nat) : Bytes := digits (n + 1) n

/-- The decimal text of an integer, with a sign only if it is negative. -/
def intText (n : Int) : Bytes := if n < 0 then Byte.minus :: text n.natAbs else text n.natAbs

/-- The number that a run of decimal digits denotes; leading zeros do not matter. -/
def value (digits : Bytes) : Nat := digits.foldl (fun n b => n * 10 + Byte.digitValue b) 0

/-- How many decimal digits a number has; zero has none. -/
def digitCount (n : Nat) : Nat := if n = 0 then 0 else (text n).length

end JsonSidecar.Decimal
