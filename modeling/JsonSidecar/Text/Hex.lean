/-
Module: JsonSidecar.Text.Hex
Purpose: Bytes and numbers in hexadecimal digits, two lower-case digits for a byte.
Main exports: Hex.text, Hex.bytes?, Hex.number?, Hex.ofNumber
-/
import JsonSidecar.Bytes

namespace JsonSidecar.Hex

/-- The digits of a byte. -/
def byteText (b : UInt8) : List Char :=
  [Byte.hexDigit (b.toNat / 16), Byte.hexDigit (b.toNat % 16)].map fun d => Char.ofNat d.toNat

/-- The digits of some bytes. -/
def text (bytes : Bytes) : String := String.ofList (bytes.flatMap byteText)

/-- The number that a digit of either case stands for. -/
def digit? (c : Char) : Option Nat := Byte.hexValue? (UInt8.ofNat c.toNat)

/-- The bytes whose digits are given. -/
def bytes? : List Char → Option Bytes
  | [] => some []
  | [_] => none
  | a :: b :: rest => do
    let high ← digit? a
    let low ← digit? b
    return UInt8.ofNat (16 * high + low) :: (← bytes? rest)

/-- The number whose digits are given. -/
def number? (digits : List Char) : Option Nat :=
  digits.foldlM (fun n c => (digit? c).map (16 * n + ·)) 0

/-- The digits of a number of a given width in bytes. -/
def ofNumber (width n : Nat) : String := text (littleEndian width n).reverse

end JsonSidecar.Hex
