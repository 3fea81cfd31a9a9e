/-
Module: JsonSidecar.Bytes
Purpose: Byte strings, the ASCII bytes that the text format gives a meaning, and the little-endian
  layout of numbers.  Everything the library reads or writes is a `Bytes`; a text is a byte string
  because string literals may hold bytes that are no valid UTF-8.
Main exports: Bytes, ascii, Byte.*, littleEndian, ofLittleEndian, chunks
-/

namespace JsonSidecar

-- Powers and sums of numbers are those of the core language, also where an algebra library brings its own.
attribute [instance (high), default_instance 10001] instPowNat
attribute [instance (high)] Zero.ofOfNat0

/-- A byte string. -/
abbrev Bytes := List UInt8

/-- The bytes of a text that holds ASCII characters only. -/
def ascii (text : String) : Bytes := text.toList.map fun c => UInt8.ofNat c.toNat

/-- The UTF-8 bytes of a text. -/
def utf8 (text : String) : Bytes := text.toList.flatMap String.utf8EncodeChar

namespace Byte

def quote : UInt8 := 0x22
def plus : UInt8 := 0x2b
def comma : UInt8 := 0x2c
def minus : UInt8 := 0x2d
def dot : UInt8 := 0x2e
def zero : UInt8 := 0x30
def colon : UInt8 := 0x3a
def openBracket : UInt8 := 0x5b
def backslash : UInt8 := 0x5c
def closeBracket : UInt8 := 0x5d
def openBrace : UInt8 := 0x7b
def closeBrace : UInt8 := 0x7d
def space : UInt8 := 0x20
def newline : UInt8 := 0x0a

/-- White space between tokens: space, tab, line feed and carriage return, and nothing else. -/
def isSpace (b : UInt8) : Bool := b == 0x20 || b == 0x09 || b == 0x0a || b == 0x0d

/-- The bytes that may not stand raw in a string literal. -/
def isControl (b : UInt8) : Bool := b < 0x20

/-- A decimal digit. -/
def isDigit (b : UInt8) : Bool := 0x30 ≤ b && b ≤ 0x39

/-- A sign in front of digits. -/
def isSign (b : UInt8) : Bool := b == plus || b == minus

/-- The exponent mark of a number, in either case. -/
def isExponentMark (b : UInt8) : Bool := b == 0x65 || b == 0x45

/-- The number that a decimal digit stands for. -/
def digitValue (b : UInt8) : Nat := b.toNat - 0x30

/-- The decimal digit for a number below ten. -/
def digit (n : Nat) : UInt8 := UInt8.ofNat (0x30 + n)

/-- The lower-case hexadecimal digit for a number below sixteen. -/
def hexDigit (n : Nat) : UInt8 := if n < 10 then UInt8.ofNat (0x30 + n) else UInt8.ofNat (0x57 + n)

/-- The number that a hexadecimal digit of either case stands for. -/
def hexValue? (b : UInt8) : Option Nat :=
  if isDigit b then some (b.toNat - 0x30)
  else if 0x61 ≤ b && b ≤ 0x66 then some (b.toNat - 0x57)
  else if 0x41 ≤ b && b ≤ 0x46 then some (b.toNat - 0x37)
  else none

end Byte

/-- The `width` low bytes of a number, least significant first. -/
def littleEndian : Nat → Nat → Bytes
  | 0, _ => []
  | width + 1, n => UInt8.ofNat n :: littleEndian width (n / 256)

/-- The number whose bytes are given, least significant first. -/
def ofLittleEndian : Bytes → Nat
  | [] => 0
  | b :: rest => b.toNat + 256 * ofLittleEndian rest

/-- The first `count` pieces of `size` entries each. -/
def chunks {α : Type} (size : Nat) : Nat → List α → List (List α)
  | 0, _ => []
  | count + 1, entries => entries.take size :: chunks size count (entries.drop size)

end JsonSidecar
