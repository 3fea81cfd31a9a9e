/-
Module: JsonSidecar.Descriptor
Purpose: Descriptors, which stand in the text for arrays whose elements lie outside it.
Main exports: Descriptor, Descriptor.elementCount?, Descriptor.expectedByteLength?, Descriptor.text,
  Descriptor.lengthBound
-/
import JsonSidecar.Element

namespace JsonSidecar

/-- The first number that does not fit a 64-bit word. -/
def wordLimit : Nat := 2 ^ 64

/-- The description of one array: its element type, its dimensions from the outermost in, where its
    bytes lie and how many they are, and the range of its elements. -/
structure Descriptor where
  element : Element
  shape : List Nat
  offset : Nat
  byteLength : Nat
  range : NumericRange
deriving DecidableEq, Repr

/-- A product, if it fits a word. -/
def mulWord? (a b : Nat) : Option Nat := if a * b < wordLimit then some (a * b) else none

/-- The product of dimensions taken from left to right, if every product on the way fits a word. -/
def shapeCount? (shape : List Nat) : Option Nat := shape.foldlM mulWord? 1

namespace Descriptor

/-- The number of elements that the shape implies. -/
def elementCount? (d : Descriptor) : Option Nat := shapeCount? d.shape

/-- The number of bytes that the shape and the element type imply. -/
def expectedByteLength? (d : Descriptor) : Option Nat :=
  d.elementCount?.bind fun count => mulWord? count d.element.size

/-- The text of a descriptor. -/
def text (d : Descriptor) : Bytes :=
  objectText [
    (ascii "dtype", Byte.quote :: (ascii d.element.tag ++ [Byte.quote])),
    (ascii "shape", arrayText (d.shape.map Decimal.text)),
    (ascii "offset", Decimal.text d.offset),
    (ascii "byteLength", Decimal.text d.byteLength),
    (ascii "range", d.range.text)]

/-- The greatest length of the text of a descriptor with `rank` dimensions: the names and punctuation,
    two integers and two numbers in double precision, and an integer for each dimension. -/
def lengthBound (rank : Nat) : Nat :=
  96 + 2 * longIntLengthBound + 2 * doubleLengthBound + rank * (longIntLengthBound + 1)

end Descriptor

end JsonSidecar
