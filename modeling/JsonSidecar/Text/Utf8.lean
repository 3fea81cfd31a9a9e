/-
Module: JsonSidecar.Text.Utf8
Purpose: UTF-8 read one byte at a time.  A byte string falls into pieces: a valid piece is the encoding
  of one character, and every longest beginning of an encoding that breaks off, like every byte that
  begins none, is an invalid piece.  Validity and the lenient reading are both read off the pieces, so
  they cannot disagree about where a character ends.
Main exports: Utf8.encode, Utf8.State, Utf8.step, Utf8.pieces, Utf8.isValid, Utf8.lossy, Utf8.text?
-/
import JsonSidecar.Bytes

namespace JsonSidecar.Utf8

/-- The encoding of a code point.  Surrogates and numbers above the last code point have none. -/
def encode (code : Nat) : Bytes :=
  if code < 0x80 then [UInt8.ofNat code]
  else if code < 0x800 then
    [UInt8.ofNat (0xc0 + code / 0x40), UInt8.ofNat (0x80 + code % 0x40)]
  else if 0xd800 ≤ code && code < 0xe000 then []
  else if code < 0x10000 then
    [UInt8.ofNat (0xe0 + code / 0x1000), UInt8.ofNat (0x80 + code / 0x40 % 0x40),
      UInt8.ofNat (0x80 + code % 0x40)]
  else if code < 0x110000 then
    [UInt8.ofNat (0xf0 + code / 0x40000), UInt8.ofNat (0x80 + code / 0x1000 % 0x40),
      UInt8.ofNat (0x80 + code / 0x40 % 0x40), UInt8.ofNat (0x80 + code % 0x40)]
  else []

/-- Where a decoder stands: between characters, or inside one with `left + 1` bytes to come, the next
    of them between `low` and `high`, and `code` read so far. -/
inductive State where
  | start
  | inside (left : Nat) (low high : UInt8) (code : Nat)
deriving DecidableEq, Repr, Inhabited

/-- The first byte of a character.  The narrowed ranges shut out surrogates, code points beyond the
    last one and encodings that are longer than needed. -/
def lead (b : UInt8) : List (Option Char) × State :=
  if b < 0x80 then ([some (Char.ofNat b.toNat)], .start)
  else if b < 0xc2 then ([none], .start)
  else if b < 0xe0 then ([], .inside 0 0x80 0xbf (b.toNat - 0xc0))
  else if b = 0xe0 then ([], .inside 1 0xa0 0xbf 0)
  else if b = 0xed then ([], .inside 1 0x80 0x9f 0xd)
  else if b < 0xf0 then ([], .inside 1 0x80 0xbf (b.toNat - 0xe0))
  else if b = 0xf0 then ([], .inside 2 0x90 0xbf 0)
  else if b < 0xf4 then ([], .inside 2 0x80 0xbf (b.toNat - 0xf0))
  else if b = 0xf4 then ([], .inside 2 0x80 0x8f 4)
  else ([none], .start)

/-- Take one byte.  A byte that cannot continue the present character ends an invalid piece and is
    then looked at again as a first byte. -/
def step (state : State) (b : UInt8) : List (Option Char) × State :=
  match state with
  | .start => lead b
  | .inside left low high code =>
    if low ≤ b && b ≤ high then
      let code := code * 0x40 + (b.toNat - 0x80)
      match left with
      | 0 => ([some (Char.ofNat code)], .start)
      | left + 1 => ([], .inside left 0x80 0xbf code)
    else (none :: (lead b).1, (lead b).2)

/-- The pieces still to come from a given state; `none` stands for an invalid piece. -/
def piecesFrom : State → Bytes → List (Option Char)
  | .start, [] => []
  | .inside .., [] => [none]
  | state, b :: rest => (step state b).1 ++ piecesFrom (step state b).2 rest

/-- The characters and invalid pieces of a byte string, in order. -/
def pieces (bytes : Bytes) : List (Option Char) := piecesFrom .start bytes

/-- Whether a byte string is the encoding of some text. -/
def isValid (bytes : Bytes) : Bool := (pieces bytes).all Option.isSome

/-- The lenient reading: one replacement character for each invalid piece. -/
def lossy (bytes : Bytes) : List Char := (pieces bytes).map fun piece => piece.getD '\uFFFD'

/-- The lenient reading as a text. -/
def lossyText (bytes : Bytes) : String := String.ofList (lossy bytes)

/-- The text that a byte string encodes, if it encodes one. -/
def text? (bytes : Bytes) : Option String :=
  if isValid bytes then some (lossyText bytes) else none

end JsonSidecar.Utf8
