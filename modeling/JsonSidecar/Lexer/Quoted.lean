/-
Module: JsonSidecar.Lexer.Quoted
Purpose: String literals, written and scanned.  The writer escapes the quote, the backslash and the
  control bytes and copies whole runs of the other bytes, so a literal can hold any byte string.  The
  scanner walks a literal byte by byte through a small set of states and understands more escapes than
  the writer uses.
Main exports: Quoted.write, Quoted.encode, Quoted.encodedLength, Quoted.State, Quoted.scan, Quoted.read,
  Quoted.skip
-/
import JsonSidecar.Cursor
import JsonSidecar.Lexer.Error
import JsonSidecar.Text.Utf8

namespace JsonSidecar.Quoted

/-! ### Writing -/

/-- One byte as it stands inside a literal. -/
def encodeByte (b : UInt8) : Bytes :=
  if b = Byte.quote then [Byte.backslash, Byte.quote]
  else if b = Byte.backslash then [Byte.backslash, Byte.backslash]
  else if b = Byte.newline then [Byte.backslash, 0x6e]
  else if Byte.isControl b then
    [Byte.backslash, 0x75, Byte.zero, Byte.zero, Byte.hexDigit (b.toNat / 16),
      Byte.hexDigit (b.toNat % 16)]
  else [b]

/-- How long one byte becomes inside a literal. -/
def encodedByteLength (b : UInt8) : Nat :=
  if b = Byte.quote || b = Byte.backslash || b = Byte.newline then 2
  else if Byte.isControl b then 6
  else 1

/-- The length of the literal, without writing it. -/
def encodedLength (bytes : Bytes) : Nat := 2 + (bytes.map encodedByteLength).sum

/-- A literal being written: the text so far, and the place in the content from which bytes are still to be
    copied. -/
structure Writing where
  text : Bytes
  copied : Nat
deriving DecidableEq, Repr

/-- Take a byte of the content with its place.  One that stands for itself is left to the run it is in;
    any other ends the run, which is copied in front of the escape. -/
def Writing.take (content : Bytes) (w : Writing) (placed : UInt8 × Nat) : Writing :=
  if encodedByteLength placed.1 = 1 then w
  else ⟨w.text ++ content.extract w.copied placed.2 ++ encodeByte placed.1, placed.2 + 1⟩

/-- Append the literal that stands for a byte string to a text. -/
def write (text content : Bytes) : Bytes :=
  let written := content.zipIdx.foldl (Writing.take content) ⟨text ++ [Byte.quote], 0⟩
  written.text ++ content.drop written.copied ++ [Byte.quote]

/-- The literal that stands for a byte string. -/
def encode (content : Bytes) : Bytes := write [] content

/-! ### Scanning -/

/-- Where a scanner stands inside a literal: between characters, behind a backslash, or in a numeric
    escape with `left + 1` digits to come.  A wide escape names a code point, a narrow one a byte. -/
inductive State where
  | plain
  | escaped
  | numeric (left : Nat) (code : Nat) (wide : Bool)
deriving DecidableEq, Repr

/-- What one byte does: it moves on and yields some bytes of the content, it closes the literal, or it
    is out of place. -/
inductive Step where
  | next (content : Bytes) (state : State)
  | close
  | stop (error : LexError)
deriving DecidableEq, Repr

/-- The content of a finished numeric escape.  Surrogates have no encoding and yield nothing. -/
def numericContent (wide : Bool) (code : Nat) : Bytes :=
  if wide then Utf8.encode code else [UInt8.ofNat code]

/-- The byte behind a backslash.  One that names no escape stands for itself. -/
def escape (b : UInt8) : Step :=
  if b = 0x62 then .next [0x08] .plain
  else if b = 0x66 then .next [0x0c] .plain
  else if b = 0x6e then .next [0x0a] .plain
  else if b = 0x72 then .next [0x0d] .plain
  else if b = 0x74 then .next [0x09] .plain
  else if b = 0x78 then .next [] (.numeric 1 0 false)
  else if b = 0x75 then .next [] (.numeric 3 0 true)
  else .next [b] .plain

/-- Take one byte of a literal. -/
def step : State → UInt8 → Step
  | .plain, b =>
    if b = Byte.quote then .close
    else if b = Byte.backslash then .next [] .escaped
    else if Byte.isControl b then .stop .rawControl
    else .next [b] .plain
  | .escaped, b => escape b
  | .numeric left code wide, b =>
    match Byte.hexValue? b with
    | none => .stop .expectedHexDigit
    | some d =>
      match left with
      | 0 => .next (numericContent wide (code * 16 + d)) .plain
      | left + 1 => .next [] (.numeric left (code * 16 + d) wide)

/-- What the end of the text means in a state. -/
def State.endError : State → LexError
  | .numeric .. => .expectedHexDigit
  | _ => .unclosedString

/-- The part of a literal that lies ahead, in a given state: the content it yields, even where the scan
    stops, and where it ends. -/
def body : State → Nat → Bytes → Bytes × Outcome LexError Unit
  | state, pos, [] => ([], .fail state.endError ⟨pos, []⟩)
  | state, pos, b :: rest =>
    match step state b with
    | .close => ([], .ok () ⟨pos + 1, rest⟩)
    | .stop error => ([], .fail error ⟨pos, b :: rest⟩)
    | .next content state =>
      let ahead := body state (pos + 1) rest
      (content ++ ahead.1, ahead.2)

/-- Scan a literal: the content up to its end or to where the scan stops, and the outcome. -/
def scan (c : Cursor) : Bytes × Outcome LexError Unit :=
  match c.eat? Byte.quote with
  | none => ([], .fail .expectedString c)
  | some c => body .plain c.pos c.rest

/-- Scan a literal for its content. -/
def read : Scan LexError Bytes := fun c =>
  let scanned := scan c
  scanned.2.map fun _ => scanned.1

/-- Scan a literal for its end. -/
def skip : Scan LexError Unit := fun c => (scan c).2

end JsonSidecar.Quoted
