/-
Module: JsonSidecar.Decode.Failure
Purpose: Why a text could not be read, and how that is told.  A failure names the type that was being
  read, the reason, and the place; a short text is shown below the message with a mark under the place.
Main exports: Reason, Reason.message, Failure, DecodeError, DecodeError.message, DecodeError.report
-/
import JsonSidecar.Blob.Error
import JsonSidecar.Descriptor
import JsonSidecar.Lexer.Error
import JsonSidecar.Text.Utf8

namespace JsonSidecar

/-- Why reading stopped. -/
inductive Reason where
  | malformed (error : LexError)
  | expectedBool
  | notOfKind (literal : Bytes) (kind : String)
  | invalidString
  | invalidKey
  | expectedBracket
  | expectedBrace
  | expectedBracketOrBrace
  | expectedComma
  | expectedClosingBracket
  | trailingText
  | unknownElement (tag : Bytes)
  | incompleteDescriptor
  | noStore
  | elementMismatch (found wanted : Element)
  | rankMismatch (found wanted : Nat)
  | lengthMismatch (byteLength : Nat) (shape : List Nat) (element : Element)
  | outsideStore (offset byteLength : Nat)
  | unreadable (cause : BlobError)
  | zeroWidthRows
  | unequalRows
  | shapeOverflow
  /-- Reading stopped without a recorded failure. -/
  | unknown
  /-- A reason in the words of a reader from outside the library. -/
  | other (message : String)
deriving DecidableEq, Repr

/-- The wording of a reason. -/
def Reason.message : Reason → String
  | .malformed error => error.message
  | .expectedBool => "expected true or false"
  | .notOfKind literal kind => Utf8.lossyText literal ++ " is not a valid " ++ kind
  | .invalidString => "invalid UTF-8 in string"
  | .invalidKey => "invalid UTF-8 in key"
  | .expectedBracket => "expected ["
  | .expectedBrace => "expected \x7b"
  | .expectedBracketOrBrace => "expected [ or \x7b"
  | .expectedComma => "expected ,"
  | .expectedClosingBracket => "expected ]"
  | .trailingText => "trailing text after value"
  | .unknownElement tag => "unknown dtype " ++ Utf8.lossyText tag
  | .incompleteDescriptor => "descriptor needs dtype, shape, offset and byteLength"
  | .noStore => "ndarray descriptor without a blob store"
  | .elementMismatch found wanted => "dtype " ++ found.tag ++ " does not match " ++ wanted.tag
  | .rankMismatch found wanted =>
    "shape rank " ++ toString found ++ " does not match " ++ toString wanted
  | .lengthMismatch byteLength shape element =>
    "byteLength " ++ toString byteLength ++ " does not match shape ["
      ++ ", ".intercalate (shape.map toString) ++ "] of " ++ element.tag
  | .outsideStore offset byteLength =>
    "blob range " ++ toString offset ++ "+" ++ toString byteLength ++ " is outside the blob store"
  | .unreadable cause => "blob read failed: " ++ cause.message
  | .zeroWidthRows => "packed rows must have non-zero width"
  | .unequalRows => "rows have different lengths"
  | .shapeOverflow => "ShapeError/Overflow: arithmetic overflow"
  | .unknown => "decode failed"
  | .other message => message

/-- Where reading stopped and why, and the name of the type that was being read. -/
structure Failure where
  expected : String
  reason : Reason
  offset : Nat
deriving DecidableEq, Repr

/-- The failure of a whole text, with the text if it is short enough to be shown. -/
structure DecodeError where
  failure : Failure
  text : Option Bytes
deriving DecidableEq, Repr

/-- Texts shorter than this are shown. -/
def echoLimit : Nat := 500

/-- Give a failure the text it happened in. -/
def Failure.inText (failure : Failure) (text : Bytes) : DecodeError :=
  ⟨failure, if text.length < echoLimit then some text else none⟩

/-- Control characters: the C0 and C1 sets and the delete character. -/
def isControlChar (c : Char) : Bool := c.toNat < 0x20 || (0x7f ≤ c.toNat && c.toNat < 0xa0)

namespace Failure

/-- The wording of a failure. -/
def message (failure : Failure) : String :=
  "decoding " ++ failure.expected ++ " failed at offset " ++ toString failure.offset ++ ": "
    ++ failure.reason.message

/-- The first line of a report. -/
def headline (failure : Failure) : String :=
  "decode " ++ failure.expected ++ ": " ++ failure.reason.message ++ " at offset "
    ++ toString failure.offset

end Failure

namespace DecodeError

/-- The wording of the failure, without the text. -/
def message (error : DecodeError) : String := error.failure.message

/-- A text as it is shown: leniently read, with blanks for control characters. -/
def echo (text : Bytes) : List Char :=
  (Utf8.lossy text).map fun c => if isControlChar c then ' ' else c

/-- The column under an offset of a text: how many characters stand before it. -/
def column (text : Bytes) (offset : Nat) : Nat :=
  (Utf8.lossy (text.take (min offset text.length))).length

/-- The line that marks an offset of a text. -/
def caret (text : Bytes) (offset : Nat) : List Char :=
  List.replicate (column text offset) ' ' ++ ['^']

/-- The report over up to three lines. -/
def report (error : DecodeError) : String :=
  match error.text with
  | none => error.failure.headline
  | some text =>
    error.failure.headline ++ "\n" ++ String.ofList (echo text) ++ "\n"
      ++ String.ofList (caret text error.failure.offset)

end DecodeError

end JsonSidecar
