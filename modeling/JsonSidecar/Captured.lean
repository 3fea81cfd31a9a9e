/-
Module: JsonSidecar.Captured
Purpose: One value kept in its text: what can be told of it without reading it, and how it is shown.
Main exports: Captured, Captured.isNull, Captured.quoted, Captured.debugText
-/
import JsonSidecar.Lexer.Word
import JsonSidecar.Text.Printable
import JsonSidecar.Text.Utf8

namespace JsonSidecar

/-- The text of a value, and whether a store came with it. -/
structure Captured where
  text : Bytes
  attached : Bool
deriving DecidableEq, Repr

namespace Captured

/-- The text that stands for an absent value. -/
def null : Captured := ⟨Word.null, false⟩

/-- White space as it may surround an absent value: that between tokens and the form feed. -/
def isBlank (b : UInt8) : Bool := Byte.isSpace b || b == 0x0c

/-- The text without blanks around it. -/
def trimmed (text : Bytes) : Bytes :=
  ((text.dropWhile isBlank).reverse.dropWhile isBlank).reverse

/-- Whether the value is absent: there is no text, or none but blanks and the word `null`. -/
def isNull (v : Captured) : Bool :=
  let text := trimmed v.text
  text.isEmpty || text == Word.null

/-- Two kept values are the same if their texts are. -/
def same (v w : Captured) : Bool := v.text == w.text

/-- A character inside quotes, as a programmer reads it. -/
def quotedChar (c : Char) : String :=
  if c = '\t' then "\\t"
  else if c = '\r' then "\\r"
  else if c = '\n' then "\\n"
  else if c = '"' then "\\\""
  else if c = '\\' then "\\\\"
  else if c.toNat = 0 then "\\0"
  else if isPrintable c then c.toString
  else "\\u\x7b" ++ String.ofList (Nat.toDigits 16 c.toNat) ++ "\x7d"

/-- A text in quotes, leniently read, with everything escaped that would not show. -/
def quoted (text : Bytes) : String :=
  "\"" ++ String.join ((Utf8.lossy text).map quotedChar) ++ "\""

/-- The value as a programmer reads it. -/
def debugText (v : Captured) : String :=
  "Value \x7b text: " ++ quoted v.text ++ ", has_blobs: " ++ toString v.attached ++ " \x7d"

end Captured

end JsonSidecar
