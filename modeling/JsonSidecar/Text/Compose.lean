/-
Module: JsonSidecar.Text.Compose
Purpose: Arrays and objects put together from finished parts, without any white space.
Main exports: separated, arrayText, keyText, objectText
-/
import JsonSidecar.Bytes

namespace JsonSidecar

/-- Parts with commas between them. -/
def separated : List Bytes → Bytes
  | [] => []
  | [part] => part
  | part :: rest => part ++ Byte.comma :: separated rest

/-- An array of finished items. -/
def arrayText (items : List Bytes) : Bytes :=
  Byte.openBracket :: (separated items ++ [Byte.closeBracket])

/-- A key that needs no escapes, with its colon. -/
def keyText (key : Bytes) : Bytes := Byte.quote :: (key ++ [Byte.quote, Byte.colon])

/-- An object of finished members, whose keys need no escapes. -/
def objectText (members : List (Bytes × Bytes)) : Bytes :=
  Byte.openBrace :: (separated (members.map fun m => keyText m.1 ++ m.2) ++ [Byte.closeBrace])

end JsonSidecar
