/-
Module: JsonSidecar.Lexer.Word
Purpose: Fixed words and member keys.  A match either passes over the whole of it or leaves the cursor
  alone, which `none` stands for.
Main exports: matchWord?, matchKey?
-/
import JsonSidecar.Cursor

namespace JsonSidecar

/-- Match a pattern in which a space stands for any run of white space, also an empty one. -/
def matchPattern? : Bytes → Cursor → Option Cursor
  | [], c => some c
  | b :: pattern, c =>
    if b = Byte.space then matchPattern? pattern c.skipSpace
    else (c.eat? b).bind (matchPattern? pattern)

/-- Match a pattern after white space. -/
def matchWord? (pattern : Bytes) (c : Cursor) : Option Cursor := matchPattern? pattern c.skipSpace

/-- Match a key in quotes, compared byte for byte without regard to escapes, and its colon, with the
    white space around both. -/
def matchKey? (key : Bytes) (c : Cursor) : Option Cursor := do
  let c ← c.skipSpace.eat? Byte.quote
  let c ← c.eatAll? key
  let c ← c.eat? Byte.quote
  let c ← c.skipSpace.eat? Byte.colon
  return c.skipSpace

namespace Word

def true : Bytes := ascii "true"
def false : Bytes := ascii "false"
def null : Bytes := ascii "null"

end Word

end JsonSidecar
