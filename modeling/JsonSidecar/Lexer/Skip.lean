/-
Module: JsonSidecar.Lexer.Skip
Purpose: Passing over one complete value without reading it.  Brackets inside string literals do not
  count, because literals are passed over as a whole.  The depth of nesting is bounded, which keeps the
  work on hostile texts bounded too.
Main exports: maxNesting, skipNested, skipValue, skipMember
-/
import JsonSidecar.Lexer.Number
import JsonSidecar.Lexer.Quoted
import JsonSidecar.Lexer.Word

namespace JsonSidecar

/-- How many containers may lie around a value. -/
def maxNesting : Nat := 512

/-- Pass over a word that must stand here exactly. -/
def skipExact (word : Bytes) : Scan LexError Unit := fun c =>
  match c.eatAll? word with
  | some c => .ok () c
  | none => .fail .unknownWord c

/-- Pass over a member: a key, a colon and a value. -/
def skipMemberWith (value : Scan LexError Unit) : Scan LexError Unit := fun c =>
  (Quoted.skip c.skipSpace).bind fun _ c =>
    (Scan.expect Byte.colon (fun _ => .expectedColon) c).bind fun _ c => value c

/-- Whether a byte can begin a number. -/
def beginsNumber (b : UInt8) : Bool := Byte.isSign b || b == Byte.dot || Byte.isDigit b

/-- Pass over one value whose innermost parts may lie in fewer than `levels` containers. -/
def skipNested : Nat → Scan LexError Unit
  | 0 => fun c => .fail .tooDeep c
  | levels + 1 => fun c =>
    let c := c.skipSpace
    match c.rest with
    | [] => .fail .endOfText c
    | b :: rest =>
      if b = Byte.quote then Quoted.skip c
      else if b = Byte.openBracket then
        (Scan.itemsUpTo Byte.closeBracket (fun _ => .expectedCommaOrBracket) (skipNested levels)
          ⟨c.pos + 1, rest⟩).map fun _ => ()
      else if b = Byte.openBrace then
        (Scan.itemsUpTo Byte.closeBrace (fun _ => .expectedCommaOrBrace)
          (skipMemberWith (skipNested levels)) ⟨c.pos + 1, rest⟩).map fun _ => ()
      else if b = 0x74 then skipExact Word.true c
      else if b = 0x66 then skipExact Word.false c
      else if b = 0x6e then skipExact Word.null c
      else if beginsNumber b then (NumberLiteral.scan c).map fun _ => ()
      else .fail .expectedValue c

/-- Pass over one value that lies in `depth` containers. -/
def skipValue (depth : Nat) : Scan LexError Unit := skipNested (maxNesting + 1 - depth)

/-- Pass over one member whose value lies in `depth` containers. -/
def skipMember (depth : Nat) : Scan LexError Unit := skipMemberWith (skipValue depth)

end JsonSidecar
