/-
Module: JsonSidecar.Decode.Reader
Purpose: Readers, which are scanners whose errors are failures, and the parts that all of them share:
  tokens, lists and objects.  The first failure ends a reader, so the failure that is reported is
  always the first one.
Main exports: Reader, Reader.fail, Reader.lexed, Reader.inlineList, Reader.object, Reader.lastOf
-/
import JsonSidecar.Decode.Failure
import JsonSidecar.Lexer.Skip

namespace JsonSidecar

/-- A reader of values of type `α`. -/
abbrev Reader (α : Type) : Type := Scan Failure α

namespace Reader

variable {α β : Type}

/-- Fail at a given offset. -/
def failAt (expected : String) (reason : Reason) (offset : Nat) : Reader α :=
  Scan.fail ⟨expected, reason, offset⟩

/-- Fail where the cursor stands. -/
def fail (expected : String) (reason : Reason) : Reader α := fun c =>
  failAt expected reason c.pos c

/-- A scanner as a reader: an error is a failure where the scan stopped. -/
def lexed (expected : String) (scan : Scan LexError α) : Reader α := fun c =>
  (scan c).mapError fun error stop => ⟨expected, .malformed error, stop.pos⟩

/-- Pass over `b` after white space, or fail there. -/
def expect (expected : String) (b : UInt8) (reason : Reason) : Reader Unit :=
  Scan.expect b fun stop => ⟨expected, reason, stop.pos⟩

/-- A number literal after white space. -/
def number (expected : String) : Reader NumberLiteral := fun c =>
  lexed expected NumberLiteral.scan c.skipSpace

/-- The contents of a string literal after white space. -/
def stringBytes (expected : String) : Reader Bytes := fun c =>
  lexed expected Quoted.read c.skipSpace

/-- Pass over one value. -/
def passValue (expected : String) : Reader Unit := lexed expected (skipValue 0)

/-- Pass over one member. -/
def passMember (expected : String) : Reader Unit := lexed expected (skipMember 0)

/-- Pass over white space, behind which the text must end. -/
def finish (expected : String) : Reader Unit := fun c =>
  if c.skipSpace.atEnd then .ok () c.skipSpace
  else fail expected .trailingText c.skipSpace

/-- Whether a word stands ahead; if so, pass over it. -/
def word (pattern : Bytes) : Reader Bool := fun c =>
  match matchWord? pattern c with
  | some c => .ok true c
  | none => .ok false c

/-- The byte after white space. -/
def peek : Reader (Option UInt8) := fun c => .ok c.skipSpace.peek? c.skipSpace

/-- A list written in the text, item by item. -/
def inlineList (expected : String) (item : Reader α) : Reader (List α) := do
  expect expected Byte.openBracket .expectedBracket
  Scan.itemsUpTo Byte.closeBracket
    (fun stop => ⟨expected, .malformed .expectedCommaOrBracket, stop.pos⟩) item

/-- The key of a member with its colon. -/
def memberKey (expected : String) : Reader Bytes := do
  let key ← stringBytes expected
  expect expected Byte.colon (.malformed .expectedColon)
  return key

/-- One member, whose value is read as its key demands. -/
def member (expected : String) (value : Bytes → Reader β) : Reader (Bytes × β) := do
  let key ← memberKey expected
  let v ← value key
  return (key, v)

/-- All members of an object in the order of the text. -/
def object (expected : String) (value : Bytes → Reader β) : Reader (List (Bytes × β)) := do
  expect expected Byte.openBrace .expectedBrace
  Scan.itemsUpTo Byte.closeBrace
    (fun stop => ⟨expected, .malformed .expectedCommaOrBrace, stop.pos⟩) (member expected value)

/-- A value to be kept, or one to be passed over when there is no reader for it. -/
def orSkip (expected : String) : Option (Reader β) → Reader (Option β)
  | some reader => some <$> reader
  | none => do
    passValue expected
    return none

/-- What the last member with a given key holds; earlier ones with that key do not count. -/
def lastOf (key : Bytes) (members : List (Bytes × Option β)) : Option β :=
  (members.filterMap fun m => if m.1 = key then m.2 else none).getLast?

/-- The keys of an object that are met when its members are passed over one by one, each with the
    position of its value, as far as the object is well-formed.  The number bounds their count. -/
def keysMet (expected : String) : Nat → Cursor → List (Bytes × Nat)
  | 0, _ => []
  | bound + 1, c =>
    match memberKey expected c with
    | .fail .. => []
    | .ok key c =>
      (key, c.pos) ::
        match passValue expected c with
        | .fail .. => []
        | .ok _ c =>
          match c.skipSpace.eat? Byte.comma with
          | some c => keysMet expected bound c
          | none => []

/-- The keys of the object ahead, with the positions of their values; see `keysMet`. -/
def objectKeys (expected : String) (c : Cursor) : List (Bytes × Nat) :=
  match c.skipSpace.eat? Byte.openBrace with
  | some c => keysMet expected (c.rest.length + 1) c
  | none => []

end Reader

end JsonSidecar
