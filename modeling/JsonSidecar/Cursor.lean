/-
Module: JsonSidecar.Cursor
Purpose: A place in a text, and scanners that move it.  A cursor carries the bytes ahead of it, so a
  scanner cannot look back and the same bytes are scanned alike wherever they stand; the position is
  only counted along.  A scan that fails also says where it stopped.
Main exports: Cursor, Cursor.skipSpace, Cursor.eat?, Outcome, Scan, Scan.items
-/
import JsonSidecar.Bytes

namespace JsonSidecar

/-- A place in a text: how many bytes lie behind it, and the bytes ahead. -/
structure Cursor where
  pos : Nat
  rest : Bytes
deriving DecidableEq, Repr, Inhabited

namespace Cursor

/-- The cursor in front of a text. -/
def start (text : Bytes) : Cursor := ⟨0, text⟩

/-- The cursor at a position of a text; positions past the end stand for the end. -/
def seek (text : Bytes) (pos : Nat) : Cursor := ⟨min pos text.length, text.drop pos⟩

/-- The byte under the cursor. -/
def peek? (c : Cursor) : Option UInt8 := c.rest.head?

/-- The byte `n` places ahead of the cursor. -/
def peekAt? (c : Cursor) (n : Nat) : Option UInt8 := c.rest[n]?

/-- Whether no byte is left. -/
def atEnd (c : Cursor) : Bool := c.rest.isEmpty

/-- Pass over the longest run of bytes that satisfy `p`. -/
def skipWhile (p : UInt8 → Bool) (c : Cursor) : Cursor :=
  ⟨c.pos + (c.rest.takeWhile p).length, c.rest.dropWhile p⟩

/-- Pass over white space. -/
def skipSpace (c : Cursor) : Cursor := c.skipWhile Byte.isSpace

/-- Pass over decimal digits. -/
def skipDigits (c : Cursor) : Cursor := c.skipWhile Byte.isDigit

/-- Pass over the byte under the cursor if it satisfies `p`. -/
def passIf? (p : UInt8 → Bool) (c : Cursor) : Option Cursor :=
  match c.rest with
  | b :: rest => if p b then some ⟨c.pos + 1, rest⟩ else none
  | [] => none

/-- Pass over the byte `b` if it is under the cursor. -/
def eat? (b : UInt8) (c : Cursor) : Option Cursor := c.passIf? (· == b)

/-- Pass over a given run of bytes. -/
def eatAll? : Bytes → Cursor → Option Cursor
  | [], c => some c
  | b :: word, c => (c.eat? b).bind (eatAll? word)

/-- The bytes between a cursor and a later one in the same text. -/
def span (c : Cursor) (later : Cursor) : Bytes := c.rest.take (later.pos - c.pos)

end Cursor

/-- What a scan comes to: a value and the cursor behind it, or an error and the cursor where the scan
    stopped. -/
inductive Outcome (ε α : Type) where
  | ok (value : α) (after : Cursor)
  | fail (error : ε) (stop : Cursor)
deriving DecidableEq, Repr

namespace Outcome

variable {ε ε' α β : Type}

/-- Change the value. -/
def map (f : α → β) : Outcome ε α → Outcome ε β
  | .ok a c => .ok (f a) c
  | .fail e c => .fail e c

/-- Change the error, which may depend on where the scan stopped. -/
def mapError (f : ε → Cursor → ε') : Outcome ε α → Outcome ε' α
  | .ok a c => .ok a c
  | .fail e c => .fail (f e c) c

/-- Go on from the cursor behind the value. -/
def bind (r : Outcome ε α) (f : α → Cursor → Outcome ε β) : Outcome ε β :=
  match r with
  | .ok a c => f a c
  | .fail e c => .fail e c

/-- The cursor a scan leaves behind, whether or not it succeeded. -/
def cursor : Outcome ε α → Cursor
  | .ok _ c => c
  | .fail _ c => c

end Outcome

/-- A scanner with errors of type `ε` and values of type `α`. -/
def Scan (ε α : Type) : Type := Cursor → Outcome ε α

namespace Scan

variable {ε α β : Type}

instance : Monad (Scan ε) where
  pure a := fun c => .ok a c
  bind p f := fun c => (p c).bind fun a c => f a c

@[simp] theorem pure_apply (a : α) (c : Cursor) : (pure a : Scan ε α) c = .ok a c := rfl

@[simp] theorem bind_apply (p : Scan ε α) (f : α → Scan ε β) (c : Cursor) :
    (p >>= f) c = (p c).bind fun a c => f a c := rfl

/-- Stop here with an error. -/
def fail (error : ε) : Scan ε α := fun c => .fail error c

/-- Pass over white space. -/
def skipSpace : Scan ε Unit := fun c => .ok () c.skipSpace

/-- The cursor itself. -/
def here : Scan ε Cursor := fun c => .ok c c

/-- Pass over `b` after white space, or stop there with an error that may tell the place. -/
def expect (b : UInt8) (missing : Cursor → ε) : Scan ε Unit := fun c =>
  match c.skipSpace.eat? b with
  | some c => .ok () c
  | none => .fail (missing c.skipSpace) c.skipSpace

/-- The items of a list after its opening bracket, up to and with its closing bracket `close`.  Items
    are separated by commas, and one comma may follow the last.  The first argument bounds the number
    of items: with one more than the bytes ahead it is no bound, because an item takes a byte. -/
def items (close : UInt8) (missing : Cursor → ε) (item : Scan ε α) : Nat → Scan ε (List α)
  | 0 => fun c => .fail (missing c) c
  | bound + 1 => fun c =>
    match c.skipSpace.eat? close with
    | some c => .ok [] c
    | none => (item c.skipSpace).bind fun a c =>
      match c.skipSpace.eat? Byte.comma with
      | some c => (items close missing item bound c).map (a :: ·)
      | none =>
        match c.skipSpace.eat? close with
        | some c => .ok [a] c
        | none => .fail (missing c.skipSpace) c.skipSpace

/-- The items of a list after its opening bracket; see `items`. -/
def itemsUpTo (close : UInt8) (missing : Cursor → ε) (item : Scan ε α) : Scan ε (List α) :=
  fun c => items close missing item (c.rest.length + 1) c

end Scan

end JsonSidecar
