/-
Module: JsonSidecar.Decode.Session
Purpose: One decode in progress, for readers that are run one after another on the same text.  The first
  failure is kept; whatever runs after it neither hides nor replaces it.
Main exports: DecodeSession, DecodeSession.run, DecodeSession.error
-/
import JsonSidecar.Decode.Typed

namespace JsonSidecar

/-- A decode in progress. -/
structure DecodeSession where
  text : Bytes
  store : Option BlobView
  cursor : Cursor
  failure : Option Failure

namespace DecodeSession

/-- A decode that has not begun. -/
def start (text : Bytes) (store : Option BlobView) : DecodeSession :=
  ⟨text, store, Cursor.start text, none⟩

/-- Move the cursor to a position. -/
def seek (s : DecodeSession) (pos : Nat) : DecodeSession :=
  { s with cursor := Cursor.seek s.text pos }

/-- Run a reader.  There is no value if it fails, and its failure is kept if it is the first. -/
def run {α : Type} (reader : Reader α) (s : DecodeSession) : Option α × DecodeSession :=
  match reader s.cursor with
  | .ok a c => (some a, { s with cursor := c })
  | .fail e c => (none, { s with cursor := c, failure := s.failure.or (some e) })

/-- The kept failure as an error of the whole text. -/
def error (s : DecodeSession) : DecodeError :=
  (s.failure.getD ⟨"value", .unknown, s.cursor.pos⟩).inText s.text

end DecodeSession

end JsonSidecar
