/-
Module: JsonSidecar.Blob.Error
Purpose: The ways in which storing or fetching bytes outside the text can fail.
Main exports: IoKind, IoError, BlobError, BlobError.message
-/

namespace JsonSidecar

/-- The kinds of failures of the storage below. -/
inductive IoKind where
  | notFound
  | isADirectory
  | notADirectory
  | storageFull
  | unexpectedEnd
  | invalidInput
  | other
deriving DecidableEq, Repr

/-- A failure of the storage below, with its wording. -/
structure IoError where
  kind : IoKind
  message : String
deriving DecidableEq, Repr

namespace IoKind

/-- The wording of a failure that brings none of its own. -/
def message : IoKind → String
  | .notFound => "no such file or directory"
  | .isADirectory => "is a directory"
  | .notADirectory => "not a directory"
  | .storageFull => "no space left on device"
  | .unexpectedEnd => "incomplete frame"
  | .invalidInput => "invalid argument"
  | .other => "unknown frame"

/-- A failure of this kind. -/
def error (kind : IoKind) : IoError := ⟨kind, kind.message⟩

end IoKind

/-- Failures of a store of blobs. -/
inductive BlobError where
  | io (cause : IoError)
  | outOfRange (offset length available : Nat)
  | readOnly
  | writeOnly
  | closed
  | failed
deriving DecidableEq, Repr

/-- The wording of a failure. -/
def BlobError.message : BlobError → String
  | .io cause => "blob I/O error: " ++ cause.message
  | .outOfRange offset length available =>
    "blob range out of bounds: offset " ++ toString offset ++ " + " ++ toString length
      ++ " exceeds " ++ toString available ++ " bytes"
  | .readOnly => "blob store is read-only"
  | .writeOnly => "blob store is write-only"
  | .closed => "blob store is closed"
  | .failed => "blob store has a failed write"

end JsonSidecar
