/-
Module: JsonSidecar.Error
Purpose: Whatever can go wrong with encoded values, for callers that do not tell the cases apart.
Main exports: Error, Error.message
-/
import JsonSidecar.Decode.Failure

namespace JsonSidecar

/-- A text that cannot be read, a store that fails, or storage that fails outside a store. -/
inductive Error where
  | decode (cause : DecodeError)
  | blob (cause : BlobError)
  | io (cause : IoError)
deriving DecidableEq, Repr

/-- The wording of an error. -/
def Error.message : Error → String
  | .decode cause => cause.message
  | .blob cause => cause.message
  | .io cause => "I/O error: " ++ cause.message

end JsonSidecar
