/-
Module: JsonSidecar.File.Codec
Purpose: The compression of files, which comes from outside.  All that is known of it is what it takes and gives; what
  may be relied on is a law of its own, which statements that need it name.
Main exports: Codec, Codec.Lossless
-/
import JsonSidecar.Blob.Error
import JsonSidecar.Bytes

namespace JsonSidecar

/-- A way to compress bytes at a level and to get them back.  Either may fail. -/
class Codec where
  compress (level : Int) (data : Bytes) : Except IoError Bytes
  decompress (bytes : Bytes) : Except IoError Bytes

/-- Decompression undoes compression, at every level. -/
def Codec.Lossless [Codec] : Prop :=
  ∀ (level : Int) (data bytes : Bytes), Codec.compress level data = .ok bytes → Codec.decompress bytes = .ok data

end JsonSidecar
