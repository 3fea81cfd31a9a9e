/-
Module: JsonSidecar.Zstd.Codec
Purpose: The codec that programs run with: frames with what they hold as it stands, at every level, and a reader for all
  frames.
Main exports: Zstd.codec
-/
import JsonSidecar.File.Codec
import JsonSidecar.Zstd.Frame

namespace JsonSidecar.Zstd

instance codec : Codec where
  compress _ data := .ok (compress data)
  decompress bytes := (decompress bytes).mapError IoKind.error

end JsonSidecar.Zstd
