/-
Module: JsonSidecar.File.Config
Purpose: How values are kept in files: whether the stored arrays and the text are compressed, and how the
  names of the files of one value are made from its path.
Main exports: Compression, FileConfig, FileConfig.validate, FileConfig.blobsPath,
  FileConfig.compressedPath, ConfigError
-/

namespace JsonSidecar

/-- What becomes of stored arrays on their way into a file. -/
inductive Compression where
  | none
  | zstd (level : Int)
deriving DecidableEq, Repr

/-- The settings for value files. -/
structure FileConfig where
  compression : Compression
  /-- Appended to the name of a compressed file. -/
  compressedSuffix : String
  /-- Appended to the name of the text file to name the file of its stored arrays. -/
  blobsSuffix : String
  /-- Whether the text is compressed too. -/
  compressText : Bool
deriving DecidableEq, Repr

/-- The two suffixes. -/
inductive SuffixSetting where
  | compressed
  | blobs
deriving DecidableEq, Repr

/-- What can be wrong with the settings. -/
inductive ConfigError where
  | invalidLevel (level : Int)
  | emptySuffix (setting : SuffixSetting)
  | suffixClash
deriving DecidableEq, Repr

/-- The wording of an error. -/
def ConfigError.message : ConfigError → String
  | .invalidLevel level => "Compression level " ++ toString level ++ " is outside 1..=22"
  | .emptySuffix .compressed => "compressed_suffix must not be empty"
  | .emptySuffix .blobs => "blobs_suffix must not be empty"
  | .suffixClash => "compressed_suffix and blobs_suffix must differ"

/-- Whether stored arrays are compressed at all. -/
def Compression.isCompressed : Compression → Bool
  | .none => false
  | .zstd _ => true

namespace FileConfig

/-- Nothing is compressed. -/
def default : FileConfig := ⟨.none, ".zst", ".blobs", false⟩

/-- Everything is compressed, at the fastest level. -/
def testing : FileConfig := { default with compression := .zstd 1, compressText := true }

/-- Whether a compression has a level that exists. -/
def validLevel : Compression → Except ConfigError Unit
  | .none => .ok ()
  | .zstd level => if 1 ≤ level && level ≤ 22 then .ok () else .error (.invalidLevel level)

/-- Check the settings. -/
def validate (config : FileConfig) : Except ConfigError Unit := do
  validLevel config.compression
  if config.compressedSuffix = "" then throw (.emptySuffix .compressed)
  if config.blobsSuffix = "" then throw (.emptySuffix .blobs)
  if config.compressedSuffix = config.blobsSuffix then throw .suffixClash

/-- The file of the arrays stored for the text at `path`. -/
def blobsPath (config : FileConfig) (path : String) : String := path ++ config.blobsSuffix

/-- The level at which a text is compressed: that of the stored arrays, if they are compressed. -/
def textLevel (config : FileConfig) : Int :=
  match config.compression with
  | .none => 3
  | .zstd level => level

/-- The compressed form of the file at `path`. -/
def compressedPath (config : FileConfig) (path : String) : String := path ++ config.compressedSuffix

end FileConfig

end JsonSidecar
