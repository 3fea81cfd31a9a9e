/-
Module: JsonSidecar.Zstd.Frame
Purpose: Frames of the Zstandard format.  The writer puts the contents into blocks as they are, which is a
  valid frame at every compression level.  The reader takes frames one behind the other.  It reads a
  frame whole and straight into the buffer of its caller if it has all of it and the contents fit; it
  reads all others block by block into a buffer of its own, where it is stricter about blocks and more
  lenient about an empty block at the end.
Main exports: compress, decompress, readFrame, readFrames
-/
import JsonSidecar.File.Source
import JsonSidecar.Zstd.Block
import JsonSidecar.Zstd.Earlier.Frame

namespace JsonSidecar.Zstd

/-! ### Writing -/

/-- Contents cut into plain blocks; the number bounds how many. -/
def plainBlocks : Nat → Bytes → Bytes
  | 0, data => BlockHeader.bytes ⟨true, .plain, data.length⟩ ++ data
  | bound + 1, data =>
    if data.length ≤ maxBlock then BlockHeader.bytes ⟨true, .plain, data.length⟩ ++ data
    else
      BlockHeader.bytes ⟨false, .plain, maxBlock⟩ ++ data.take maxBlock
        ++ plainBlocks bound (data.drop maxBlock)

/-- A frame with the given contents.  Its header tells a window of one block and nothing else. -/
def compress (data : Bytes) : Bytes :=
  magic ++ [0x00, 0x38] ++ plainBlocks (data.length / maxBlock) data

/-! ### Reading a frame -/

/-- How a frame is read: straight into a buffer with some room, or through the reader's own buffer. -/
inductive Target where
  | direct (room : Nat)
  | buffered
deriving DecidableEq, Repr

/-- What has been read of a frame: its contents, what later blocks may refer to, and where the last two
    runs through the reader's own buffer began. -/
structure Progress where
  content : Array UInt8
  memory : Memory
  older : Nat
  newer : Nat
deriving DecidableEq, Repr

namespace Progress

/-- Nothing has been read. -/
def start : Progress := ⟨#[], Memory.start, 0, 0⟩

end Progress

/-- The size of the reader's own buffer: the window, two blocks and a margin, unless all the contents
    take less. -/
def ringSize (header : Header) : Nat :=
  max header.window 1024 + 2 * header.blockLimit + 64

/-- Whether all the contents have a place in the reader's own buffer. -/
def fitsRing (header : Header) : Bool := header.size.any (· ≤ ringSize header)

/-- How many bytes the next block may yield. -/
def roomFor (header : Header) (target : Target) (progress : Progress) : Nat :=
  match target with
  | .direct room => room - progress.content.size
  | .buffered =>
    if fitsRing header then min header.blockLimit (header.size.getD 0 - progress.content.size)
    else header.blockLimit

/-- Add the contents of a block.  The reader's own buffer starts over when another block might not fit
    behind this one. -/
def Progress.add (header : Header) (target : Target) (progress : Progress) (content : Array UInt8)
    (memory : Memory) : Progress :=
  let next := { progress with content := content, memory := memory }
  if target = .buffered && !fitsRing header
      && ringSize header < content.size - progress.newer + header.blockLimit then
    { next with older := progress.newer, newer := content.size }
  else next

/-- Read the bytes of one block.  Plain bytes are passed on as they come, so that too many are noticed
    before all of them are there. -/
def readBlock (header : Header) (target : Target) (block : BlockHeader) (progress : Progress)
    (bytes : Bytes) : Except IoKind (Progress × Bytes) := do
  let room := roomFor header target progress
  if block.kind = .plain && room < min block.size bytes.length then throw .other
  let (data, rest) ← take? block.length bytes
  match block.kind with
  | .plain =>
    return (progress.add header target (progress.content ++ data) progress.memory, rest)
  | .repeated =>
    if room < block.size then throw .other
    let data := data.flatMap (List.replicate block.size)
    return (progress.add header target (progress.content ++ data) progress.memory, rest)
  | .compressed =>
    match Block.read? header.blockLimit room progress.older progress.memory progress.content
        data.toArray with
    | some (content, memory) => return (progress.add header target content memory, rest)
    | none => throw .other

/-- Whether the contents have the size that was told.  Read block by block, an empty last block ends a
    frame without this being asked. -/
def sizeHolds (header : Header) (target : Target) (block : BlockHeader) (progress : Progress) : Bool :=
  (target = .buffered && block.length = 0) || header.size.all (· = progress.content.size)

/-- Read the blocks of a frame to the last one; the number bounds them. -/
def readBlocks (header : Header) (target : Target) :
    Nat → Progress → Bytes → Except IoKind (Progress × Bytes)
  | 0, _, _ => .error .unexpectedEnd
  | bound + 1, progress, bytes => do
    let (block, bytes) ← BlockHeader.read bytes
    if target = .buffered && header.blockLimit < block.length then throw .other
    let (progress, bytes) ←
      if target = .buffered && block.length = 0 then pure (progress, bytes)
      else readBlock header target block progress bytes
    if block.last then
      if sizeHolds header target block progress then return (progress, bytes) else throw .other
    readBlocks header target bound progress bytes

/-- The four bytes that check some contents. -/
def checksumOf (content : Array UInt8) : Bytes := littleEndian 4 (Xxh64.digest content.toList).toNat

/-- Read the blocks of a frame and the checksum behind them. -/
def readContent (header : Header) (target : Target) (bytes : Bytes) :
    Except IoKind (Array UInt8 × Bytes) := do
  if header.dictionary ≠ 0 then throw .other
  let (progress, bytes) ← readBlocks header target (bytes.length + 1) Progress.start bytes
  if header.checksum then
    let (check, bytes) ← take? 4 bytes
    if check = checksumOf progress.content then return (progress.content, bytes) else throw .other
  return (progress.content, bytes)

/-- How many bytes the blocks of a frame take, as far as their headers tell; the number bounds them. -/
def blocksLength? : Nat → Bytes → Option Nat
  | 0, _ => none
  | bound + 1, bytes => do
    let (block, bytes) ← (BlockHeader.read bytes).toOption
    if bytes.length < block.length then none
    else if block.last then return 3 + block.length
    else
      let more ← blocksLength? bound (bytes.drop block.length)
      return 3 + block.length + more

/-- The greatest window for which the reader makes itself a buffer. -/
def maxWindow : Nat := 2 ^ 27 + 1

/-- Whether a frame whose header has been read lies whole in the first `present` bytes behind it. -/
def isPresent (header : Header) (present : Nat) (bytes : Bytes) : Bool :=
  (blocksLength? (bytes.length + 1) bytes).any fun length =>
    length + (if header.checksum then 4 else 0) ≤ present

/-- Read a frame from behind its first four bytes.  The caller's buffer has some room, and the bytes
    that are at hand are the first `present`. -/
def readFrame (room present : Nat) (bytes : Bytes) : Except IoKind (Array UInt8 × Bytes) := do
  let (header, rest) ← Header.read bytes
  let present := present - (bytes.length - rest.length)
  if header.size.any (· ≤ room) && isPresent header present rest then
    readContent header (.direct room) rest
  else if maxWindow < header.window then throw .other
  else readContent header .buffered rest

/-! ### Reading frame after frame -/

/-- Whether some bytes begin a frame to be skipped. -/
def isSkippable (start : Bytes) : Bool :=
  match start with
  | first :: rest => 0x50 ≤ first && first < 0x60 && rest == [0x2a, 0x4d, 0x18].take rest.length
  | [] => true

/-- What follows a frame to be skipped, from behind its first four bytes. -/
def skipFrame (bytes : Bytes) : Except IoKind Bytes := do
  let (length, bytes) ← take? 4 bytes
  let (_, bytes) ← take? (ofLittleEndian length) bytes
  return bytes

/-- The contents of all frames behind contents already read, given the buffers that frames of earlier
    versions left; the first number bounds the frames, and the second is that of all bytes.  Four bytes
    alone do not make the beginning of a frame, and one of an earlier version is known only by five bytes
    of the same portion. -/
def readFrames : Nat → Nat → Option Earlier.Buffers → Array UInt8 → Bytes →
    Except IoKind (Array UInt8)
  | 0, _, _, content, _ => .ok content
  | bound + 1, total, kept, content, bytes => do
    if bytes.isEmpty then return content
    let start := bytes.take 4
    if bytes.length < 5 then
      throw (if start = magic.take start.length || isSkippable start then .unexpectedEnd else .other)
    if start = magic then
      let (more, rest) ←
        readFrame (readIncrement content.size) (atHand total bytes - 4) (bytes.drop 4)
      readFrames bound total kept (content ++ more) rest
    else if isSkippable start then
      readFrames bound total kept content (← skipFrame (bytes.drop 4))
    else
      match Earlier.Version.ofStart? start with
      | some version =>
        if atHand total bytes < 5 then throw .other
        let (more, kept, rest) ← Earlier.readFrame version kept total (bytes.drop 4)
        readFrames bound total (some kept) (content ++ more) rest
      | none => throw .other

/-- The contents of a compressed file, which holds at least one frame. -/
def decompress (bytes : Bytes) : Except IoKind Bytes := do
  if bytes.isEmpty then throw .unexpectedEnd
  return (← readFrames bytes.length bytes.length none #[] bytes).toList

end JsonSidecar.Zstd
