/-
Module: JsonSidecar.Zstd.Block
Purpose: Compressed blocks.  A block adds to what came before it in its frame: its sequences copy from
  there and from its literals in turn, and the literals left over come last.  Trees, tables and recent
  distances stay for the blocks behind it.
Main exports: Memory, Memory.start, Block.read?
-/
import JsonSidecar.Zstd.Literals
import JsonSidecar.Zstd.Sequences

namespace JsonSidecar.Zstd

/-- What a block may refer to beside the contents before it. -/
structure Memory where
  tree : Option Tree
  tables : Option Tables
  recent : Recent
deriving DecidableEq, Repr

/-- The memory at the beginning of a frame. -/
def Memory.start : Memory := ⟨none, none, Recent.start⟩

namespace Block

/-- Add `count` bytes, each a copy of the one at a distance back.  Bytes just added may be copied again. -/
def copyBack (distance : Nat) : Nat → Array UInt8 → Array UInt8
  | 0, content => content
  | count + 1, content =>
    copyBack distance count (content.push (content.getD (content.size - distance) 0))

/-- Run sequences over the literals from position `used` on.  Distances reach back to position `oldest`,
    and the contents may grow to `limit` bytes. -/
def run (literals : Array UInt8) (oldest limit : Nat) :
    List Sequence → Nat → Array UInt8 → Option (Array UInt8)
  | [], used, content =>
    if content.size + (literals.size - used) ≤ limit then
      some (content ++ literals.extract used literals.size)
    else none
  | s :: rest, used, content =>
    let reach := content.size + s.literals - oldest
    if content.size + s.literals + s.length ≤ limit && used + s.literals ≤ literals.size
        && 0 < s.distance && s.distance ≤ reach then
      let content := content ++ literals.extract used (used + s.literals)
      run literals oldest limit rest (used + s.literals) (copyBack s.distance s.length content)
    else none

/-- Read a block behind some contents.  A block takes at most `size` bytes and yields at most `room`. -/
def read? (size room oldest : Nat) (memory : Memory) (content block : Array UInt8) :
    Option (Array UInt8 × Memory) := do
  if size < block.size || block.size < 2 then none
  let literals ← Literals.read? (min size room) memory.tree block
  let (sequences, tables, recent) ←
    Sequences.read? memory.tables memory.recent (block.extract literals.length block.size)
  let content ← run literals.content oldest (content.size + room) sequences 0 content
  return (content, ⟨literals.tree, tables, recent⟩)

end Block

end JsonSidecar.Zstd
