/-
Module: JsonSidecar.Zstd.Literals
Purpose: The section of a block that holds its literals: as they are, as one byte repeated, or in codes
  of a tree, which is given with them or is the last one given before.
Main exports: Literals, Literals.read?
-/
import JsonSidecar.Zstd.Lanes

namespace JsonSidecar.Zstd

/-- The literals of a block, how many bytes their section takes, and the tree that later blocks may use. -/
structure Literals where
  content : Array UInt8
  length : Nat
  tree : Option Tree
deriving DecidableEq, Repr

namespace Literals

/-- The least number of literals that may be spread over four streams. -/
def leastForFour : Nat := 6

/-- The times that reading takes for a compression in sixteenths, with single and with paired look-ups:
    once for the tree, and for every 256 literals. -/
def costs : List ((Nat × Nat) × (Nat × Nat)) :=
  [((0, 0), (1, 1)), ((0, 0), (1, 1)), ((150, 216), (381, 119)), ((170, 205), (514, 112)),
   ((177, 199), (539, 110)), ((197, 194), (644, 107)), ((221, 192), (735, 107)),
   ((256, 189), (881, 106)), ((359, 188), (1167, 109)), ((582, 187), (1570, 114)),
   ((688, 187), (1712, 122)), ((825, 186), (1965, 136)), ((976, 185), (2131, 150)),
   ((1180, 186), (2070, 175)), ((1377, 185), (1731, 202)), ((1412, 185), (1695, 202))]

/-- Whether pairs are looked up for so many literals in so many bytes: where that is expected to be
    quicker by more than a little. -/
def prefersPairs (count size : Nat) : Bool :=
  let ratio := if count ≤ size then 15 else size * 16 / count
  let ((tree, each), (pairTree, pairEach)) := costs.getD ratio ((0, 0), (1, 1))
  let single := tree + each * (count / 256)
  let paired := pairTree + pairEach * (count / 256)
  paired + paired / 32 < single

/-- Literals without codes: `size` bytes behind a header of one, two or three, where the repeated form
    has one byte in their place. -/
def readPlain? (limit : Nat) (repeated : Bool) (tree : Option Tree) (block : Array UInt8) :
    Option Literals := do
  let form := bitsAt block 2 2
  let (header, size) :=
    if form = 1 then (2, bitsAt block 4 12)
    else if form = 3 then (3, bitsAt block 4 20)
    else (1, bitsAt block 3 5)
  let length := header + if repeated then 1 else size
  if limit < size || block.size < length then none
  let content :=
    if repeated then Array.replicate size (block.getD header 0) else block.extract header length
  return ⟨content, length, tree⟩

/-- The sizes of literals in codes: of the header, of the literals and of the codes. -/
def codedSizes (block : Array UInt8) : Nat × Nat × Nat :=
  let form := bitsAt block 2 2
  let width := if form = 2 then 14 else if form = 3 then 18 else 10
  ((4 + 2 * width) / 8, bitsAt block 4 width, bitsAt block (4 + width) width)

/-- Literals in codes of a tree, in one stream or in four. -/
def readCoded? (limit : Nat) (known : Option Tree) (given : Bool) (block : Array UInt8) :
    Option Literals := do
  let (header, count, size) := codedSizes block
  let four := bitsAt block 2 2 ≠ 0
  if block.size < 5 || limit < count || block.size < header + size then none
  if four && count < leastForFour then none
  let codes := block.extract header (header + size)
  let (tree, codes) ←
    if given then do
      let (tree, length) ← Tree.read? codes
      let tree :=
        if four && prefersPairs count size then { tree with pairBits := max 11 tree.log } else tree
      if length < size then some (tree, codes.extract length size) else none
    else known.map fun tree => (tree, codes)
  let content ← if four then tree.readFour? count codes else tree.readAll? count codes #[]
  return ⟨content, header + size, tree⟩

/-- Read the literals at the beginning of a block; there may be at most `limit` of them. -/
def read? (limit : Nat) (known : Option Tree) (block : Array UInt8) : Option Literals :=
  match bitsAt block 0 2 with
  | 0 => readPlain? limit false known block
  | 1 => readPlain? limit true known block
  | 2 => readCoded? limit known true block
  | _ => readCoded? limit known false block

end Literals

end JsonSidecar.Zstd
