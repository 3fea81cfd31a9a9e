/-
Module: JsonSidecar.Zstd.Earlier.Literals
Purpose: The section of literals in blocks of the earlier versions.  Its header is a number whose first byte
  counts most; only the fourth version writes it the other way round.  Behind the literals lie eight more
  bytes, which are copied with the last literals but count for nothing.
Main exports: readTree?, Literals, Literals.read?
-/
import JsonSidecar.Zstd.Earlier.Version
import JsonSidecar.Zstd.Literals
import JsonSidecar.Zstd.Register

namespace JsonSidecar.Zstd.Earlier

/-! ### Trees -/

/-- The greatest size of a table for weights, as a power of two. -/
def maxWeightLog : Nat := 12

/-- Weights from two states in turn to the end of the bits, where both states are zero.  A `steady` table
    uses a bit for every state and needs no look at the states. -/
def weightsToEnd (table : Table) (steady : Bool) : Nat → Register → Nat → Nat → Option (List Nat)
  | 0, r, state, other => if r.refill.isEmpty && state = 0 && other = 0 then some [] else none
  | room + 1, r, state, other =>
    let r := r.refill
    if r.isOverdrawn || (r.isEmpty && (steady || state = 0)) then
      if r.isEmpty && state = 0 && other = 0 then some [] else none
    else do
      let (next, r) := table.move state r
      let weights ← weightsToEnd table steady room r other next
      return (table.cell state).symbol :: weights

/-- Weights from two states in turn, at most `bound + 1`, until more bits are taken than there are; then
    the other state yields the last one. -/
def weightsPastEnd (table : Table) : Nat → Register → Nat → Nat → Option (List Nat)
  | 0, _, _, _ => none
  | bound + 1, r, state, other =>
    let weight := (table.cell state).symbol
    let (next, r) := table.move state r
    let r := r.refill
    if r.isOverdrawn then some [weight, (table.cell other).symbol]
    else do
      let weights ← weightsPastEnd table bound r other next
      return weight :: weights

/-- A distribution that is followed by at least four bytes in all. -/
def readDistribution? (maxSymbol maxLog : Nat) (bytes : Array UInt8) :
    Option (Distribution × Nat) := do
  if bytes.size < 4 then none
  let (d, length) ← Distribution.read? maxSymbol bytes
  if d.log ≤ maxLog then some (d, length) else none

/-- Weights written with a distribution of their own. -/
def codedWeights (version : Version) (bytes : Array UInt8) : Option (List Nat) := do
  let (d, length) ← readDistribution? 255 maxWeightLog bytes
  let r ← Register.ofBytes? (bytes.extract length bytes.size)
  let (state, r) := d.table.start r
  let (other, r) := d.table.start r
  match version with
  | .fourth | .fifth =>
    let steady := d.counts.all fun count => count < 2 ^ (d.log - 1)
    weightsToEnd d.table steady 255 r state other
  | .sixth | .seventh => weightsPastEnd d.table 254 r state other

/-- How many weights of one a byte from 242 on stands for. -/
def onesOf (byte : Nat) : Nat :=
  [1, 2, 3, 4, 7, 8, 15, 16, 31, 32, 63, 64, 127, 128].getD (byte - 242) 0

/-- Read a tree from the beginning of some bytes, and tell how many of them it takes. -/
def readTree? (version : Version) (bytes : Array UInt8) : Option (Tree × Nat) := do
  let first ← bytes[0]?
  let (weights, length) ←
    if 242 ≤ first then some (List.replicate (onesOf first.toNat) 1, 1)
    else Tree.weightsAt? (codedWeights version) bytes
  return (Tree.ofWeights (← Tree.complete? weights), length)

/-! ### Literals in codes -/

/-- The times that reading takes for a compression in sixteenths, with single and with paired look-ups:
    once for the tree, and for every 256 literals. -/
def costs : List ((Nat × Nat) × (Nat × Nat)) :=
  [((0, 0), (1, 1)), ((0, 0), (1, 1)), ((38, 130), (1313, 74)), ((448, 128), (1353, 74)),
   ((556, 128), (1353, 74)), ((714, 128), (1418, 74)), ((883, 128), (1437, 74)),
   ((897, 128), (1515, 75)), ((926, 128), (1613, 75)), ((947, 128), (1729, 77)),
   ((1107, 128), (2083, 81)), ((1177, 128), (2379, 87)), ((1242, 128), (2415, 93)),
   ((1349, 128), (2644, 106)), ((1455, 128), (2422, 124)), ((722, 128), (1891, 145))]

/-- Whether pairs are looked up for so many literals in so many bytes, which are fewer: where that is
    expected to be quicker by more than a part, which grew with the seventh version. -/
def prefersPairs (version : Version) (count size : Nat) : Bool :=
  let ((tree, each), (pairTree, pairEach)) := costs.getD (size * 16 / count) ((0, 0), (1, 1))
  let single := tree + each * (count / 256)
  let paired := pairTree + pairEach * (count / 256)
  paired + paired / (if version = .seventh then 8 else 16) < single

/-- How many bits a look-up for pairs sees. -/
def pairBits : Nat := 12

/-- Read `count` symbols from four streams behind a table of the lengths of three of them.  Where there
    are too few symbols for four equal parts the first ones count. -/
def readFour? (tree : Tree) (count : Nat) (bytes : Array UInt8) : Option (Array UInt8) := do
  let streams := (← streamBounds? bytes).zip (quarters count)
  let symbols ← streams.foldlM (fun out ((first, stop), goal) =>
    tree.readAll? goal (bytes.extract first stop) out) #[]
  return symbols.extract 0 count

/-- A tree and what follows it, which is not nothing. -/
def splitTree? (version : Version) (codes : Array UInt8) : Option (Tree × Array UInt8) := do
  let (tree, length) ← readTree? version codes
  if length < codes.size then some (tree, codes.extract length codes.size) else none

/-- Literals in four streams, and their tree if they have one: some versions allow them to stand as they
    are where that takes no more room, and as one byte that is repeated. -/
def readSpread? (version : Version) (count : Nat) (codes : Array UInt8) :
    Option (Array UInt8 × Option Tree) := do
  let size := codes.size
  if count = 0 || count < size then none
  if count = size then
    match version with
    | .fourth | .sixth => return (codes, none)
    | .fifth | .seventh => none
  if size = 1 then
    if version = .seventh then none else return (Array.replicate count (codes.getD 0 0), none)
  let (tree, codes) ← splitTree? version codes
  let tree := { tree with pairBits := if prefersPairs version count size then pairBits else 0 }
  return (← readFour? tree count codes, some tree)

/-- Literals in one stream, and their tree. -/
def readSingle? (version : Version) (count : Nat) (codes : Array UInt8) :
    Option (Array UInt8 × Option Tree) := do
  let (tree, codes) ← splitTree? version codes
  if version = .fifth && count ≤ codes.size then none
  return (← tree.readAll? count codes #[], some tree)

/-! ### The section -/

/-- The literals of a block with the bytes behind them, how many there are, how many bytes their section
    takes, and the tree that later blocks may use. -/
structure Literals where
  content : Array UInt8
  count : Nat
  length : Nat
  tree : Option Tree
deriving DecidableEq, Repr

namespace Literals

/-- The number of bytes that lie behind the literals. -/
def margin : Nat := 8

/-- Literals with zeros behind them. -/
def ofContent (content : Array UInt8) (length : Nat) (tree : Option Tree) : Literals :=
  ⟨content ++ Array.replicate margin 0, content.size, length, tree⟩

/-- Literals that are one byte repeated. -/
def ofByte (byte : UInt8) (count length : Nat) (tree : Option Tree) : Literals :=
  ⟨Array.replicate (count + margin) byte, count, length, tree⟩

/-- The number whose `count` bytes begin a block, the first counting most. -/
def headOf (block : Array UInt8) (count : Nat) : Nat :=
  (block.extract 0 count).foldl (fun n byte => n * 256 + byte.toNat) 0

/-- The form of a header: two bits behind those of the kind. -/
def formOf (block : Array UInt8) : Nat := (block.getD 0 0).toNat / 16 % 4

/-- How many bytes the header of plain literals takes, and their number. -/
def plainSizes (block : Array UInt8) : Nat × Nat :=
  match formOf block with
  | 2 => (2, headOf block 2 % 2 ^ 12)
  | 3 => (3, headOf block 3 % 2 ^ 20)
  | _ => (1, headOf block 1 % 2 ^ 5)

/-- How many bytes the header of literals in codes takes, their number, and that of the bytes of codes. -/
def codedSizes (block : Array UInt8) : Nat × Nat × Nat :=
  let (header, width) :=
    match formOf block with
    | 2 => (4, 14)
    | 3 => (5, 18)
    | _ => (3, 10)
  let n := headOf block header
  (header, n / 2 ^ width % 2 ^ width, n % 2 ^ width)

/-- Literals as they are.  Where the block goes on far enough they are left in it, so that the bytes behind
    them are those of the block. -/
def readPlain? (tree : Option Tree) (block : Array UInt8) : Option Literals :=
  let (header, count) := plainSizes block
  let length := header + count
  if length + margin ≤ block.size then
    some ⟨block.extract header (length + margin), count, length, tree⟩
  else if length ≤ block.size then some (ofContent (block.extract header length) length tree)
  else none

/-- One byte repeated. -/
def readRepeated? (tree : Option Tree) (block : Array UInt8) : Option Literals := do
  let (header, count) := plainSizes block
  if maxBlock < count then none
  return ofByte (← block[header]?) count (header + 1) tree

/-- Literals in codes of a tree that is given with them, in one stream or in four. -/
def readCoded? (version : Version) (known : Option Tree) (block : Array UInt8) : Option Literals := do
  let (header, count, size) := codedSizes block
  if block.size < 5 || maxBlock < count || block.size < header + size then none
  let codes := block.extract header (header + size)
  let (content, tree) ←
    if formOf block = 1 then readSingle? version count codes else readSpread? version count codes
  return ofContent content (header + size) (tree <|> known)

/-- Literals in one stream of codes of the tree given last.  Only the seventh version keeps trees, and only
    paired ones serve. -/
def readAgain? (known : Option Tree) (block : Array UInt8) : Option Literals := do
  let (header, count, size) := codedSizes block
  let tree ← known
  if formOf block ≠ 1 || tree.pairBits = 0 || block.size < header + size then none
  let content ← tree.readAll? count (block.extract header (header + size)) #[]
  return ofContent content (header + size) known

/-- The section in the fourth version.  A kind and sizes of 22 or of twice 19 bits make its header, the
    first byte counting least.  Plain literals at the end of a block are taken from its beginning, header
    and all. -/
def readFourth? (block : Array UInt8) : Option Literals := do
  if block.size < 11 then none
  let plain := bitsAt block 2 22
  match bitsAt block 0 2 with
  | 0 =>
    let count := bitsAt block 2 19
    let size := bitsAt block 21 19
    if maxBlock < count || block.size < 5 + size then none
    let (content, _) ← readSpread? .fourth count (block.extract 5 (5 + size))
    return ofContent content (5 + size) none
  | 1 =>
    if 3 + plain + margin ≤ block.size then
      return ⟨block.extract 3 (3 + plain + margin), plain, 3 + plain, none⟩
    else if 3 + plain ≤ block.size then return ofContent (block.extract 0 plain) (3 + plain) none
    else none
  | 2 =>
    if maxBlock < plain then none
    return ofByte (block.getD 3 0) plain 4 none
  | _ => none

/-- Read the section at the beginning of a block. -/
def read? (version : Version) (known : Option Tree) (block : Array UInt8) : Option Literals :=
  if version = .fourth then readFourth? block
  else if block.size < 3 then none
  else
    match (block.getD 0 0).toNat / 64 with
    | 0 => readCoded? version known block
    | 1 => readAgain? known block
    | 2 => readPlain? known block
    | _ => readRepeated? known block

end Literals

end JsonSidecar.Zstd.Earlier
