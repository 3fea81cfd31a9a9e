/-
Module: JsonSidecar.Zstd.Huffman
Purpose: Codes of variable length for bytes.  A tree is given by a weight for each byte: a code with a
  weight greater by one is shorter by one bit, and the last weight follows from the others because the
  codes use up all bit patterns.
Main exports: Tree, Tree.read?, Tree.symbolAt, Tree.readAll?
-/
import JsonSidecar.Zstd.Fse

namespace JsonSidecar.Zstd

/-- A tree as a table of all patterns of as many bits as the longest code has: the byte whose code begins
    the pattern, and the length of that code.  In a paired tree two codes that lie in the bits of one look-up
    are taken together; in others the number of these bits is zero. -/
structure Tree where
  log : Nat
  cells : Array (UInt8 × Nat)
  pairBits : Nat
deriving DecidableEq, Repr

namespace Tree

/-! ### Reading a tree -/

/-- The greatest length of a code. -/
def maxLog : Nat := 12

/-- Weights packed two to a byte, the first in the high half. -/
def packedWeights (count : Nat) (bytes : Array UInt8) : List Nat :=
  (List.range count).map fun i =>
    let byte := (bytes.getD (i / 2) 0).toNat
    if i % 2 = 0 then byte / 16 else byte % 16

/-- Weights from two states in turn, at most `bound + 1`.  When the bits do not suffice for the next
    state of the one, the other yields the last weight. -/
def alternate (table : Table) : Nat → Backward → Nat → Nat → Option (List Nat)
  | 0, _, _, _ => none
  | bound + 1, bits, state, other =>
    let weight := (table.cell state).symbol
    match table.next? state bits with
    | none => some [weight, (table.cell other).symbol]
    | some (state, bits) => do
      let weights ← alternate table bound bits other state
      return weight :: weights

/-- The greatest weight for which a table of a given size has room beside its states. -/
def weightRoom (log : Nat) : Nat := if log = 6 then 11 else 91

/-- Weights written with a distribution of their own. -/
def codedWeights (bytes : Array UInt8) : Option (List Nat) := do
  let (d, length) ← Distribution.read? 255 bytes
  if 6 < d.log || weightRoom d.log < d.counts.length - 1 then none
  let bits ← Backward.ofBytes? (bytes.extract length bytes.size)
  let (state, bits) ← bits.read? d.log
  let (other, bits) ← bits.read? d.log
  alternate d.table 254 bits state other

/-- The share of a weight among the patterns of the longest codes. -/
def share (weight : Nat) : Nat := 2 ^ weight / 2

/-- All weights, with the last one, which makes the shares add up to a power of two. -/
def complete? (weights : List Nat) : Option (List Nat) := do
  let total := (weights.map share).sum
  if total = 0 || weights.any (maxLog < ·) then none
  let log := total.log2 + 1
  let rest := 2 ^ log - total
  if maxLog < log || 2 ^ rest.log2 ≠ rest then none
  let weights := weights ++ [rest.log2 + 1]
  let longest := weights.count 1
  if longest < 2 || longest % 2 = 1 then none
  return weights

/-- The tree with given weights: longer codes first, and codes of one length in the order of bytes. -/
def ofWeights (weights : List Nat) : Tree :=
  let log := ((weights.map share).sum).log2
  let cells := (List.range log).flatMap fun i =>
    weights.zipIdx.flatMap fun (weight, byte) =>
      if weight = i + 1 then List.replicate (2 ^ i) (UInt8.ofNat byte, log - i) else []
  ⟨log, cells.toArray, 0⟩

/-- The weights at the beginning of some bytes, without the last one, and how many bytes they take: packed
    ones, or coded ones behind a byte that tells their length. -/
def weightsAt? (coded : Array UInt8 → Option (List Nat)) (bytes : Array UInt8) :
    Option (List Nat × Nat) := do
  let first ← bytes[0]?
  let packed := first.toNat - 127
  let length := 1 + if 128 ≤ first then (packed + 1) / 2 else first.toNat
  if bytes.size < length then none
  let content := bytes.extract 1 length
  let weights ← if 128 ≤ first then some (packedWeights packed content) else coded content
  return (weights, length)

/-- Read a tree from the beginning of some bytes, and tell how many of them it takes. -/
def read? (bytes : Array UInt8) : Option (Tree × Nat) := do
  let (weights, length) ← weightsAt? codedWeights bytes
  return (ofWeights (← complete? weights), length)

/-! ### Reading symbols -/

/-- The symbol whose code lies in front of bit `left`, and the length of its code. -/
def symbolAt (tree : Tree) (bytes : Array UInt8) (left : Nat) : UInt8 × Nat :=
  tree.cells.getD (peekBack bytes left tree.log) (0, 0)

/-- The second symbol of a look-up, if its code lies in the bits for pairs. -/
def secondAt (tree : Tree) (bytes : Array UInt8) (left first : Nat) : Option (UInt8 × Nat) :=
  let second := tree.symbolAt bytes (left - first)
  if first + second.2 ≤ tree.pairBits then some second else none

/-- Read `count` symbols whose codes lie in front of bit `left` and reach to the first bit.  Where a pair
    is looked up for the last symbol alone, its second code may stand for bits that are left over; and if
    there are none left at all, the look-up sees the first word once more. -/
def readExactly (tree : Tree) (bytes : Array UInt8) : Nat → Nat → Array UInt8 → Option (Array UInt8)
  | 0, left, out => if left = 0 then some out else none
  | 1, left, out =>
    let place := if left = 0 then 64 else left
    let (symbol, length) := tree.symbolAt bytes place
    let fits : Bool := match tree.secondAt bytes place length with
      | some (_, more) => left ≤ length + more
      | none => length = left
    if fits then some (out.push symbol) else none
  | count + 2, left, out =>
    let (symbol, length) := tree.symbolAt bytes left
    match tree.secondAt bytes left length with
    | some (second, more) =>
      if length + more ≤ left then
        readExactly tree bytes count (left - length - more) ((out.push symbol).push second)
      else none
    | none =>
      if length ≤ left then readExactly tree bytes (count + 1) (left - length) (out.push symbol) else none

/-- Read `count` symbols that fill some bytes. -/
def readAll? (tree : Tree) (count : Nat) (bytes : Array UInt8) (out : Array UInt8) :
    Option (Array UInt8) := do
  let bits ← Backward.ofBytes? bytes
  readExactly tree bytes count bits.left out

end Tree

end JsonSidecar.Zstd
