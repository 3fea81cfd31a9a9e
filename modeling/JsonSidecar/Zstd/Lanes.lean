/-
Module: JsonSidecar.Zstd.Lanes
Purpose: Literals in four parts whose codes lie in four streams one behind the other.  Short streams are
  read one by one, and each must be used up exactly.  Long ones are read side by side in rounds, and
  then the state of a stream is looked at only between rounds: one that is damaged may run into the
  stream in front of it without being noticed.
Main exports: Tree.readFour?
-/
import JsonSidecar.Zstd.Huffman

namespace JsonSidecar.Zstd

/-- A stream that is read side by side with others: the number of its first byte, the bits of all streams
    that lie in front of what is to be read next, the number of the word that holds these bits, the
    symbols read, and how many there are to be. -/
structure Lane where
  first : Nat
  left : Nat
  word : Nat
  out : Array UInt8
  goal : Nat
deriving DecidableEq, Repr

namespace Lane

/-- The lane of a stream that takes the bytes from `first` to `stop`.  Where the closing mark is missing
    all bits count. -/
def start (bytes : Array UInt8) (first stop goal : Nat) : Lane :=
  let last := (bytes.getD (stop - 1) 0).toNat
  let unused := if last = 0 then 0 else 8 - last.log2
  ⟨first, 8 * stop - unused, stop - 8, Array.emptyWithCapacity goal, goal⟩

/-- Read the symbols of one look-up. -/
def step (tree : Tree) (bytes : Array UInt8) (lane : Lane) : Lane :=
  let (symbol, length) := tree.symbolAt bytes lane.left
  match tree.secondAt bytes lane.left length with
  | some (second, more) =>
    { lane with left := lane.left - length - more, out := (lane.out.push symbol).push second }
  | none => { lane with left := lane.left - length, out := lane.out.push symbol }

/-- Read the symbols of five look-ups, and move on to the word that holds what comes next. -/
def round (tree : Tree) (bytes : Array UInt8) (lane : Lane) : Lane :=
  let lane := (List.range 5).foldl (fun lane _ => lane.step tree bytes) lane
  { lane with word := (lane.left + 7) / 8 - 8 }

/-- The position `count` bits in front of another.  The first word is read over and over, so behind its
    first bit comes its last one. -/
def back (left count : Nat) : Nat :=
  if count < left then left - count else left + 64 - count

/-- Read the symbols still missing from the bits in front of `left`. -/
def fill (tree : Tree) (bytes : Array UInt8) : Nat → Nat → Array UInt8 → Array UInt8
  | 0, _, out => out
  | 1, left, out => out.push (tree.symbolAt bytes left).1
  | missing + 2, left, out =>
    let (symbol, length) := tree.symbolAt bytes left
    match tree.secondAt bytes left length with
    | some (second, more) =>
      fill tree bytes missing (back left (length + more)) ((out.push symbol).push second)
    | none => fill tree bytes (missing + 1) (back left length) (out.push symbol)

/-- How many symbols are missing. -/
def missing (lane : Lane) : Nat := lane.goal - lane.out.size

/-- The symbols of a lane after the rounds, unless it has run a whole word past its beginning. -/
def finish? (tree : Tree) (bytes : Array UInt8) (lane : Lane) : Option (Array UInt8) :=
  if lane.word + 8 < lane.first then none
  else some (fill tree bytes lane.missing lane.left lane.out)

end Lane

/-- Rounds for all lanes until the last lane has `limit` symbols. -/
def runRounds (tree : Tree) (bytes : Array UInt8) (limit : Nat) : Nat → List Lane → List Lane
  | 0, lanes => lanes
  | bound + 1, lanes =>
    if (lanes.getLast?.map fun lane => lane.out.size).getD 0 < limit then
      runRounds tree bytes limit bound (lanes.map (Lane.round tree bytes))
    else lanes

/-- How many rounds are safe: seven bytes and, for each lane that counts, the symbols that a round may
    yield. -/
def safeRounds (tree : Tree) (lanes : List Lane) : Nat :=
  let input := (lanes.head?.map fun lane => lane.word / 7).getD 0
  let output :=
    if 0 < tree.pairBits then lanes.map fun lane => lane.missing / 10
    else lanes.getLast?.toList.map fun lane => lane.missing / 5
  output.foldl min input

/-- Whether every lane stands behind the one before it. -/
def inOrder : List Lane → Bool
  | a :: b :: rest => a.word ≤ b.word && inOrder (b :: rest)
  | _ => true

/-- Read side by side as long as it is safe. -/
def runLanes (tree : Tree) (bytes : Array UInt8) : Nat → List Lane → List Lane
  | 0, lanes => lanes
  | bound + 1, lanes =>
    let rounds := safeRounds tree lanes
    if rounds = 0 || !inOrder lanes then lanes
    else
      let size := (lanes.getLast?.map fun lane => lane.out.size).getD 0
      runLanes tree bytes bound (runRounds tree bytes (size + 5 * rounds) rounds lanes)

/-- The first and the last byte of four streams behind a table of the lengths of three of them. -/
def streamBounds? (bytes : Array UInt8) : Option (List (Nat × Nat)) :=
  let a := 6 + bytesAt bytes 2 0
  let b := a + bytesAt bytes 2 2
  let c := b + bytesAt bytes 2 4
  if bytes.size < 10 || bytes.size < c then none
  else some [(6, a), (a, b), (b, c), (c, bytes.size)]

/-- How many of `count` symbols each of four streams holds. -/
def quarters (count : Nat) : List Nat :=
  let quarter := (count + 3) / 4
  [quarter, quarter, quarter, count - 3 * quarter]

/-- Read `count` symbols, of which there are at least six, from four streams. -/
def Tree.readFour? (tree : Tree) (count : Nat) (bytes : Array UInt8) : Option (Array UInt8) := do
  let streams := (← streamBounds? bytes).zip (quarters count)
  if tree.log ≤ 11 && 3 * ((count + 3) / 4) < count
      && streams.all (fun ((first, stop), _) => 8 ≤ stop - first) then
    let lanes := streams.map fun ((first, stop), goal) => Lane.start bytes first stop goal
    let lanes := runLanes tree bytes count lanes
    let parts ← lanes.mapM (Lane.finish? tree bytes)
    return parts.foldl (· ++ ·) #[]
  else
    streams.foldlM (fun out ((first, stop), goal) =>
      tree.readAll? goal (bytes.extract first stop) out) #[]

end JsonSidecar.Zstd
