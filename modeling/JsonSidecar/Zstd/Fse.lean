/-
Module: JsonSidecar.Zstd.Fse
Purpose: Finite state entropy.  A distribution tells how many of the states of a table stand for each
  symbol; the table tells for each state its symbol and how the next state follows from a few bits.
Main exports: Distribution, Distribution.read?, Distribution.table, Table, Table.constant, Table.cell
-/
import JsonSidecar.Zstd.Bits

namespace JsonSidecar.Zstd

/-- How many of `2 ^ log` states each symbol has.  The count of a symbol whose share is less than one
    state is -1; it has one state all the same. -/
structure Distribution where
  log : Nat
  counts : List Int
deriving DecidableEq, Repr

/-- What a state stands for: its symbol, and that the next state is `base` plus a number of `bits`. -/
structure Cell where
  symbol : Nat
  bits : Nat
  base : Nat
deriving DecidableEq, Repr, Inhabited

/-- The cells of `2 ^ log` states. -/
structure Table where
  log : Nat
  cells : Array Cell
deriving DecidableEq, Repr

/-! ### Reading a distribution -/

/-- One count and the number of its bits.  It is written in as few bits as its greatest possible value
    allows, and the low values in one bit less where there is room for that. -/
def countAt (bytes : Array UInt8) (pos remaining : Nat) : Int × Nat :=
  let width := remaining.log2
  let spare := 2 ^ (width + 1) - 1 - remaining
  let short := bitsAt bytes pos width
  if short < spare then ((short : Int) - 1, width)
  else
    let long := bitsAt bytes pos (width + 1)
    let value := if long < 2 ^ width then long else long - spare
    ((value : Int) - 1, width + 1)

/-- How many symbols behind an absent one are absent too, and the position behind that number: pairs of
    bits are added up to the first that is not full.  The first argument bounds the pairs. -/
def absentRun (bytes : Array UInt8) : Nat → Nat → Nat × Nat
  | 0, pos => (0, pos)
  | bound + 1, pos =>
    let pair := bitsAt bytes pos 2
    if pair = 3 then
      let (more, pos) := absentRun bytes bound (pos + 2)
      (more + 3, pos)
    else (pair, pos + 2)

/-- The counts of at most `room` symbols, of which the first `absent` are known not to occur, and the
    position behind them.  They end when the states are used up. -/
def readCounts (bytes : Array UInt8) : Nat → Nat → Nat → Nat → Option (List Int × Nat)
  | 0, _, _, _ => none
  | room + 1, absent + 1, pos, remaining => do
    let (counts, pos) ← readCounts bytes room absent pos remaining
    return (0 :: counts, pos)
  | room + 1, 0, pos, remaining => do
    let (count, width) := countAt bytes pos remaining
    let pos := pos + width
    let remaining := remaining - count.natAbs
    if remaining ≤ 1 then return ([count], pos)
    let (absent, pos) := if count = 0 then absentRun bytes room pos else (0, pos)
    let (counts, pos) ← readCounts bytes room absent pos remaining
    return (count :: counts, pos)

namespace Distribution

/-- Read a distribution of symbols up to `maxSymbol` from the beginning of some bytes, and tell how many
    of them it takes. -/
def read? (maxSymbol : Nat) (bytes : Array UInt8) : Option (Distribution × Nat) := do
  let log := bitsAt bytes 0 4 + 5
  let (counts, pos) ← if log ≤ 15 then readCounts bytes (maxSymbol + 1) 0 4 (2 ^ log + 1) else none
  let length := (pos + 7) / 8
  if length ≤ bytes.size then some (⟨log, counts⟩, length) else none

/-! ### Building a table -/

/-- The symbols with less than one state, in order. -/
def rare (d : Distribution) : List Nat :=
  d.counts.zipIdx.filterMap fun (count, symbol) => if count = -1 then some symbol else none

/-- The other symbols in order, each as often as it has states. -/
def common (d : Distribution) : List Nat :=
  d.counts.zipIdx.flatMap fun (count, symbol) => List.replicate count.toNat symbol

/-- The symbols of the states.  Rare symbols take the last states from the end; the others are laid out
    over the states before them in strides that meet every state once. -/
def symbols (d : Distribution) : Array Nat :=
  let size := 2 ^ d.log
  let stride := size / 2 + size / 8 + 3
  let places := (List.range size).map fun i => i * stride % size
  let places := places.filter (· < size - d.rare.length)
  let states := (places.zip d.common).foldl (fun states (place, symbol) =>
    states.setIfInBounds place symbol) (Array.replicate size 0)
  d.rare.zipIdx.foldl (fun states (symbol, i) => states.setIfInBounds (size - 1 - i) symbol) states

/-- The table of a distribution.  The states of one symbol share out all states in order, some taking
    twice as many as others. -/
def table (d : Distribution) : Table :=
  let next := (d.counts.map Int.natAbs).toArray
  let (cells, _) := d.symbols.foldl (fun (cells, next) symbol =>
    let n := next.getD symbol 0
    let bits := d.log - n.log2
    (cells.push ⟨symbol, bits, n <<< bits - 2 ^ d.log⟩, next.setIfInBounds symbol (n + 1)))
    (Array.emptyWithCapacity (2 ^ d.log), next)
  ⟨d.log, cells⟩

end Distribution

namespace Table

/-- The table of one symbol that always comes. -/
def constant (symbol : Nat) : Table := ⟨0, #[⟨symbol, 0, 0⟩]⟩

/-- The cell of a state. -/
def cell (t : Table) (state : Nat) : Cell := t.cells.getD state default

/-- The state after the given one. -/
def next? (t : Table) (state : Nat) (bits : Backward) : Option (Nat × Backward) := do
  let cell := t.cell state
  let (n, bits) ← bits.read? cell.bits
  return (cell.base + n, bits)

end Table

end JsonSidecar.Zstd
