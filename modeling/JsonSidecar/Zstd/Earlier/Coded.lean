/-
Module: JsonSidecar.Zstd.Earlier.Coded
Purpose: Sequences of the sixth and the seventh version, whose codes and additional bits are those of today.
  The end of the bits is looked at only in front of each sequence.
Main exports: Coded.read?
-/
import JsonSidecar.Zstd.Earlier.Literals
import JsonSidecar.Zstd.Sequences

namespace JsonSidecar.Zstd.Earlier.Coded

/-- The greatest code. -/
def maxCode : CodeKind → Nat
  | .literals => 35
  | .distance => 28
  | .copied => 52

/-- The table to read codes of a kind by, and how many bytes tell it.  Forms: the usual table, one code
    throughout, the table used last, a distribution. -/
def readTable? (kind : CodeKind) (form : Nat) (last : Option Table) (bytes : Array UInt8) :
    Option (Table × Nat) :=
  match form with
  | 0 => some (kind.usual.table, 0)
  | 1 => do
    let code ← bytes[0]?
    if code.toNat ≤ maxCode kind then some (Table.constant code.toNat, 1) else none
  | 2 => last.map fun table => (table, 0)
  | _ => do
    let (d, length) ← readDistribution? (maxCode kind) kind.maxLog bytes
    return (d.table, length)

/-- The distance that a value stands for, and the distances that are recent afterwards.  Values above two
    stand for themselves less two; without literals the first two change places. -/
def resolve (recent : Recent) (value literalsCode : Nat) : Nat × Recent :=
  if 2 < value then (value - 2, ⟨value - 2, recent.first, recent.second⟩)
  else
    match (if literalsCode = 0 && value ≤ 1 then 1 - value else value) with
    | 0 => (recent.first, recent)
    | 1 => (recent.second, ⟨recent.second, recent.first, recent.third⟩)
    | _ => (recent.third, ⟨recent.third, recent.first, recent.second⟩)

/-- The least value of a code for distances.  The last two codes are not in use in the sixth version and
    stand for one there. -/
def leastValue (version : Version) (code : Nat) : Nat :=
  if version = .sixth && 26 < code then 1 else 2 ^ code - 1

/-- What sequences are read from: the states of the three tables, the bits, and the recent distances. -/
structure State where
  literals : Nat
  distance : Nat
  length : Nat
  bits : Register
  recent : Recent
deriving DecidableEq, Repr

/-- How many additional bits the register can yield in front of the next states without being refilled. -/
def bitsInReach : Nat := 31

/-- The value of a code with its additional bits. -/
def valueOf (kind : CodeKind) (code : Nat) (bits : Register) : Nat × Register :=
  let (n, bits) := bits.take (kind.widths.getD code 0)
  (kind.base code + n, bits)

/-- One sequence. -/
def step (version : Version) (tables : Tables) (s : State) : Sequence × State :=
  let literalsCode := (tables.literals.cell s.literals).symbol
  let distanceCode := (tables.distance.cell s.distance).symbol
  let lengthCode := (tables.length.cell s.length).symbol
  let (n, bits) := s.bits.take distanceCode
  let (distance, recent) := resolve s.recent (leastValue version distanceCode + n) literalsCode
  let (length, bits) := valueOf .copied lengthCode bits
  let (literals, bits) := valueOf .literals literalsCode bits
  let bits := if bitsInReach < bits.used - s.bits.used then bits.refill else bits
  let (nextLiterals, bits) := tables.literals.move s.literals bits
  let (nextLength, bits) := tables.length.move s.length bits
  let (nextDistance, bits) := tables.distance.move s.distance bits
  (⟨literals, length, distance⟩, ⟨nextLiterals, nextDistance, nextLength, bits, recent⟩)

/-- Read sequences one by one; none begins behind the end of the bits. -/
def readEach (version : Version) (tables : Tables) :
    Nat → State → Option (List Sequence × Recent)
  | 0, s => some ([], s.recent)
  | more + 1, s =>
    let s := { s with bits := s.bits.refill }
    if s.bits.isOverdrawn then none
    else do
      let (sequence, s) := step version tables s
      let (rest, recent) ← readEach version tables more s
      return (sequence :: rest, recent)

/-- The tables for a block, and how many bytes tell them. -/
def readTables? (known : Option Tables) (bytes : Array UInt8) : Option (Tables × Nat) := do
  if bytes.size < 4 then none
  let forms := (bytes.getD 0 0).toNat
  let bytesFrom place := bytes.extract place bytes.size
  let (literals, a) ←
    readTable? .literals (forms / 64) (known.map Tables.literals) (bytesFrom 1)
  let (distance, b) ←
    readTable? .distance (forms / 16 % 4) (known.map Tables.distance) (bytesFrom (1 + a))
  let (length, c) ←
    readTable? .copied (forms / 4 % 4) (known.map Tables.length) (bytesFrom (1 + a + b))
  return (⟨literals, distance, length⟩, 1 + a + b + c)

/-- Read the section of sequences, which takes all the bytes given.  What later blocks may refer to comes
    with it; tables that no sequence used count only in the place of others. -/
def read? (version : Version) (known : Option Tables) (recent : Recent) (bytes : Array UInt8) :
    Option (List Sequence × Option Tables × Recent) := do
  let (count, length) ← Sequences.count? bytes
  if length = 1 && count = 0 then return ([], known, recent)
  let bytes := bytes.extract length bytes.size
  let (tables, length) ← readTables? known bytes
  if count = 0 then return ([], known.map fun _ => tables, recent)
  let bits ← Register.ofBytes? (bytes.extract length bytes.size)
  let (literalsState, bits) := tables.literals.start bits
  let (distanceState, bits) := tables.distance.start bits
  let (lengthState, bits) := tables.length.start bits
  let (sequences, recent) ←
    readEach version tables count ⟨literalsState, distanceState, lengthState, bits, recent⟩
  return (sequences, some tables, recent)

end JsonSidecar.Zstd.Earlier.Coded
