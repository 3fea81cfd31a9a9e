/-
Module: JsonSidecar.Zstd.Sequences
Purpose: The section of a block that tells how its contents arise: each sequence copies some literals and
  then some bytes that came before.  Lengths and distances are written as codes with additional bits,
  and the codes of each kind come from states of their own.
Main exports: Sequence, Recent, Tables, Sequences.read?
-/
import JsonSidecar.Zstd.Fse

namespace JsonSidecar.Zstd

/-- Copy some literals, and then some bytes from a distance back. -/
structure Sequence where
  literals : Nat
  length : Nat
  distance : Nat
deriving DecidableEq, Repr

/-- The last three distances, the latest first. -/
structure Recent where
  first : Nat
  second : Nat
  third : Nat
deriving DecidableEq, Repr

/-- What has a code: the number of literals, the distance, and the length of a copy. -/
inductive CodeKind where
  | literals
  | distance
  | copied
deriving DecidableEq, Repr

/-- The tables by which codes are read. -/
structure Tables where
  literals : Table
  distance : Table
  length : Table
deriving DecidableEq, Repr

namespace CodeKind

/-- The additional bits of each code of a kind. -/
def widths : CodeKind → List Nat
  | .literals =>
    List.replicate 16 0 ++ [1, 1, 1, 1, 2, 2, 3, 3, 4, 6, 7, 8, 9, 10, 11, 12, 13, 14, 15, 16]
  | .distance => List.range 32
  | .copied =>
    List.replicate 32 0 ++ [1, 1, 1, 1, 2, 2, 3, 3, 4, 4, 5, 7, 8, 9, 10, 11, 12, 13, 14, 15, 16]

/-- The least value that has a code. -/
def least : CodeKind → Nat
  | .literals => 0
  | .distance => 1
  | .copied => 3

/-- The greatest code. -/
def maxCode (kind : CodeKind) : Nat := kind.widths.length - 1

/-- The least value of a code: the values of one code begin where those of the code before it end. -/
def base (kind : CodeKind) (code : Nat) : Nat :=
  kind.least + ((kind.widths.take code).map (2 ^ ·)).sum

/-- The greatest size of a table, as a power of two. -/
def maxLog : CodeKind → Nat
  | .literals => 9
  | .distance => 8
  | .copied => 9

/-- The distribution that holds where none is given. -/
def usual : CodeKind → Distribution
  | .literals =>
    ⟨6, [4, 3, 2, 2, 2, 2, 2, 2, 2, 2, 2, 2, 2, 1, 1, 1, 2, 2, 2, 2, 2, 2, 2, 2, 2, 3, 2, 1, 1, 1, 1, 1,
      -1, -1, -1, -1]⟩
  | .distance =>
    ⟨5, [1, 1, 1, 1, 1, 1, 2, 2, 2, 1, 1, 1, 1, 1, 1, 1, 1, 1, 1, 1, 1, 1, 1, 1, -1, -1, -1, -1, -1]⟩
  | .copied =>
    ⟨6, [1, 4, 3, 2, 2, 2, 2, 2, 2] ++ List.replicate 37 1 ++ List.replicate 7 (-1)⟩

/-- The table to read codes of a kind by, and how many bytes tell it.  Modes: the usual table, one code
    throughout, a distribution, the table used last. -/
def readTable? (kind : CodeKind) (mode : Nat) (last : Option Table) (bytes : Array UInt8) :
    Option (Table × Nat) :=
  match mode with
  | 0 => some (kind.usual.table, 0)
  | 1 => do
    let code ← bytes[0]?
    if code.toNat ≤ kind.maxCode then some (Table.constant code.toNat, 1) else none
  | 2 => do
    let (d, length) ← Distribution.read? kind.maxCode bytes
    if d.log ≤ kind.maxLog then some (d.table, length) else none
  | _ => last.map fun table => (table, 0)

/-- The value of a code, with its additional bits read. -/
def value? (kind : CodeKind) (code : Nat) (bits : Backward) : Option (Nat × Backward) := do
  let (n, bits) ← bits.read? (kind.widths.getD code 0)
  return (kind.base code + n, bits)

end CodeKind

namespace Recent

/-- What holds at the beginning of a frame. -/
def start : Recent := ⟨1, 4, 8⟩

/-- The distance that a value stands for, and the distances that are recent afterwards.  Values above
    three stand for themselves less three.  The others name a recent distance, where no literals come
    before the next one in age, and in the last place the latest less one. -/
def resolve (recent : Recent) (value literals : Nat) : Nat × Recent :=
  if 3 < value then (value - 3, ⟨value - 3, recent.first, recent.second⟩)
  else
    match (if literals = 0 then value + 1 else value) with
    | 1 => (recent.first, recent)
    | 2 => (recent.second, ⟨recent.second, recent.first, recent.third⟩)
    | 3 => (recent.third, ⟨recent.third, recent.first, recent.second⟩)
    | _ => (recent.first - 1, ⟨recent.first - 1, recent.first, recent.second⟩)

end Recent

namespace Sequences

/-- How many sequences there are, and how many bytes tell it. -/
def count? (bytes : Array UInt8) : Option (Nat × Nat) := do
  let first := (← bytes[0]?).toNat
  if first < 128 then return (first, 1)
  else if first < 255 then
    let second ← bytes[1]?
    return ((first - 128) * 256 + second.toNat, 2)
  else if 3 ≤ bytes.size then return (bytesAt bytes 2 1 + 0x7f00, 3)
  else none

/-- The tables for a block, and how many bytes tell them: a byte of modes, whose last bits are unused,
    and the tables one after another. -/
def readTables? (known : Option Tables) (bytes : Array UInt8) : Option (Tables × Nat) := do
  let modes := (← bytes[0]?).toNat
  if modes % 4 ≠ 0 then none
  let (literals, a) ← CodeKind.literals.readTable? (modes / 64) (known.map Tables.literals)
    (bytes.extract 1 bytes.size)
  let (distance, b) ← CodeKind.distance.readTable? (modes / 16 % 4) (known.map Tables.distance)
    (bytes.extract (1 + a) bytes.size)
  let (length, c) ← CodeKind.copied.readTable? (modes / 4 % 4) (known.map Tables.length)
    (bytes.extract (1 + a + b) bytes.size)
  return (⟨literals, distance, length⟩, 1 + a + b + c)

/-- The states of the three tables. -/
structure States where
  literals : Nat
  distance : Nat
  length : Nat
deriving DecidableEq, Repr

/-- Read sequences one by one.  After each but the last the states move on; at the end all bits are
    used up. -/
def readEach (tables : Tables) : Nat → States → Recent → Backward → Option (List Sequence × Recent)
  | 0, _, recent, bits => if bits.left = 0 then some ([], recent) else none
  | more + 1, states, recent, bits => do
    let literalsCode := (tables.literals.cell states.literals).symbol
    let distanceCode := (tables.distance.cell states.distance).symbol
    let lengthCode := (tables.length.cell states.length).symbol
    let (value, bits) ← CodeKind.distance.value? distanceCode bits
    let (length, bits) ← CodeKind.copied.value? lengthCode bits
    let (literals, bits) ← CodeKind.literals.value? literalsCode bits
    let (distance, recent) := recent.resolve value literalsCode
    let (states, bits) ←
      if more = 0 then some (states, bits)
      else do
        let (literals, bits) ← tables.literals.next? states.literals bits
        let (length, bits) ← tables.length.next? states.length bits
        let (distance, bits) ← tables.distance.next? states.distance bits
        some (⟨literals, distance, length⟩, bits)
    let (rest, recent) ← readEach tables more states recent bits
    return (⟨literals, length, distance⟩ :: rest, recent)

/-- Read the section of sequences, which takes all the bytes given.  What later blocks may refer to comes
    with it. -/
def read? (known : Option Tables) (recent : Recent) (bytes : Array UInt8) :
    Option (List Sequence × Option Tables × Recent) := do
  let (count, length) ← count? bytes
  if count = 0 then
    if length = bytes.size then some ([], known, recent) else none
  else
    let bytes := bytes.extract length bytes.size
    let (tables, length) ← readTables? known bytes
    let bits ← Backward.ofBytes? (bytes.extract length bytes.size)
    let (literalsState, bits) ← bits.read? tables.literals.log
    let (distanceState, bits) ← bits.read? tables.distance.log
    let (lengthState, bits) ← bits.read? tables.length.log
    let (sequences, recent) ←
      readEach tables count ⟨literalsState, distanceState, lengthState⟩ recent bits
    return (sequences, some tables, recent)

end Sequences

end JsonSidecar.Zstd
