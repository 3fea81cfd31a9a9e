/-
Module: JsonSidecar.Zstd.Earlier.Extended
Purpose: Sequences of the fourth and the fifth version.  Codes of lengths are the lengths themselves; the
  greatest code is extended by bytes that stand apart from the bits.  A distance of code zero is the one
  before, or with no literals the one before that.
Main exports: Extended.read?
-/
import JsonSidecar.Zstd.Earlier.Literals
import JsonSidecar.Zstd.Sequences

namespace JsonSidecar.Zstd.Earlier.Extended

/-- The number of bits of a code that is written as it is. -/
def plainBits : CodeKind → Nat
  | .literals => 6
  | .distance => 5
  | .copied => 7

/-- The greatest code. -/
def maxCode (kind : CodeKind) : Nat := 2 ^ plainBits kind - 1

/-- The greatest size of a table, as a power of two. -/
def maxLog : CodeKind → Nat
  | .literals => 10
  | .distance => 9
  | .copied => 10

/-- How the codes of a kind are told: as they are, as one code throughout, or by a distribution. -/
inductive Form where
  | plain
  | constant
  | told
deriving DecidableEq, Repr

/-- The form with a number.  One number of the fifth version stands for a table from a dictionary, which
    there never is. -/
def Form.ofNumber? (version : Version) (number : Nat) : Option Form :=
  if version = .fourth then
    match number with
    | 1 => some .plain
    | 2 => some .constant
    | _ => some .told
  else
    match number with
    | 0 => some .plain
    | 1 => some .constant
    | 3 => some .told
    | _ => none

/-- The table to read codes of a kind by, and how many bytes tell it.  A constant code needs a byte behind
    it, and a constant distance is cut to its bits. -/
def readTable? (kind : CodeKind) (form : Form) (bytes : Array UInt8) : Option (Table × Nat) :=
  match form with
  | .plain => some (Table.plain (plainBits kind), 0)
  | .constant => do
    if bytes.size < 2 then none
    let code := (bytes.getD 0 0).toNat
    return (Table.constant (if kind = .distance then code % 2 ^ plainBits kind else code), 1)
  | .told => do
    let (d, length) ← readDistribution? (maxCode kind) (maxLog kind) bytes
    return (d.table, length)

/-! ### Extensions -/

/-- The bytes that extend lengths: from position `place` up to `stop`. -/
structure Extensions where
  bytes : Array UInt8
  place : Nat
  stop : Nat
deriving DecidableEq, Repr

namespace Extensions

/-- Go on from a position; behind the last extension that one is read again. -/
def goOn (e : Extensions) (place : Nat) : Extensions :=
  { e with place := if e.stop ≤ place then e.stop - 1 else place }

/-- A long length behind the byte 255, in three bytes; in the fifth version in two whose lowest bit tells of
    a third one.  Where they are missing it is the greatest code. -/
def long (version : Version) (greatest : Nat) (e : Extensions) : Nat × Extensions :=
  if version = .fourth then
    if e.place + 3 ≤ e.stop then (bytesAt e.bytes 3 e.place, e.goOn (e.place + 3))
    else (greatest, e.goOn e.place)
  else if e.place + 2 ≤ e.stop then
    let n := bytesAt e.bytes 2 e.place
    if n % 2 = 1 && e.place + 2 < e.stop then
      (bytesAt e.bytes 3 e.place / 2, e.goOn (e.place + 3))
    else (n / 2, e.goOn (e.place + 2))
  else (greatest, e.goOn e.place)

/-- A length that begins with the greatest code.  Where no extension is left it ends there, but the fifth
    version takes the byte behind the extensions for a number of literals. -/
def extend (version : Version) (kind : CodeKind) (e : Extensions) : Nat × Extensions :=
  if e.stop ≤ e.place && !(version = .fifth && kind = .literals) then (maxCode kind, e.goOn e.place)
  else
    let add := (e.bytes.getD e.place 0).toNat
    let e := { e with place := e.place + 1 }
    if add < 255 then (maxCode kind + add, e.goOn e.place) else long version (maxCode kind) e

/-- The length that a code stands for. -/
def lengthOf (version : Version) (kind : CodeKind) (code : Nat) (e : Extensions) : Nat × Extensions :=
  if code = maxCode kind then e.extend version kind else (code, e)

end Extensions

/-! ### Reading sequences -/

/-- What sequences are read from: the states of the three tables, the bits, the extensions, the distance of
    the last sequence and the one that was kept before it. -/
structure State where
  literals : Nat
  distance : Nat
  length : Nat
  bits : Register
  extensions : Extensions
  last : Nat
  kept : Nat
deriving DecidableEq, Repr

/-- The least distance of each code but zero, which needs one bit less than its number says.  The last codes
    are not in use and stand for one. -/
def leastDistance (code : Nat) : Nat := if code = 0 || 26 < code then 1 else 2 ^ (code - 1)

/-- One sequence of the fifth version: the bits of the distance come first, and then the next states. -/
def stepFifth (tables : Tables) (s : State) : Sequence × State :=
  let code := (tables.literals.cell s.literals).symbol
  let (literals, extensions) := s.extensions.lengthOf .fifth .literals code
  let distanceCode := (tables.distance.cell s.distance).symbol
  let (n, bits) := s.bits.take (distanceCode - 1)
  let again := if code = 0 then s.kept else s.last
  let distance := if distanceCode = 0 then again else leastDistance distanceCode + n
  let (nextDistance, bits) := tables.distance.move s.distance bits
  let (nextLiterals, bits) := tables.literals.move s.literals bits
  let lengthCode := (tables.length.cell s.length).symbol
  let (nextLength, bits) := tables.length.move s.length bits
  let (length, extensions) := extensions.lengthOf .fifth .copied lengthCode
  let kept := if distanceCode ≠ 0 || literals = 0 then s.last else s.kept
  (⟨literals, length + 4, distance⟩,
    ⟨nextLiterals, nextDistance, nextLength, bits, extensions, distance, kept⟩)

/-- One sequence of the fourth version: every code is followed by its next state, and that of the distance
    by the bits of the distance. -/
def stepFourth (tables : Tables) (s : State) : Sequence × State :=
  let code := (tables.literals.cell s.literals).symbol
  let (nextLiterals, bits) := tables.literals.move s.literals s.bits
  let (literals, extensions) := s.extensions.lengthOf .fourth .literals code
  let distanceCode := (tables.distance.cell s.distance).symbol
  let (nextDistance, bits) := tables.distance.move s.distance bits
  let (n, bits) := bits.take (distanceCode - 1)
  let again := if code = 0 then s.kept else s.last
  let distance := if distanceCode = 0 then again else leastDistance distanceCode + n
  let lengthCode := (tables.length.cell s.length).symbol
  let (nextLength, bits) := tables.length.move s.length bits
  let (length, extensions) := extensions.lengthOf .fourth .copied lengthCode
  let kept := if distanceCode ≠ 0 || literals = 0 then s.last else s.kept
  (⟨literals, length + 4, distance⟩,
    ⟨nextLiterals, nextDistance, nextLength, bits, extensions, distance, kept⟩)

/-- Read sequences one by one.  None begins behind the end of the bits; in the fourth version the last one
    ends there. -/
def readEach (version : Version) (tables : Tables) : Nat → State → Option (List Sequence)
  | 0, s =>
    if version = .fourth && !s.bits.refill.isEmpty then none else some []
  | more + 1, s =>
    let s := { s with bits := s.bits.refill }
    if s.bits.isOverdrawn then none
    else do
      let (sequence, s) := if version = .fourth then stepFourth tables s else stepFifth tables s
      let rest ← readEach version tables more s
      return sequence :: rest

/-- How many sequences there are, and how many bytes tell it. -/
def count? (version : Version) (bytes : Array UInt8) : Option (Nat × Nat) := do
  if version = .fourth then
    if bytes.size < 5 then none else return (bytesAt bytes 2 0, 2)
  let first := (← bytes[0]?).toNat
  if first < 128 then return (first, 1)
  let second ← bytes[1]?
  return ((first - 128) * 256 + second.toNat, 2)

/-- The byte of forms with the number of extensions, which may need one byte more, and how many bytes they
    take. -/
def readForms? (bytes : Array UInt8) : Option (Nat × Nat × Nat) := do
  let forms := (← bytes[0]?).toNat
  if forms / 2 % 2 = 1 then
    let high ← bytes[1]?
    let low ← bytes[2]?
    return (forms, high.toNat * 256 + low.toNat, 3)
  let low ← bytes[1]?
  return (forms, forms % 2 * 256 + low.toNat, 2)

/-- Read the sequences from behind their number. -/
def readBehindCount? (version : Version) (count : Nat) (bytes : Array UInt8) :
    Option (List Sequence) := do
  let (forms, extra, start) ← readForms? bytes
  let stop := start + extra
  if bytes.size < stop + 3 then none
  let bytesFrom place := bytes.extract place bytes.size
  let (literals, a) ←
    readTable? .literals (← Form.ofNumber? version (forms / 64)) (bytesFrom stop)
  let (distance, b) ←
    readTable? .distance (← Form.ofNumber? version (forms / 16 % 4)) (bytesFrom (stop + a))
  let (length, c) ←
    readTable? .copied (← Form.ofNumber? version (forms / 4 % 4)) (bytesFrom (stop + a + b))
  if version = .fifth && count = 0 then return []
  let bits ← Register.ofBytes? (bytesFrom (stop + a + b + c))
  let (literalsState, bits) := literals.start bits
  let (distanceState, bits) := distance.start bits
  let (lengthState, bits) := length.start bits
  let first := if version = .fourth then 4 else 1
  readEach version ⟨literals, distance, length⟩ count
    ⟨literalsState, distanceState, lengthState, bits, ⟨bytes, start, stop⟩, first, first⟩

/-- Read the section of sequences, which takes all the bytes given.  In the fifth version a single zero ends
    it. -/
def read? (version : Version) (bytes : Array UInt8) : Option (List Sequence) := do
  let (count, length) ← count? version bytes
  if version = .fifth && length = 1 && count = 0 then return []
  readBehindCount? version count (bytes.extract length bytes.size)

end JsonSidecar.Zstd.Earlier.Extended
