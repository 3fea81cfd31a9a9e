/-
Module: JsonSidecar.Zstd.Earlier.Ring
Purpose: The buffer in which frames of the earlier versions are unpacked.  It is filled from the beginning
  and starts over when it gets full.  Copies reach into the present run and the one before it, as far as
  that has not been overwritten; they go in steps of eight bytes and may write behind their end.
Main exports: Ring, Ring.start, Ring.append?, Ring.run?, Ring.turn
-/
import JsonSidecar.Zstd.Sequences

namespace JsonSidecar.Zstd.Earlier

/-- A buffer of some size: what has been written so far, the place to write next, and where the run before
    the present one ended, or zero if there is none. -/
structure Ring where
  size : Nat
  memory : Array UInt8
  place : Nat
  lastEnd : Nat
deriving DecidableEq, Repr

/-- Literals that are copied one after another: the bytes in memory, the number of literals, and how many
    are used. -/
structure Supply where
  bytes : Array UInt8
  count : Nat
  used : Nat
deriving DecidableEq, Repr

namespace Ring

/-- An empty buffer. -/
def start (size : Nat) : Ring := ⟨size, #[], 0, 0⟩

/-- Write a byte at a place at most one behind the last one written. -/
def put (memory : Array UInt8) (place : Nat) (byte : UInt8) : Array UInt8 :=
  if place < memory.size then memory.setIfInBounds place byte else memory.push byte

/-- Write bytes from a place on. -/
def write (memory : Array UInt8) (place : Nat) (bytes : Array UInt8) : Array UInt8 :=
  (bytes.foldl (fun (memory, place) byte => (put memory place byte, place + 1)) (memory, place)).1

/-- Write bytes from a place on, each a copy of the one at a distance back. -/
def copyBack (distance : Nat) : Nat → Nat → Array UInt8 → Array UInt8
  | 0, _, memory => memory
  | count + 1, place, memory =>
    copyBack distance count (place + 1) (put memory place (memory.getD (place - distance) 0))

/-- The length of the steps of a copy, of which there is at least one. -/
def steps (count : Nat) : Nat := 8 * max 1 ((count + 7) / 8)

/-- How many bytes a copy of `count` bytes to a place writes.  Near the end of the buffer it takes care to
    stay inside. -/
def copyLength (size leastCopy place count : Nat) : Nat :=
  if size + leastCopy < place + count + 16 then
    if place + 16 < size then max count (8 + steps (size - place - 16)) else max 8 count
  else 8 + steps (count - 8)

/-- Copy `count` bytes from a distance back, which lies in the present run. -/
def copyNear (leastCopy distance count place : Nat) (ring : Ring) : Ring :=
  { ring with
    memory := copyBack distance (copyLength ring.size leastCopy place count) place ring.memory }

/-- Copy bytes that begin `behind` bytes in front of the present run: at first those of the run before it,
    all at once, and then those from the beginning of the present run. -/
def copyFar (leastCopy distance count behind : Nat) (ring : Ring) : Ring :=
  let first := min count behind
  let origin := ring.lastEnd - behind
  let ring :=
    { ring with memory := write ring.memory ring.place (ring.memory.extract origin (origin + first)) }
  let place := ring.place + first
  let count := count - first
  if count = 0 then ring
  else if ring.size < place + 8 || count < leastCopy then
    { ring with memory := copyBack distance count place ring.memory }
  else copyNear leastCopy distance count place ring

/-- Run one sequence: copy literals from the supply, then bytes from a distance back.  The literals end at
    least eight bytes in front of the end of the buffer. -/
def step? (leastCopy : Nat) (s : Sequence) (supply : Supply) (ring : Ring) : Option (Supply × Ring) :=
  let place := ring.place + s.literals
  let behind := s.distance - place
  if ring.size < place + 8 || ring.size < place + s.length || supply.count < supply.used + s.literals
      || ring.lastEnd < behind then none
  else
    let literals := supply.bytes.extract supply.used (supply.used + steps s.literals)
    let ring := { ring with memory := write ring.memory ring.place literals, place := place }
    let ring :=
      if behind = 0 then copyNear leastCopy s.distance s.length place ring
      else copyFar leastCopy s.distance s.length behind ring
    some ({ supply with used := supply.used + s.literals }, { ring with place := place + s.length })

/-- Append bytes, if there is room. -/
def append? (bytes : Array UInt8) (ring : Ring) : Option Ring :=
  if ring.size < ring.place + bytes.size then none
  else some { ring with memory := write ring.memory ring.place bytes, place := ring.place + bytes.size }

/-- Run sequences, and append the literals that are left over. -/
def run? (leastCopy : Nat) : List Sequence → Supply → Ring → Option Ring
  | [], supply, ring => ring.append? (supply.bytes.extract supply.used supply.count)
  | s :: rest, supply, ring => do
    let (supply, ring) ← step? leastCopy s supply ring
    run? leastCopy rest supply ring

/-- Start over, if there might be no room for another block of a given size. -/
def turn (block : Nat) (ring : Ring) : Ring :=
  if ring.size < ring.place + block then { ring with place := 0, lastEnd := ring.place } else ring

/-- The bytes written since the place was at some other. -/
def since (place : Nat) (ring : Ring) : Array UInt8 := ring.memory.extract place ring.place

end Ring

end JsonSidecar.Zstd.Earlier
