/-
Module: JsonSidecar.Zstd.Bits
Purpose: Bit strings packed into bytes, lowest bit first.  Some are read forwards from a position; others
  are read backwards, from a mark that closes them to their first bit.
Main exports: bitsAt, peekBack, Backward, Backward.ofBytes?, Backward.read?
-/
import JsonSidecar.Bytes

namespace JsonSidecar.Zstd

/-- The number whose `count` bytes stand from position `first` on, least significant first.  Behind the
    last byte there are zeros. -/
def bytesAt (bytes : Array UInt8) : Nat → Nat → Nat
  | 0, _ => 0
  | count + 1, first => (bytes.getD first 0).toNat + 256 * bytesAt bytes count (first + 1)

/-- The number whose `count` bits stand from bit `start` on. -/
def bitsAt (bytes : Array UInt8) (start count : Nat) : Nat :=
  (bytesAt bytes ((start % 8 + count + 7) / 8) (start / 8) >>> (start % 8)) % 2 ^ count

/-- The `count` bits in front of bit `left`.  In front of the first bit there are zeros. -/
def peekBack (bytes : Array UInt8) (left count : Nat) : Nat :=
  if count ≤ left then bitsAt bytes (left - count) count
  else bitsAt bytes 0 left <<< (count - left)

/-- Bits that are read from the last to the first; `left` of them are still to come. -/
structure Backward where
  bytes : Array UInt8
  left : Nat
deriving DecidableEq, Repr

namespace Backward

/-- The bits in front of the mark, which is the highest one of the last byte. -/
def ofBytes? (bytes : Array UInt8) : Option Backward := do
  let last ← bytes.back?
  if last = 0 then none
  else some ⟨bytes, 8 * (bytes.size - 1) + last.toNat.log2⟩

/-- Read the next `count` bits, if there are so many. -/
def read? (count : Nat) (bits : Backward) : Option (Nat × Backward) :=
  if count ≤ bits.left then
    some (bitsAt bits.bytes (bits.left - count) count, { bits with left := bits.left - count })
  else none

end Backward

end JsonSidecar.Zstd
