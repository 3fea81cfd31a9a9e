/-
Module: JsonSidecar.Zstd.Register
Purpose: Bits that are taken, last to first, from a register of eight bytes.  The register moves towards the
  first byte only when it is refilled; until then more bits may be taken than it holds, and then its bits
  come once more.  This is how damaged streams are read where their end is not looked at.
Main exports: Register, Register.ofBytes?, Register.take, Register.refill
-/
import JsonSidecar.Zstd.Fse

namespace JsonSidecar.Zstd

/-- A register that holds eight bytes from position `first` on; `used` of their bits are taken. -/
structure Register where
  bytes : Array UInt8
  first : Nat
  used : Nat
deriving DecidableEq, Repr

namespace Register

/-- The register at the end of some bytes, whose highest bit is a mark.  Fewer than eight bytes stand at the
    low end of the register. -/
def ofBytes? (bytes : Array UInt8) : Option Register := do
  let last ← bytes.back?
  if last = 0 then none
  else some ⟨bytes, bytes.size - 8, 8 * (8 - bytes.size) + (8 - last.toNat.log2)⟩

/-- The bits that the register holds. -/
def word (r : Register) : UInt64 := UInt64.ofNat (bytesAt r.bytes 8 r.first)

/-- Take up to 63 bits.  The place of the first one counts modulo 64. -/
def take (count : Nat) (r : Register) : Nat × Register :=
  let rest := r.word <<< UInt64.ofNat r.used
  ((rest >>> 1 >>> UInt64.ofNat (63 - count)).toNat, { r with used := r.used + count })

/-- Whether more bits were taken than the register held. -/
def isOverdrawn (r : Register) : Bool := 64 < r.used

/-- Whether all bits are taken and no more. -/
def isEmpty (r : Register) : Bool := r.first = 0 && r.used = 64

/-- Move the register over the whole bytes that are taken, as far as there are bytes in front.  An
    overdrawn register stays. -/
def refill (r : Register) : Register :=
  if r.isOverdrawn then r
  else
    let count := min r.first (r.used / 8)
    { r with first := r.first - count, used := r.used - 8 * count }

end Register

namespace Table

/-- A first state, behind which the register is refilled. -/
def start (t : Table) (r : Register) : Nat × Register :=
  let (state, r) := r.take t.log
  (state, r.refill)

/-- The state after the given one. -/
def move (t : Table) (state : Nat) (r : Register) : Nat × Register :=
  let (n, r) := r.take (t.cell state).bits
  ((t.cell state).base + n, r)

/-- The table of a code that is written as it is, in some number of bits. -/
def plain (bits : Nat) : Table :=
  ⟨bits, ((List.range (2 ^ bits)).map fun symbol => ⟨symbol, bits, 0⟩).toArray⟩

end Table

end JsonSidecar.Zstd
