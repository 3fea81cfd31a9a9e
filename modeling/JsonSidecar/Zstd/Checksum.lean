/-
Module: JsonSidecar.Zstd.Checksum
Purpose: The 64-bit XXH64 digest with seed zero, by which a frame checks its contents.  Stripes of four
  words run through four lanes; what is left over is mixed in word by word and byte by byte.
Main exports: Xxh64.digest
-/
import JsonSidecar.Bytes

namespace JsonSidecar.Zstd.Xxh64

/-- A word turned left by some bits. -/
def rotateLeft (word : UInt64) (count : UInt64) : UInt64 :=
  (word <<< count) ||| (word >>> (64 - count))

/-- The first of the five odd constants. -/
def prime1 : UInt64 := 11400714785074694791

/-- The second constant. -/
def prime2 : UInt64 := 14029467366897019727

/-- The third constant. -/
def prime3 : UInt64 := 1609587929392839161

/-- The fourth constant. -/
def prime4 : UInt64 := 9650029242287828579

/-- The fifth constant. -/
def prime5 : UInt64 := 2870177450012600261

/-- Put one word into a lane. -/
def mixLane (lane word : UInt64) : UInt64 := rotateLeft (lane + word * prime2) 31 * prime1

/-- Put a lane into the digest. -/
def mergeLane (digest lane : UInt64) : UInt64 := (digest ^^^ mixLane 0 lane) * prime1 + prime4

/-- Put a word into the digest. -/
def mixWord (digest word : UInt64) : UInt64 :=
  rotateLeft (digest ^^^ mixLane 0 word) 27 * prime1 + prime4

/-- Put half a word into the digest. -/
def mixHalf (digest half : UInt64) : UInt64 := rotateLeft (digest ^^^ half * prime1) 23 * prime2 + prime3

/-- Put a byte into the digest. -/
def mixByte (digest : UInt64) (byte : UInt8) : UInt64 :=
  rotateLeft (digest ^^^ byte.toUInt64 * prime5) 11 * prime1

/-- Run all whole stripes through the lanes; the words that make no stripe are left. -/
def mixStripes (a b c d : UInt64) : List UInt64 → (UInt64 × UInt64 × UInt64 × UInt64) × List UInt64
  | w :: x :: y :: z :: rest =>
    mixStripes (mixLane a w) (mixLane b x) (mixLane c y) (mixLane d z) rest
  | rest => ((a, b, c, d), rest)

/-- Spread every bit of the digest over all of it. -/
def avalanche (digest : UInt64) : UInt64 :=
  let digest := (digest ^^^ (digest >>> 33)) * prime2
  let digest := (digest ^^^ (digest >>> 29)) * prime3
  digest ^^^ (digest >>> 32)

/-- A number in little-endian bytes as a word. -/
def wordOf (bytes : Bytes) : UInt64 := UInt64.ofNat (ofLittleEndian bytes)

/-- The digest of some bytes. -/
def digest (bytes : Bytes) : UInt64 :=
  let words := (chunks 8 (bytes.length / 8) bytes).map wordOf
  let tail := bytes.drop (bytes.length / 8 * 8)
  let ((a, b, c, d), words) := mixStripes (prime1 + prime2) prime2 0 (0 - prime1) words
  let lanes := rotateLeft a 1 + rotateLeft b 7 + rotateLeft c 12 + rotateLeft d 18
  let start := if bytes.length < 32 then prime5 else [a, b, c, d].foldl mergeLane lanes
  let digest := words.foldl mixWord (start + UInt64.ofNat bytes.length)
  let (digest, tail) :=
    if 4 ≤ tail.length then (mixHalf digest (wordOf (tail.take 4)), tail.drop 4) else (digest, tail)
  avalanche (tail.foldl mixByte digest)

end JsonSidecar.Zstd.Xxh64
