/-!
# The XXH3 digest

The 64-bit XXH3 digest with seed zero and the default secret. Short inputs are
mixed whole, in four classes by length. Inputs above 240 bytes run through eight
accumulators, 64 bytes at a time, which are scrambled after every 1024 bytes.

Bytes are read in little-endian order throughout. A read past the end gives
zeros; no length class makes one.
-/

namespace AtomicStyles.Xxh3

/-- The default secret. -/
def secret : ByteArray := ⟨#[
  0xb8, 0xfe, 0x6c, 0x39, 0x23, 0xa4, 0x4b, 0xbe, 0x7c, 0x01, 0x81, 0x2c, 0xf7, 0x21, 0xad, 0x1c,
  0xde, 0xd4, 0x6d, 0xe9, 0x83, 0x90, 0x97, 0xdb, 0x72, 0x40, 0xa4, 0xa4, 0xb7, 0xb3, 0x67, 0x1f,
  0xcb, 0x79, 0xe6, 0x4e, 0xcc, 0xc0, 0xe5, 0x78, 0x82, 0x5a, 0xd0, 0x7d, 0xcc, 0xff, 0x72, 0x21,
  0xb8, 0x08, 0x46, 0x74, 0xf7, 0x43, 0x24, 0x8e, 0xe0, 0x35, 0x90, 0xe6, 0x81, 0x3a, 0x26, 0x4c,
  0x3c, 0x28, 0x52, 0xbb, 0x91, 0xc3, 0x00, 0xcb, 0x88, 0xd0, 0x65, 0x8b, 0x1b, 0x53, 0x2e, 0xa3,
  0x71, 0x64, 0x48, 0x97, 0xa2, 0x0d, 0xf9, 0x4e, 0x38, 0x19, 0xef, 0x46, 0xa9, 0xde, 0xac, 0xd8,
  0xa8, 0xfa, 0x76, 0x3f, 0xe3, 0x9c, 0x34, 0x3f, 0xf9, 0xdc, 0xbb, 0xc7, 0xc7, 0x0b, 0x4f, 0x1d,
  0x8a, 0x51, 0xe0, 0x4b, 0xcd, 0xb4, 0x59, 0x31, 0xc8, 0x9f, 0x7e, 0xc9, 0xd9, 0x78, 0x73, 0x64,
  0xea, 0xc5, 0xac, 0x83, 0x34, 0xd3, 0xeb, 0xc3, 0xc5, 0x81, 0xa0, 0xff, 0xfa, 0x13, 0x63, 0xeb,
  0x17, 0x0d, 0xdd, 0x51, 0xb7, 0xf0, 0xda, 0x49, 0xd3, 0x16, 0x55, 0x26, 0x29, 0xd4, 0x68, 0x9e,
  0x2b, 0x16, 0xbe, 0x58, 0x7d, 0x47, 0xa1, 0xfc, 0x8f, 0xf8, 0xb8, 0xd1, 0x7a, 0xd0, 0x31, 0xce,
  0x45, 0xcb, 0x3a, 0x8f, 0x95, 0x16, 0x04, 0x28, 0xaf, 0xd7, 0xfb, 0xca, 0xbb, 0x4b, 0x40, 0x7e]⟩

def prime32A : UInt64 := 0x9E3779B1
def prime32B : UInt64 := 0x85EBCA77
def prime32C : UInt64 := 0xC2B2AE3D
def prime64A : UInt64 := 0x9E3779B185EBCA87
def prime64B : UInt64 := 0xC2B2AE3D27D4EB4F
def prime64C : UInt64 := 0x165667B19E3779F9
def prime64D : UInt64 := 0x85EBCA77C2B2AE63
def prime64E : UInt64 := 0x27D4EB2F165667C5
def mixerA : UInt64 := 0x165667919E3779F9
def mixerB : UInt64 := 0x9FB21C651E98DF25

/-- The byte at a position. -/
def byteAt (bytes : ByteArray) (i : Nat) : UInt64 :=
  (bytes[i]?.getD 0).toUInt64

/-- The 32-bit number at a position. -/
def read32 (bytes : ByteArray) (i : Nat) : UInt64 :=
  byteAt bytes i ||| (byteAt bytes (i + 1) <<< 8) ||| (byteAt bytes (i + 2) <<< 16)
    ||| (byteAt bytes (i + 3) <<< 24)

/-- The 64-bit number at a position. -/
def read64 (bytes : ByteArray) (i : Nat) : UInt64 :=
  read32 bytes i ||| (read32 bytes (i + 4) <<< 32)

/-- The bits turned left by `n` places, for `0 < n < 64`. -/
def rotateLeft (x : UInt64) (n : UInt64) : UInt64 :=
  (x <<< n) ||| (x >>> (64 - n))

/-- The bytes in the opposite order. -/
def swapBytes (x : UInt64) : UInt64 :=
  (List.range 8).foldl (fun acc i => (acc <<< 8) ||| ((x >>> UInt64.ofNat (8 * i)) % 256)) 0

/-- The two halves of the 128-bit product, combined by exclusive or. -/
def foldedProduct (a b : UInt64) : UInt64 :=
  let p := a.toNat * b.toNat
  UInt64.ofNat p ^^^ UInt64.ofNat (p / Nat.pow 2 64)

/-- Exclusive or with the number shifted right. -/
def shiftMix (x : UInt64) (n : UInt64) : UInt64 :=
  x ^^^ (x >>> n)

/-- Spreads every bit over the digest. -/
def avalanche (h : UInt64) : UInt64 :=
  shiftMix (shiftMix h 37 * mixerA) 32

/-- The stronger spread for inputs of at most three bytes. -/
def shortAvalanche (h : UInt64) : UInt64 :=
  shiftMix (shiftMix (shiftMix h 33 * prime64B) 29 * prime64C) 32

/-- Mixes sixteen bytes with sixteen bytes of the secret. -/
def mix16 (bytes : ByteArray) (i key : Nat) : UInt64 :=
  foldedProduct (read64 bytes i ^^^ read64 secret key)
    (read64 bytes (i + 8) ^^^ read64 secret (key + 8))

/-- The digest of at most three bytes. -/
def upTo3 (bytes : ByteArray) : UInt64 :=
  let n := bytes.size
  if n = 0 then shortAvalanche (read64 secret 56 ^^^ read64 secret 64)
  else
    let combined := (byteAt bytes 0 <<< 16) ||| (byteAt bytes (n / 2) <<< 24)
      ||| byteAt bytes (n - 1) ||| (UInt64.ofNat n <<< 8)
    shortAvalanche (combined ^^^ (read32 secret 0 ^^^ read32 secret 4))

/-- The digest of four to eight bytes. -/
def upTo8 (bytes : ByteArray) : UInt64 :=
  let n := bytes.size
  let input := read32 bytes (n - 4) + (read32 bytes 0 <<< 32)
  let h := input ^^^ (read64 secret 8 ^^^ read64 secret 16)
  let h := (h ^^^ rotateLeft h 49 ^^^ rotateLeft h 24) * mixerB
  let h := (h ^^^ ((h >>> 35) + UInt64.ofNat n)) * mixerB
  shiftMix h 28

/-- The digest of nine to sixteen bytes. -/
def upTo16 (bytes : ByteArray) : UInt64 :=
  let n := bytes.size
  let low := read64 bytes 0 ^^^ (read64 secret 24 ^^^ read64 secret 32)
  let high := read64 bytes (n - 8) ^^^ (read64 secret 40 ^^^ read64 secret 48)
  avalanche (UInt64.ofNat n + swapBytes low + high + foldedProduct low high)

/-- The digest of 17 to 128 bytes: pairs of sixteen bytes from both ends. -/
def upTo128 (bytes : ByteArray) : UInt64 :=
  let n := bytes.size
  let pairs := (n - 1) / 32 + 1
  avalanche <| (List.range pairs).foldl
    (fun acc i => acc + mix16 bytes (16 * i) (32 * i)
      + mix16 bytes (n - 16 * (i + 1)) (32 * i + 16))
    (UInt64.ofNat n * prime64A)

/-- The digest of 129 to 240 bytes: eight rounds, a spread, then the rest. -/
def upTo240 (bytes : ByteArray) : UInt64 :=
  let n := bytes.size
  let first := (List.range 8).foldl (fun acc i => acc + mix16 bytes (16 * i) (16 * i))
    (UInt64.ofNat n * prime64A)
  let rest := (List.range (n / 16 - 8)).foldl
    (fun acc i => acc + mix16 bytes (16 * (i + 8)) (16 * i + 3)) (avalanche first)
  avalanche (rest + mix16 bytes (n - 16) 119)

/-- The eight accumulators. -/
abbrev Lanes := List UInt64

/-- The accumulators before the first byte. -/
def startLanes : Lanes :=
  [prime32C, prime64A, prime64B, prime64C, prime64D, prime32B, prime64E, prime32A]

/-- Takes up 64 bytes: each accumulator gets a product of its own eight bytes
and the plain eight bytes of its neighbour. -/
def takeStripe (bytes : ByteArray) (lanes : Lanes) (i key : Nat) : Lanes :=
  lanes.mapIdx fun lane acc =>
    let own := read64 bytes (i + 8 * lane) ^^^ read64 secret (key + 8 * lane)
    let neighbour := if lane % 2 = 0 then lane + 1 else lane - 1
    acc + read64 bytes (i + 8 * neighbour) + (own % 0x100000000) * (own >>> 32)

/-- Scrambles the accumulators at the end of a block. -/
def scramble (lanes : Lanes) : Lanes :=
  lanes.mapIdx fun lane acc =>
    (shiftMix acc 47 ^^^ read64 secret (128 + 8 * lane)) * prime32A

/-- Takes up `count` stripes from position `i` on. -/
def takeStripes (bytes : ByteArray) (i count : Nat) (lanes : Lanes) : Lanes :=
  (List.range count).foldl (fun lanes s => takeStripe bytes lanes (i + 64 * s) (8 * s)) lanes

/-- Combines the accumulators pairwise into the digest. -/
def merge (lanes : Lanes) (key : Nat) (start : UInt64) : UInt64 :=
  let lane := fun i => lanes.getD i 0
  avalanche <| (List.range 4).foldl
    (fun acc i => acc + foldedProduct (lane (2 * i) ^^^ read64 secret (key + 16 * i))
      (lane (2 * i + 1) ^^^ read64 secret (key + 16 * i + 8)))
    start

/-- The digest of more than 240 bytes. -/
def long (bytes : ByteArray) : UInt64 :=
  let n := bytes.size
  let blocks := (n - 1) / 1024
  let lanes := (List.range blocks).foldl
    (fun lanes b => scramble (takeStripes bytes (1024 * b) 16 lanes)) startLanes
  let stripes := (n - 1 - 1024 * blocks) / 64
  let lanes := takeStripes bytes (1024 * blocks) stripes lanes
  let lanes := takeStripe bytes lanes (n - 64) 121
  merge lanes 11 (UInt64.ofNat n * prime64A)

/-- The digest of any bytes. -/
def digest (bytes : ByteArray) : UInt64 :=
  let n := bytes.size
  if n ≤ 3 then upTo3 bytes
  else if n ≤ 8 then upTo8 bytes
  else if n ≤ 16 then upTo16 bytes
  else if n ≤ 128 then upTo128 bytes
  else if n ≤ 240 then upTo240 bytes
  else long bytes

end AtomicStyles.Xxh3
