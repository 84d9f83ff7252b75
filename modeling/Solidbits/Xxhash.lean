import Mathlib.Data.UInt

namespace Solidbits

abbrev Bytes := List UInt8

section Xxhash

def PRIME64_1 : UInt64 := 11400714785074694791
def PRIME64_2 : UInt64 := 14029467366897019727
def PRIME64_3 : UInt64 := 1609587929392839161
def PRIME64_4 : UInt64 := 9650029242287828579
def PRIME64_5 : UInt64 := 2870177450012600261

def xxhRotl64 (x r : UInt64) : UInt64 := (x <<< r) ||| (x >>> (64 - r))

-- XXH_get32bits and XXH_get64bits read little-endian on every machine.
def xxhGetBits : Bytes → UInt64
  | [] => 0
  | byte :: rest => byte.toUInt64 ||| (xxhGetBits rest <<< 8)

def xxhGet32bits (p : Bytes) : UInt64 := xxhGetBits (p.take 4)

def xxhGet64bits (p : Bytes) : UInt64 := xxhGetBits (p.take 8)

def xxh64Round (acc input : UInt64) : UInt64 :=
  xxhRotl64 (acc + input * PRIME64_2) 31 * PRIME64_1

def xxh64MergeRound (acc val : UInt64) : UInt64 :=
  (acc ^^^ xxh64Round 0 val) * PRIME64_1 + PRIME64_4

def xxh64Avalanche (h64 : UInt64) : UInt64 :=
  let h64 := (h64 ^^^ (h64 >>> 33)) * PRIME64_2
  let h64 := (h64 ^^^ (h64 >>> 29)) * PRIME64_3
  h64 ^^^ (h64 >>> 32)

def process1 (h64 : UInt64) (byte : UInt8) : UInt64 :=
  xxhRotl64 (h64 ^^^ (byte.toUInt64 * PRIME64_5)) 11 * PRIME64_1

def process4 (h64 : UInt64) (p : Bytes) : UInt64 :=
  xxhRotl64 (h64 ^^^ (xxhGet32bits p * PRIME64_1)) 23 * PRIME64_2 + PRIME64_3

def process8 (h64 : UInt64) (p : Bytes) : UInt64 :=
  xxhRotl64 (h64 ^^^ xxh64Round 0 (xxhGet64bits p)) 27 * PRIME64_1 + PRIME64_4

def process8Loop : Nat → UInt64 → Bytes → UInt64 × Bytes
  | 0, h64, p => (h64, p)
  | n + 1, h64, p => process8Loop n (process8 h64 p) (p.drop 8)

-- The fallthrough cases of the switch on len & 31: eight bytes at a time, then
-- four if there are four, then single bytes.
def xxh64Finalize (h64 : UInt64) (p : Bytes) : UInt64 :=
  let (h64, p) := process8Loop (p.length / 8) h64 p
  let (h64, p) := if 4 ≤ p.length then (process4 h64 p, p.drop 4) else (h64, p)
  xxh64Avalanche (p.foldl process1 h64)

structure Lanes where
  v1 : UInt64
  v2 : UInt64
  v3 : UInt64
  v4 : UInt64

def xxh64Blocks : Nat → Lanes → Bytes → Lanes × Bytes
  | 0, lanes, p => (lanes, p)
  | n + 1, lanes, p =>
      xxh64Blocks n
        { v1 := xxh64Round lanes.v1 (xxhGet64bits p)
          v2 := xxh64Round lanes.v2 (xxhGet64bits (p.drop 8))
          v3 := xxh64Round lanes.v3 (xxhGet64bits (p.drop 16))
          v4 := xxh64Round lanes.v4 (xxhGet64bits (p.drop 24)) }
        (p.drop 32)

def xxh64 (input : Bytes) (seed : UInt64) : UInt64 :=
  let (h64, p) :=
    if 32 ≤ input.length then
      let (lanes, p) := xxh64Blocks (input.length / 32)
        { v1 := seed + PRIME64_1 + PRIME64_2
          v2 := seed + PRIME64_2
          v3 := seed
          v4 := seed - PRIME64_1 } input
      let h64 := xxhRotl64 lanes.v1 1 + xxhRotl64 lanes.v2 7 +
        xxhRotl64 lanes.v3 12 + xxhRotl64 lanes.v4 18
      let h64 := xxh64MergeRound h64 lanes.v1
      let h64 := xxh64MergeRound h64 lanes.v2
      let h64 := xxh64MergeRound h64 lanes.v3
      (xxh64MergeRound h64 lanes.v4, p)
    else (seed + PRIME64_5, input)
  xxh64Finalize (h64 + input.length.toUInt64) p

end Xxhash

end Solidbits
