import PgSexp.Hash

/-!
# PostgreSQL's byte hashes

`hash_bytes` and `hash_bytes_uint32` of PostgreSQL's `common/hashfn.c` (Bob Jenkins's
lookup3), on a little-endian machine, where the aligned and unaligned paths of `hash_bytes`
read the same words.  The general theorems take any `HashFns`; this instance is the one the
extension runs with, and it decides the cases where a hash value itself matters.
-/

namespace PgSexp

/-- `mix(a, b, c)` -/
def mix (a b c : UInt32) : UInt32 × UInt32 × UInt32 :=
  let a := (a - c) ^^^ rotl32 c 4
  let c := c + b
  let b := (b - a) ^^^ rotl32 a 6
  let a := a + c
  let c := (c - b) ^^^ rotl32 b 8
  let b := b + a
  let a := (a - c) ^^^ rotl32 c 16
  let c := c + b
  let b := (b - a) ^^^ rotl32 a 19
  let a := a + c
  let c := (c - b) ^^^ rotl32 b 4
  let b := b + a
  (a, b, c)

/-- `final(a, b, c)`, of which the callers report `c`. -/
def final (a b c : UInt32) : UInt32 :=
  let c := (c ^^^ b) - rotl32 b 14
  let a := (a ^^^ c) - rotl32 c 11
  let b := (b ^^^ a) - rotl32 a 25
  let c := (c ^^^ b) - rotl32 b 16
  let a := (a ^^^ c) - rotl32 c 4
  let b := (b ^^^ a) - rotl32 a 14
  (c ^^^ b) - rotl32 b 24

/-- Up to four bytes as a little-endian word: `k[0] + (k[1] << 8) + …`. -/
def leWord (bytes : List UInt8) : UInt32 :=
  bytes.foldr (fun byte word => byte.toUInt32 + (word <<< 8)) 0

/-- The loop of `hash_bytes` over twelve-byte blocks, then the last eleven bytes, whose
bytes 8 to 10 go to `c` above its lowest byte. -/
def hashBytesFrom (a b c : UInt32) : List UInt8 → UInt32
  | k0 :: k1 :: k2 :: k3 :: k4 :: k5 :: k6 :: k7 :: k8 :: k9 :: k10 :: k11 :: rest =>
    let (a, b, c) := mix (a + leWord [k0, k1, k2, k3]) (b + leWord [k4, k5, k6, k7])
      (c + leWord [k8, k9, k10, k11])
    hashBytesFrom a b c rest
  | tail =>
    final (a + leWord (tail.take 4)) (b + leWord ((tail.drop 4).take 4))
      (c + (leWord (tail.drop 8) <<< 8))

/-- `hash_bytes` -/
def hashBytes (k : List UInt8) : UInt32 :=
  let init := 0x9e3779b9 + UInt32.ofNat k.length + 3923095
  hashBytesFrom init init init k

/-- `hash_bytes_uint32` -/
def hashBytesUint32 (k : UInt32) : UInt32 :=
  let init : UInt32 := 0x9e3779b9 + 4 + 3923095
  final (init + k) init init

/-- The hashes the extension is linked with. -/
def pgHashFns : HashFns := ⟨hashBytes, hashBytesUint32⟩

end PgSexp
