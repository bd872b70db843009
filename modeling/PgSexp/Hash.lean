import PgSexp.Format

/-!
# Hash primitives and Bloom signatures

The extension hashes with PostgreSQL's `hash_bytes` and `hash_bytes_uint32`, which it does
not define; they are the two fields of `HashFns`, and every definition that hashes takes one.
What the extension builds on top is modelled as written: `hash_combine` (also spelled
`hash_combine32` in `sexp_gin.c`), the position rotation of `sexp_hash_combine`, the
normalisation of `-0.0` in `sexp_hash_float64`, and the four-bit Bloom signatures of
`bloom_compute_sig`.
-/

namespace PgSexp

/-- PostgreSQL's byte hashes of `common/hashfn.h`: `hash_bytes` of a byte string and
`hash_bytes_uint32` of one word. -/
structure HashFns where
  hashBytes : List UInt8 → UInt32
  hashBytesUInt32 : UInt32 → UInt32

/-- `hash_combine`: `a ^ (b + 0x9e3779b9 + (a << 6) + (a >> 2))`. -/
def hashCombine (a b : UInt32) : UInt32 :=
  a ^^^ (b + (0x9e3779b9 : UInt32) + (a <<< 6) + (a >>> 2))

/-- `rotl32`.  For `r = 0` the C shift `x >> 32` is taken modulo 32, as both the x86 shift
and Lean's `>>>` take it, so the rotation is the identity. -/
def rotl32 (x : UInt32) (r : Nat) : UInt32 :=
  (x <<< UInt32.ofNat r) ||| (x >>> UInt32.ofNat (32 - r))

/-- `sexp_hash_combine`: a child hash, rotated by its position, mixed into the parent. -/
def sexpHashCombine (parent child : UInt32) (position : Nat) : UInt32 :=
  hashCombine parent (rotl32 child (position % 31))

/-- The little-endian bytes of a 64-bit word, as `memcpy` lays out an int64 or a double. -/
def u64Bytes (v : UInt64) : List UInt8 :=
  (List.range 8).map fun i => UInt8.ofNat (v.toNat / 2 ^ (8 * i))

/-! ## Doubles -/

/-- The binary64 with these bits is a NaN. -/
def float8IsNaN (x : UInt64) : Bool :=
  (x >>> 52) &&& 0x7FF == 0x7FF && x &&& 0xFFFFFFFFFFFFF != 0

/-- The binary64 with these bits is an infinity. -/
def float8IsInf (x : UInt64) : Bool :=
  x &&& 0x7FFFFFFFFFFFFFFF == 0x7FF0000000000000

/-- The binary64 with these bits is `+0.0` or `-0.0`. -/
def float8IsZero (x : UInt64) : Bool :=
  x &&& 0x7FFFFFFFFFFFFFFF == 0

/-- C's `==` on two doubles: never for a NaN, and `-0.0 == 0.0`. -/
def float8Eq (x y : UInt64) : Bool :=
  !float8IsNaN x && !float8IsNaN y && (x == y || float8IsZero x && float8IsZero y)

section Hashes

variable (H : HashFns)

/-- `sexp_hash_uint32` -/
def sexpHashUint32 (v : UInt32) : UInt32 := H.hashBytesUInt32 v

/-- `sexp_hash_bytes` -/
def sexpHashBytes (bytes : List UInt8) : UInt32 := H.hashBytes bytes

/-- `sexp_hash_int64`: the eight bytes of the value. -/
def sexpHashInt64 (v : UInt64) : UInt32 := H.hashBytes (u64Bytes v)

/-- `sexp_hash_float64`: `if (value == 0.0) value = 0.0;` then the eight bytes. -/
def sexpHashFloat64 (bits : UInt64) : UInt32 :=
  H.hashBytes (u64Bytes (if float8Eq bits 0 then 0 else bits))

/-- Doubles that C's `==` identifies hash alike: the only such pairs with different bits are
`0.0` and `-0.0`, which both hash as `0.0`. -/
theorem sexpHashFloat64_eq_of_float8Eq {x y : UInt64} (equal : float8Eq x y = true) :
    sexpHashFloat64 H x = sexpHashFloat64 H y := by
  simp only [float8Eq, Bool.and_eq_true, Bool.not_eq_true', Bool.or_eq_true, beq_iff_eq] at equal
  obtain ⟨⟨xNotNaN, yNotNaN⟩, rfl | ⟨xZero, yZero⟩⟩ := equal
  · rfl
  · have equalsZero : ∀ z, float8IsNaN z = false → float8IsZero z = true → float8Eq z 0 = true :=
      fun z notNaN zero => by
        simp [float8Eq, notNaN, zero, show float8IsNaN 0 = false by decide,
          show float8IsZero 0 = true by decide]
    simp [sexpHashFloat64, equalsZero x xNotNaN xZero, equalsZero y yNotNaN yZero]

/-- `sexp_hash_string_with_tag` -/
def sexpHashStringWithTag (tag : UInt8) (str : List UInt8) : UInt32 :=
  hashCombine (H.hashBytesUInt32 tag.toUInt32) (H.hashBytes str)

/-! The element hash of each kind of atom and the seed of a list hash.  `sexp_element_hash`,
`sexp_element_bloom` and the parser each write these formulas out. -/

/-- An integer, small or full: `hash_combine(sexp_hash_uint32(SEXP_TAG_INTEGER), sexp_hash_int64(val))`. -/
def integerElemHash (v : UInt64) : UInt32 :=
  hashCombine (sexpHashUint32 H sexpTagInteger.toUInt32) (sexpHashInt64 H v)

/-- A float: `hash_combine(sexp_hash_uint32(SEXP_TAG_FLOAT), sexp_hash_float64(val))`. -/
def floatElemHash (bits : UInt64) : UInt32 :=
  hashCombine (sexpHashUint32 H sexpTagFloat.toUInt32) (sexpHashFloat64 H bits)

theorem floatElemHash_eq_of_float8Eq {x y : UInt64} (equal : float8Eq x y = true) :
    floatElemHash H x = floatElemHash H y := by
  rw [floatElemHash, floatElemHash, sexpHashFloat64_eq_of_float8Eq H equal]

/-- The start of a list hash: `hash_combine(sexp_hash_uint32(count), sexp_hash_uint32(SEXP_TAG_LIST))`. -/
def listHashSeed (count : Nat) : UInt32 :=
  hashCombine (sexpHashUint32 H (UInt32.ofNat count)) (sexpHashUint32 H sexpTagList.toUInt32)

/-- The loop `list_hash = sexp_hash_combine(list_hash, child_hashes[i], i)` of `parse_list`,
from position `i`. -/
def combineChildHashes (acc : UInt32) (i : Nat) : List UInt32 → UInt32
  | [] => acc
  | h :: hs => combineChildHashes (sexpHashCombine acc h i) (i + 1) hs

/-- The structural hash `parse_list` computes from its children's hashes. -/
def parseListHash (childHashes : List UInt32) : UInt32 :=
  combineChildHashes (listHashSeed H childHashes.length) 0 childHashes

end Hashes

/-! ## Bloom signatures -/

/-- `BLOOM_K` -/
def bloomK : Nat := 4

/-- `bloom_compute_sig`: one bit for each of four rotations of the element hash. -/
def bloomComputeSig (elemHash : UInt32) : UInt64 :=
  (List.range bloomK).foldl
    (fun sig i => sig ||| (1 <<< ((rotl32 elemHash (i * 8)) &&& 63).toUInt64)) 0

/-- `bloom_combine`: union of signatures. -/
def bloomCombine (parent child : UInt64) : UInt64 := parent ||| child

/-- `bloom_may_contain`: `(needle & ~container) == 0`. -/
def bloomMayContain (container needle : UInt64) : Bool :=
  needle &&& ~~~container == 0

/-- Every bit of `needle` is a bit of `container`. -/
def BloomSubset (needle container : UInt64) : Prop :=
  ∀ i, needle.toBitVec.getLsbD i = true → container.toBitVec.getLsbD i = true

theorem bloomMayContain_iff (container needle : UInt64) :
    bloomMayContain container needle = true ↔ BloomSubset needle container := by
  have asBits : (needle &&& ~~~container = 0) ↔
      (needle.toBitVec &&& ~~~container.toBitVec = 0#64) :=
    ⟨fun h => congrArg UInt64.toBitVec h, fun h => UInt64.eq_of_toBitVec_eq h⟩
  simp only [bloomMayContain, beq_iff_eq, asBits, BloomSubset]
  constructor
  · intro h i needleBit
    have bit := congrArg (fun v => v.getLsbD i) h
    simp only [BitVec.getLsbD_and, BitVec.getLsbD_not, needleBit,
      BitVec.getLsbD_zero] at bit
    by_contra missing
    simp_all
  · intro h
    ext i
    simp only [BitVec.getLsbD_and, BitVec.getLsbD_not, BitVec.getLsbD_zero]
    cases needleBit : needle.toBitVec.getLsbD i
    · simp
    · simp [h i needleBit]

namespace BloomSubset

theorem refl (sig : UInt64) : BloomSubset sig sig := fun _ bit => bit

theorem trans {a b c : UInt64} (ab : BloomSubset a b) (bc : BloomSubset b c) :
    BloomSubset a c := fun i bit => bc i (ab i bit)

theorem left_or (a b : UInt64) : BloomSubset a (a ||| b) := fun i bit => by
  simp [show (a ||| b).toBitVec = a.toBitVec ||| b.toBitVec from rfl, bit]

theorem right_or (a b : UInt64) : BloomSubset b (a ||| b) := fun i bit => by
  simp [show (a ||| b).toBitVec = a.toBitVec ||| b.toBitVec from rfl, bit]

theorem or_subset {a b c : UInt64} (ac : BloomSubset a c) (bc : BloomSubset b c) :
    BloomSubset (a ||| b) c := fun i bit => by
  simp only [show (a ||| b).toBitVec = a.toBitVec ||| b.toBitVec from rfl,
    BitVec.getLsbD_or, Bool.or_eq_true] at bit
  exact bit.elim (ac i) (bc i)

end BloomSubset

end PgSexp
