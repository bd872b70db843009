import PgSexp.Format
import Mathlib.Algebra.Order.Ring.Nat

/-!
# The bytes of a stored value

`sexp_parse` writes a value as `[version] [symbol_count] [symbol_0 … symbol_{n-1}]
[root_element]`: the count and each symbol's length as varints, then each element as its tag
byte and what its kind calls for (`sexp_parser.c`).  `Elem.encode` writes an element as
`parse_list`, `parse_string` and `parse_number_or_symbol` do, `encodeChildren` is the child loop
of `parse_list`, which records each child's SEntry before it appends the child's bytes, and
`Sexp.bytes` is the buffer `sexp_parse` returns.  The `uint32` words of a large list are
copied from memory, so they are in the byte order of the host, here little-endian.

The readers' primitives undo the writers': `decode_varint` reads back what `encode_varint`
wrote, whatever follows it, and `SEXP_LOAD_UINT32_UNALIGNED` the four bytes of a `uint32`.
-/

namespace PgSexp

/-! ## Varints -/

/-- The loop of `encode_varint`: a byte `value | 0x80` for each seven bits while
`value ≥ 0x80`, then `value`.  A `uint64` leaves the loop after nine turns at most. -/
def encodeVarintLoop : Nat → UInt64 → List UInt8
  | 0, value => [value.toUInt8]
  | fuel + 1, value =>
    if 0x80 ≤ value then (value ||| 0x80).toUInt8 :: encodeVarintLoop fuel (value >>> 7)
    else [value.toUInt8]

/-- `encode_varint`: the bytes `write_varint` appends. -/
def encodeVarint (value : UInt64) : List UInt8 := encodeVarintLoop 9 value

/-- The multi-byte loop of `decode_varint` at position `p` of `buf`, whose readable bytes end
at `stop`: it ors in seven bits at `shift` for each byte, and stops after a byte without the
continuation bit, at `stop`, or once `shift` reaches 64.  It starts at shift 7, so it turns
nine times at most. -/
def decodeVarintLoop (buf : List UInt8) (stop : Nat) : Nat → Nat → UInt64 → Nat → UInt64 × Nat
  | 0, _, result, p => (result, p)
  | fuel + 1, shift, result, p =>
    if p < stop then
      let byte := buf.getD p 0
      let result := result ||| (byte &&& 0x7F).toUInt64 <<< UInt64.ofNat shift
      if byte &&& 0x80 = 0 then (result, p + 1)
      else if 64 ≤ shift + 7 then (result, p + 1)
      else decodeVarintLoop buf stop fuel (shift + 7) result (p + 1)
    else (result, p)

/-- `decode_varint` at position `p`: the value and the position after it.  With nothing left to
read it returns 0 and does not move. -/
def decodeVarint (buf : List UInt8) (stop p : Nat) : UInt64 × Nat :=
  if p < stop then
    let byte := buf.getD p 0
    if byte &&& 0x80 = 0 then (byte.toUInt64, p + 1)
    else decodeVarintLoop buf stop 9 7 (byte &&& 0x7F).toUInt64 (p + 1)
  else (0, p)

/-! ### The machine operations of the two loops, as `Nat` arithmetic -/

section Scalar

theorem toUInt8_or (a b : UInt64) : (a ||| b).toUInt8 = a.toUInt8 ||| b.toUInt8 := by
  apply UInt8.toNat.inj
  show (a.toNat ||| b.toNat) % 2 ^ 8 = a.toNat % 2 ^ 8 ||| b.toNat % 2 ^ 8
  apply Nat.eq_of_testBit_eq
  intro i
  simp only [Nat.testBit_mod_two_pow, Nat.testBit_or, Bool.and_or_distrib_left]

theorem toNat_shiftRight_seven (a : UInt64) : (a >>> 7).toNat = a.toNat / 128 := by
  show (a.toBitVec >>> (UInt64.mod 7 64).toBitVec).toNat = _
  rw [BitVec.ushiftRight_eq', BitVec.toNat_ushiftRight, Nat.shiftRight_eq_div_pow]
  rfl

theorem le_iff_toNat_le (a b : UInt64) : a ≤ b ↔ a.toNat ≤ b.toNat := .rfl

/-- A byte below `0x80` has no continuation bit and keeps its seven low bits. -/
theorem lastByte_masks : ∀ r : Fin 128,
    UInt8.ofNat r.val &&& 0x80 = 0 ∧ UInt8.ofNat r.val &&& 0x7F = UInt8.ofNat r.val := by
  decide

/-- A byte with the continuation bit set loses it to the mask `0x7F`. -/
theorem continuationByte_masks (b : UInt8) :
    (b ||| 0x80) &&& 0x80 ≠ 0 ∧ (b ||| 0x80) &&& 0x7F = UInt8.ofNat (b.toNat % 128) := by
  refine ⟨fun zero => ?_, UInt8.toNat.inj ?_⟩
  · have bit := congrArg (fun x : UInt8 => x.toNat.testBit 7) zero
    change ((b.toNat ||| 2 ^ 7) &&& 2 ^ 7).testBit 7 = Nat.testBit 0 7 at bit
    simp only [Nat.testBit_and, Nat.testBit_or, Nat.testBit_two_pow_self, Bool.or_true,
      Bool.and_self, Nat.zero_testBit] at bit
    exact Bool.noConfusion bit
  · show (b.toNat ||| 2 ^ 7) &&& (2 ^ 7 - 1) = b.toNat % 2 ^ 7 % 256
    rw [Nat.mod_eq_of_lt (by omega : b.toNat % 2 ^ 7 < 256)]
    apply Nat.eq_of_testBit_eq
    intro i
    rw [Nat.testBit_and, Nat.testBit_or, Nat.testBit_two_pow_sub_one, Nat.testBit_mod_two_pow,
      Nat.testBit_two_pow]
    by_cases below : i < 7
    · simp [below, Nat.ne_of_gt below]
    · simp [below]

theorem toNat_toUInt64_ofNat {c : Nat} (byte : c < 256) : (UInt8.ofNat c).toUInt64.toNat = c :=
  UInt8.toNat_ofNat_of_lt byte

/-- Or-ing seven bits in at `shift` above a result below `2 ^ shift` adds them. -/
theorem toNat_accumulate {result : UInt64} {c shift : Nat} (low : result.toNat < 2 ^ shift)
    (byte : c < 128) (fits : result.toNat + c * 2 ^ shift < 2 ^ 64) (small : shift < 64) :
    (result ||| (UInt8.ofNat c).toUInt64 <<< UInt64.ofNat shift).toNat =
      result.toNat + c * 2 ^ shift := by
  have shifted : ((UInt8.ofNat c).toUInt64 <<< UInt64.ofNat shift).toNat = c * 2 ^ shift := by
    show ((UInt8.ofNat c).toUInt64.toBitVec <<< (UInt64.mod (UInt64.ofNat shift) 64).toBitVec).toNat = _
    simp only [BitVec.shiftLeft_eq', BitVec.toNat_shiftLeft, Nat.shiftLeft_eq]
    have shiftValue : ((UInt64.ofNat shift).mod 64).toBitVec.toNat = shift := by
      show (UInt64.ofNat shift % 64).toNat = shift
      rw [UInt64.toNat_mod, UInt64.toNat_ofNat_of_lt (by unfold UInt64.size; omega)]
      exact Nat.mod_eq_of_lt small
    rw [show (UInt8.ofNat c).toUInt64.toBitVec.toNat = c from toNat_toUInt64_ofNat (by omega),
      shiftValue]
    exact Nat.mod_eq_of_lt (by omega)
  show (result.toBitVec ||| _).toNat = _
  rw [BitVec.toNat_or]
  change result.toNat ||| ((UInt8.ofNat c).toUInt64 <<< UInt64.ofNat shift).toNat = _
  rw [shifted, Nat.mul_comm c, Nat.or_comm, ← Nat.mul_add_lt_is_or low, Nat.add_comm]

theorem accumulate_eq {result : UInt64} {c shift : Nat} (low : result.toNat < 2 ^ shift)
    (byte : c < 128) (fits : result.toNat + c * 2 ^ shift < 2 ^ 64) (small : shift < 64) :
    (result ||| (UInt8.ofNat c).toUInt64 <<< UInt64.ofNat shift) =
      UInt64.ofNat (result.toNat + c * 2 ^ shift) :=
  UInt64.toNat.inj (by rw [toNat_accumulate low byte fits small, UInt64.toNat_ofNat_of_lt fits])

end Scalar

/-! ### Reading back what was written -/

section Positions

variable {buf rest : List UInt8} {p : Nat} {x : UInt8}

theorem getD_eq_of_drop (placed : buf.drop p = x :: rest) : buf.getD p 0 = x := by
  rw [List.getD_eq_getElem?_getD, ← Nat.add_zero p, ← List.getElem?_drop, placed,
    List.getElem?_cons_zero, Option.getD_some]

theorem drop_succ_of_drop (placed : buf.drop p = x :: rest) : buf.drop (p + 1) = rest := by
  rw [← List.drop_drop, placed]
  rfl

theorem drop_add_of_drop {bytes : List UInt8} (placed : buf.drop p = bytes ++ rest) :
    buf.drop (p + bytes.length) = rest := by
  rw [← List.drop_drop, placed, List.drop_left]

end Positions

/-- The last byte of a varint: what `encode_varint` writes once the value is below `0x80`. -/
theorem encodeVarintLoop_last {fuel : Nat} {value : UInt64} (last : value.toNat < 128) :
    encodeVarintLoop fuel value = [UInt8.ofNat value.toNat] := by
  cases fuel with
  | zero => rfl
  | succ fuel => exact if_neg (by rw [le_iff_toNat_le]; exact Nat.not_le_of_lt last)

/-- A byte with the continuation bit, then the varint of the value shifted by seven. -/
theorem encodeVarintLoop_more {fuel : Nat} {value : UInt64} (more : ¬value.toNat < 128) :
    encodeVarintLoop (fuel + 1) value =
      (value.toUInt8 ||| 0x80) :: encodeVarintLoop fuel (value >>> 7) := by
  rw [encodeVarintLoop, if_pos ((le_iff_toNat_le _ _).2 (Nat.le_of_not_lt more)), toUInt8_or]
  rfl

theorem length_encodeVarintLoop_pos (fuel : Nat) (value : UInt64) :
    0 < (encodeVarintLoop fuel value).length := by
  cases fuel with
  | zero => exact Nat.one_pos
  | succ fuel =>
    unfold encodeVarintLoop
    split <;> simp only [List.length_singleton, List.length_cons] <;> omega

/-- The last byte of a varint ends the loop: its seven bits are ored in at `shift`. -/
theorem decodeVarintLoop_last {buf rest : List UInt8} {stop fuel shift p : Nat}
    {result value : UInt64} (placed : buf.drop p = [UInt8.ofNat value.toNat] ++ rest)
    (within : p < stop) (last : value.toNat < 128) (small : shift < 64)
    (low : result.toNat < 2 ^ shift) (total : result.toNat + value.toNat * 2 ^ shift < 2 ^ 64) :
    decodeVarintLoop buf stop (fuel + 1) shift result p =
      (UInt64.ofNat (result.toNat + value.toNat * 2 ^ shift), p + 1) := by
  obtain ⟨lastBit, low7⟩ := lastByte_masks ⟨value.toNat, last⟩
  rw [decodeVarintLoop, if_pos within]
  simp only [getD_eq_of_drop placed, lastBit, low7, if_true]
  rw [accumulate_eq low last total small]

/-- The loop of `decode_varint` reads back the rest of a varint: each byte ors in seven bits
above what the bytes before gave. -/
theorem decodeVarintLoop_encodeVarintLoop {buf rest : List UInt8} {stop : Nat} :
    ∀ (f fuel shift : Nat) (result value : UInt64) (p : Nat),
      buf.drop p = encodeVarintLoop f value ++ rest →
      p + (encodeVarintLoop f value).length ≤ stop → value.toNat < 128 ^ (f + 1) → f < fuel →
      shift < 64 → result.toNat < 2 ^ shift → result.toNat + value.toNat * 2 ^ shift < 2 ^ 64 →
      decodeVarintLoop buf stop fuel shift result p =
        (UInt64.ofNat (result.toNat + value.toNat * 2 ^ shift),
          p + (encodeVarintLoop f value).length) := by
  intro f
  induction f with
  | zero =>
    intro fuel shift result value p placed within fits more small low total
    obtain ⟨fuel, rfl⟩ : ∃ k, fuel = k + 1 := ⟨fuel - 1, by omega⟩
    rw [Nat.zero_add, pow_one] at fits
    rw [encodeVarintLoop_last fits] at placed within ⊢
    exact decodeVarintLoop_last placed within fits small low total
  | succ f inductionHypothesis =>
    intro fuel shift result value p placed within fits more small low total
    obtain ⟨fuel, rfl⟩ : ∃ k, fuel = k + 1 := ⟨fuel - 1, by omega⟩
    by_cases last : value.toNat < 128
    · rw [encodeVarintLoop_last last] at placed within ⊢
      exact decodeVarintLoop_last placed within last small low total
    · rw [encodeVarintLoop_more last, List.cons_append] at placed
      rw [encodeVarintLoop_more last, List.length_cons] at within ⊢
      have digit : value.toNat % 128 < 128 := Nat.mod_lt _ (by decide)
      obtain ⟨continues, low7⟩ := continuationByte_masks value.toUInt8
      rw [show value.toUInt8.toNat = value.toNat % 256 from rfl,
        Nat.mod_mod_of_dvd _ (by decide : 128 ∣ 256)] at low7
      have scale : 2 ^ (shift + 7) = 128 * 2 ^ shift := by rw [Nat.pow_add, Nat.mul_comm]
      have digits : value.toNat % 128 * 2 ^ shift + value.toNat / 128 * 2 ^ (shift + 7) =
          value.toNat * 2 ^ shift := by
        rw [scale, ← Nat.mul_assoc, ← Nat.add_mul, Nat.mul_comm (value.toNat / 128), Nat.mod_add_div]
      have lowDigit : value.toNat % 128 * 2 ^ shift ≤ 127 * 2 ^ shift :=
        Nat.mul_le_mul_right _ (by omega)
      have fitsLow : result.toNat + value.toNat % 128 * 2 ^ shift < 2 ^ 64 := by omega
      have higher : value.toNat / 128 < 128 ^ (f + 1) :=
        (Nat.div_lt_iff_lt_mul (by decide)).2 (by rwa [← Nat.pow_succ])
      have shiftFits : shift + 7 < 64 := by
        have once : 2 ^ (shift + 7) ≤ value.toNat / 128 * 2 ^ (shift + 7) :=
          Nat.le_mul_of_pos_left _ (by omega)
        have below : value.toNat / 128 * 2 ^ (shift + 7) ≤ value.toNat * 2 ^ shift := by
          rw [← digits]
          exact Nat.le_add_left _ _
        exact (Nat.pow_lt_pow_iff_right (show 1 < 2 by decide)).1 (by omega)
      rw [decodeVarintLoop, if_pos (by omega)]
      simp only [getD_eq_of_drop placed, continues, low7, if_false, Nat.not_le_of_lt shiftFits]
      rw [accumulate_eq low digit fitsLow small, inductionHypothesis fuel (shift + 7) _ _
        (p + 1) (drop_succ_of_drop placed) (by omega) (by rwa [toNat_shiftRight_seven])
        (by omega) shiftFits (by rw [UInt64.toNat_ofNat_of_lt fitsLow]; omega)
        (by rw [UInt64.toNat_ofNat_of_lt fitsLow, toNat_shiftRight_seven]; omega),
        UInt64.toNat_ofNat_of_lt fitsLow, toNat_shiftRight_seven, Nat.add_assoc, digits,
        Nat.add_assoc p 1, Nat.add_comm 1]

/-- `decode_varint` reads back the value `encode_varint` wrote, whatever follows it, and stops
right after its bytes. -/
theorem decodeVarint_encodeVarint {buf rest : List UInt8} {stop p : Nat} (value : UInt64)
    (placed : buf.drop p = encodeVarint value ++ rest)
    (within : p + (encodeVarint value).length ≤ stop) :
    decodeVarint buf stop p = (value, p + (encodeVarint value).length) := by
  have bounded : value.toNat < 2 ^ 64 := value.toNat_lt_size
  unfold encodeVarint at placed within ⊢
  by_cases last : value.toNat < 128
  · rw [encodeVarintLoop_last last] at placed within ⊢
    rw [List.singleton_append] at placed
    obtain ⟨lastBit, -⟩ := lastByte_masks ⟨value.toNat, last⟩
    rw [decodeVarint, if_pos (by simpa only [List.length_singleton] using within)]
    simp only [getD_eq_of_drop placed, lastBit, if_true]
    exact congrArg (·, p + 1) (UInt64.toNat.inj (toNat_toUInt64_ofNat (by omega)))
  · rw [encodeVarintLoop_more last, List.cons_append] at placed
    rw [encodeVarintLoop_more last, List.length_cons] at within ⊢
    obtain ⟨continues, low7⟩ := continuationByte_masks value.toUInt8
    rw [show value.toUInt8.toNat = value.toNat % 256 from rfl,
      Nat.mod_mod_of_dvd _ (by decide : 128 ∣ 256)] at low7
    have digit : value.toNat % 128 < 128 := Nat.mod_lt _ (by decide)
    have first : (UInt8.ofNat (value.toNat % 128)).toUInt64.toNat = value.toNat % 128 :=
      toNat_toUInt64_ofNat (by omega)
    have digits : value.toNat % 128 + value.toNat / 128 * 2 ^ 7 = value.toNat := by
      rw [Nat.mul_comm]
      exact Nat.mod_add_div _ _
    rw [decodeVarint, if_pos (by omega)]
    simp only [getD_eq_of_drop placed, continues, low7, if_false]
    rw [decodeVarintLoop_encodeVarintLoop 8 9 7 _ _ (p + 1) (drop_succ_of_drop placed)
      (by omega) (by rw [toNat_shiftRight_seven]; omega) (by decide) (by decide)
      (by rw [first]; exact digit) (by rw [first, toNat_shiftRight_seven, digits]; exact bounded),
      first, toNat_shiftRight_seven, digits, Nat.add_assoc p 1, Nat.add_comm 1]
    exact congrArg (·, _) (UInt64.toNat.inj (UInt64.toNat_ofNat_of_lt bounded))

theorem length_encodeVarint_pos (value : UInt64) : 0 < (encodeVarint value).length :=
  length_encodeVarintLoop_pos 9 value

/-! ## Words copied from memory -/

/-- The `width` bytes of `n`, low byte first: what `appendBinaryStringInfo(buf, &n, width)`
copies of a word on a little-endian host. -/
def leBytes (n : Nat) : Nat → List UInt8
  | 0 => []
  | width + 1 => UInt8.ofNat n :: leBytes (n / 256) width

/-- The word whose `width` bytes, low byte first, begin `bytes`. -/
def leValue (bytes : List UInt8) : Nat → Nat
  | 0 => 0
  | width + 1 => (bytes.headD 0).toNat + 256 * leValue bytes.tail width

/-- `SEXP_LOAD_UINT32_UNALIGNED` at position `p`. -/
def loadUint32 (buf : List UInt8) (p : Nat) : UInt32 := UInt32.ofNat (leValue (buf.drop p) 4)

@[simp]
theorem length_leBytes : ∀ (n width : Nat), (leBytes n width).length = width
  | _, 0 => rfl
  | n, width + 1 => congrArg (· + 1) (length_leBytes (n / 256) width)

/-- A word reads back as what was written, modulo the `width` bytes it has. -/
theorem leValue_leBytes (rest : List UInt8) :
    ∀ (n width : Nat), leValue (leBytes n width ++ rest) width = n % 256 ^ width
  | n, 0 => (Nat.mod_one n).symm
  | n, width + 1 => by
    rw [leBytes, List.cons_append, leValue, List.headD_cons, List.tail_cons,
      leValue_leBytes rest (n / 256) width, Nat.pow_succ, Nat.mul_comm _ 256, Nat.mod_mul]
    rfl

theorem loadUint32_leBytes {buf rest : List UInt8} {p : Nat} (x : UInt32)
    (placed : buf.drop p = leBytes x.toNat 4 ++ rest) : loadUint32 buf p = x := by
  rw [loadUint32, placed, leValue_leBytes,
    Nat.mod_eq_of_lt (show x.toNat < 256 ^ 4 from x.toNat_lt_size)]
  exact UInt32.toNat.inj (UInt32.toNat_ofNat_of_lt x.toNat_lt_size)

/-! ## SEntries -/

/-- `SENTRY_OFFSET_MASK`: the 28 bits of an SEntry that hold the offset. -/
def sentryOffsetMask : UInt32 := 0x0FFFFFFF

/-- `SENTRY_MAKE(type, offset)`, with the `int` offset `parse_list` passes. -/
def sentryMake (type : UInt32) (offset : Nat) : UInt32 :=
  type ||| (UInt32.ofNat offset &&& sentryOffsetMask)

/-- `SENTRY_GET_OFFSET(se)` -/
def sentryGetOffset (se : UInt32) : UInt32 := se &&& sentryOffsetMask

/-- `get_sentry_type_from_tag` of `sexp_parser.c`: the switch of `get_sentry_type_from_byte`. -/
def getSentryTypeFromTag (tagByte : UInt8) : UInt32 := getSentryTypeFromByte tagByte

/-- The type codes sit above the offset bits. -/
theorem getSentryTypeFromTag_and_offsetMask (tagByte : UInt8) :
    getSentryTypeFromTag tagByte &&& sentryOffsetMask = 0 := by
  have types : sentryTypeNil &&& sentryOffsetMask = 0 ∧ sentryTypeInteger &&& sentryOffsetMask = 0 ∧
      sentryTypeFloat &&& sentryOffsetMask = 0 ∧ sentryTypeSymbol &&& sentryOffsetMask = 0 ∧
      sentryTypeString &&& sentryOffsetMask = 0 ∧ sentryTypeList &&& sentryOffsetMask = 0 :=
    ⟨rfl, rfl, rfl, rfl, rfl, rfl⟩
  simp only [getSentryTypeFromTag, getSentryTypeFromByte, apply_ite (· &&& sentryOffsetMask),
    types, ite_self]

/-- An SEntry keeps the offset it is made with modulo `2 ^ 28`. -/
theorem sentryGetOffset_sentryMake (tagByte : UInt8) (offset : Nat) :
    sentryGetOffset (sentryMake (getSentryTypeFromTag tagByte) offset) =
      UInt32.ofNat (offset % 2 ^ 28) := by
  have typeBits := congrArg UInt32.toNat (getSentryTypeFromTag_and_offsetMask tagByte)
  apply UInt32.toNat.inj
  change ((getSentryTypeFromTag tagByte).toNat ||| offset % 2 ^ 32 &&& (2 ^ 28 - 1)) &&& (2 ^ 28 - 1) = _
  change (getSentryTypeFromTag tagByte).toNat &&& (2 ^ 28 - 1) = 0 at typeBits
  rw [Nat.and_distrib_right, typeBits, Nat.zero_or, Nat.and_assoc, Nat.and_self,
    Nat.and_pow_two_sub_one_eq_mod, Nat.mod_mod_of_dvd _ (by decide),
    UInt32.toNat_ofNat_of_lt (by unfold UInt32.size; omega)]

/-! ## Elements -/

mutual
/-- The bytes `sexp_parse` writes for an element: `parse_list` writes a list, `parse_string` a
string and `parse_number_or_symbol` the other kinds. -/
def Elem.encode : Elem → List UInt8
  | .nil => [sexpTagNil]
  | .smallInt payload => [sexpTagSmallint ||| UInt8.ofNat payload.val]
  | .integer zigzag => sexpTagInteger :: encodeVarint zigzag
  | .float bits => sexpTagFloat :: leBytes bits.toNat 8
  | .symbolRef index => sexpTagSymbolRef :: encodeVarint (UInt64.ofNat index)
  | .shortString s => (sexpTagShortString ||| UInt8.ofNat s.length) :: s
  | .longString s => sexpTagLongString :: (encodeVarint (UInt64.ofNat s.length) ++ s)
  | .smallList cs =>
    let data := (encodeChildren cs 0).2
    (sexpTagList ||| UInt8.ofNat cs.length) :: (encodeVarint (UInt64.ofNat data.length) ++ data)
  | .largeList hash cs =>
    let children := encodeChildren cs 0
    sexpTagList :: (leBytes cs.length 4 ++ leBytes hash.toNat 4 ++
      children.1.flatMap (fun se => leBytes se.toNat 4) ++ children.2)
/-- The child loop of `parse_list`, from byte `offset` of the element data: the SEntry of each
child, made from its first byte and the offset it starts at, and the bytes of the children. -/
def encodeChildren : List Elem → Nat → List UInt32 × List UInt8
  | [], _ => ([], [])
  | c :: cs, offset =>
    let bytes := c.encode
    let later := encodeChildren cs (offset + bytes.length)
    (sentryMake (getSentryTypeFromTag (bytes.headD 0)) offset :: later.1, bytes ++ later.2)
end

/-- `SEXP_FORMAT_VERSION` -/
def sexpFormatVersion : UInt8 := 6

/-- The buffer `sexp_parse` returns: the version, the symbol count, each symbol as its length
and its bytes, then the root element. -/
def Sexp.bytes (v : Sexp) : List UInt8 :=
  sexpFormatVersion :: (encodeVarint (UInt64.ofNat v.symbols.length) ++
    v.symbols.flatMap (fun s => encodeVarint (UInt64.ofNat s.length) ++ s) ++ v.root.encode)

/-- The root element is the end of the buffer. -/
theorem Sexp.root_suffix_bytes (v : Sexp) : v.root.encode <:+ v.bytes :=
  (List.suffix_append _ _).trans (List.suffix_cons _ _)

/-- Where child `i` of a list starts in its element data: after the bytes of the children
before it. -/
def childOffset (cs : List Elem) (i : Nat) : Nat :=
  ((cs.take i).map fun c => c.encode.length).sum

section Children

theorem encodeChildren_snd : ∀ (cs : List Elem) (offset : Nat),
    (encodeChildren cs offset).2 = (cs.map Elem.encode).flatten
  | [], _ => rfl
  | c :: cs, _ => congrArg (c.encode ++ ·) (encodeChildren_snd cs _)

theorem length_encodeChildren_fst : ∀ (cs : List Elem) (offset : Nat),
    (encodeChildren cs offset).1.length = cs.length
  | [], _ => rfl
  | _ :: cs, _ => congrArg (· + 1) (length_encodeChildren_fst cs _)

theorem childOffset_cons_succ (c : Elem) (cs : List Elem) (i : Nat) :
    childOffset (c :: cs) (i + 1) = c.encode.length + childOffset cs i := by
  simp only [childOffset, List.take_succ_cons, List.map_cons, List.sum_cons]

/-- The SEntry `parse_list` records for child `i`: the type of the child's first byte and the
child's offset in the element data. -/
theorem getElem?_encodeChildren_fst : ∀ {cs : List Elem} {i : Nat} {c : Elem} (offset : Nat),
    cs[i]? = some c →
      (encodeChildren cs offset).1[i]? =
        some (sentryMake (getSentryTypeFromTag (c.encode.headD 0)) (offset + childOffset cs i))
  | c :: cs, 0, _, offset, found => by
    rw [List.getElem?_cons_zero] at found
    cases found
    show (sentryMake _ offset :: (encodeChildren cs (offset + c.encode.length)).1)[0]? = _
    rw [List.getElem?_cons_zero]
    rfl
  | c :: cs, i + 1, _, offset, found => by
    rw [List.getElem?_cons_succ] at found
    show (sentryMake _ offset :: (encodeChildren cs (offset + c.encode.length)).1)[i + 1]? = _
    rw [List.getElem?_cons_succ, getElem?_encodeChildren_fst _ found, childOffset_cons_succ,
      Nat.add_assoc]

/-- Child `i` starts at its offset in the element data. -/
theorem drop_childOffset : ∀ {cs : List Elem} {i : Nat} {c : Elem}, cs[i]? = some c →
    ((cs.map Elem.encode).flatten).drop (childOffset cs i) =
      c.encode ++ ((cs.drop (i + 1)).map Elem.encode).flatten
  | c :: _, 0, _, found => by
    rw [List.getElem?_cons_zero] at found
    cases found
    rfl
  | c :: cs, i + 1, _, found => by
    rw [List.getElem?_cons_succ] at found
    rw [childOffset_cons_succ, List.map_cons, List.flatten_cons, ← List.drop_drop, List.drop_left]
    exact drop_childOffset found

/-- The offset an SEntry keeps is the child's offset modulo `2 ^ 28`: it is the child's offset
exactly when the children before it take fewer than `2 ^ 28` bytes. -/
theorem sentryGetOffset_encodeChildren {cs : List Elem} {i : Nat} {c : Elem}
    (found : cs[i]? = some c) :
    ((encodeChildren cs 0).1[i]?).map sentryGetOffset =
      some (UInt32.ofNat (childOffset cs i % 2 ^ 28)) := by
  rw [getElem?_encodeChildren_fst 0 found, Option.map_some', sentryGetOffset_sentryMake,
    Nat.zero_add]

end Children

theorem Elem.encode_smallList (cs : List Elem) :
    (smallList cs).encode = (sexpTagList ||| UInt8.ofNat cs.length) ::
      (encodeVarint (UInt64.ofNat ((cs.map encode).flatten).length) ++ (cs.map encode).flatten) := by
  show _ :: (encodeVarint (UInt64.ofNat (encodeChildren cs 0).2.length) ++ (encodeChildren cs 0).2) = _
  rw [encodeChildren_snd]

theorem Elem.encode_largeList (hash : UInt32) (cs : List Elem) :
    (largeList hash cs).encode = sexpTagList :: (leBytes cs.length 4 ++ leBytes hash.toNat 4 ++
      (encodeChildren cs 0).1.flatMap (fun se => leBytes se.toNat 4) ++ (cs.map encode).flatten) := by
  show sexpTagList :: (_ ++ (encodeChildren cs 0).2) = _
  rw [encodeChildren_snd]

theorem Elem.length_encode_pos (e : Elem) : 0 < e.encode.length := by
  cases e <;> exact Nat.succ_pos _

/-- The element data of a list comes after its tag byte. -/
theorem Elem.length_data_lt (e : Elem) :
    ((e.children.map encode).flatten).length < e.encode.length := by
  cases e with
  | smallList cs =>
    rw [encode_smallList, List.length_cons, List.length_append]
    exact Nat.lt_succ_of_le (Nat.le_add_left _ _)
  | largeList hash cs =>
    rw [encode_largeList, List.length_cons, List.length_append]
    exact Nat.lt_succ_of_le (Nat.le_add_left _ _)
  | _ => exact Nat.succ_pos _

/-- The byte an element starts with is the first of its bytes. -/
theorem Elem.getD_eq_headD_encode {e : Elem} {buf rest : List UInt8} {p : Nat}
    (placed : buf.drop p = e.encode ++ rest) : buf.getD p 0 = e.encode.headD 0 := by
  obtain ⟨x, bytes, shape⟩ := List.exists_cons_of_length_pos e.length_encode_pos
  rw [shape, List.cons_append] at placed
  rw [shape, List.headD_cons]
  exact getD_eq_of_drop placed

theorem length_flatMap_leBytes (sentries : List UInt32) :
    (sentries.flatMap fun se => leBytes se.toNat 4).length = 4 * sentries.length := by
  induction sentries with
  | nil => rfl
  | cons se sentries more =>
    rw [List.flatMap_cons, List.length_append, length_leBytes, more, List.length_cons]
    omega

/-- Each child takes a byte at least. -/
theorem length_le_length_data : ∀ cs : List Elem, cs.length ≤ ((cs.map Elem.encode).flatten).length
  | [] => Nat.le_refl 0
  | c :: cs => by
    rw [List.map_cons, List.flatten_cons, List.length_append, List.length_cons]
    have := c.length_encode_pos
    have := length_le_length_data cs
    omega

/-- A child's bytes lie within the element data of its list. -/
theorem length_encode_le_of_mem {c : Elem} {cs : List Elem} (mem : c ∈ cs) :
    c.encode.length ≤ ((cs.map Elem.encode).flatten).length := by
  obtain ⟨before, after, rfl⟩ := List.append_of_mem mem
  simp only [List.map_append, List.map_cons, List.flatten_append, List.flatten_cons,
    List.length_append]
  omega

namespace Elem

mutual
/-- The tag byte of the element and of each element inside it says what follows it: a short
string has at most `SEXP_SHORT_STRING_MAX` bytes, a small list from 1 to 31 children, the count
its tag byte holds, and a large list fewer than `2 ^ 32`, the count its `uint32` holds. -/
def wellTagged : Elem → Bool
  | .shortString s => decide (s.length ≤ sexpShortStringMax)
  | .smallList cs => decide (0 < cs.length ∧ cs.length < 32) && wellTaggedList cs
  | .largeList _ cs => decide (cs.length < 2 ^ 32) && wellTaggedList cs
  | _ => true
/-- `wellTagged` of each child. -/
def wellTaggedList : List Elem → Bool
  | [] => true
  | c :: cs => wellTagged c && wellTaggedList cs
end

theorem wellTaggedList_iff : ∀ {cs : List Elem}, wellTaggedList cs = true ↔ ∀ c ∈ cs, c.wellTagged = true
  | [] => iff_of_true rfl fun _ mem => absurd mem (List.not_mem_nil _)
  | c :: cs => by
    rw [wellTaggedList, Bool.and_eq_true, wellTaggedList_iff, List.forall_mem_cons]

theorem wellTagged_of_mem {c e : Elem} (tagged : e.wellTagged = true) (mem : c ∈ e.children) :
    c.wellTagged = true := by
  cases e with
  | smallList cs | largeList _ cs =>
    exact wellTaggedList_iff.1 (Bool.and_eq_true_iff.1 tagged).2 c mem
  | _ => exact absurd mem (List.not_mem_nil _)

/-- The bytes of a list hold the bytes of each of its children. -/
theorem encode_infix_of_mem {c e : Elem} (mem : c ∈ e.children) : c.encode <:+: e.encode := by
  have inData : c.encode <:+: (e.children.map Elem.encode).flatten := by
    obtain ⟨before, after, split⟩ := List.append_of_mem mem
    rw [split, List.map_append, List.map_cons, List.flatten_append, List.flatten_cons]
    exact ⟨(before.map Elem.encode).flatten, (after.map Elem.encode).flatten,
      List.append_assoc _ _ _⟩
  cases e with
  | smallList cs | largeList _ cs =>
    rw [encode, encodeChildren_snd]
    exact inData.trans ((List.suffix_append _ _).trans (List.suffix_cons _ _)).isInfix
  | _ => exact absurd mem (List.not_mem_nil _)

end Elem

end PgSexp
