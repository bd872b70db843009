import PgSexp.Layout
import PgSexp.IntegerText

/-!
# Varints and signed varints

`encode_varint` writes a `uint64` seven bits a byte, low bits first, with the continuation bit
on every byte but the last; `varint_size` counts those bytes without writing them, and
`write_signed_varint` writes the zig-zag word of an int64 that way.  A `uint64` is below
`128 ^ 10`, so the loop of `encode_varint` stops after nine turns at most: the fuel of
`encodeVarintLoop` never ends it early, and no varint takes more than ten bytes.
`decode_varint` reads every one of them back, the ten-byte ones included, whose last byte
carries a single bit at shift 63, next to the guard `shift >= 64`; `zigzag_decode` then gives
back the int64, `INT64_MIN` and `INT64_MAX` as well.
-/

namespace PgSexp

/-- The loop of `varint_size`: one byte more for each shift by seven while `value ≥ 0x80`. -/
def varintSizeLoop : Nat → UInt64 → Nat
  | 0, _ => 1
  | fuel + 1, value => if 0x80 ≤ value then varintSizeLoop fuel (value >>> 7) + 1 else 1

/-- `varint_size` -/
def varintSize (value : UInt64) : Nat := varintSizeLoop 9 value

/-- `write_varint`: `appendBinaryStringInfo` of the bytes `encode_varint` writes. -/
def writeVarint (buf : List UInt8) (value : UInt64) : List UInt8 := buf ++ encodeVarint value

/-- `write_signed_varint`: the varint of the zig-zag word of an int64, given by its bits. -/
def writeSignedVarint (buf : List UInt8) (value : UInt64) : List UInt8 :=
  writeVarint buf (zigzagEncode value)

/-! ## The length of a varint -/

/-- `varint_size` counts the bytes `encode_varint` writes: the two loops turn alike. -/
theorem length_encodeVarintLoop : ∀ (fuel : Nat) (value : UInt64),
    (encodeVarintLoop fuel value).length = varintSizeLoop fuel value
  | 0, _ => rfl
  | fuel + 1, value => by
    rw [encodeVarintLoop, varintSizeLoop]
    split
    · rw [List.length_cons, length_encodeVarintLoop fuel]
    · rfl

/-- Shifting out the seven bits of a byte divides the bound on the value by 128. -/
theorem toNat_shiftRight_seven_lt {value : UInt64} {n : Nat} (below : value.toNat < 128 ^ (n + 1)) :
    (value >>> 7).toNat < 128 ^ n := by
  rw [toNat_shiftRight_seven]
  exact (Nat.div_lt_iff_lt_mul (by decide)).2 (by rwa [← Nat.pow_succ])

/-- A value below `128 ^ (fuel + 1)` leaves the loop of `encode_varint` before its fuel runs
out: more fuel writes the same bytes. -/
theorem encodeVarintLoop_add_fuel (more : Nat) : ∀ (fuel : Nat) (value : UInt64),
    value.toNat < 128 ^ (fuel + 1) → encodeVarintLoop (fuel + more) value = encodeVarintLoop fuel value
  | 0, value, below => by
    have last : value.toNat < 128 := by rwa [Nat.zero_add, Nat.pow_one] at below
    rw [encodeVarintLoop_last last, encodeVarintLoop_last last]
  | fuel + 1, value, below => by
    by_cases last : value.toNat < 128
    · rw [encodeVarintLoop_last last, encodeVarintLoop_last last]
    · rw [Nat.add_right_comm, encodeVarintLoop_more last, encodeVarintLoop_more last,
        encodeVarintLoop_add_fuel more fuel _ (toNat_shiftRight_seven_lt below)]

/-- `encode_varint` stops of itself: every `uint64` is below `128 ^ 10`, so no amount of fuel
past the nine turns `encodeVarint` gives changes what it writes. -/
theorem encodeVarintLoop_eq_encodeVarint (more : Nat) (value : UInt64) :
    encodeVarintLoop (9 + more) value = encodeVarint value :=
  encodeVarintLoop_add_fuel more 9 value (Nat.lt_of_lt_of_le value.toNat_lt_size (by decide))

/-- A value below `128 ^ n` takes at most `n` bytes. -/
theorem length_encodeVarintLoop_le : ∀ (fuel n : Nat) (value : UInt64), 0 < n →
    value.toNat < 128 ^ n → (encodeVarintLoop fuel value).length ≤ n
  | 0, _, _, positive, _ => positive
  | fuel + 1, n, value, positive, below => by
    by_cases last : value.toNat < 128
    · rw [encodeVarintLoop_last last]
      exact positive
    · obtain ⟨m, rfl⟩ : ∃ m, n = m + 1 := ⟨n - 1, by omega⟩
      have shorter : 0 < m := Nat.pos_of_ne_zero fun zero => last (by
        rwa [zero, Nat.zero_add, Nat.pow_one] at below)
      rw [encodeVarintLoop_more last, List.length_cons]
      exact Nat.succ_le_succ
        (length_encodeVarintLoop_le fuel m _ shorter (toNat_shiftRight_seven_lt below))

/-- No `uint64` takes more than ten bytes, as `uint8 tmp[10]` of `write_varint` needs. -/
theorem varintSize_le_ten (value : UInt64) : varintSize value ≤ 10 := by
  rw [varintSize, ← length_encodeVarintLoop]
  exact length_encodeVarintLoop_le 9 10 value (by decide)
    (Nat.lt_of_lt_of_le value.toNat_lt_size (by decide))

/-! ## Reading a signed varint back -/

/-- The bytes of `write_signed_varint` start where the buffer ended. -/
theorem drop_writeSignedVarint (buf rest : List UInt8) (value : UInt64) :
    (writeSignedVarint buf value ++ rest).drop buf.length =
      encodeVarint (zigzagEncode value) ++ rest := by
  rw [writeSignedVarint, writeVarint, List.append_assoc, List.drop_left]

theorem length_writeSignedVarint (buf : List UInt8) (value : UInt64) :
    (writeSignedVarint buf value).length = buf.length + varintSize (zigzagEncode value) := by
  rw [writeSignedVarint, writeVarint, List.length_append, varintSize, encodeVarint,
    length_encodeVarintLoop]

/-- `decode_varint` reads back every `uint64` `encode_varint` wrote, whatever bytes follow,
and stops right after its bytes, whose count is `varint_size`, at most ten.  `zigzag_decode`
undoes `zigzag_encode` on every int64, so what `write_signed_varint` writes reads back, by
`decode_varint` and `zigzag_decode`, as the int64 it was given, and ends where the varint
ends. -/
theorem decodeVarint_writeSignedVarint :
    (∀ (v : UInt64) (buf rest : List UInt8) (p stop : Nat),
      buf.drop p = encodeVarint v ++ rest → p + (encodeVarint v).length ≤ stop →
        decodeVarint buf stop p = (v, p + (encodeVarint v).length)) ∧
    (∀ v : UInt64, (encodeVarint v).length = varintSize v ∧ varintSize v ≤ 10) ∧
    (∀ n : Int, -2 ^ 63 ≤ n → n < 2 ^ 63 →
      int64Value (zigzagDecode (zigzagEncode (int64Bits n))) = n) ∧
    ∀ (n : Int) (buf rest : List UInt8), -2 ^ 63 ≤ n → n < 2 ^ 63 →
      Prod.map (fun w => int64Value (zigzagDecode w)) id
          (decodeVarint (writeSignedVarint buf (int64Bits n) ++ rest)
            (writeSignedVarint buf (int64Bits n) ++ rest).length buf.length) =
        (n, buf.length + varintSize (zigzagEncode (int64Bits n))) := by
  have inverse : ∀ n : Int, -2 ^ 63 ≤ n → n < 2 ^ 63 →
      int64Value (zigzagDecode (zigzagEncode (int64Bits n))) = n := fun n lower upper => by
    rw [zigzagDecode_zigzagEncode, int64Value_int64Bits lower upper]
  have size : ∀ v : UInt64, (encodeVarint v).length = varintSize v := fun v =>
    length_encodeVarintLoop 9 v
  refine ⟨fun v _ _ _ _ => decodeVarint_encodeVarint v, fun v => ⟨size v, varintSize_le_ten v⟩,
    inverse, fun n buf rest lower upper => ?_⟩
  have within : buf.length + (encodeVarint (zigzagEncode (int64Bits n))).length ≤
      (writeSignedVarint buf (int64Bits n) ++ rest).length := by
    rw [List.length_append, length_writeSignedVarint, size]
    exact Nat.le_add_right _ _
  rw [decodeVarint_encodeVarint _ (drop_writeSignedVarint buf rest _) within, Prod.map,
    inverse n lower upper, size]
  rfl

/-- `UINT64_MAX` takes ten bytes and reads back; `INT64_MIN` and `INT64_MAX`, written by
`write_signed_varint` into an empty buffer, each take ten bytes and read back. -/
theorem decodeVarint_writeSignedVarint_extremes :
    decodeVarint (encodeVarint 0xFFFFFFFFFFFFFFFF) 10 0 = (0xFFFFFFFFFFFFFFFF, 10) ∧
      Prod.map (fun w => int64Value (zigzagDecode w)) id
          (decodeVarint (writeSignedVarint [] (int64Bits (-2 ^ 63)) ++ [])
            (writeSignedVarint [] (int64Bits (-2 ^ 63)) ++ []).length 0) =
        (-2 ^ 63, 10) ∧
      Prod.map (fun w => int64Value (zigzagDecode w)) id
          (decodeVarint (writeSignedVarint [] (int64Bits (2 ^ 63 - 1)) ++ [])
            (writeSignedVarint [] (int64Bits (2 ^ 63 - 1)) ++ []).length 0) =
        (2 ^ 63 - 1, 10) :=
  ⟨(decodeVarint_writeSignedVarint.1 _ _ [] 0 10 (List.append_nil _).symm (by decide)).trans
      (by decide),
    (decodeVarint_writeSignedVarint.2.2.2 (-2 ^ 63) [] [] (by decide) (by decide)).trans
      (by decide),
    (decodeVarint_writeSignedVarint.2.2.2 (2 ^ 63 - 1) [] [] (by decide) (by decide)).trans
      (by decide)⟩

end PgSexp
