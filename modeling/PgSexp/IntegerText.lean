import PgSexp.Numeric
import Mathlib.Data.Nat.Digits

/-!
# Integers, their encodings and their text

An `INTEGER` element stores the zig-zag varint of the int64's bits, and the printer writes
the int64 with `%lld`, which the parser reads back with `strtoll`.  Each of these steps is
undone by the one after it: `zigzag_decode` inverts `zigzag_encode` on every 64-bit word,
the two's-complement bits of an int64 read back as the int64, and `strtoll` reads the text
of `%lld` back as the value, with nothing left over.
-/

namespace PgSexp

/-! ## The bit operations of the zig-zag encoding -/

theorem toNat_shiftRight_one (v : UInt64) : (v >>> 1).toNat = v.toNat / 2 := by
  show (v.toBitVec >>> (UInt64.mod 1 64).toBitVec).toNat = _
  simp only [BitVec.ushiftRight_eq', BitVec.toNat_ushiftRight, Nat.shiftRight_eq_div_pow]
  rfl

theorem toNat_shiftRight_sixtyThree (v : UInt64) : (v >>> 63).toNat = v.toNat / 2 ^ 63 := by
  show (v.toBitVec >>> (UInt64.mod 63 64).toBitVec).toNat = _
  simp only [BitVec.ushiftRight_eq', BitVec.toNat_ushiftRight, Nat.shiftRight_eq_div_pow]
  rfl

theorem toNat_shiftLeft_one (v : UInt64) : (v <<< 1).toNat = 2 * v.toNat % 2 ^ 64 := by
  show (v.toBitVec <<< (UInt64.mod 1 64).toBitVec).toNat = _
  simp only [BitVec.shiftLeft_eq', BitVec.toNat_shiftLeft, Nat.shiftLeft_eq]
  show v.toNat * 2 ^ 1 % 2 ^ 64 = _
  rw [Nat.pow_one, Nat.mul_comm]

theorem toNat_xor_zero (v : UInt64) : (v ^^^ 0).toNat = v.toNat := by
  show (v.toBitVec ^^^ 0#64).toNat = _
  rw [BitVec.xor_zero]
  rfl

theorem toNat_xor_allOnes (v : UInt64) : (v ^^^ ~~~0).toNat = 2 ^ 64 - 1 - v.toNat := by
  show (v.toBitVec ^^^ ~~~0#64).toNat = _
  rw [BitVec.not_zero, BitVec.xor_allOnes, BitVec.toNat_not]
  rfl

theorem toNat_and_one (v : UInt64) : (v &&& 1).toNat = v.toNat % 2 := by
  show v.toBitVec.toNat &&& 1 = _
  rw [Nat.and_one_is_mod]
  rfl

theorem toNat_zero_sub (v : UInt64) : (0 - v).toNat = (2 ^ 64 - v.toNat) % 2 ^ 64 := by
  show (0#64 - v.toBitVec).toNat = _
  rw [BitVec.toNat_sub]
  simp only [BitVec.toNat_ofNat, Nat.zero_mod, Nat.add_zero]
  rfl

/-! ## Zig-zag -/

/-- `zigzag_decode` halves an even word and maps an odd one below zero. -/
theorem toNat_zigzagDecode (u : UInt64) :
    (zigzagDecode u).toNat =
      if u.toNat % 2 = 0 then u.toNat / 2 else 2 ^ 64 - 1 - u.toNat / 2 := by
  have mask : (0 - (u &&& 1)) = if u.toNat % 2 = 0 then 0 else ~~~0 := by
    apply UInt64.toNat.inj
    rw [toNat_zero_sub, toNat_and_one]
    split
    · rename_i even
      rw [even]
      rfl
    · rw [show u.toNat % 2 = 1 by omega]
      rfl
  rw [zigzagDecode, mask]
  split
  · rw [toNat_xor_zero, toNat_shiftRight_one]
  · rw [toNat_xor_allOnes, toNat_shiftRight_one]

/-- `zigzag_encode` doubles a non-negative int64 and maps a negative one to an odd word. -/
theorem toNat_zigzagEncode (n : UInt64) :
    (zigzagEncode n).toNat =
      if n.toNat < 2 ^ 63 then 2 * n.toNat else 2 ^ 65 - 1 - 2 * n.toNat := by
  have lt : n.toNat < 2 ^ 64 := n.toNat_lt_size
  have top := toNat_shiftRight_sixtyThree n
  have one : (1 : UInt64).toNat = 1 := rfl
  rw [zigzagEncode]
  by_cases low : n.toNat < 2 ^ 63
  · have positive : n >>> 63 ≠ 1 := fun high => by
      rw [high, one] at top
      omega
    rw [if_neg positive, if_pos low, toNat_xor_zero, toNat_shiftLeft_one]
    omega
  · have negative : n >>> 63 = 1 := UInt64.toNat.inj (by rw [top, one]; omega)
    rw [if_pos negative, if_neg low, toNat_xor_allOnes, toNat_shiftLeft_one]
    omega

theorem zigzagDecode_zigzagEncode (n : UInt64) : zigzagDecode (zigzagEncode n) = n := by
  apply UInt64.toNat.inj
  have lt : n.toNat < 2 ^ 64 := n.toNat_lt_size
  rw [toNat_zigzagDecode, toNat_zigzagEncode]
  split <;> split <;> omega

theorem zigzagEncode_zigzagDecode (u : UInt64) : zigzagEncode (zigzagDecode u) = u := by
  apply UInt64.toNat.inj
  have lt : u.toNat < 2 ^ 64 := u.toNat_lt_size
  rw [toNat_zigzagEncode, toNat_zigzagDecode]
  split <;> split <;> omega

/-! ## Two's complement -/

theorem toNat_int64Bits (v : Int) : (int64Bits v).toNat = (v % 2 ^ 64).toNat := by
  rw [int64Bits, UInt64.toNat_ofNat_of_lt]
  show _ < 2 ^ 64
  omega

/-- Every word is the bits of the int64 it stands for. -/
theorem int64Bits_int64Value (x : UInt64) : int64Bits (int64Value x) = x := by
  apply UInt64.toNat.inj
  have lt : x.toNat < 2 ^ 64 := x.toNat_lt_size
  rw [toNat_int64Bits, int64Value]
  split <;> omega

/-- Every int64 is the value of its bits. -/
theorem int64Value_int64Bits {v : Int} (lower : -2 ^ 63 ≤ v) (upper : v < 2 ^ 63) :
    int64Value (int64Bits v) = v := by
  rw [int64Value, toNat_int64Bits]
  split <;> omega

theorem int64Value_mem_range (x : UInt64) : -2 ^ 63 ≤ int64Value x ∧ int64Value x < 2 ^ 63 := by
  have lt : x.toNat < 2 ^ 64 := x.toNat_lt_size
  rw [int64Value]
  split <;> omega

/-! ## Decimal digits -/

theorem toDigitsCore_append : ∀ (fuel n : Nat) (ds : List Char),
    Nat.toDigitsCore 10 fuel n ds = Nat.toDigitsCore 10 fuel n [] ++ ds
  | 0, _, _ => rfl
  | fuel + 1, n, ds => by
    simp only [Nat.toDigitsCore]
    split
    · rfl
    · rw [toDigitsCore_append fuel _ (_ :: ds), toDigitsCore_append fuel _ [_],
        List.append_assoc]
      rfl

theorem toDigitsCore_fuel : ∀ (fuel fuel' n : Nat) (ds : List Char), n < fuel → n < fuel' →
    Nat.toDigitsCore 10 fuel n ds = Nat.toDigitsCore 10 fuel' n ds
  | 0, _, _, _, enough, _ => absurd enough (Nat.not_lt_zero _)
  | _ + 1, 0, _, _, _, enough => absurd enough (Nat.not_lt_zero _)
  | fuel + 1, fuel' + 1, n, ds, enough, enough' => by
    simp only [Nat.toDigitsCore]
    split
    · rfl
    · exact toDigitsCore_fuel fuel fuel' _ _ (by omega) (by omega)

theorem toDigits_of_lt {n : Nat} (small : n < 10) : Nat.toDigits 10 n = [Nat.digitChar n] := by
  simp only [Nat.toDigits, Nat.toDigitsCore, Nat.div_eq_of_lt small, Nat.mod_eq_of_lt small,
    if_true]

theorem toDigits_of_le {n : Nat} (large : 10 ≤ n) :
    Nat.toDigits 10 n = Nat.toDigits 10 (n / 10) ++ [Nat.digitChar (n % 10)] := by
  have quotient : n / 10 ≠ 0 := by omega
  simp only [Nat.toDigits, Nat.toDigitsCore, quotient, if_false]
  rw [toDigitsCore_append, toDigitsCore_fuel n (n / 10 + 1) _ _ (by omega) (by omega)]
  rfl

/-- The byte `%d` writes for a decimal digit. -/
theorem toNat_digitChar {d : Nat} (digit : d < 10) :
    (UInt8.ofNat (Nat.digitChar d).toNat).toNat = 48 + d := by
  have table : ∀ d < 10, (UInt8.ofNat (Nat.digitChar d).toNat).toNat = 48 + d := by decide
  exact table d digit

theorem isDigit_digitChar {d : Nat} (digit : d < 10) :
    isDigit (UInt8.ofNat (Nat.digitChar d).toNat) = true := by
  have table : ∀ d < 10, isDigit (UInt8.ofNat (Nat.digitChar d).toNat) = true := by decide
  exact table d digit

theorem toNat_of_isDigit {c : UInt8} (digit : isDigit c = true) :
    48 ≤ c.toNat ∧ c.toNat ≤ 57 := by
  simpa only [isDigit, Bool.and_eq_true, decide_eq_true_eq, UInt8.le_def, BitVec.le_def]
    using digit

/-- A decimal digit is the byte `48 + d` for some `d < 10`. -/
theorem eq_digit_of_isDigit {c : UInt8} (digit : isDigit c = true) :
    ∃ d < 10, c = UInt8.ofNat (48 + d) := by
  have bounds := toNat_of_isDigit digit
  refine ⟨c.toNat - 48, by omega, UInt8.toNat.inj ?_⟩
  rw [UInt8.toNat_ofNat_of_lt (by show _ < 256; omega)]
  omega

/-- The number that the digits `ds` append to `acc`, as the loop of `strtoll` reads it. -/
def digitValue (acc : Nat) (ds : List UInt8) : Nat :=
  ds.foldl (fun acc c => acc * 10 + (c.toNat - 48)) acc

theorem scanDigits_append : ∀ (ds : List UInt8) (acc count : Nat) (rest : List UInt8),
    (∀ c ∈ ds, isDigit c = true) →
      scanDigits acc count (ds ++ rest) = scanDigits (digitValue acc ds) (count + ds.length) rest
  | [], _, _, _, _ => rfl
  | c :: ds, acc, count, rest, digits => by
    rw [List.cons_append, scanDigits, if_pos (digits c (List.mem_cons_self _ _)),
      scanDigits_append ds _ _ _ fun c mem => digits c (List.mem_cons_of_mem _ mem)]
    simp only [digitValue, List.foldl_cons, List.length_cons, Nat.add_assoc, Nat.add_comm 1]

theorem all_isDigit_decimalDigits (n : Nat) : ∀ c ∈ decimalDigits n, isDigit c = true := by
  induction n using Nat.strong_induction_on with
  | _ n inductionHypothesis =>
    intro c mem
    by_cases small : n < 10
    · simp only [decimalDigits, toDigits_of_lt small, List.map_cons, List.map_nil,
        List.mem_singleton] at mem
      exact mem ▸ isDigit_digitChar small
    · simp only [decimalDigits, toDigits_of_le (Nat.le_of_not_lt small), List.map_append,
        List.map_cons, List.map_nil, List.mem_append, List.mem_singleton] at mem
      rcases mem with high | rfl
      · exact inductionHypothesis (n / 10) (by omega) c high
      · exact isDigit_digitChar (Nat.mod_lt _ (by decide))

/-- Reading the digits of `n` after `acc` gives `acc` shifted past them, plus `n`. -/
theorem digitValue_decimalDigits (acc n : Nat) :
    digitValue acc (decimalDigits n) = acc * 10 ^ (decimalDigits n).length + n := by
  induction n using Nat.strong_induction_on generalizing acc with
  | _ n inductionHypothesis =>
    by_cases small : n < 10
    · simp only [decimalDigits, toDigits_of_lt small, List.map_cons, List.map_nil, digitValue,
        List.foldl_cons, List.foldl_nil, List.length_singleton, Nat.pow_one,
        toNat_digitChar small]
      omega
    · have high := inductionHypothesis (n / 10) (by omega) acc
      simp only [decimalDigits, digitValue] at high ⊢
      rw [toDigits_of_le (Nat.le_of_not_lt small), List.map_append, List.foldl_append, high]
      simp only [List.map_cons, List.map_nil, List.foldl_cons, List.foldl_nil,
        List.length_append, List.length_singleton, Nat.pow_succ,
        toNat_digitChar (Nat.mod_lt n (by decide))]
      rw [Nat.add_mul, Nat.mul_assoc]
      omega

theorem decimalDigits_ne_nil (n : Nat) : decimalDigits n ≠ [] := by
  by_cases small : n < 10
  · simp [decimalDigits, toDigits_of_lt small]
  · simp [decimalDigits, toDigits_of_le (Nat.le_of_not_lt small)]

theorem scanSign_of_isDigit {c : UInt8} (digit : isDigit c = true) (rest : List UInt8) :
    scanSign (c :: rest) = (false, c :: rest) := by
  obtain ⟨d, small, rfl⟩ := eq_digit_of_isDigit digit
  have table : ∀ d < 10, UInt8.ofNat (48 + d) ≠ 45 ∧ UInt8.ofNat (48 + d) ≠ 43 := by decide
  unfold scanSign
  split
  · rename_i minus
    exact absurd (List.cons.inj minus).1 (table d small).1
  · rename_i plus
    exact absurd (List.cons.inj plus).1 (table d small).2
  · rfl

/-! ## `strtoll` reads `%lld` back -/

/-- `strtoll` reads the whole text `%lld` writes for an int64, and gives back the int64. -/
theorem strtoll_formatInt {v : Int} (lower : -2 ^ 63 ≤ v) (upper : v < 2 ^ 63) :
    strtoll (formatInt v) = (v, []) := by
  obtain ⟨c, digits, split⟩ := List.exists_cons_of_ne_nil (decimalDigits_ne_nil v.natAbs)
  have allDigits := all_isDigit_decimalDigits v.natAbs
  have scan := scanDigits_append (decimalDigits v.natAbs) 0 0 [] allDigits
  rw [List.append_nil, digitValue_decimalDigits, Nat.zero_mul, Nat.zero_add, Nat.zero_add]
    at scan
  have sign : scanSign (decimalDigits v.natAbs) = (false, decimalDigits v.natAbs) := by
    rw [split]
    exact scanSign_of_isDigit (allDigits c (split ▸ List.mem_cons_self _ _)) _
  have count : (decimalDigits v.natAbs).length ≠ 0 := by
    rw [split]
    exact Nat.succ_ne_zero _
  by_cases negative : v < 0
  · simp only [strtoll, formatInt, if_pos negative, List.singleton_append, scanSign, scan,
      scanDigits, count, if_false, if_true, Prod.mk.injEq, and_true]
    omega
  · simp only [strtoll, formatInt, if_neg negative, List.nil_append, sign, scan, scanDigits,
      count, if_false, Bool.false_eq_true, Prod.mk.injEq, and_true]
    omega

end PgSexp
