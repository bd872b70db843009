import PgSexp.Format

/-!
# The C library's number conversions

The parser reads numbers with `strtoll` and `strtod`, and the printer writes them with
`%d`, `%lld` and `%.17g`.  Each is modelled by exact `Nat` arithmetic on the decimal digits
and on the significand and power of two of a binary64, so that every result can be
evaluated: `strtoll` saturates at the int64 bounds, `strtod` rounds to nearest with ties to
even (overflowing to an infinity and underflowing through the subnormals), and `%.17g`
prints the value rounded to seventeen significant digits, ties to even, in fixed or
exponent notation with trailing zeros removed.  Only the forms the parser passes on are
read: an optional sign, then digits with at most one dot.
-/

namespace PgSexp

/-! ## Characters -/

/-- `isspace` in the C locale: space, `\t`, `\n`, `\v`, `\f`, `\r`. -/
def isSpace (c : UInt8) : Bool := c == 32 || (9 ≤ c && c ≤ 13)

/-- `isdigit` -/
def isDigit (c : UInt8) : Bool := 48 ≤ c && c ≤ 57

/-- The decimal digits of `n`, most significant first, as characters. -/
def decimalDigits (n : Nat) : List UInt8 :=
  (Nat.toDigits 10 n).map fun c => UInt8.ofNat c.toNat

/-! ## Integers -/

/-- The int64 with these two's-complement bits. -/
def int64Value (v : UInt64) : Int :=
  if v.toNat < 2 ^ 63 then v.toNat else (v.toNat : Int) - 2 ^ 64

/-- The two's-complement bits of an int64. -/
def int64Bits (v : Int) : UInt64 := UInt64.ofNat (v % 2 ^ 64).toNat

/-- An optional leading sign: whether it is `-`, and the rest. -/
def scanSign : List UInt8 → Bool × List UInt8
  | 45 :: rest => (true, rest)
  | 43 :: rest => (false, rest)
  | rest => (false, rest)

/-- Leading decimal digits appended to `acc`: the value, how many digits, and the rest. -/
def scanDigits (acc count : Nat) : List UInt8 → Nat × Nat × List UInt8
  | c :: rest =>
    if isDigit c then scanDigits (acc * 10 + (c.toNat - 48)) (count + 1) rest
    else (acc, count, c :: rest)
  | [] => (acc, count, [])

/-- `strtoll(s, &endptr, 10)`: the value, clamped to `[INT64_MIN, INT64_MAX]` as on `ERANGE`,
and what follows the number; no digits give `0` and all of `s`. -/
def strtoll (s : List UInt8) : Int × List UInt8 :=
  let (negative, afterSign) := scanSign s
  let (magnitude, count, rest) := scanDigits 0 0 afterSign
  if count = 0 then (0, s)
  else
    let value : Int := if negative then -(magnitude : Int) else magnitude
    (max (-2 ^ 63) (min (2 ^ 63 - 1) value), rest)

/-- `%d` and `%lld` -/
def formatInt (v : Int) : List UInt8 :=
  (if v < 0 then [45] else []) ++ decimalDigits v.natAbs

/-! ## Doubles -/

/-- `n / d` rounded to the nearest integer, ties to even. -/
def divRoundHalfEven (n d : Nat) : Nat :=
  if d < 2 * (n % d) ∨ (2 * (n % d) = d ∧ n / d % 2 = 1) then n / d + 1 else n / d

/-- `num * 2 ^ shift / den` rounded to nearest, ties to even. -/
def scaledRound (num den : Nat) (shift : Int) : Nat :=
  if 0 ≤ shift then divRoundHalfEven (num * 2 ^ shift.toNat) den
  else divRoundHalfEven num (den * 2 ^ (-shift).toNat)

/-- The number of binary digits of `n`, halving at most `fuel` times. -/
def bitLengthAux : Nat → Nat → Nat
  | 0, _ => 0
  | fuel + 1, n => if n = 0 then 0 else bitLengthAux fuel (n / 2) + 1

/-- The number of binary digits of `n`: `⌊log₂ n⌋ + 1`, and `0` for `0`. -/
def bitLength (n : Nat) : Nat := bitLengthAux n n

/-- `⌊log₂ (num / den)⌋` for `num, den > 0`: the difference of the bit lengths, less one when
`num / den` is below the power of two it names. -/
def binaryExponent (num den : Nat) : Int :=
  let e : Int := (bitLength num : Int) - bitLength den
  let below := if 0 ≤ e then num < den * 2 ^ e.toNat else num * 2 ^ (-e).toNat < den
  if below then e - 1 else e

/-- The bits of the binary64 nearest to `num / den` (`den > 0`), without its sign: ties to
even, an infinity from `2 ^ 1024` up, subnormals below `2 ^ -1022`.  For a normal result
the rounded significand `q ∈ [2 ^ 52, 2 ^ 53]` is added to the biased exponent less one,
so that rounding up to `2 ^ 53` carries into the exponent. -/
def nearestDoubleBits (num den : Nat) : Nat :=
  if num = 0 then 0
  else
    let e := binaryExponent num den
    if 1024 ≤ e then 0x7FF0000000000000
    else if -1022 ≤ e then (e + 1022).toNat * 2 ^ 52 + scaledRound num den (52 - e)
    else scaledRound num den 1074

/-- The binary64 nearest to `±num / den`. -/
def roundToDouble (negative : Bool) (num den : Nat) : UInt64 :=
  UInt64.ofNat ((if negative then 2 ^ 63 else 0) + nearestDoubleBits num den)

/-- `strtod(s, &endptr)` on an optional sign, digits and at most one dot with a digit on one
side of it: the nearest binary64 and what follows; no digits give `0` and all of `s`. -/
def strtod (s : List UInt8) : UInt64 × List UInt8 :=
  let (negative, afterSign) := scanSign s
  let (whole, wholeDigits, afterWhole) := scanDigits 0 0 afterSign
  match afterWhole with
  | 46 :: fraction =>
    let (mantissa, fractionDigits, rest) := scanDigits whole 0 fraction
    if wholeDigits + fractionDigits = 0 then (0, s)
    else (roundToDouble negative mantissa (10 ^ fractionDigits), rest)
  | rest => if wholeDigits = 0 then (0, s) else (roundToDouble negative whole 1, rest)

/-- The significand and the power of two of a finite binary64, as in its fields. -/
def float8Parts (bits : UInt64) : Nat × Int :=
  let exponent : Nat := bits.toNat / 2 ^ 52 % 2 ^ 11
  let fraction : Nat := bits.toNat % 2 ^ 52
  if exponent = 0 then (fraction, -1074) else (2 ^ 52 + fraction, (exponent : Int) - 1075)

/-- `⌊log₁₀ (num / den)⌋` for `num, den > 0`. -/
def decimalExponent (num den : Nat) : Int :=
  if den ≤ num then ((decimalDigits (num / den)).length : Int) - 1
  else -((decimalDigits ((den - 1) / num)).length : Int)

/-- `digits` without its trailing zeros. -/
def stripTrailingZeros (digits : List UInt8) : List UInt8 :=
  (digits.reverse.dropWhile (· == 48)).reverse

/-- A fraction after the decimal point, or nothing when it is empty. -/
def withPoint (fraction : List UInt8) : List UInt8 :=
  if fraction = [] then [] else 46 :: fraction

/-- The exponent of `%e`: a sign and at least two digits. -/
def exponentText (x : Int) : List UInt8 :=
  (if x < 0 then 45 else 43) ::
    (if x.natAbs < 10 then 48 :: decimalDigits x.natAbs else decimalDigits x.natAbs)

/-- `%.17g` of seventeen significant `digits` with decimal exponent `x`: exponent notation
when `x < -4` or `x ≥ 17`, fixed otherwise, without trailing zeros. -/
def gNotation (digits : List UInt8) (x : Int) : List UInt8 :=
  if x < -4 ∨ 17 ≤ x then
    digits.take 1 ++ withPoint (stripTrailingZeros (digits.drop 1)) ++ 101 :: exponentText x
  else if 0 ≤ x then
    digits.take (x.toNat + 1) ++ withPoint (stripTrailingZeros (digits.drop (x.toNat + 1)))
  else
    48 :: withPoint (stripTrailingZeros (List.replicate ((-x).toNat - 1) 48 ++ digits))

/-- `%.17g` of the non-negative `num / den`: seventeen significant digits, rounded to
nearest with ties to even. -/
def formatG17Magnitude (num den : Nat) : List UInt8 :=
  if num = 0 then [48]
  else
    let x := decimalExponent num den
    let scaled :=
      if x ≤ 16 then divRoundHalfEven (num * 10 ^ (16 - x).toNat) den
      else divRoundHalfEven num (den * 10 ^ (x - 16).toNat)
    if scaled = 10 ^ 17 then gNotation (decimalDigits (10 ^ 16)) (x + 1)
    else gNotation (decimalDigits scaled) x

/-- `%.17g` of a finite binary64. -/
def formatG17 (bits : UInt64) : List UInt8 :=
  let (significand, power) := float8Parts bits
  (if 2 ^ 63 ≤ bits.toNat then [45] else []) ++
    if 0 ≤ power then formatG17Magnitude (significand * 2 ^ power.toNat) 1
    else formatG17Magnitude significand (2 ^ (-power).toNat)

end PgSexp
