import PgSexp.Deduplication
import PgSexp.PgHash

/-!
# Tokens of the number production

The grammar of the spec reads a token as a number when it matches
`[+-]? digits ('.' digits)? ([eE] [+-]? digits)?`, and as a float when it has a fractional
part or an exponent.  `parse_number_or_symbol` reads a token as a number only when it holds
nothing but digits, a leading sign and one dot: a letter clears `is_number`, the `e` of an
exponent included.  Every token of the number production with an exponent, `1e10` among
them, is therefore written as a symbol whose text is the token.
-/

namespace PgSexp

/-! ## The number production -/

/-- What follows an optional leading `+` or `-`. -/
def dropSign : List UInt8 → List UInt8
  | 43 :: rest => rest
  | 45 :: rest => rest
  | rest => rest

/-- `digits`: what follows one or more decimal digits, if they are there. -/
def dropDigits (s : List UInt8) : Option (List UInt8) :=
  if s.head?.any isDigit then some (s.dropWhile isDigit) else none

/-- `('.' digits)?` -/
def dropFraction : List UInt8 → List UInt8
  | 46 :: rest => (dropDigits rest).getD (46 :: rest)
  | rest => rest

/-- `([eE] [+-]? digits)?` -/
def dropExponent : List UInt8 → List UInt8
  | c :: rest => if c = 101 ∨ c = 69 then (dropDigits (dropSign rest)).getD (c :: rest) else c :: rest
  | [] => []

/-- A whole token matches `[+-]? digits ('.' digits)? ([eE] [+-]? digits)?`. -/
def specNumber (t : List UInt8) : Bool :=
  match dropDigits (dropSign t) with
  | some rest => dropExponent (dropFraction rest) = []
  | none => false

/-- A byte the number production can hold: a digit, a sign, the dot or an exponent letter. -/
def numberByte (c : UInt8) : Bool :=
  isDigit c || c == 43 || c == 45 || c == 46 || c == 101 || c == 69

/-- `s` is `rest` after a prefix of bytes the number production can hold. -/
def NumberPrefix (s rest : List UInt8) : Prop :=
  ∃ pre, s = pre ++ rest ∧ ∀ c ∈ pre, numberByte c = true

section Prefixes

theorem NumberPrefix.refl (s : List UInt8) : NumberPrefix s s :=
  ⟨[], rfl, fun _ mem => absurd mem (List.not_mem_nil _)⟩

theorem NumberPrefix.trans {s r t : List UInt8} (first : NumberPrefix s r)
    (second : NumberPrefix r t) : NumberPrefix s t := by
  obtain ⟨pre, rfl, bytes⟩ := first
  obtain ⟨pre', rfl, bytes'⟩ := second
  refine ⟨pre ++ pre', (List.append_assoc _ _ _).symm, fun c mem => ?_⟩
  rcases List.mem_append.1 mem with here | there
  · exact bytes c here
  · exact bytes' c there

theorem NumberPrefix.cons {c : UInt8} (byte : numberByte c = true) (rest : List UInt8) :
    NumberPrefix (c :: rest) rest :=
  ⟨[c], rfl, fun _ mem => List.mem_singleton.1 mem ▸ byte⟩

theorem numberPrefix_dropSign (s : List UInt8) : NumberPrefix s (dropSign s) := by
  unfold dropSign
  split
  · exact .cons (by decide) _
  · exact .cons (by decide) _
  · exact .refl _

theorem numberPrefix_dropDigits {s rest : List UInt8} (dropped : dropDigits s = some rest) :
    NumberPrefix s rest := by
  unfold dropDigits at dropped
  split at dropped
  · cases dropped
    refine ⟨s.takeWhile isDigit, (List.takeWhile_append_dropWhile _ _).symm, fun c mem => ?_⟩
    have digit := List.mem_takeWhile_imp mem
    simp only [numberByte, digit, Bool.true_or]
  · cases dropped

theorem numberPrefix_getD {s rest : List UInt8} {r : Option (List UInt8)}
    (dropped : ∀ r', r = some r' → NumberPrefix s r') (prefixOf : NumberPrefix s rest) :
    NumberPrefix s (r.getD rest) := by
  cases r with
  | none => exact prefixOf
  | some r' => exact dropped r' rfl

theorem numberPrefix_dropFraction (s : List UInt8) : NumberPrefix s (dropFraction s) := by
  unfold dropFraction
  split
  · exact numberPrefix_getD (fun _ dropped => (NumberPrefix.cons (by decide) _).trans
      (numberPrefix_dropDigits dropped)) (.refl _)
  · exact .refl _

theorem numberPrefix_dropExponent (s : List UInt8) : NumberPrefix s (dropExponent s) := by
  unfold dropExponent
  split
  · split
    · rename_i c rest letter
      have byte : numberByte c = true := by
        rcases letter with rfl | rfl <;> decide
      exact numberPrefix_getD (fun _ dropped => (NumberPrefix.cons byte rest).trans
        ((numberPrefix_dropSign rest).trans (numberPrefix_dropDigits dropped))) (.refl _)
    · exact .refl _
  · exact .refl _

end Prefixes

/-- A token of the number production holds only digits, signs, dots and exponent letters. -/
theorem numberByte_of_specNumber {t : List UInt8} (number : specNumber t = true) :
    ∀ c ∈ t, numberByte c = true := by
  unfold specNumber at number
  split at number
  · rename_i rest dropped
    obtain ⟨pre, whole, bytes⟩ := (numberPrefix_dropSign t).trans
      ((numberPrefix_dropDigits dropped).trans
        ((numberPrefix_dropFraction rest).trans (numberPrefix_dropExponent _)))
    rw [of_decide_eq_true number, List.append_nil] at whole
    exact whole ▸ bytes
  · cases number

/-! ## What `parse_number_or_symbol` makes of them -/

theorem endsToken_of_numberByte {c : UInt8} (byte : numberByte c = true) : endsToken c = false := by
  simp only [numberByte, Bool.or_eq_true, beq_iff_eq] at byte
  rcases byte with ((((digit | rfl) | rfl) | rfl) | rfl) | rfl
  · exact endsToken_of_isDigit digit
  all_goals rfl

/-- Once a byte of the token clears `is_number`, it stays clear. -/
theorem scanTokenFlags_not_isNumber :
    ∀ (t : List UInt8) (atStart : Bool) (flags : TokenFlags), flags.isNumber = false →
      (scanTokenFlags atStart flags t).isNumber = false
  | [], _, _, clear => clear
  | c :: t, _, flags, clear => by
    apply scanTokenFlags_not_isNumber t false
    split_ifs <;> simp only [clear, Bool.false_and]

/-- A letter in the token clears `is_number`. -/
theorem scanTokenFlags_of_letter {c : UInt8} (letter : c = 101 ∨ c = 69) :
    ∀ (t : List UInt8) (atStart : Bool) (flags : TokenFlags), c ∈ t →
      (scanTokenFlags atStart flags t).isNumber = false
  | c' :: t, atStart, flags, mem => by
    rcases List.mem_cons.1 mem with rfl | later
    · rcases letter with rfl | rfl <;> exact scanTokenFlags_not_isNumber t false _ rfl
    · exact scanTokenFlags_of_letter letter t false _ later

variable (H : HashFns)

/-- Every token of the number production with an exponent, alone in the text, is written as a
symbol whose text is the token. -/
theorem sexpParse_exponent_number {t : List UInt8} (number : specNumber t = true)
    (exponent : 101 ∈ t ∨ 69 ∈ t) : sexpParse H t = .ok ⟨[t], .symbolRef 0⟩ := by
  have bytes := numberByte_of_specNumber number
  have inside : ∀ c ∈ t, endsToken c = false := fun c mem => endsToken_of_numberByte (bytes c mem)
  have notNil : t ≠ [110, 105, 108] := by
    rintro rfl
    exact absurd exponent (by decide)
  have notNumber : parseNumber H t (scanTokenFlags true ⟨true, false, false⟩ t) = none := by
    rw [parseNumber, if_pos]
    rcases exponent with e | e
    · simp only [scanTokenFlags_of_letter (.inl rfl) t true _ e, Bool.false_and, Bool.not_false]
    · simp only [scanTokenFlags_of_letter (.inr rfl) t true _ e, Bool.false_and, Bool.not_false]
  obtain ⟨c, text, rfl⟩ := List.exists_cons_of_ne_nil
    (exponent.elim List.ne_nil_of_mem List.ne_nil_of_mem)
  have token : isSymbolToken H (c :: text) = true :=
    (isSymbolToken_iff H).2 ⟨List.cons_ne_nil _ _, inside, notNil, notNumber⟩
  obtain ⟨space, -, -, -, comment⟩ := not_endsToken (inside c (List.mem_cons_self _ _))
  obtain ⟨tab, value, symbols, -⟩ := parseValue_symbol_interned token
    (show endsAtom [] = true from rfl) (interned_initSymbolTable H) (3 * (text.length + 1) + 2) 0
  rw [List.append_nil] at value
  rw [sexpParse_eq_ok space comment value rfl, symbols]
  rfl

/-- `1e10`, which the manual lists among the floats, with PostgreSQL's hash functions. -/
theorem sexpParse_exponent_number_oneE10 :
    specNumber [49, 101, 49, 48] = true ∧ (101 ∈ [49, 101, 49, 48] ∨ 69 ∈ [49, 101, 49, 48]) ∧
      sexpParse pgHashFns [49, 101, 49, 48] = .ok ⟨[[49, 101, 49, 48]], .symbolRef 0⟩ :=
  ⟨rfl, by decide, sexpParse_exponent_number pgHashFns rfl (by decide)⟩

end PgSexp
