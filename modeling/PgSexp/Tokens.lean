import PgSexp.Parse
import PgSexp.Print
import PgSexp.IntegerText
import PgSexp.Interning

/-!
# Printed atoms, read back

`output_element` writes each atom so that a scanner of the parser reads it back: an
integer as `%lld` text, which `parse_number_or_symbol` takes for an integer and `strtoll`
reads whole; a string between quotes with its escapes, which `parse_string` undoes; and a
symbol as its bytes, which the parser interns again when they form a token that is neither
`nil` nor a number.  Each lemma here says what one scanner does with the text of one atom
followed by the end of the input or by a byte that ends a token, or what one step of the list
parser does.
-/

namespace PgSexp

variable (H : HashFns)

/-- The input after an atom: empty, or starting with a byte that ends a token. -/
def endsAtom : List UInt8 → Bool
  | [] => true
  | c :: _ => endsToken c

theorem not_endsToken {c : UInt8} (inside : endsToken c = false) :
    isSpace c = false ∧ c ≠ 40 ∧ c ≠ 41 ∧ c ≠ 34 ∧ c ≠ 59 := by
  simpa only [endsToken, Bool.or_eq_false_iff, beq_eq_false_iff_ne, and_assoc] using inside

/-! ## Whitespace and the dispatch of `sexp_parse_value_with_hash` -/

theorem skipWhitespace_cons {c : UInt8} (space : isSpace c = false) (comment : c ≠ 59)
    (rest : List UInt8) : skipWhitespace (c :: rest) = c :: rest := by
  simp only [skipWhitespace, space, beq_iff_eq, comment, if_false, Bool.false_eq_true]

theorem skipWhitespace_space (rest : List UInt8) :
    skipWhitespace (32 :: rest) = skipWhitespace rest :=
  rfl

theorem parseValue_open (fuel depth : Nat) (rest : List UInt8) (tab : SexpSymbolTable) :
    parseValue H (fuel + 1) depth ⟨40 :: rest, tab⟩ = parseList H fuel depth ⟨rest, tab⟩ :=
  rfl

theorem parseValue_quote (fuel depth : Nat) (rest : List UInt8) (tab : SexpSymbolTable) :
    parseValue H (fuel + 1) depth ⟨34 :: rest, tab⟩ = parseString H ⟨rest, tab⟩ :=
  rfl

/-- A value that starts with a byte of a token is read by `parse_number_or_symbol`. -/
theorem parseValue_token {c : UInt8} (inside : endsToken c = false) (fuel depth : Nat)
    (rest : List UInt8) (tab : SexpSymbolTable) :
    parseValue H (fuel + 1) depth ⟨c :: rest, tab⟩ = parseNumberOrSymbol H ⟨c :: rest, tab⟩ := by
  obtain ⟨space, notOpen, -, notQuote, comment⟩ := not_endsToken inside
  simp only [parseValue, skipWhitespace_cons space comment]
  split
  · rename_i empty
    exact absurd empty (List.cons_ne_nil _ _)
  · rename_i opening
    exact absurd (List.cons.inj opening).1 notOpen
  · rename_i quoting
    exact absurd (List.cons.inj quoting).1 notQuote
  · rfl

/-! ## Tokens -/

theorem span_token {token rest : List UInt8} (inside : ∀ c ∈ token, endsToken c = false)
    (ends : endsAtom rest = true) :
    (token ++ rest).span (fun c => !endsToken c) = (token, rest) := by
  have inside' : ∀ c ∈ token, (!endsToken c) = true := fun c mem => by
    rw [inside c mem, Bool.not_false]
  rw [List.span_eq_take_drop, List.takeWhile_append_of_pos inside',
    List.dropWhile_append_of_pos inside']
  cases rest with
  | nil => simp only [List.takeWhile_nil, List.dropWhile_nil, List.append_nil]
  | cons c r =>
    simp only [endsAtom] at ends
    simp only [List.takeWhile_cons, List.dropWhile_cons, ends, Bool.not_true, Bool.false_eq_true,
      if_false, List.append_nil]

/-- The token `nil` is read as NIL, at any depth. -/
theorem parseValue_nilToken {rest : List UInt8} (ends : endsAtom rest = true) (fuel depth : Nat)
    (tab : SexpSymbolTable) :
    parseValue H (fuel + 1) depth ⟨[110, 105, 108] ++ rest, tab⟩ = .ok (.nil, 0, ⟨rest, tab⟩) := by
  have inside : ∀ c ∈ [110, 105, 108], endsToken c = false := by decide
  rw [List.cons_append, parseValue_token H (inside 110 (List.mem_cons_self _ _)),
    ← List.cons_append]
  simp only [parseNumberOrSymbol, span_token inside ends, List.cons_ne_nil, if_false, if_true]

/-! ## Integers -/

theorem mem_formatInt {v : Int} {c : UInt8} (mem : c ∈ formatInt v) :
    c = 45 ∨ isDigit c = true := by
  simp only [formatInt, List.mem_append] at mem
  rcases mem with sign | digit
  · split at sign
    · exact .inl (List.mem_singleton.1 sign)
    · exact absurd sign (List.not_mem_nil c)
  · exact .inr (all_isDigit_decimalDigits _ c digit)

theorem endsToken_of_isDigit {c : UInt8} (digit : isDigit c = true) : endsToken c = false := by
  obtain ⟨d, small, rfl⟩ := eq_digit_of_isDigit digit
  have table : ∀ d < 10, endsToken (UInt8.ofNat (48 + d)) = false := by decide
  exact table d small

theorem endsToken_of_mem_formatInt {v : Int} {c : UInt8} (mem : c ∈ formatInt v) :
    endsToken c = false := by
  rcases mem_formatInt mem with rfl | digit
  · rfl
  · exact endsToken_of_isDigit digit

/-- Digits after the sign leave a number a number, and record that it has a digit. -/
theorem scanTokenFlags_digits (isNumber hasDot : Bool) :
    ∀ (atStart hasDigit : Bool) (d : UInt8) (ds : List UInt8),
      (∀ c ∈ d :: ds, isDigit c = true) →
        scanTokenFlags atStart ⟨isNumber, hasDot, hasDigit⟩ (d :: ds) = ⟨isNumber, hasDot, true⟩
  | atStart, hasDigit, d, ds, digits => by
    have digit := digits d (List.mem_cons_self _ _)
    have notSignOrDot : (d == 45 || d == 43) = false ∧ (d == 46) = false := by
      obtain ⟨e, small, rfl⟩ := eq_digit_of_isDigit digit
      have table : ∀ e < 10, (UInt8.ofNat (48 + e) == 45 || UInt8.ofNat (48 + e) == 43) = false ∧
          (UInt8.ofNat (48 + e) == 46) = false := by decide
      exact table e small
    rw [scanTokenFlags, notSignOrDot.1, notSignOrDot.2, if_pos digit]
    simp only [Bool.false_eq_true, if_false]
    cases ds with
    | nil => rfl
    | cons d' ds =>
      exact scanTokenFlags_digits isNumber hasDot false true d' ds
        fun c mem => digits c (List.mem_cons_of_mem _ mem)

/-- `%lld` text scans as a number with a digit and no dot. -/
theorem scanTokenFlags_formatInt (v : Int) :
    scanTokenFlags true ⟨true, false, false⟩ (formatInt v) = ⟨true, false, true⟩ := by
  obtain ⟨d, ds, split⟩ := List.exists_cons_of_ne_nil (decimalDigits_ne_nil v.natAbs)
  have digits : ∀ c ∈ d :: ds, isDigit c = true := split ▸ all_isDigit_decimalDigits v.natAbs
  by_cases negative : v < 0
  · simp only [formatInt, if_pos negative, List.singleton_append, split, scanTokenFlags]
    exact scanTokenFlags_digits true false false false d ds digits
  · simp only [formatInt, if_neg negative, List.nil_append, split]
    exact scanTokenFlags_digits true false true false d ds digits

theorem formatInt_ne_nil (v : Int) : formatInt v ≠ [] := by
  simp only [formatInt, ne_eq, List.append_eq_nil, decimalDigits_ne_nil, and_false,
    not_false_eq_true]

theorem formatInt_ne_nilText (v : Int) : formatInt v ≠ [110, 105, 108] := fun text =>
  absurd (mem_formatInt (text ▸ List.mem_cons_self 110 [105, 108] : (110 : UInt8) ∈ formatInt v))
    (by decide)

/-- `parse_number_or_symbol` reads the text of an int64 back as the element of that int64. -/
theorem parseNumberOrSymbol_formatInt {v : Int} (lower : -2 ^ 63 ≤ v) (upper : v < 2 ^ 63)
    {rest : List UInt8} (ends : endsAtom rest = true) (tab : SexpSymbolTable) :
    parseNumberOrSymbol H ⟨formatInt v ++ rest, tab⟩ =
      .ok (integerElement v, integerElemHash H (int64Bits v), ⟨rest, tab⟩) := by
  simp only [parseNumberOrSymbol, span_token (fun c => endsToken_of_mem_formatInt) ends,
    formatInt_ne_nil, formatInt_ne_nilText, if_false, scanTokenFlags_formatInt, parseNumber,
    Bool.and_self, Bool.not_true, Bool.false_eq_true, strtoll_formatInt lower upper]
  rfl

/-- `sexp_parse_value_with_hash` reads the text of an int64 back as its element. -/
theorem parseValue_formatInt {v : Int} (lower : -2 ^ 63 ≤ v) (upper : v < 2 ^ 63)
    {rest : List UInt8} (ends : endsAtom rest = true) (fuel depth : Nat) (tab : SexpSymbolTable) :
    parseValue H (fuel + 1) depth ⟨formatInt v ++ rest, tab⟩ =
      .ok (integerElement v, integerElemHash H (int64Bits v), ⟨rest, tab⟩) := by
  obtain ⟨c, t, split⟩ := List.exists_cons_of_ne_nil (formatInt_ne_nil v)
  have inside : endsToken c = false :=
    endsToken_of_mem_formatInt (by rw [split]; exact List.mem_cons_self c t)
  rw [split, List.cons_append, parseValue_token H inside, ← List.cons_append, ← split,
    parseNumberOrSymbol_formatInt H lower upper ends]

/-- A small integer's value is read back as the same small integer. -/
theorem integerElement_smallint (p : Fin 32) :
    integerElement ((p.val : Int) - sexpSmallintBias) = .smallInt p := by
  have range : -16 ≤ (p.val : Int) - 16 ∧ (p.val : Int) - 16 ≤ 15 := by omega
  simp only [integerElement, sexpSmallintBias, Nat.cast_ofNat, if_pos range, Elem.smallInt.injEq]
  ext
  simp only [sub_add_cancel, Int.toNat_natCast]
  exact Nat.mod_eq_of_lt p.isLt

/-- A full integer outside the small range is read back as the same full integer. -/
theorem integerElement_integer {u : UInt64}
    (large : ¬(-16 ≤ int64Value (zigzagDecode u) ∧ int64Value (zigzagDecode u) ≤ 15)) :
    integerElement (int64Value (zigzagDecode u)) = .integer u := by
  rw [integerElement, if_neg large, int64Bits_int64Value, zigzagEncode_zigzagDecode]

/-! ## Symbols -/

/-- The text of a symbol that the parser reads back as that symbol: a nonempty token, not
`nil`, and not a number. -/
def isSymbolToken (s : List UInt8) : Bool :=
  !s.isEmpty && s.all (fun c => !endsToken c) && s != [110, 105, 108] &&
    (parseNumber H s (scanTokenFlags true ⟨true, false, false⟩ s)).isNone

theorem isSymbolToken_iff {s : List UInt8} :
    isSymbolToken H s = true ↔ s ≠ [] ∧ (∀ c ∈ s, endsToken c = false) ∧
      s ≠ [110, 105, 108] ∧ parseNumber H s (scanTokenFlags true ⟨true, false, false⟩ s) = none := by
  simp only [isSymbolToken, Bool.and_eq_true, Bool.not_eq_true', List.isEmpty_eq_false,
    List.all_eq_true, bne_iff_ne, ne_eq, Option.isNone_iff_eq_none, and_assoc]

/-- `sexp_parse_value_with_hash` interns a symbol's text again. -/
theorem parseValue_symbol {s rest : List UInt8} (token : isSymbolToken H s = true)
    (ends : endsAtom rest = true) {tab : SexpSymbolTable} (wf : tab.WellFormed) (fuel depth : Nat) :
    ∃ idx tab', parseValue H (fuel + 1) depth ⟨s ++ rest, tab⟩ =
        .ok (.symbolRef idx, sexpHashStringWithTag H sexpTagSymbolRef s, ⟨rest, tab'⟩) ∧
      tab'.WellFormed ∧ tab'.symbols[idx]? = some s ∧ tab.symbols <+: tab'.symbols := by
  obtain ⟨nonempty, inside, notNil, notNumber⟩ := (isSymbolToken_iff H).1 token
  obtain ⟨idx, tab', interned, wf', found, grows⟩ := internSymbol_eq_some H wf s
  refine ⟨idx, tab', ?_, wf', found, grows⟩
  obtain ⟨c, t, rfl⟩ := List.exists_cons_of_ne_nil nonempty
  rw [List.cons_append, parseValue_token H (inside c (List.mem_cons_self c t)),
    ← List.cons_append]
  simp only [parseNumberOrSymbol, span_token inside ends, nonempty, notNil, if_false,
    notNumber, interned]

/-! ## Strings -/

/-- `parse_string` reads the text of one escaped byte back as the byte. -/
theorem parseStringBody_escapeByte (acc : List UInt8) (c : UInt8) (rest : List UInt8) :
    parseStringBody acc (escapeByte c ++ rest) = parseStringBody (c :: acc) rest := by
  by_cases newline : c = 10
  · subst newline; rfl
  by_cases tab : c = 9
  · subst tab; rfl
  by_cases ret : c = 13
  · subst ret; rfl
  by_cases backslash : c = 92
  · subst backslash; rfl
  by_cases quote : c = 34
  · subst quote; rfl
  rw [escapeByte, if_neg newline, if_neg tab, if_neg ret, if_neg backslash, if_neg quote,
    List.singleton_append, parseStringBody.eq_5 _ _ _ quote (fun escape _ => backslash escape)
      (fun _ _ escape _ => backslash escape)]

/-- `parse_string` reads a quoted string's body back, up to the closing quote. -/
theorem parseStringBody_escaped (rest : List UInt8) :
    ∀ (s acc : List UInt8),
      parseStringBody acc (s.flatMap escapeByte ++ 34 :: rest) = .ok (acc.reverse ++ s, rest)
  | [], acc => by
    rw [List.flatMap_nil, List.nil_append, List.append_nil]
    rfl
  | c :: s, acc => by
    rw [List.flatMap_cons, List.append_assoc, parseStringBody_escapeByte,
      parseStringBody_escaped rest s, List.reverse_cons, List.append_assoc,
      List.singleton_append]

theorem parseValue_quoteString (fuel depth : Nat) (s rest : List UInt8) (tab : SexpSymbolTable) :
    parseValue H (fuel + 1) depth ⟨quoteString s ++ rest, tab⟩ =
      .ok (stringElement s, sexpHashStringWithTag H sexpTagShortString s, ⟨rest, tab⟩) := by
  simp only [quoteString, List.cons_append, List.append_assoc, List.nil_append]
  rw [parseValue_quote, parseString, parseStringBody_escaped rest s []]
  rfl

/-! ## Lists -/

theorem parseValue_nil {depth : Nat} (shallow : depth < sexpMaxDepth) (fuel : Nat)
    (rest : List UInt8) (tab : SexpSymbolTable) :
    parseValue H (fuel + 2) depth ⟨40 :: 41 :: rest, tab⟩ = .ok (.nil, 0, ⟨rest, tab⟩) := by
  rw [parseValue_open, parseList, if_neg (Nat.not_le_of_lt shallow)]
  rfl

/-- `parse_list` after its opening parenthesis, on a list with children: the element of the
children its loop reads. -/
theorem parseList_of_parseElements {depth fuel : Nat} (shallow : depth < sexpMaxDepth)
    {b : UInt8} {text : List UInt8} (space : isSpace b = false) (comment : b ≠ 59)
    (notClose : b ≠ 41) {tab : SexpSymbolTable} {children : List (Elem × UInt32)}
    {st : SexpParseState}
    (loop : parseElements H fuel (depth + 1) ⟨b :: text, tab⟩ [] = .ok (children, st)) :
    parseList H (fuel + 1) depth ⟨b :: text, tab⟩ =
      .ok (listElement (children.map (·.1)) (parseListHash H (children.map (·.2))),
        parseListHash H (children.map (·.2)), st) := by
  simp only [parseList, if_neg (Nat.not_le_of_lt shallow), skipWhitespace_cons space comment]
  split
  · rename_i closing
    exact absurd (List.cons.inj closing).1 notClose
  · rw [loop]
    rfl

theorem parseElements_close (fuel depth : Nat) (rest : List UInt8) (tab : SexpSymbolTable)
    (acc : List (Elem × UInt32)) :
    parseElements H (fuel + 1) depth ⟨41 :: rest, tab⟩ acc = .ok (acc.reverse, ⟨rest, tab⟩) :=
  rfl

/-- One turn of the child loop of `parse_list`: a child, then the whitespace after it. -/
theorem parseElements_of_parseValue {fuel depth : Nat} {b : UInt8} {text : List UInt8}
    (notClose : b ≠ 41) {tab : SexpSymbolTable} {e : Elem} {hash : UInt32} {st : SexpParseState}
    (value : parseValue H fuel depth ⟨b :: text, tab⟩ = .ok (e, hash, st))
    (acc : List (Elem × UInt32)) :
    parseElements H (fuel + 1) depth ⟨b :: text, tab⟩ acc =
      parseElements H fuel depth { st with rest := skipWhitespace st.rest } ((e, hash) :: acc) := by
  simp only [parseElements]
  split
  · rename_i empty
    exact absurd empty (List.cons_ne_nil _ _)
  · rename_i closing
    exact absurd (List.cons.inj closing).1 notClose
  · rw [value]
    rfl

end PgSexp
