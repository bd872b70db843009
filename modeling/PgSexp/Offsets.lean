import PgSexp.Deduplication
import PgSexp.Layout
import PgSexp.PgHash

/-!
# The offsets of a large list

`parse_list` records the offset of each child of a large list in the child's SEntry through
`SENTRY_MAKE`, which keeps the low 28 bits of the offset: an SEntry holds the child's offset
modulo `2 ^ 28` (`sentryGetOffset_encodeChildren`).  Nothing checks how long the element data
grows, so a child that starts `2 ^ 28` bytes or more into it is recorded at the wrong offset.
Four strings of `2 ^ 26` bytes with nothing to escape, followed by `1`, are parsed without an
error, and the SEntry of the `1` points 20 bytes into the first string.
-/

namespace PgSexp

variable (H : HashFns)

/-! ## The tags `sexp_parse` writes -/

mutual
/-- An element in the form `sexp_parse` writes, of fewer than `2 ^ 32` bytes, has tag bytes
that say what follows them. -/
theorem Elem.wellTagged_of_canonical {syms : List (List UInt8)} : ∀ {e : Elem} {depth : Nat},
    e.canonical H syms depth = true → e.encode.length < 2 ^ 32 → e.wellTagged = true
  | .shortString _, _, canonical, _ => canonical
  | .smallList cs, _, canonical, fits => by
    obtain ⟨-, nonempty, small, children⟩ := Elem.canonical_smallList.1 canonical
    have data : ((cs.map Elem.encode).flatten).length < (Elem.smallList cs).encode.length :=
      Elem.length_data_lt (.smallList cs)
    have count : cs.length ≤ sexpSmallListMax := small
    unfold sexpSmallListMax at count
    exact Bool.and_eq_true_iff.2 ⟨decide_eq_true ⟨List.length_pos.2 nonempty, by omega⟩,
      Elem.wellTaggedList_of_canonicalList children (by omega)⟩
  | .largeList hash cs, _, canonical, fits => by
    have children := (Elem.canonical_largeList.1 canonical).2.2
    have data : ((cs.map Elem.encode).flatten).length < (Elem.largeList hash cs).encode.length :=
      Elem.length_data_lt (.largeList hash cs)
    have count := length_le_length_data cs
    exact Bool.and_eq_true_iff.2 ⟨decide_eq_true (by omega),
      Elem.wellTaggedList_of_canonicalList children (by omega)⟩
  | .nil, _, _, _ | .smallInt _, _, _, _ | .integer _, _, _, _ | .float _, _, _, _
  | .symbolRef _, _, _, _ | .longString _, _, _, _ => rfl
/-- `wellTagged_of_canonical` of each child. -/
theorem Elem.wellTaggedList_of_canonicalList {syms : List (List UInt8)} :
    ∀ {cs : List Elem} {depth : Nat}, Elem.canonicalList H syms depth cs = true →
      ((cs.map Elem.encode).flatten).length < 2 ^ 32 → Elem.wellTaggedList cs = true
  | [], _, _, _ => rfl
  | c :: cs, _, canonical, fits => by
    have both := Bool.and_eq_true_iff.1 canonical
    rw [List.map_cons, List.flatten_cons, List.length_append] at fits
    exact Bool.and_eq_true_iff.2 ⟨Elem.wellTagged_of_canonical both.1 (by omega),
      Elem.wellTaggedList_of_canonicalList both.2 (by omega)⟩
end

/-- Every value `sexp_parse` returns, of fewer than `2 ^ 32` bytes, has tag bytes that say
what follows them: the two skip routines step over each of its elements. -/
theorem sexpParse_wellTagged {input : List UInt8} {v : Sexp} (parsed : sexpParse H input = .ok v)
    (fits : v.bytes.length < 2 ^ 32) : v.root.wellTagged = true :=
  Elem.wellTagged_of_canonical H (sexpParse_written H parsed).1
    (Nat.lt_of_le_of_lt v.root_suffix_bytes.length_le fits)

section Children

/-- A quoted string child of a list, with no byte to escape, and the space after it. -/
theorem parseElements_plain_string (fuel depth : Nat) {s : List UInt8}
    (plain : s.flatMap escapeByte = s) {rest : List UInt8} (stays : skipWhitespace rest = rest)
    (tab : SexpSymbolTable) (acc : List (Elem × UInt32)) :
    parseElements H (fuel + 2) depth ⟨34 :: (s ++ 34 :: 32 :: rest), tab⟩ acc =
      parseElements H (fuel + 1) depth ⟨rest, tab⟩
        ((stringElement s, sexpHashStringWithTag H sexpTagShortString s) :: acc) := by
  have value := parseValue_quoteString H fuel depth s (32 :: rest) tab
  rw [quoteString, plain] at value
  simp only [List.cons_append, List.append_assoc, List.singleton_append, List.nil_append] at value
  rw [show fuel + 2 = fuel + 1 + 1 from rfl, parseElements_of_parseValue H (by decide) value]
  simp only [skipWhitespace_space, stays]

theorem flatMap_escapeByte_replicate (n : Nat) :
    (List.replicate n (97 : UInt8)).flatMap escapeByte = List.replicate n 97 := by
  induction n with
  | zero => rfl
  | succ n more =>
    rw [List.replicate_succ, List.flatMap_cons, more]
    rfl

end Children

/-- Four quoted strings with nothing to escape, each followed by a space, then `1)`: after
the opening parenthesis `parse_list` reads the four strings and the integer as its children. -/
theorem parseList_four_strings (fuel : Nat) {s : List UInt8} (plain : s.flatMap escapeByte = s) :
    let quoted := 34 :: s ++ [34, 32]
    ∃ hash, parseList H (fuel + 8) 0
        ⟨quoted ++ quoted ++ quoted ++ quoted ++ [49, 41], initSymbolTable⟩ =
      .ok (listElement [stringElement s, stringElement s, stringElement s, stringElement s,
        .smallInt 17] hash, hash, ⟨[], initSymbolTable⟩) := by
  intro quoted
  have stays : ∀ text, skipWhitespace (34 :: text) = 34 :: text :=
    skipWhitespace_cons (by decide) (by decide)
  have one : parseValue H (fuel + 2) 1 ⟨[49, 41], initSymbolTable⟩ =
      .ok (.smallInt 17, integerElemHash H (int64Bits 1), ⟨[41], initSymbolTable⟩) :=
    parseValue_formatInt H (by decide : -2 ^ 63 ≤ (1 : Int)) (by decide)
      (show endsAtom [41] = true from rfl) (fuel + 1) 1 initSymbolTable
  have loop := (parseElements_plain_string H (fuel + 5) 1 plain (stays _) initSymbolTable []).trans
    ((parseElements_plain_string H (fuel + 4) 1 plain (stays _) initSymbolTable _).trans
    ((parseElements_plain_string H (fuel + 3) 1 plain (stays _) initSymbolTable _).trans
    ((parseElements_plain_string H (fuel + 2) 1 plain rfl initSymbolTable _).trans
    ((parseElements_of_parseValue H (by decide) one _).trans
      (parseElements_close H fuel 1 [] initSymbolTable _)))))
  simp only [quoted, List.cons_append, List.append_assoc, List.singleton_append]
  exact ⟨_, parseList_of_parseElements H (by decide) (by decide) (by decide) (by decide) loop⟩

/-- The same text read by `sexp_parse`: a large list of four long strings and `1`. -/
theorem sexpParse_four_strings {s : List UInt8} (plain : s.flatMap escapeByte = s)
    (long : sexpShortStringMax < s.length) :
    let quoted := 34 :: s ++ [34, 32]
    ∃ hash, sexpParse H (40 :: (quoted ++ quoted ++ quoted ++ quoted ++ [49, 41])) =
      .ok ⟨[], .largeList hash [.longString s, .longString s, .longString s, .longString s,
        .smallInt 17]⟩ := by
  intro quoted
  obtain ⟨hash, list⟩ := parseList_four_strings H (12 * s.length + 39) plain
  rw [show stringElement s = .longString s from if_neg (Nat.not_le_of_lt long)] at list
  have fuel : parseFuel (40 :: (quoted ++ quoted ++ quoted ++ quoted ++ [49, 41])) =
      12 * s.length + 39 + 8 + 1 := by
    simp only [parseFuel, quoted, List.length_cons, List.length_append, List.length_nil]
    omega
  have value : parseValue H (parseFuel (40 :: (quoted ++ quoted ++ quoted ++ quoted ++ [49, 41]))) 0
      ⟨40 :: (quoted ++ quoted ++ quoted ++ quoted ++ [49, 41]), initSymbolTable⟩ =
        .ok (.largeList hash [.longString s, .longString s, .longString s, .longString s,
          .smallInt 17], hash, ⟨[], initSymbolTable⟩) := by
    rw [fuel, parseValue_open, list]
    rfl
  exact ⟨hash, sexpParse_eq_ok (by decide) (by decide) value (show skipWhitespace [] = [] from rfl)⟩

theorem Elem.encode_longString (s : List UInt8) :
    (longString s).encode = sexpTagLongString :: (encodeVarint (UInt64.ofNat s.length) ++ s) :=
  rfl

/-- Four strings of `2 ^ 26` bytes with nothing to escape, and then `1`: `sexp_parse` returns a
large list with no error.  Its fifth child, the `1`, starts `2 ^ 28 + 20` bytes into the element
data, but the SEntry `parse_list` records for it holds the offset 20, where the element data
holds byte 15 of the first string. -/
theorem sexpParse_wraps_sentry_offset {s : List UInt8} (plain : s.flatMap escapeByte = s)
    (length : s.length = 2 ^ 26) :
    ∃ hash cs, sexpParse H (40 :: ((34 :: s ++ [34, 32]) ++ (34 :: s ++ [34, 32]) ++
          (34 :: s ++ [34, 32]) ++ (34 :: s ++ [34, 32]) ++ [49, 41])) =
        .ok ⟨[], .largeList hash cs⟩ ∧
      cs[4]? = some (.smallInt 17) ∧
      childOffset cs 4 = 2 ^ 28 + 20 ∧
      ((encodeChildren cs 0).1[4]?).map sentryGetOffset = some 20 ∧
      ((cs.map Elem.encode).flatten)[20]? = s[15]? := by
  have varint : encodeVarint (UInt64.ofNat s.length) = [128, 128, 128, 32] := by
    rw [length]
    decide
  have stringBytes : (Elem.longString s).encode.length = 2 ^ 26 + 5 := by
    rw [Elem.encode_longString, List.length_cons, List.length_append, varint, length]
    rfl
  have offset : childOffset [.longString s, .longString s, .longString s, .longString s,
      .smallInt 17] 4 = 2 ^ 28 + 20 := by
    simp only [childOffset, List.take_succ_cons, List.take_zero, List.map_cons, List.map_nil,
      List.sum_cons, List.sum_nil, stringBytes]
    omega
  obtain ⟨hash, parsed⟩ := sexpParse_four_strings H plain (by rw [length]; decide)
  refine ⟨hash, _, parsed, rfl, offset, ?_, ?_⟩
  · rw [sentryGetOffset_encodeChildren rfl, offset]
    rfl
  · rw [List.map_cons, List.flatten_cons, List.getElem?_append_left (by rw [stringBytes]; decide),
      Elem.encode_longString, List.getElem?_cons_succ, varint,
      List.getElem?_append_right (by decide)]
    rfl

/-- The same for the string of `2 ^ 26` bytes `a`. -/
theorem sexpParse_wraps_sentry_offset_letters :
    (List.replicate (2 ^ 26) (97 : UInt8)).flatMap escapeByte = List.replicate (2 ^ 26) 97 ∧
      (List.replicate (2 ^ 26) (97 : UInt8)).length = 2 ^ 26 ∧
      ∃ hash cs, sexpParse pgHashFns (40 ::
          ((34 :: List.replicate (2 ^ 26) 97 ++ [34, 32]) ++
            (34 :: List.replicate (2 ^ 26) 97 ++ [34, 32]) ++
            (34 :: List.replicate (2 ^ 26) 97 ++ [34, 32]) ++
            (34 :: List.replicate (2 ^ 26) 97 ++ [34, 32]) ++ [49, 41])) =
          .ok ⟨[], .largeList hash cs⟩ ∧
        cs[4]? = some (.smallInt 17) ∧
        childOffset cs 4 = 2 ^ 28 + 20 ∧
        ((encodeChildren cs 0).1[4]?).map sentryGetOffset = some 20 ∧
        ((cs.map Elem.encode).flatten)[20]? = (List.replicate (2 ^ 26) (97 : UInt8))[15]? :=
  ⟨flatMap_escapeByte_replicate _, List.length_replicate _ _,
    sexpParse_wraps_sentry_offset pgHashFns (flatMap_escapeByte_replicate _)
      (List.length_replicate _ _)⟩

end PgSexp
