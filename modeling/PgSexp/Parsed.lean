import PgSexp.Canonical
import PgSexp.Encodings

/-!
# What `sexp_parse` writes

Every value `sexp_parse` accepts is in the form it writes (`Elem.canonical`), and every large
list in it stores the structural hash of its children: each parse function returns the
structural hash of the element it wrote, and `parse_list` combines its children's into the
hash it stores.  The parse functions are inverted one by one (what an `.ok` result can have
come from), each kind of element is shown to be written as it should, and the three mutual
loops are then followed by induction on the fuel.
-/

namespace PgSexp

variable (H : HashFns)

/-- What `sexp_parse` leaves for an element at nesting `depth`, read through the table
`syms`: the element is canonical, its large lists store their hashes, and `hash` is its
structural hash. -/
def Written (depth : Nat) (syms : List (List UInt8)) (e : Elem) (hash : UInt32) : Prop :=
  e.canonical H syms depth = true ∧ e.hashConsistent H syms = true ∧
    hash = sexpElementHash H syms e

/-! ## Inverting the parse functions -/

section Inversion

variable {H}

theorem bind_eq_ok {α β : Type} {x : Except SqlError α} {f : α → Except SqlError β} {b : β}
    (ok : x >>= f = .ok b) : ∃ a, x = .ok a ∧ f a = .ok b := by
  cases x with
  | error err => cases ok
  | ok a => exact ⟨a, rfl, ok⟩

/-- `sexp_parse_value_with_hash` dispatches on the first byte after the whitespace: a list, a
string, or a token. -/
theorem parseValue_eq_ok {fuel depth : Nat} {st : SexpParseState}
    {r : Elem × UInt32 × SexpParseState} (parsed : parseValue H (fuel + 1) depth st = .ok r) :
    ∃ rest, (skipWhitespace st.rest = 40 :: rest ∧ parseList H fuel depth ⟨rest, st.symtab⟩ = .ok r) ∨
      (skipWhitespace st.rest = 34 :: rest ∧ parseString H ⟨rest, st.symtab⟩ = .ok r) ∨
      (skipWhitespace st.rest = rest ∧ (∀ text, rest ≠ 40 :: text) ∧ (∀ text, rest ≠ 34 :: text) ∧
        parseNumberOrSymbol H ⟨rest, st.symtab⟩ = .ok r) := by
  simp only [parseValue] at parsed
  split at parsed
  · cases parsed
  · rename_i opening
    exact ⟨_, .inl ⟨opening, parsed⟩⟩
  · rename_i quoting
    exact ⟨_, .inr (.inl ⟨quoting, parsed⟩)⟩
  · rename_i notOpen notQuote
    exact ⟨_, .inr (.inr ⟨rfl, notOpen, notQuote, parsed⟩)⟩

theorem parseString_eq_ok {st st' : SexpParseState} {e : Elem} {hash : UInt32}
    (parsed : parseString H st = .ok (e, hash, st')) :
    ∃ str, e = stringElement str ∧ hash = sexpHashStringWithTag H sexpTagShortString str ∧
      st'.symtab = st.symtab ∧ parseStringBody [] st.rest = .ok (str, st'.rest) := by
  obtain ⟨⟨str, rest⟩, body, written⟩ := bind_eq_ok parsed
  cases written
  exact ⟨str, rfl, rfl, rfl, body⟩

/-- `parse_number_or_symbol` reads a nonempty token up to the first byte that ends one, and
writes NIL, a number `parse_number` reads, or the symbol it interns: only a symbol token is
interned. -/
theorem parseNumberOrSymbol_eq_ok {st st' : SexpParseState} {e : Elem} {hash : UInt32}
    (parsed : parseNumberOrSymbol H st = .ok (e, hash, st')) :
    ∃ token, st.rest.span (fun c => !endsToken c) = (token, st'.rest) ∧ token ≠ [] ∧
      ((e = .nil ∧ hash = 0 ∧ st'.symtab = st.symtab ∧ isSymbolToken H token = false) ∨
        (parseNumber H token (scanTokenFlags true ⟨true, false, false⟩ token) = some (e, hash) ∧
          st'.symtab = st.symtab ∧ isSymbolToken H token = false) ∨
        ∃ idx, isSymbolToken H token = true ∧
          internSymbol H st.symtab token = some (idx, st'.symtab) ∧ e = .symbolRef idx ∧
          hash = sexpHashStringWithTag H sexpTagSymbolRef token) := by
  have inside : ∀ c ∈ (st.rest.span fun c => !endsToken c).1, endsToken c = false :=
    fun c mem => by
      rw [List.span_eq_take_drop] at mem
      simpa only [Bool.not_eq_true'] using List.mem_takeWhile_imp mem
  unfold parseNumberOrSymbol at parsed
  generalize (st.rest.span fun c => !endsToken c) = parts at parsed inside ⊢
  obtain ⟨token, rest⟩ := parts
  dsimp only at parsed inside
  split_ifs at parsed with empty nilToken
  · cases parsed
    subst nilToken
    exact ⟨_, rfl, empty, .inl ⟨rfl, rfl, rfl, rfl⟩⟩
  · split at parsed
    · rename_i number
      cases parsed
      exact ⟨_, rfl, empty, .inr (.inl ⟨number, rfl, Bool.eq_false_iff.2 fun symbol => by
        rw [((isSymbolToken_iff H).1 symbol).2.2.2] at number
        cases number⟩)⟩
    · rename_i notNumber
      split at parsed
      · rename_i interned
        cases parsed
        exact ⟨token, rfl, empty, .inr (.inr ⟨_,
          (isSymbolToken_iff H).2 ⟨empty, inside, nilToken, notNumber⟩, interned, rfl, rfl⟩)⟩
      · cases parsed

theorem strtoll_mem_range (s : List UInt8) : -2 ^ 63 ≤ (strtoll s).1 ∧ (strtoll s).1 < 2 ^ 63 := by
  simp only [strtoll]
  split_ifs <;> dsimp only <;> omega

/-- `parse_number` writes a double, or an int64 as `integerElement` encodes it. -/
theorem parseNumber_eq_some {token : List UInt8} {flags : TokenFlags} {e : Elem} {hash : UInt32}
    (number : parseNumber H token flags = some (e, hash)) :
    (∃ x, e = .float x ∧ hash = floatElemHash H x) ∨
      ∃ v : Int, (-2 ^ 63 ≤ v ∧ v < 2 ^ 63) ∧ e = integerElement v ∧
        hash = integerElemHash H (int64Bits v) := by
  simp only [parseNumber] at number
  split_ifs at number <;> cases number
  · exact .inl ⟨_, rfl, rfl⟩
  · exact .inr ⟨_, strtoll_mem_range token, rfl, rfl⟩

/-- `parse_list` checks the depth, then writes NIL for `()` or the element of the children
its loop reads. -/
theorem parseList_eq_ok {fuel depth : Nat} {st st' : SexpParseState} {e : Elem} {hash : UInt32}
    (parsed : parseList H (fuel + 1) depth st = .ok (e, hash, st')) :
    depth < sexpMaxDepth ∧
      (((∃ text, skipWhitespace st.rest = 41 :: text ∧ st'.rest = text) ∧ e = .nil ∧ hash = 0 ∧
          st'.symtab = st.symtab) ∨
        ∃ children, (∀ text, skipWhitespace st.rest ≠ 41 :: text) ∧
          parseElements H fuel (depth + 1) ⟨skipWhitespace st.rest, st.symtab⟩ [] =
            .ok (children, st') ∧
          e = listElement (children.map (·.1)) (parseListHash H (children.map (·.2))) ∧
          hash = parseListHash H (children.map (·.2))) := by
  rw [parseList] at parsed
  by_cases deep : sexpMaxDepth ≤ depth
  · rw [if_pos deep] at parsed
    cases parsed
  · rw [if_neg deep] at parsed
    refine ⟨Nat.lt_of_not_le deep, ?_⟩
    split at parsed
    · rename_i closing
      cases parsed
      exact .inl ⟨⟨_, closing, rfl⟩, rfl, rfl, rfl⟩
    · rename_i notClose
      obtain ⟨⟨children, st₁⟩, loop, written⟩ := bind_eq_ok parsed
      cases written
      exact .inr ⟨children, notClose, loop, rfl, rfl⟩

/-- One turn of the child loop of `parse_list`: the closing parenthesis, or a child. -/
theorem parseElements_eq_ok {fuel depth : Nat} {st st' : SexpParseState}
    {acc children : List (Elem × UInt32)}
    (parsed : parseElements H (fuel + 1) depth st acc = .ok (children, st')) :
    (∃ rest, st.rest = 41 :: rest ∧ children = acc.reverse ∧ st'.symtab = st.symtab ∧
        st'.rest = rest) ∨
      ∃ e hash st₁, (∀ text, st.rest ≠ 41 :: text) ∧ parseValue H fuel depth st = .ok (e, hash, st₁) ∧
        parseElements H fuel depth { st₁ with rest := skipWhitespace st₁.rest } ((e, hash) :: acc) =
          .ok (children, st') := by
  simp only [parseElements] at parsed
  split at parsed
  · cases parsed
  · rename_i rest closing
    cases parsed
    exact .inl ⟨rest, closing, rfl, rfl, rfl⟩
  · rename_i notEmpty notClose
    obtain ⟨⟨e, hash, st₁⟩, value, loop⟩ := bind_eq_ok parsed
    exact .inr ⟨e, hash, st₁, notClose, value, loop⟩

/-- The child loop only adds children after those it was given. -/
theorem reverse_prefix_of_parseElements : ∀ {fuel depth : Nat} {st st' : SexpParseState}
    {acc children : List (Elem × UInt32)},
    parseElements H fuel depth st acc = .ok (children, st') → acc.reverse <+: children
  | 0, _, _, _, _, _, parsed => nomatch parsed
  | _ + 1, _, _, _, acc, _, parsed => by
    rcases parseElements_eq_ok parsed with ⟨-, -, rfl, -⟩ | ⟨e, hash, _, -, -, loop⟩
    · exact List.prefix_refl _
    · have longer := reverse_prefix_of_parseElements loop
      rw [List.reverse_cons] at longer
      exact (List.prefix_append _ _).trans longer

/-- A list whose text does not close at once has children. -/
theorem children_ne_nil {fuel depth : Nat} {rest : List UInt8} {tab : SexpSymbolTable}
    {children : List (Elem × UInt32)} {st' : SexpParseState} (notClose : ∀ text, rest ≠ 41 :: text)
    (loop : parseElements H fuel depth ⟨rest, tab⟩ [] = .ok (children, st')) : children ≠ [] := by
  cases fuel with
  | zero => cases loop
  | succ fuel =>
    rcases parseElements_eq_ok loop with ⟨text, closing, -⟩ | ⟨e, hash, _, -, -, next⟩
    · exact absurd closing (notClose text)
    · intro empty
      have longer := reverse_prefix_of_parseElements next
      rw [empty] at longer
      exact List.cons_ne_nil _ _ (List.prefix_nil.1 longer)

end Inversion

/-! ## What each kind of element is written as -/

section Written

variable {depth : Nat} {syms : List (List UInt8)}

theorem written_nil : Written H depth syms .nil 0 := ⟨rfl, rfl, rfl⟩

theorem written_float (x : UInt64) : Written H depth syms (.float x) (floatElemHash H x) :=
  ⟨rfl, rfl, rfl⟩

theorem written_stringElement (str : List UInt8) :
    Written H depth syms (stringElement str) (sexpHashStringWithTag H sexpTagShortString str) := by
  unfold stringElement
  split
  · rename_i short
    exact ⟨decide_eq_true short, rfl, rfl⟩
  · rename_i long
    exact ⟨decide_eq_true (Nat.lt_of_not_le long), rfl, rfl⟩

/-- The bits of a small integer's value are the word `sexp_element_hash` hashes for it. -/
theorem smallintValue_eq_int64Bits {v : Int} (range : -16 ≤ v ∧ v ≤ 15) :
    smallintValue ⟨(v + 16).toNat % 32, Nat.mod_lt _ (by decide)⟩ = int64Bits v := by
  have value := int64Value_smallintValue ⟨(v + 16).toNat % 32, Nat.mod_lt _ (by decide)⟩
  have payload : (((v + 16).toNat % 32 : Nat) : Int) - (sexpSmallintBias : Nat) = v := by
    simp only [sexpSmallintBias]
    omega
  rw [← int64Bits_int64Value (smallintValue _), value]
  exact congrArg int64Bits payload

theorem written_integerElement {v : Int} (range : -2 ^ 63 ≤ v ∧ v < 2 ^ 63) :
    Written H depth syms (integerElement v) (integerElemHash H (int64Bits v)) := by
  unfold integerElement
  split
  · rename_i small
    exact ⟨rfl, rfl, by rw [sexpElementHash, smallintValue_eq_int64Bits small]⟩
  · rename_i large
    refine ⟨?_, rfl, by rw [sexpElementHash, zigzagDecode_zigzagEncode]⟩
    simpa only [Elem.canonical, zigzagDecode_zigzagEncode, int64Value_int64Bits range.1 range.2,
      Bool.not_eq_true', decide_eq_false_iff_not] using large

theorem written_symbolRef {idx : Nat} {token : List UInt8} (found : syms[idx]? = some token)
    (isToken : isSymbolToken H token = true) :
    Written H depth syms (.symbolRef idx) (sexpHashStringWithTag H sexpTagSymbolRef token) :=
  ⟨Elem.canonical_symbolRef.2 ⟨token, found, isToken⟩, rfl, by rw [sexpElementHash, found]⟩

/-- Written children: canonical and consistent one by one, and hashing as `parse_list` read. -/
theorem written_children : ∀ {children : List (Elem × UInt32)},
    (∀ p ∈ children, Written H depth syms p.1 p.2) →
      Elem.canonicalList H syms depth (children.map (·.1)) = true ∧
        Elem.childrenHashConsistent H syms (children.map (·.1)) = true ∧
        children.map (·.2) = (children.map (·.1)).map (sexpElementHash H syms)
  | [], _ => ⟨rfl, rfl, rfl⟩
  | p :: children, written => by
    have head := written p (List.mem_cons_self _ _)
    have tail := written_children fun q mem => written q (List.mem_cons_of_mem _ mem)
    exact ⟨Bool.and_eq_true_iff.2 ⟨head.1, tail.1⟩, Bool.and_eq_true_iff.2 ⟨head.2.1, tail.2.1⟩,
      by simp only [List.map_cons, head.2.2, tail.2.2]⟩

/-- `parse_list` writes its children in the small or the large format by their count, and a
large list stores the hash it computes. -/
theorem written_listElement {children : List (Elem × UInt32)} (shallow : depth < sexpMaxDepth)
    (nonempty : children ≠ []) (written : ∀ p ∈ children, Written H (depth + 1) syms p.1 p.2) :
    Written H depth syms (listElement (children.map (·.1)) (parseListHash H (children.map (·.2))))
      (parseListHash H (children.map (·.2))) := by
  obtain ⟨canonical, consistent, hashes⟩ := written_children H written
  have computed : parseListHash H (children.map (·.2)) = listHash H syms (children.map (·.1)) := by
    rw [hashes, listHash_eq_parseListHash]
  have nonempty' : children.map (·.1) ≠ [] := fun empty => nonempty (List.map_eq_nil_iff.1 empty)
  unfold listElement
  split
  · rename_i small
    exact ⟨Elem.canonical_smallList.2 ⟨shallow, nonempty', small, canonical⟩, consistent, computed⟩
  · rename_i large
    exact ⟨Elem.canonical_largeList.2 ⟨shallow, Nat.lt_of_not_le large, canonical⟩,
      Bool.and_eq_true_iff.2 ⟨beq_iff_eq.2 computed, consistent⟩, rfl⟩

end Written

/-! ## The parse functions write what they should -/

mutual
/-- `sexp_parse_value_with_hash` writes a canonical element storing consistent hashes, and
returns its structural hash. -/
theorem parseValue_written : ∀ (fuel depth : Nat) (st : SexpParseState) (e : Elem) (hash : UInt32)
    (st' : SexpParseState), parseValue H fuel depth st = .ok (e, hash, st') →
      st.symtab.WellFormed → Grown st.symtab st'.symtab fun syms => Written H depth syms e hash
  | 0, _, _, _, _, _, parsed, _ => nomatch parsed
  | fuel + 1, depth, st, e, hash, st', parsed, wf => by
    obtain ⟨rest, ⟨-, list⟩ | ⟨-, string⟩ | ⟨-, -, -, token⟩⟩ := parseValue_eq_ok parsed
    · exact parseList_written fuel depth ⟨rest, st.symtab⟩ e hash st' list wf
    · obtain ⟨str, rfl, rfl, same, -⟩ := parseString_eq_ok string
      rw [same]
      exact Grown.refl wf fun _ => written_stringElement H str
    · obtain ⟨word, -, -, ⟨rfl, rfl, same, -⟩ | ⟨number, same, -⟩ |
        ⟨idx, isToken, interned, rfl, rfl⟩⟩ := parseNumberOrSymbol_eq_ok token
      · rw [same]
        exact Grown.refl wf fun _ => written_nil H
      · rw [same]
        rcases parseNumber_eq_some number with ⟨x, rfl, rfl⟩ | ⟨v, range, rfl, rfl⟩
        · exact Grown.refl wf fun _ => written_float H x
        · exact Grown.refl wf fun _ => written_integerElement H range
      · obtain ⟨idx', tab', interned', wf', found, grows⟩ := internSymbol_eq_some H wf word
        rw [interned] at interned'
        cases interned'
        exact ⟨wf', grows, fun _ later => written_symbolRef H (getElem?_eq_of_prefix_some later found) isToken⟩
termination_by structural fuel => fuel
/-- `parse_list` writes a canonical list storing consistent hashes, and returns its hash. -/
theorem parseList_written : ∀ (fuel depth : Nat) (st : SexpParseState) (e : Elem) (hash : UInt32)
    (st' : SexpParseState), parseList H fuel depth st = .ok (e, hash, st') →
      st.symtab.WellFormed → Grown st.symtab st'.symtab fun syms => Written H depth syms e hash
  | 0, _, _, _, _, _, parsed, _ => nomatch parsed
  | fuel + 1, depth, st, e, hash, st', parsed, wf => by
    obtain ⟨shallow, ⟨-, rfl, rfl, same⟩ | ⟨children, notClose, loop, rfl, rfl⟩⟩ :=
      parseList_eq_ok parsed
    · rw [same]
      exact Grown.refl wf fun _ => written_nil H
    · exact (parseElements_written fuel (depth + 1) _ [] children st' loop wf
        fun _ _ _ mem => absurd mem (List.not_mem_nil _)).mono fun _ written =>
          written_listElement H shallow (children_ne_nil notClose loop) written
termination_by structural fuel => fuel
/-- The child loop of `parse_list` adds written children to written ones. -/
theorem parseElements_written : ∀ (fuel depth : Nat) (st : SexpParseState)
    (acc children : List (Elem × UInt32)) (st' : SexpParseState),
    parseElements H fuel depth st acc = .ok (children, st') → st.symtab.WellFormed →
    (∀ syms, st.symtab.symbols <+: syms → ∀ p ∈ acc, Written H depth syms p.1 p.2) →
      Grown st.symtab st'.symtab fun syms => ∀ p ∈ children, Written H depth syms p.1 p.2
  | 0, _, _, _, _, _, parsed, _, _ => nomatch parsed
  | fuel + 1, depth, st, acc, children, st', parsed, wf, accWritten => by
    rcases parseElements_eq_ok parsed with ⟨rest, -, rfl, same, -⟩ | ⟨e, hash, st₁, -, value, loop⟩
    · rw [same]
      exact ⟨wf, List.prefix_refl _, fun syms later p mem =>
        accWritten syms later p (List.mem_reverse.1 mem)⟩
    · have first := parseValue_written fuel depth st e hash st₁ value wf
      have next := parseElements_written fuel depth { st₁ with rest := skipWhitespace st₁.rest }
        ((e, hash) :: acc) children st' loop first.wellFormed fun syms later p mem => by
          rcases List.mem_cons.1 mem with rfl | mem
          · exact first.holds syms later
          · exact accWritten syms (first.grows.trans later) p mem
      exact ⟨next.wellFormed, first.grows.trans next.grows, next.holds⟩
termination_by structural fuel => fuel
end

/-- Every value `sexp_parse` accepts is canonical and stores the structural hash of each of
its large lists. -/
theorem sexpParse_written {input : List UInt8} {w : Sexp} (parsed : sexpParse H input = .ok w) :
    w.root.canonical H w.symbols 0 = true ∧ w.root.hashConsistent H w.symbols = true := by
  unfold sexpParse at parsed
  split at parsed
  · cases parsed
    exact ⟨rfl, rfl⟩
  · obtain ⟨⟨root, hash, st⟩, value, checked⟩ := bind_eq_ok parsed
    dsimp only at checked
    split at checked
    · cases checked
      have written := (parseValue_written H _ 0 _ root hash st value wellFormed_initSymbolTable).holds
        _ (List.prefix_refl _)
      exact ⟨written.1, written.2.1⟩
    · cases checked

/-! ## Enough fuel

Each parse function that succeeds has read at least one byte, so a list nested `k` deep with
`n` bytes left needs fuel for about three calls per byte: `parse_number_or_symbol` and
`parse_string` spend none, and the child loop hands the same fuel to a child and to the
rest of the list.  The fuel `sexp_parse` gives is therefore never used up, and every answer
of the model is one the C code gives. -/

section Fuel

variable {H}

mutual
theorem length_skipWhitespace_le : ∀ r : List UInt8, (skipWhitespace r).length ≤ r.length
  | [] => Nat.le_refl _
  | c :: rest => by
    simp only [skipWhitespace]
    split_ifs
    · exact (length_skipWhitespace_le rest).trans (Nat.le_succ _)
    · exact (length_skipComment_le rest).trans (Nat.le_succ _)
    · exact Nat.le_refl _
theorem length_skipComment_le : ∀ r : List UInt8, (skipComment r).length ≤ r.length
  | [] => Nat.le_refl _
  | c :: rest => by
    simp only [skipComment]
    split_ifs
    · exact (length_skipWhitespace_le rest).trans (Nat.le_succ _)
    · exact (length_skipComment_le rest).trans (Nat.le_succ _)
end

/-- `parse_string` reads its closing quote. -/
theorem length_lt_of_parseStringBody : ∀ {acc r str after : List UInt8},
    parseStringBody acc r = .ok (str, after) → after.length < r.length
  | _, [], _, _, parsed => nomatch parsed
  | acc, c :: rest, str, after, parsed => by
    by_cases quote : c = 34
    · subst quote
      cases parsed
      exact Nat.lt_succ_self _
    by_cases backslash : c = 92
    · subst backslash
      cases rest with
      | nil => cases parsed
      | cons c' rest' =>
        have := length_lt_of_parseStringBody (show parseStringBody (unescapeByte c' :: acc) rest' =
          .ok (str, after) from parsed)
        simp only [List.length_cons]
        omega
    · rw [parseStringBody.eq_5 _ _ _ quote (fun escape _ => backslash escape)
        (fun _ _ escape _ => backslash escape)] at parsed
      exact Nat.lt_trans (length_lt_of_parseStringBody parsed) (Nat.lt_succ_self _)

/-- A nonempty token is read off the front of the input. -/
theorem length_lt_of_span {p : UInt8 → Bool} {r token after : List UInt8}
    (split : r.span p = (token, after)) (nonempty : token ≠ []) : after.length < r.length := by
  rw [List.span_eq_take_drop, Prod.mk.injEq] at split
  obtain ⟨rfl, rfl⟩ := split
  have whole := congrArg List.length (List.takeWhile_append_dropWhile p r)
  rw [List.length_append] at whole
  have := List.length_pos.2 nonempty
  omega

mutual
/-- A value the parser reads takes at least one byte. -/
theorem length_rest_lt_of_parseValue : ∀ {fuel depth : Nat} {st : SexpParseState}
    {r : Elem × UInt32 × SexpParseState}, parseValue H fuel depth st = .ok r →
      r.2.2.rest.length < st.rest.length
  | 0, _, _, _, parsed => nomatch parsed
  | fuel + 1, depth, st, ⟨e, hash, st'⟩, parsed => by
    have skipped := length_skipWhitespace_le st.rest
    obtain ⟨rest, ⟨opening, list⟩ | ⟨quoting, string⟩ | ⟨same, -, -, token⟩⟩ :=
      parseValue_eq_ok parsed
    · have := length_rest_lt_of_parseList list
      rw [opening, List.length_cons] at skipped
      exact Nat.lt_of_lt_of_le this (Nat.le_of_succ_le skipped)
    · obtain ⟨_, -, -, -, body⟩ := parseString_eq_ok string
      have := length_lt_of_parseStringBody body
      rw [quoting, List.length_cons] at skipped
      exact Nat.lt_of_lt_of_le this (Nat.le_of_succ_le skipped)
    · obtain ⟨_, split, nonempty, -⟩ := parseNumberOrSymbol_eq_ok token
      rw [same] at skipped
      exact Nat.lt_of_lt_of_le (length_lt_of_span split nonempty) skipped
termination_by structural fuel => fuel
/-- A list the parser reads takes at least its closing parenthesis. -/
theorem length_rest_lt_of_parseList : ∀ {fuel depth : Nat} {st : SexpParseState}
    {r : Elem × UInt32 × SexpParseState}, parseList H fuel depth st = .ok r →
      r.2.2.rest.length < st.rest.length
  | 0, _, _, _, parsed => nomatch parsed
  | fuel + 1, depth, st, ⟨e, hash, st'⟩, parsed => by
    have skipped := length_skipWhitespace_le st.rest
    obtain ⟨-, ⟨⟨text, closing, rest⟩, -⟩ | ⟨children, -, loop, -⟩⟩ := parseList_eq_ok parsed
    · rw [closing, List.length_cons] at skipped
      show st'.rest.length < _
      rw [rest]
      omega
    · exact Nat.lt_of_lt_of_le (length_rest_lt_of_parseElements loop) skipped
termination_by structural fuel => fuel
/-- The child loop of `parse_list` reads at least the closing parenthesis. -/
theorem length_rest_lt_of_parseElements : ∀ {fuel depth : Nat} {st st' : SexpParseState}
    {acc children : List (Elem × UInt32)}, parseElements H fuel depth st acc = .ok (children, st') →
      st'.rest.length < st.rest.length
  | 0, _, _, _, _, _, parsed => nomatch parsed
  | fuel + 1, depth, st, st', acc, children, parsed => by
    rcases parseElements_eq_ok parsed with ⟨rest, closing, -, -, rest'⟩ |
      ⟨e, hash, st₁, -, value, loop⟩
    · rw [closing, rest']
      exact Nat.lt_succ_self _
    · have first := length_rest_lt_of_parseValue value
      have skipped := length_skipWhitespace_le st₁.rest
      have next := length_rest_lt_of_parseElements loop
      exact Nat.lt_of_lt_of_le (Nat.lt_of_lt_of_le next skipped) (Nat.le_of_lt first)
termination_by structural fuel => fuel
end

theorem error_ne_fuelExhausted {α : Type} {err : SqlError} (differ : err ≠ parseFuelExhausted) :
    (.error err : Except SqlError α) ≠ .error parseFuelExhausted :=
  fun same => differ (Except.error.inj same)

theorem ok_ne_fuelExhausted {α : Type} (a : α) :
    (.ok a : Except SqlError α) ≠ .error parseFuelExhausted :=
  fun same => Except.noConfusion same

theorem bind_ne_fuelExhausted {α β : Type} {x : Except SqlError α} {f : α → Except SqlError β}
    (first : x ≠ .error parseFuelExhausted) (next : ∀ a, x = .ok a → f a ≠ .error parseFuelExhausted) :
    x >>= f ≠ .error parseFuelExhausted := by
  cases x with
  | error err => exact fun same => first (Except.error.inj same ▸ rfl)
  | ok a => exact next a rfl

theorem parseStringBody_ne_fuelExhausted :
    ∀ (acc r : List UInt8), parseStringBody acc r ≠ .error parseFuelExhausted
  | _, [] => error_ne_fuelExhausted (by decide)
  | acc, c :: rest => by
    by_cases quote : c = 34
    · subst quote
      exact ok_ne_fuelExhausted _
    by_cases backslash : c = 92
    · subst backslash
      cases rest with
      | nil => exact error_ne_fuelExhausted (by decide)
      | cons c' rest' => exact parseStringBody_ne_fuelExhausted (unescapeByte c' :: acc) rest'
    · rw [parseStringBody.eq_5 _ _ _ quote (fun escape _ => backslash escape)
        (fun _ _ escape _ => backslash escape)]
      exact parseStringBody_ne_fuelExhausted _ rest

theorem parseString_ne_fuelExhausted (st : SexpParseState) :
    parseString H st ≠ .error parseFuelExhausted :=
  bind_ne_fuelExhausted (parseStringBody_ne_fuelExhausted [] st.rest) fun _ _ => ok_ne_fuelExhausted _

theorem parseNumberOrSymbol_ne_fuelExhausted (st : SexpParseState) :
    parseNumberOrSymbol H st ≠ .error parseFuelExhausted := by
  unfold parseNumberOrSymbol
  generalize (st.rest.span fun c => !endsToken c) = parts
  obtain ⟨token, rest⟩ := parts
  dsimp only
  split_ifs
  · exact error_ne_fuelExhausted (by decide)
  · exact ok_ne_fuelExhausted _
  · split
    · exact ok_ne_fuelExhausted _
    · split
      · exact ok_ne_fuelExhausted _
      · exact error_ne_fuelExhausted (by decide)

mutual
/-- `sexp_parse_value_with_hash` with three units of fuel per byte left, and one more, never
runs out of fuel. -/
theorem parseValue_ne_fuelExhausted : ∀ {fuel depth : Nat} {st : SexpParseState},
    3 * st.rest.length + 1 ≤ fuel → parseValue H fuel depth st ≠ .error parseFuelExhausted
  | 0, _, _, enough => absurd enough (Nat.not_succ_le_zero _)
  | fuel + 1, depth, st, enough => by
    have skipped := length_skipWhitespace_le st.rest
    simp only [parseValue]
    split
    · exact error_ne_fuelExhausted (by decide)
    · rename_i rest opening
      rw [opening, List.length_cons] at skipped
      exact parseList_ne_fuelExhausted (show 3 * rest.length + 3 ≤ fuel by omega)
    · exact parseString_ne_fuelExhausted _
    · exact parseNumberOrSymbol_ne_fuelExhausted _
termination_by structural fuel => fuel
theorem parseList_ne_fuelExhausted : ∀ {fuel depth : Nat} {st : SexpParseState},
    3 * st.rest.length + 3 ≤ fuel → parseList H fuel depth st ≠ .error parseFuelExhausted
  | 0, _, _, enough => absurd enough (by omega)
  | fuel + 1, depth, st, enough => by
    have skipped := length_skipWhitespace_le st.rest
    rw [parseList]
    split
    · exact error_ne_fuelExhausted fun same => ErrCode.noConfusion (congrArg SqlError.code same)
    · split
      · exact ok_ne_fuelExhausted _
      · exact bind_ne_fuelExhausted (parseElements_ne_fuelExhausted
          (show 3 * (skipWhitespace st.rest).length + 2 ≤ fuel by omega)) fun _ _ => ok_ne_fuelExhausted _
termination_by structural fuel => fuel
theorem parseElements_ne_fuelExhausted : ∀ {fuel depth : Nat} {st : SexpParseState}
    {acc : List (Elem × UInt32)},
    3 * st.rest.length + 2 ≤ fuel → parseElements H fuel depth st acc ≠ .error parseFuelExhausted
  | 0, _, _, _, enough => absurd enough (by omega)
  | fuel + 1, depth, st, acc, enough => by
    simp only [parseElements]
    split
    · exact error_ne_fuelExhausted (by decide)
    · exact ok_ne_fuelExhausted _
    · refine bind_ne_fuelExhausted (parseValue_ne_fuelExhausted (by omega)) fun ⟨e, hash, st₁⟩ value => ?_
      have shorter := length_rest_lt_of_parseValue value
      have skipped := length_skipWhitespace_le st₁.rest
      exact parseElements_ne_fuelExhausted
        (show 3 * (skipWhitespace st₁.rest).length + 2 ≤ fuel by simp only at shorter; omega)
termination_by structural fuel => fuel
end

/-- The fuel `sexp_parse` gives is enough for every input: the parser's answer is a value or
an error of the C code, never the model's running out of fuel. -/
theorem sexpParse_ne_fuelExhausted (input : List UInt8) :
    sexpParse H input ≠ .error parseFuelExhausted := by
  have skipped := length_skipWhitespace_le input
  unfold sexpParse
  split
  · exact ok_ne_fuelExhausted _
  · refine bind_ne_fuelExhausted (parseValue_ne_fuelExhausted
      (by simp only [parseFuel]; omega)) fun ⟨root, hash, st⟩ _ => ?_
    dsimp only
    split
    · exact ok_ne_fuelExhausted _
    · exact error_ne_fuelExhausted (by decide)

end Fuel

end PgSexp
