import PgSexp.Parsed
import PgSexp.Renaming
import PgSexp.PgHash

/-!
# Printing and parsing again

`sexp_to_cstring` writes a value so that `sexp_parse` reads it back, as long as the value is
in the form the parser writes (`Elem.canonical`: no list nested `SEXP_MAX_DEPTH` deep,
integers from `-16` to `15` small and the others full, strings up to
`SEXP_SHORT_STRING_MAX` bytes short and the others long, lists with children and small up
to `SEXP_SMALL_LIST_MAX` of them, every symbol a token of its table that is neither `nil`
nor a number) and is `Elem.rereadable`: it holds no double, and no NIL as deep as
`SEXP_MAX_DEPTH`.  What is read back is the printed element but for the numbering of its
symbols, which the parser interns in the order the text names them: it is `sexp_equal` to
the printed value both ways, decodes to the same tree and prints to the same text.

Doubles are where it fails.  `%.17g` drops a fractional part of zeros and the point with
it: the double `1.0` is written `1`, which `parse_number_or_symbol` reads as an integer, and
`elements_equal_recursive` refuses an integer and a double.  It fails as well for a NIL at
depth `SEXP_MAX_DEPTH`: the parser takes the token `nil` there, with no depth check, but
prints it as `()`, which `parse_list` refuses at that depth.
-/

namespace PgSexp

variable (H : HashFns)

open Elem

/-! ## The printed text -/

section Text

variable {syms : List (List UInt8)}

theorem outputElement_symbolRef {i : Nat} {s : List UInt8} (found : syms[i]? = some s) :
    outputElement syms (.symbolRef i) = s := by
  rw [outputElement, found]

theorem outputChildren_index (i j : Nat) :
    ∀ cs : List Elem, outputChildren syms (i + 1) cs = outputChildren syms (j + 1) cs
  | [] => rfl
  | c :: cs => by
    simp only [outputChildren, Nat.zero_lt_succ, if_true, outputChildren_index (i + 1) (j + 1) cs]

theorem outputChildren_zero_cons (c : Elem) (cs : List Elem) :
    outputChildren syms 0 (c :: cs) = outputElement syms c ++ outputChildren syms 1 cs := by
  simp only [outputChildren, Nat.lt_irrefl, if_false, List.nil_append]

theorem outputChildren_succ_cons (i : Nat) (c : Elem) (cs : List Elem) :
    outputChildren syms (i + 1) (c :: cs) =
      32 :: (outputElement syms c ++ outputChildren syms 1 cs) := by
  simp only [outputChildren, Nat.zero_lt_succ, if_true, outputChildren_index (i + 1) 0 cs,
    List.singleton_append, List.cons_append, List.nil_append, Nat.zero_add]

theorem outputElement_list_append (cs : List Elem) (rest : List UInt8) :
    (40 :: outputChildren syms 0 cs ++ [41]) ++ rest =
      40 :: (outputChildren syms 0 cs ++ 41 :: rest) := by
  simp only [List.cons_append, List.append_assoc, List.singleton_append, List.nil_append]

theorem endsAtom_outputChildren (i : Nat) (cs : List Elem) (rest : List UInt8) :
    endsAtom (outputChildren syms (i + 1) cs ++ 41 :: rest) = true := by
  cases cs with
  | nil => rfl
  | cons c cs =>
    rw [outputChildren_succ_cons]
    rfl

variable {depth : Nat}

/-- The text of a canonical element without doubles starts with a byte that is neither
whitespace nor `;` nor `)`. -/
theorem outputElement_cons {e : Elem} (canonical : e.canonical H syms depth = true)
    (rereadable : e.rereadable depth = true) :
    ∃ b text, outputElement syms e = b :: text ∧ isSpace b = false ∧ b ≠ 59 ∧ b ≠ 41 := by
  have ofToken : ∀ {t : List UInt8}, (∃ b rest, t = b :: rest ∧ endsToken b = false) →
      ∃ b rest, t = b :: rest ∧ isSpace b = false ∧ b ≠ 59 ∧ b ≠ 41 := by
    rintro t ⟨b, rest, rfl, inside⟩
    obtain ⟨space, -, notClose, -, comment⟩ := not_endsToken inside
    exact ⟨b, rest, rfl, space, comment, notClose⟩
  have ofInt : ∀ v : Int, ∃ b rest, formatInt v = b :: rest ∧ endsToken b = false := fun v => by
    obtain ⟨b, rest, split⟩ := List.exists_cons_of_ne_nil (formatInt_ne_nil v)
    exact ⟨b, rest, split, endsToken_of_mem_formatInt (by rw [split]; exact List.mem_cons_self b rest)⟩
  cases e with
  | nil => exact ⟨40, [41], rfl, by decide, by decide, by decide⟩
  | smallInt p => exact ofToken (ofInt _)
  | integer u => exact ofToken (ofInt _)
  | float x => exact absurd rereadable Bool.false_ne_true
  | symbolRef i =>
    obtain ⟨s, found, token⟩ := canonical_symbolRef.1 canonical
    obtain ⟨nonempty, inside, -⟩ := (isSymbolToken_iff H).1 token
    obtain ⟨b, rest, rfl⟩ := List.exists_cons_of_ne_nil nonempty
    rw [outputElement_symbolRef found]
    exact ofToken ⟨b, rest, rfl, inside b (List.mem_cons_self b rest)⟩
  | shortString s | longString s => exact ⟨34, _, rfl, by decide, by decide, by decide⟩
  | smallList cs | largeList _ cs => exact ⟨40, _, rfl, by decide, by decide, by decide⟩

/-- After a child, the space and the next child, or the closing parenthesis. -/
theorem skipWhitespace_outputChildren (i : Nat) :
    ∀ {cs : List Elem} (rest : List UInt8), canonicalList H syms depth cs = true →
      rereadableList depth cs = true →
      skipWhitespace (outputChildren syms (i + 1) cs ++ 41 :: rest) =
        outputChildren syms 0 cs ++ 41 :: rest
  | [], _, _, _ => rfl
  | c :: cs, rest, canonical, rereadable => by
    obtain ⟨b, text, first, space, comment, -⟩ :=
      outputElement_cons H (Bool.and_eq_true_iff.1 canonical).1 (Bool.and_eq_true_iff.1 rereadable).1
    rw [outputChildren_succ_cons, outputChildren_zero_cons, List.cons_append, skipWhitespace_space,
      first]
    exact skipWhitespace_cons space comment _

end Text

/-! ## Reading the text back -/

/-- An atom other than a reference reads the same through any two tables. -/
theorem sameUpToSymbols_atom_self (e : Elem) (atom : e.isList = false)
    (notSymbol : ∀ i, e ≠ .symbolRef i) (symsA symsB : List (List UInt8)) :
    e.sameUpToSymbols symsA symsB e = true := by
  cases e with
  | smallList _ | largeList _ _ => cases atom
  | symbolRef i => exact absurd rfl (notSymbol i)
  | nil => rfl
  | smallInt _ | integer _ | float _ | shortString _ | longString _ => exact beq_self_eq_true _

section ReadBack

variable {syms : List (List UInt8)}

theorem exists_fuel {depth fuel : Nat} {e : Elem} (canonical : e.canonical H syms depth = true)
    (rereadable : e.rereadable depth = true) (enough : 2 * (outputElement syms e).length ≤ fuel) :
    ∃ f, fuel = f + 1 := by
  obtain ⟨b, text, first, -⟩ := outputElement_cons H canonical rereadable
  rw [first, List.length_cons] at enough
  exact ⟨fuel - 1, by omega⟩

/-- `sexp_parse_value_with_hash` on the text of a list with children: `parse_list`'s element
of what its child loop reads. -/
theorem parseValue_of_parseElements {depth fuel : Nat} {cs : List Elem} {rest : List UInt8}
    {tab : SexpSymbolTable} {children : List (Elem × UInt32)} {st : SexpParseState}
    (shallow : depth < sexpMaxDepth) (canonical : canonicalList H syms (depth + 1) cs = true)
    (rereadable : rereadableList (depth + 1) cs = true) (nonempty : cs ≠ [])
    (loop : parseElements H fuel (depth + 1) ⟨outputChildren syms 0 cs ++ 41 :: rest, tab⟩ [] =
      .ok (children, st)) :
    parseValue H (fuel + 2) depth ⟨40 :: (outputChildren syms 0 cs ++ 41 :: rest), tab⟩ =
      .ok (listElement (children.map (·.1)) (parseListHash H (children.map (·.2))),
        parseListHash H (children.map (·.2)), st) := by
  obtain ⟨c, cs, rfl⟩ := List.exists_cons_of_ne_nil nonempty
  obtain ⟨b, text, first, space, comment, notClose⟩ :=
    outputElement_cons H (Bool.and_eq_true_iff.1 canonical).1 (Bool.and_eq_true_iff.1 rereadable).1
  rw [outputChildren_zero_cons, first, List.cons_append, List.cons_append] at loop ⊢
  rw [parseValue_open, parseList_of_parseElements H shallow space comment notClose loop]

/-- A canonical list is shallow enough for `parse_list`, has children, and is what `parse_list`
builds of children read back one for one as its own. -/
theorem canonical_list {depth : Nat} {e : Elem} (canonical : e.canonical H syms depth = true)
    (list : e.isList = true) :
    depth < sexpMaxDepth ∧ e.children ≠ [] ∧ canonicalList H syms (depth + 1) e.children = true ∧
      ∀ {syms' : List (List UInt8)} {es : List Elem} (hash : UInt32),
        sameUpToSymbolsList syms syms' e.children es = true →
          e.sameUpToSymbols syms syms' (listElement es hash) = true := by
  cases e with
  | smallList cs =>
    obtain ⟨shallow, nonempty, small, children⟩ := canonical_smallList.1 canonical
    refine ⟨shallow, nonempty, children, fun hash same => ?_⟩
    rw [listElement, if_pos (length_eq_of_sameUpToSymbolsList same ▸ small)]
    exact same
  | largeList h cs =>
    obtain ⟨shallow, large, children⟩ := canonical_largeList.1 canonical
    refine ⟨shallow, List.ne_nil_of_length_pos (Nat.lt_of_le_of_lt (Nat.zero_le _) large),
      children, fun hash same => ?_⟩
    rw [listElement, if_neg (Nat.not_le_of_lt (length_eq_of_sameUpToSymbolsList same ▸ large))]
    exact same
  | _ => cases list

mutual
/-- `sexp_parse_value_with_hash` reads the text of a canonical element without doubles back
as the element, up to the numbering of its symbols, leaving what follows the text. -/
theorem parseValue_outputElement : ∀ (e : Elem) (depth fuel : Nat) (rest : List UInt8)
    (tab : SexpSymbolTable), e.canonical H syms depth = true → e.rereadable depth = true →
    2 * (outputElement syms e).length ≤ fuel → endsAtom rest = true → tab.WellFormed →
    ∃ e' hash tab', parseValue H fuel depth ⟨outputElement syms e ++ rest, tab⟩ =
        .ok (e', hash, ⟨rest, tab'⟩) ∧
      Grown tab tab' fun syms' => e.sameUpToSymbols syms syms' e' = true
  | .nil, depth, fuel, rest, tab, _, rereadable, enough, _, wf => by
    obtain ⟨f, rfl⟩ : ∃ f, fuel = f + 2 := ⟨fuel - 2, by
      have : 2 * 2 ≤ fuel := enough
      omega⟩
    exact ⟨.nil, 0, tab, parseValue_nil H (of_decide_eq_true rereadable) f rest tab,
      Grown.refl wf (sameUpToSymbols_atom_self .nil rfl nofun syms)⟩
  | .smallInt p, depth, fuel, rest, tab, canonical, rereadable, enough, ends, wf => by
    obtain ⟨f, rfl⟩ := exists_fuel H canonical rereadable enough
    have read := parseValue_formatInt H (v := (p.val : Int) - sexpSmallintBias)
      (by simp only [sexpSmallintBias]; omega) (by simp only [sexpSmallintBias]; omega) ends f
      depth tab
    rw [integerElement_smallint] at read
    exact ⟨_, _, tab, read, Grown.refl wf (sameUpToSymbols_atom_self (.smallInt p) rfl nofun syms)⟩
  | .integer u, depth, fuel, rest, tab, canonical, rereadable, enough, ends, wf => by
    obtain ⟨f, rfl⟩ := exists_fuel H canonical rereadable enough
    have large : ¬(-16 ≤ int64Value (zigzagDecode u) ∧ int64Value (zigzagDecode u) ≤ 15) := by
      simpa only [Elem.canonical, Bool.not_eq_true', decide_eq_false_iff_not] using canonical
    have range := int64Value_mem_range (zigzagDecode u)
    have read := parseValue_formatInt H range.1 range.2 ends f depth tab
    rw [integerElement_integer large] at read
    exact ⟨_, _, tab, read, Grown.refl wf (sameUpToSymbols_atom_self (.integer u) rfl nofun syms)⟩
  | .float _, _, _, _, _, _, rereadable, _, _, _ => absurd rereadable Bool.false_ne_true
  | .symbolRef i, depth, fuel, rest, tab, canonical, rereadable, enough, ends, wf => by
    obtain ⟨f, rfl⟩ := exists_fuel H canonical rereadable enough
    obtain ⟨s, found, token⟩ := canonical_symbolRef.1 canonical
    obtain ⟨idx, tab', read, wf', interned, grows⟩ := parseValue_symbol H token ends wf f depth
    rw [outputElement_symbolRef found]
    refine ⟨_, _, tab', read, wf', grows, fun syms' later => ?_⟩
    show (syms[i]? == syms'[idx]?) = true
    rw [found, getElem?_eq_of_prefix_some later interned]
    exact beq_self_eq_true _
  | .shortString s, depth, fuel, rest, tab, canonical, rereadable, enough, _, wf => by
    obtain ⟨f, rfl⟩ := exists_fuel H canonical rereadable enough
    have read := parseValue_quoteString H f depth s rest tab
    rw [stringElement, if_pos (of_decide_eq_true canonical)] at read
    exact ⟨_, _, tab, read, Grown.refl wf (sameUpToSymbols_atom_self (.shortString s) rfl nofun syms)⟩
  | .longString s, depth, fuel, rest, tab, canonical, rereadable, enough, _, wf => by
    obtain ⟨f, rfl⟩ := exists_fuel H canonical rereadable enough
    have read := parseValue_quoteString H f depth s rest tab
    rw [stringElement, if_neg (Nat.not_le_of_lt (of_decide_eq_true canonical))] at read
    exact ⟨_, _, tab, read, Grown.refl wf (sameUpToSymbols_atom_self (.longString s) rfl nofun syms)⟩
  | .smallList cs, depth, fuel, rest, tab, canonical, rereadable, enough, _, wf
  | .largeList _ cs, depth, fuel, rest, tab, canonical, rereadable, enough, _, wf => by
    obtain ⟨shallow, nonempty, children, rebuilt⟩ := canonical_list H canonical rfl
    rw [outputElement] at enough ⊢
    simp only [List.length_append, List.length_cons, List.length_nil] at enough
    obtain ⟨g, rfl⟩ : ∃ g, fuel = g + 2 := ⟨fuel - 2, by omega⟩
    obtain ⟨es, tab', loop, readBack⟩ := parseElements_outputChildren cs (depth + 1) g rest tab
      [] children rereadable (by omega) wf
    rw [List.reverse_nil, List.nil_append] at loop
    have read := parseValue_of_parseElements H shallow children rereadable nonempty loop
    rw [← outputElement_list_append] at read
    exact ⟨_, _, tab', read, readBack.wellFormed, readBack.grows,
      fun syms' later => rebuilt _ (readBack.holds syms' later)⟩
termination_by structural e => e
/-- The child loop of `parse_list` reads the children's text back, up to the closing
parenthesis. -/
theorem parseElements_outputChildren : ∀ (cs : List Elem) (depth fuel : Nat)
    (rest : List UInt8) (tab : SexpSymbolTable) (acc : List (Elem × UInt32)),
    canonicalList H syms depth cs = true → rereadableList depth cs = true →
    2 * (outputChildren syms 0 cs).length + 2 ≤ fuel → tab.WellFormed →
    ∃ es tab', parseElements H fuel depth ⟨outputChildren syms 0 cs ++ 41 :: rest, tab⟩ acc =
        .ok (acc.reverse ++ es, ⟨rest, tab'⟩) ∧
      Grown tab tab' fun syms' => sameUpToSymbolsList syms syms' cs (es.map (·.1)) = true
  | [], depth, fuel, rest, tab, acc, _, _, enough, wf => by
    obtain ⟨f, rfl⟩ : ∃ f, fuel = f + 1 := ⟨fuel - 1, by omega⟩
    refine ⟨[], tab, ?_, wf, List.prefix_refl _, fun _ _ => rfl⟩
    rw [List.append_nil]
    exact parseElements_close H f depth rest tab acc
  | c :: cs, depth, fuel, rest, tab, acc, canonical, rereadable, enough, wf => by
    have canonical := Bool.and_eq_true_iff.1 canonical
    have rereadable := Bool.and_eq_true_iff.1 rereadable
    obtain ⟨b, text, first, -, -, notClose⟩ := outputElement_cons H canonical.1 rereadable.1
    have lengths : (outputChildren syms 0 cs).length + 1 ≤
        (outputElement syms c).length + (outputChildren syms 1 cs).length := by
      cases cs with
      | nil => simp only [first, List.length_cons, outputChildren, List.length_nil]; omega
      | cons d ds =>
        rw [outputChildren_succ_cons, outputChildren_zero_cons, List.length_cons]
        omega
    rw [outputChildren_zero_cons, List.length_append] at enough
    obtain ⟨f, rfl⟩ : ∃ f, fuel = f + 1 := ⟨fuel - 1, by omega⟩
    obtain ⟨e', hash, tab₁, value, readC⟩ := parseValue_outputElement c depth f
      (outputChildren syms 1 cs ++ 41 :: rest) tab canonical.1 rereadable.1 (by omega)
      (endsAtom_outputChildren 0 cs rest) wf
    obtain ⟨es, tab₂, loop, readCs⟩ := parseElements_outputChildren cs depth f rest tab₁
      ((e', hash) :: acc) canonical.2 rereadable.2 (by omega) readC.wellFormed
    refine ⟨(e', hash) :: es, tab₂, ?_,
      (readC.trans readCs).mono fun _ both => Bool.and_eq_true_iff.2 both⟩
    rw [first, List.cons_append] at value
    rw [outputChildren_zero_cons, List.append_assoc, first, List.cons_append,
      parseElements_of_parseValue H notClose value,
      skipWhitespace_outputChildren H 0 rest canonical.2 rereadable.2, loop, List.reverse_cons,
      List.append_assoc, List.singleton_append]
termination_by structural cs => cs
end

end ReadBack

/-- Printing a canonical value without doubles and parsing the text gives the value back,
but for the numbering of its symbols. -/
theorem sexpParse_sameUpToSymbols (v : Sexp) (canonical : v.root.canonical H v.symbols 0 = true)
    (rereadable : v.root.rereadable 0 = true) :
    ∃ w, sexpParse H (sexpToCstring v) = .ok w ∧
      v.root.sameUpToSymbols v.symbols w.symbols w.root = true := by
  obtain ⟨b, text, first, space, comment, -⟩ := outputElement_cons H canonical rereadable
  obtain ⟨e', hash, tab', read, readBack⟩ := parseValue_outputElement H v.root 0
    (parseFuel (sexpToCstring v)) [] initSymbolTable canonical rereadable
    (by simp only [parseFuel, sexpToCstring]; omega) rfl wellFormed_initSymbolTable
  refine ⟨⟨tab'.symbols, e'⟩, ?_, readBack.holds _ (List.prefix_refl _)⟩
  rw [List.append_nil] at read
  rw [sexpParse, sexpToCstring, first, skipWhitespace_cons space comment]
  rw [sexpToCstring, first] at read
  simp only [read]
  rfl

/-! ## What the value read back shares with the printed one -/

section Agree

variable {H} {symsA symsB : List (List UInt8)}

mutual
/-- Through two tables that agree on its references, a canonical element decodes alike. -/
theorem decode_eq_of_sameUpToSymbols : ∀ (a b : Elem) (depth : Nat),
    a.canonical H symsA depth = true → a.sameUpToSymbols symsA symsB b = true →
      b.decode symsB = a.decode symsA
  | .symbolRef i, b, _, canonical, same => by
    obtain ⟨s, found, -⟩ := canonical_symbolRef.1 canonical
    rcases sameUpToSymbols_cases same with ⟨-, -, notSymbol⟩ | ⟨_, j, h, rfl, agree⟩ |
      ⟨_, _, h, -⟩ | ⟨_, _, _, _, h, -⟩
    · exact absurd rfl (notSymbol i)
    · cases h
      simp only [decode, ← agree, found]
    all_goals cases h
  | .smallList cs, b, depth, canonical, same | .largeList _ cs, b, depth, canonical, same => by
    have children := canonicalList_children canonical
    rcases sameUpToSymbols_cases same with ⟨-, atom, -⟩ | ⟨_, _, h, -⟩ | ⟨_, ds, h, rfl, same⟩ |
      ⟨_, _, _, ds, h, rfl, same⟩
    · cases atom
    · cases h
    all_goals first
      | (cases h
         exact congrArg Datum.list (decodeList_eq_of_sameUpToSymbolsList cs ds _ children same))
      | cases h
  | .nil, _, _, _, same | .smallInt _, _, _, _, same | .integer _, _, _, _, same
  | .float _, _, _, _, same | .shortString _, _, _, _, same | .longString _, _, _, _, same => by
    rcases sameUpToSymbols_cases same with ⟨rfl, -⟩ | ⟨_, _, h, -⟩ | ⟨_, _, h, -⟩ |
      ⟨_, _, _, _, h, -⟩
    · rfl
    all_goals cases h
termination_by structural a => a
/-- `decode_eq_of_sameUpToSymbols` child by child. -/
theorem decodeList_eq_of_sameUpToSymbolsList : ∀ (cs ds : List Elem) (depth : Nat),
    canonicalList H symsA depth cs = true → sameUpToSymbolsList symsA symsB cs ds = true →
      decodeList symsB ds = decodeList symsA cs
  | [], [], _, _, _ => rfl
  | c :: cs, d :: ds, depth, canonical, same => by
    have canonical := Bool.and_eq_true_iff.1 canonical
    have same := Bool.and_eq_true_iff.1 same
    exact congrArg₂ List.cons (decode_eq_of_sameUpToSymbols c d depth canonical.1 same.1)
      (decodeList_eq_of_sameUpToSymbolsList cs ds depth canonical.2 same.2)
  | [], _ :: _, _, _, same | _ :: _, [], _, _, same => absurd same Bool.false_ne_true
termination_by structural cs => cs
end

variable {syms : List (List UInt8)}

mutual
/-- `elements_equal_recursive` finds a canonical element without doubles equal to itself:
its references are inside the table, and it holds no NaN. -/
theorem elementsEqualRecursive_self_of_canonical : ∀ (e : Elem) (depth : Nat),
    e.canonical H syms depth = true → e.rereadable depth = true →
      elementsEqualRecursive H syms syms e e = true
  | .nil, _, _, _ => rfl
  | .smallInt p, _, _, _ => beq_self_eq_true p
  | .integer u, _, _, _ => beq_self_eq_true u
  | .float _, _, _, rereadable => absurd rereadable Bool.false_ne_true
  | .symbolRef i, _, canonical, _ => by
    obtain ⟨s, found, -⟩ := canonical_symbolRef.1 canonical
    exact (symbolRefsEqual_iff H syms syms i i).2 ⟨s, found, found⟩
  | .shortString s, _, _, _ | .longString s, _, _, _ =>
    Bool.and_eq_true_iff.2 ⟨beq_self_eq_true _, beq_self_eq_true s⟩
  | .smallList cs, depth, canonical, rereadable | .largeList _ cs, depth, canonical, rereadable =>
    Bool.and_eq_true_iff.2 ⟨beq_self_eq_true _,
      childrenEqual_self_of_canonical cs (depth + 1) (canonicalList_children canonical) rereadable⟩
termination_by structural e => e
/-- `elementsEqualRecursive_self_of_canonical` child by child. -/
theorem childrenEqual_self_of_canonical : ∀ (cs : List Elem) (depth : Nat),
    canonicalList H syms depth cs = true → rereadableList depth cs = true →
      childrenEqual H syms syms cs cs = true
  | [], _, _, _ => rfl
  | c :: cs, depth, canonical, rereadable => by
    have canonical := Bool.and_eq_true_iff.1 canonical
    have rereadable := Bool.and_eq_true_iff.1 rereadable
    exact Bool.and_eq_true_iff.2
      ⟨elementsEqualRecursive_self_of_canonical c depth canonical.1 rereadable.1,
        childrenEqual_self_of_canonical cs depth canonical.2 rereadable.2⟩
termination_by structural cs => cs
end

end Agree

theorem sexpEqual_of_elementsEqualRecursive {a b : Sexp}
    (equal : elementsEqualRecursive H a.symbols b.symbols a.root b.root = true) :
    sexpEqual H a b = true := by
  rw [sexpEqual]
  split
  · rfl
  · exact equal

/-- The value read back from the text of a canonical, rereadable value is `sexp_equal` to it
both ways and decodes to the same tree. -/
theorem reparse_agrees (v : Sexp) (canonical : v.root.canonical H v.symbols 0 = true)
    (rereadable : v.root.rereadable 0 = true) :
    ∃ w, sexpParse H (sexpToCstring v) = .ok w ∧
      sexpEqual H v w = true ∧ sexpEqual H w v = true ∧
      w.root.decode w.symbols = v.root.decode v.symbols := by
  obtain ⟨w, parsed, same⟩ := sexpParse_sameUpToSymbols H v canonical rereadable
  have self := elementsEqualRecursive_self_of_canonical v.root 0 canonical rereadable
  have selfV := sameUpToSymbols_self v.symbols v.root
  refine ⟨w, parsed, sexpEqual_of_elementsEqualRecursive H ?_,
    sexpEqual_of_elementsEqualRecursive H ?_, decode_eq_of_sameUpToSymbols v.root w.root 0 canonical same⟩
  · rwa [← elementsEqualRecursive_congr v.root v.root v.root w.root selfV same]
  · rwa [← elementsEqualRecursive_congr v.root w.root v.root v.root same selfV]

/-- Printing a canonical value without doubles or deep NILs and parsing the text gives a value
that is `sexp_equal` to it both ways, decodes to the same tree, and prints to the same text. -/
theorem sexpParse_sexpToCstring (v : Sexp) (canonical : v.root.canonical H v.symbols 0 = true)
    (rereadable : v.root.rereadable 0 = true) :
    ∃ w, sexpParse H (sexpToCstring v) = .ok w ∧
      sexpEqual H v w = true ∧ sexpEqual H w v = true ∧
      w.root.decode w.symbols = v.root.decode v.symbols ∧ sexpToCstring w = sexpToCstring v := by
  obtain ⟨w, parsed, equal, equal', decoded⟩ := reparse_agrees H v canonical rereadable
  refine ⟨w, parsed, equal, equal', decoded, ?_⟩
  rw [sexpToCstring, sexpToCstring, outputElement_eq_output_decode,
    outputElement_eq_output_decode, decoded]

/-- A value `sexp_parse` accepts, printed and parsed again, gives a value `sexp_equal` to it
both ways, with the same structural hash, Bloom signature, text and GIN keys, unless it holds
a double or a NIL nested `SEXP_MAX_DEPTH` deep. -/
theorem sexpParse_sexpToCstring_sexpParse {input : List UInt8} {v : Sexp}
    (parsed : sexpParse H input = .ok v) (rereadable : v.root.rereadable 0 = true) :
    ∃ w, sexpParse H (sexpToCstring v) = .ok w ∧
      sexpEqual H v w = true ∧ sexpEqual H w v = true ∧
      sexpComputeHash H w = sexpComputeHash H v ∧ sexpComputeBloom H w = sexpComputeBloom H v ∧
      sexpToCstring w = sexpToCstring v ∧ sexpGinExtractValue H w = sexpGinExtractValue H v ∧
      ∀ strategy, sexpGinExtractQuery H w strategy = sexpGinExtractQuery H v strategy := by
  obtain ⟨canonical, consistent⟩ := sexpParse_written H parsed
  obtain ⟨w, reparsed, equal, equal', decoded⟩ := reparse_agrees H v canonical rereadable
  obtain ⟨hash, bloom, text, valueKeys, queryKeys⟩ :=
    readers_eq_of_decode_eq decoded (sexpParse_written H reparsed).2 consistent
  exact ⟨w, reparsed, equal, equal', hash, bloom, text, valueKeys, queryKeys⟩

/-- `1.0` parses to the double 1, written `1`; `1` parses to the small integer 1, which is
not `sexp_equal` to the double. -/
theorem sexpParse_sexpToCstring_whole_float :
    (sexpIn pgHashFns "1.0").toOption = some ⟨[], .float 0x3FF0000000000000⟩ ∧
      sexpToCstring ⟨[], .float 0x3FF0000000000000⟩ = [49] ∧
      (sexpParse pgHashFns [49]).toOption = some ⟨[], .smallInt 17⟩ ∧
      sexpEqual pgHashFns ⟨[], .smallInt 17⟩ ⟨[], .float 0x3FF0000000000000⟩ = false :=
  ⟨by decide, by decide, by decide, by decide⟩

/-! ## NIL at the depth limit -/

/-- `k` lists of one child around `e`. -/
def nested : Nat → Elem → Elem
  | 0, e => e
  | k + 1, e => .smallList [nested k e]

theorem replicate_parens_succ (k : Nat) (middle rest : List UInt8) :
    List.replicate (k + 1) 40 ++ middle ++ List.replicate (k + 1) 41 ++ rest =
      40 :: (List.replicate k 40 ++ middle ++ List.replicate k 41 ++ 41 :: rest) := by
  rw [List.replicate_succ, List.replicate_succ']
  simp only [List.cons_append, List.append_assoc, List.singleton_append, List.nil_append]

theorem replicate_parens_cons (k : Nat) (middle : List UInt8) (opening : middle.head? = some 40)
    (rest : List UInt8) :
    ∃ t, List.replicate k 40 ++ middle ++ List.replicate k 41 ++ rest = 40 :: t := by
  cases k with
  | zero =>
    obtain ⟨t, rfl⟩ : ∃ t, middle = 40 :: t := by
      cases middle with
      | nil => cases opening
      | cons c t => exact ⟨t, by rw [Option.some.inj opening]⟩
    exact ⟨_, rfl⟩
  | succ k => exact ⟨_, replicate_parens_succ k middle rest⟩

/-- `k` parentheses around the token `nil` are read as NIL nested `k` deep, while the
parentheses stay within `SEXP_MAX_DEPTH`. -/
theorem parseValue_nested_nilToken : ∀ (k depth fuel : Nat) (rest : List UInt8)
    (tab : SexpSymbolTable), depth + k ≤ sexpMaxDepth → 3 * k + 1 ≤ fuel → endsAtom rest = true →
    ∃ hash, parseValue H fuel depth
      ⟨List.replicate k 40 ++ [110, 105, 108] ++ List.replicate k 41 ++ rest, tab⟩ =
        .ok (nested k .nil, hash, ⟨rest, tab⟩)
  | 0, depth, fuel, rest, tab, _, enough, ends => by
    obtain ⟨f, rfl⟩ : ∃ f, fuel = f + 1 := ⟨fuel - 1, by omega⟩
    exact ⟨0, parseValue_nilToken H ends f depth tab⟩
  | k + 1, depth, fuel, rest, tab, shallow, enough, ends => by
    obtain ⟨g, rfl⟩ : ∃ g, fuel = g + 4 := ⟨fuel - 4, by omega⟩
    obtain ⟨hash, inner⟩ := parseValue_nested_nilToken k (depth + 1) (g + 1) (41 :: rest) tab
      (by omega) (by omega) rfl
    obtain ⟨b, t, first, space, comment, notClose⟩ : ∃ b t,
        List.replicate k 40 ++ [110, 105, 108] ++ List.replicate k 41 ++ 41 :: rest = b :: t ∧
          isSpace b = false ∧ b ≠ 59 ∧ b ≠ 41 := by
      cases k with
      | zero => exact ⟨110, _, rfl, by decide, by decide, by decide⟩
      | succ k => exact ⟨40, _, replicate_parens_succ k _ _, by decide, by decide, by decide⟩
    rw [first] at inner
    have loop : parseElements H (g + 2) (depth + 1) ⟨b :: t, tab⟩ [] =
        .ok ([(nested k .nil, hash)], ⟨rest, tab⟩) := by
      rw [parseElements_of_parseValue H notClose inner]
      exact parseElements_close H g (depth + 1) rest tab _
    refine ⟨parseListHash H [hash], ?_⟩
    rw [replicate_parens_succ, parseValue_open, first,
      parseList_of_parseElements H (by omega) space comment notClose loop]
    rfl

theorem outputElement_nested_nil (syms : List (List UInt8)) :
    ∀ k, outputElement syms (nested k .nil) = List.replicate k 40 ++ [40, 41] ++ List.replicate k 41
  | 0 => rfl
  | k + 1 => by
    rw [nested, outputElement, outputChildren_zero_cons, outputElement_nested_nil syms k,
      ← List.append_nil (List.replicate (k + 1) 40 ++ _ ++ _), replicate_parens_succ]
    simp only [outputChildren, List.append_nil, List.cons_append, List.append_assoc]

/-- `()` nested `SEXP_MAX_DEPTH` deep is refused: `parse_list` meets it at the depth limit. -/
theorem parseValue_deep_nil_ne_ok : ∀ (k depth fuel : Nat) (rest : List UInt8)
    (tab : SexpSymbolTable) (r : Elem × UInt32 × SexpParseState), sexpMaxDepth ≤ depth + k →
    parseValue H fuel depth ⟨List.replicate k 40 ++ [40, 41] ++ List.replicate k 41 ++ rest, tab⟩ ≠
      .ok r
  | _, _, 0, _, _, _, _, parsed => nomatch parsed
  | 0, depth, fuel + 1, rest, tab, r, deep, parsed => by
    rw [show List.replicate 0 40 ++ [40, 41] ++ List.replicate 0 41 ++ rest = 40 :: 41 :: rest
      from rfl, parseValue_open] at parsed
    cases fuel with
    | zero => exact nomatch parsed
    | succ g =>
      have shallow := (parseList_eq_ok parsed).1
      omega
  | j + 1, depth, fuel + 1, rest, tab, r, deep, parsed => by
    rw [replicate_parens_succ, parseValue_open] at parsed
    obtain ⟨u, first⟩ := replicate_parens_cons j [40, 41] rfl (41 :: rest)
    cases fuel with
    | zero => exact nomatch parsed
    | succ g =>
      rw [first] at parsed
      obtain ⟨-, ⟨⟨text, closing, -⟩, -⟩ | ⟨children, -, loop, -⟩⟩ := parseList_eq_ok parsed
      · rw [skipWhitespace_cons (by decide) (by decide)] at closing
        exact absurd (List.cons.inj closing).1 (by decide)
      · rw [skipWhitespace_cons (by decide) (by decide)] at loop
        cases g with
        | zero => exact nomatch loop
        | succ h =>
          rcases parseElements_eq_ok loop with ⟨_, closing, -⟩ | ⟨_, _, _, -, value, -⟩
          · exact absurd (List.cons.inj closing).1 (by decide)
          · rw [← first] at value
            exact parseValue_deep_nil_ne_ok j (depth + 1) h (41 :: rest) tab _ (by omega) value

/-- `SEXP_MAX_DEPTH` parentheses around the token `nil` parse, to NIL nested as deep; its
text writes that NIL as `()`, which the parser refuses. -/
theorem sexpParse_sexpToCstring_deep_nil :
    sexpParse H (List.replicate sexpMaxDepth 40 ++ [110, 105, 108] ++
        List.replicate sexpMaxDepth 41) = .ok ⟨[], nested sexpMaxDepth .nil⟩ ∧
      ∀ w, sexpParse H (sexpToCstring ⟨[], nested sexpMaxDepth .nil⟩) ≠ .ok w := by
  constructor
  · obtain ⟨hash, read⟩ := parseValue_nested_nilToken H sexpMaxDepth 0 (parseFuel
      (List.replicate sexpMaxDepth 40 ++ [110, 105, 108] ++ List.replicate sexpMaxDepth 41)) []
      initSymbolTable (Nat.le_refl _) (by simp only [parseFuel, List.length_append,
        List.length_replicate, List.length_cons, List.length_nil]; omega) rfl
    obtain ⟨t, first⟩ : ∃ t : List UInt8, List.replicate sexpMaxDepth (40 : UInt8) ++
        [110, 105, 108] ++ List.replicate sexpMaxDepth 41 ++ [] = 40 :: t := by
      rw [show sexpMaxDepth = 999 + 1 from rfl]
      exact ⟨_, replicate_parens_succ 999 _ _⟩
    rw [List.append_nil] at read first
    rw [sexpParse, first, skipWhitespace_cons (by decide) (by decide)]
    rw [first] at read
    simp only [read]
    rfl
  · intro w parsed
    obtain ⟨t, first⟩ := replicate_parens_cons sexpMaxDepth [40, 41] rfl []
    rw [List.append_nil] at first
    rw [sexpToCstring, outputElement_nested_nil, sexpParse, first,
      skipWhitespace_cons (by decide) (by decide)] at parsed
    obtain ⟨r, value, -⟩ := bind_eq_ok parsed
    rw [← first, ← List.append_nil (List.replicate sexpMaxDepth 40 ++ _ ++ _)] at value
    exact parseValue_deep_nil_ne_ok H sexpMaxDepth 0 _ [] initSymbolTable r (Nat.le_refl _) value

end PgSexp
