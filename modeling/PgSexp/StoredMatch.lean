import PgSexp.StoredEqual
import PgSexp.Patterns

/-!
# Pattern matching and search on the stored bytes

`elements_match` walks an expression and a pattern in lockstep, each
through its own read state.  It first asks whether the pattern element is a symbol reference
whose text `is_pattern_symbol` recognises: `_` and `?name` match the expression element,
which `skip_element_internal` steps over, and a rest symbol fails outside a list.  Otherwise it
compares tags and contents as equality does, and hands two lists to `match_elements`, which
matches the children in turn until a rest symbol in last position takes every expression
child left.

`find_pattern_recursive` tries `elements_match` at its cursor, on a copy of the expression's
read state and with the pattern's cursor reset.  On a match `extract_current_element` copies
the expression's header and the element's bytes.  Otherwise it steps into a list's children
with the shared cursor, which each child's search must leave right after that child, or steps
over an atom.

On the bytes of two readable values the match answers what `PgSexp.Match` answers on the
decoded values, and the search finds the first matching subtree in pre-order and returns it
under the expression's header.
-/

namespace PgSexp

namespace Bytes

/-- The special symbol the pattern element at `p` stands for, as `elements_match` and
`match_elements` look it up: a symbol reference whose index is below `sym_count` after the
`(int)` cast and whose text `is_pattern_symbol` recognises, with the position after the
reference.  An index past `INT_MAX` that the cast brings below `sym_count` reads past the
table; the model finds no symbol there. -/
def patternSymbolAt (data : List UInt8) (state : ReadState) (p : Nat) :
    Option (PatternType × Nat) :=
  if data.getD p 0 &&& sexpTagMask = sexpTagSymbolRef then
    let idx := decodeVarint data state.stop (p + 1)
    if int32OfUInt64 idx.1 < state.symCount then
      match state.symbols[idx.1.toNat]? with
      | some span => (isPatternSymbol ((data.drop span.1).take span.2.toNat)).map (·, idx.2)
      | none => none
    else none
  else none

/-- The rest symbol `match_elements` looks for before each pattern child: `_*` or `??name`,
with the position after it. -/
def restSymbolAt (data : List UInt8) (state : ReadState) (p : Nat) : Option Nat :=
  match patternSymbolAt data state p with
  | some (.wildcardRest, after) | some (.captureRest, after) => some after
  | _ => none

/-- The symbol comparison of `elements_match`: both indices below their `sym_count` after the
`(int)` cast, equal `sym_lengths`, then `memcmp` of the expression symbol's length. -/
def symbolsMatch (edata : List UInt8) (estate : ReadState) (pdata : List UInt8)
    (pstate : ReadState) (idxE idxP : UInt64) : Bool :=
  if estate.symCount ≤ int32OfUInt64 idxE ∨ pstate.symCount ≤ int32OfUInt64 idxP then false
  else
    match estate.symbols[idxE.toNat]?, pstate.symbols[idxP.toNat]? with
    | some spanE, some spanP =>
      spanE.2 == spanP.2 &&
        (edata.drop spanE.1).take spanE.2.toNat == (pdata.drop spanP.1).take spanE.2.toNat
    | _, _ => false

/-- `skip_element_internal` on the read state `state` with its cursor at `p`. -/
def skipInternal (data : List UInt8) (stop p : Nat) : Nat :=
  skipElementInternal data stop (stop - p + 1) p

/-- The loop of `match_elements` over `patLeft` pattern children and `exprLeft` expression
children: a rest symbol matches every expression child left when it is the last pattern
child and fails the match anywhere else; any other pattern child needs an expression child
that `matchAt` matches.  The answer, and where the two cursors stop. -/
def matchElementsLoop (matchAt : Nat → Nat → Bool × Nat × Nat) (restAt : Nat → Option Nat)
    (skip : Nat → Nat) : Nat → Nat → Nat → Nat → Bool × Nat × Nat
  | 0, exprLeft, pe, pp => (exprLeft == 0, pe, pp)
  | patLeft + 1, exprLeft, pe, pp =>
    match restAt pp with
    | some after =>
      if patLeft = 0 then (true, skipTimes skip exprLeft pe, after) else (false, pe, pp)
    | none =>
      match exprLeft with
      | 0 => (false, pe, pp)
      | exprLeft + 1 =>
        let matched := matchAt pe pp
        if matched.1 then
          matchElementsLoop matchAt restAt skip patLeft exprLeft matched.2.1 matched.2.2
        else (false, matched.2.1, matched.2.2)

/-- `elements_match` on the expression element at `pe` and the pattern element at `pp`:
whether they match, and where it leaves the two cursors.  Each nested call starts past the
tag byte of the call above it, so fuel for the expression's bytes is enough. -/
def elementsMatch (edata : List UInt8) (estate : ReadState) (pdata : List UInt8)
    (pstate : ReadState) : Nat → Nat → Nat → Bool × Nat × Nat
  | 0, pe, pp => (false, pe, pp)
  | fuel + 1, pe, pp =>
    if estate.stop ≤ pe ∨ pstate.stop ≤ pp then
      (decide (estate.stop ≤ pe) && decide (pstate.stop ≤ pp), pe, pp)
    else
      match patternSymbolAt pdata pstate pp with
      | some (.wildcard, after) | some (.capture, after) =>
        (true, skipInternal edata estate.stop pe, after)
      | some (.wildcardRest, _) | some (.captureRest, _) => (false, pe, pp)
      | none =>
        let byteE := edata.getD pe 0
        let byteP := pdata.getD pp 0
        let tag := byteE &&& sexpTagMask
        if tag ≠ byteP &&& sexpTagMask then (false, pe + 1, pp + 1)
        else if tag = sexpTagNil then (true, pe + 1, pp + 1)
        else if tag = sexpTagSmallint then (byteE == byteP, pe + 1, pp + 1)
        else if tag = sexpTagInteger then
          let valE := decodeVarint edata estate.stop (pe + 1)
          let valP := decodeVarint pdata pstate.stop (pp + 1)
          (valE.1 == valP.1, valE.2, valP.2)
        else if tag = sexpTagFloat then
          (float8Eq (loadFloat8 edata (pe + 1)) (loadFloat8 pdata (pp + 1)), pe + 1 + 8,
            pp + 1 + 8)
        else if tag = sexpTagSymbolRef then
          let idxE := decodeVarint edata estate.stop (pe + 1)
          let idxP := decodeVarint pdata pstate.stop (pp + 1)
          (symbolsMatch edata estate pdata pstate idxE.1 idxP.1, idxE.2, idxP.2)
        else if tag = sexpTagShortString then
          let lenE := (byteE &&& sexpDataMask).toNat
          let lenP := (byteP &&& sexpDataMask).toNat
          (lenE == lenP && (edata.drop (pe + 1)).take lenE == (pdata.drop (pp + 1)).take lenE,
            pe + 1 + lenE, pp + 1 + lenP)
        else if tag = sexpTagLongString then
          let lenE := decodeVarint edata estate.stop (pe + 1)
          let lenP := decodeVarint pdata pstate.stop (pp + 1)
          (lenE.1 == lenP.1 &&
              (edata.drop lenE.2).take lenE.1.toNat == (pdata.drop lenP.2).take lenE.1.toNat,
            lenE.2 + lenE.1.toNat, lenP.2 + lenP.1.toNat)
        else if tag = sexpTagList then
          let listE := readListHeader edata estate.stop byteE (pe + 1)
          let listP := readListHeader pdata pstate.stop byteP (pp + 1)
          matchElementsLoop (elementsMatch edata estate pdata pstate fuel)
            (restSymbolAt pdata pstate) (skipInternal edata estate.stop) listP.1 listE.1
            listE.2 listP.2
        else (false, pe + 1, pp + 1)

/-- The child loop of `find_pattern_recursive`: each child searched from where the cursor is,
until one finds. -/
def findInChildrenLoop (find : Nat → Option (Nat × Nat) × Nat) : Nat → Nat → Option (Nat × Nat) × Nat
  | 0, q => (none, q)
  | count + 1, q =>
    let searched := find q
    match searched.1 with
    | some bounds => (some bounds, searched.2)
    | none => findInChildrenLoop find count searched.2

/-- `find_pattern_recursive` from the cursor `p` of the expression's read state, whose data
ends at `stop`, with `matchAt q` for `elements_match` on a copy of the cursor at `q` and the
pattern's cursor reset: the bounds of the element `extract_current_element` copies, if one
matches, and where the cursor is left. -/
def findPatternRecursive (buf : List UInt8) (stop : Nat) (matchAt : Nat → Bool) :
    Nat → Nat → Option (Nat × Nat) × Nat
  | 0, p => (none, p)
  | fuel + 1, p =>
    if stop ≤ p then (none, p)
    else if matchAt p then
      let elemEnd := skipInternal buf stop p
      (some (p, elemEnd), skipInternal buf stop p)
    else
      let byte := buf.getD p 0
      if byte &&& sexpTagMask = sexpTagList then
        let header := readListHeader buf stop byte (p + 1)
        findInChildrenLoop (findPatternRecursive buf stop matchAt fuel) header.1 header.2
      else (none, skipInternal buf stop p)

/-- `extract_current_element`: the parent's header, measured as `extract_element_fast`
measures it, then the bytes of the element. -/
def extractCurrentElement (parent : List UInt8) (elemStart elemEnd : Nat) : List UInt8 :=
  extractElementFast parent elemStart elemEnd

/-- `sexp_match`: `elements_match` from the two roots. -/
def sexpMatch (expr pattern : List UInt8) : Except SqlError Bool := do
  let exprState ← initReadStateInternal expr
  let patState ← initReadStateInternal pattern
  pure (elementsMatch expr exprState pattern patState (exprState.stop - exprState.ptr + 1)
    exprState.ptr patState.ptr).1

/-- `sexp_find_first`: the search from the expression's root with the pattern's root as the
pattern's start; the element found under the expression's header, or `NULL`. -/
def sexpFindFirst (expr pattern : List UInt8) : Except SqlError (Option (List UInt8)) := do
  let exprState ← initReadStateInternal expr
  let patState ← initReadStateInternal pattern
  let matchAt := fun q =>
    (elementsMatch expr exprState pattern patState (exprState.stop - q + 1) q patState.ptr).1
  let found := findPatternRecursive expr exprState.stop matchAt
    (exprState.stop - exprState.ptr + 1) exprState.ptr
  pure (found.1.map fun bounds => extractCurrentElement expr bounds.1 bounds.2)

end Bytes

/-! ## Pattern symbols and symbol texts -/

section Symbols

variable {data : List UInt8} {state : ReadState} {syms : List (List UInt8)}

/-- On a read state that resolves its table, the pattern-symbol lookup of `elements_match`
finds the special symbol the decoded pattern element stands for, and steps past it. -/
theorem patternSymbolAt_encode (resolves : Bytes.Resolves data state syms) {p : Elem} {q : Nat}
    {rest : List UInt8} (decodable : p.Decodable) (placed : data.drop q = p.encode ++ rest)
    (within : q + p.encode.length ≤ state.stop) :
    Bytes.patternSymbolAt data state q = (patternTypeOf syms p).map (·, q + p.encode.length) := by
  rw [Bytes.patternSymbolAt, Elem.getD_eq_headD_encode placed, Elem.headD_encode decodable.tagged,
    Elem.tagByte_and_tagMask]
  cases p with
  | symbolRef j =>
    have below : j < 2 ^ 31 := of_decide_eq_true decodable.refs
    have body : data.drop (q + 1) = encodeVarint (UInt64.ofNat j) ++ rest :=
      drop_succ_of_drop placed
    simp only [Elem.encode, List.length_cons] at within ⊢
    rw [if_pos (show (Elem.symbolRef j).tag = sexpTagSymbolRef from rfl),
      decodeVarint_encodeVarint _ body (by omega)]
    dsimp only
    rw [int32OfUInt64_ofNat below, resolves.count,
      UInt64.toNat_ofNat_of_lt (by unfold UInt64.size; omega), patternTypeOf,
      show q + 1 + (encodeVarint (UInt64.ofNat j)).length =
        q + ((encodeVarint (UInt64.ofNat j)).length + 1) by omega]
    by_cases inTable : j < syms.length
    · obtain ⟨span, at', text, -⟩ := resolves.span (List.getElem?_eq_getElem inTable)
      rw [if_pos (by omega), at']
      dsimp only
      rw [text, List.getElem?_eq_getElem inTable]
      rfl
    · rw [if_neg (by omega), List.getElem?_eq_none (by omega)]
      rfl
  | _ => rw [if_neg (by simp only [Elem.tag]; decide)]; rfl

/-- The rest-symbol lookup of `match_elements` finds `_*` and `??name`. -/
theorem restSymbolAt_encode (resolves : Bytes.Resolves data state syms) {p : Elem} {q : Nat}
    {rest : List UInt8} (decodable : p.Decodable) (placed : data.drop q = p.encode ++ rest)
    (within : q + p.encode.length ≤ state.stop) :
    Bytes.restSymbolAt data state q =
      if isRestPattern syms p then some (q + p.encode.length) else none := by
  rw [Bytes.restSymbolAt, patternSymbolAt_encode resolves decodable placed within, isRestPattern]
  cases patternTypeOf syms p with
  | none => rfl
  | some t => cases t <;> rfl

variable {edata pdata : List UInt8} {estate pstate : ReadState} {esyms psyms : List (List UInt8)}

/-- On read states that resolve their tables, the symbol comparison of `elements_match`
compares the texts, as the decoded `atomsMatch` does. -/
theorem symbolsMatch_ofNat (resolvesE : Bytes.Resolves edata estate esyms)
    (resolvesP : Bytes.Resolves pdata pstate psyms) {i j : Nat} (belowI : i < 2 ^ 31)
    (belowJ : j < 2 ^ 31) :
    Bytes.symbolsMatch edata estate pdata pstate (UInt64.ofNat i) (UInt64.ofNat j) =
      atomsMatch esyms psyms (.symbolRef i) (.symbolRef j) := by
  rw [Bytes.symbolsMatch, int32OfUInt64_ofNat belowI, int32OfUInt64_ofNat belowJ,
    resolvesE.count, resolvesP.count, UInt64.toNat_ofNat_of_lt (by unfold UInt64.size; omega),
    UInt64.toNat_ofNat_of_lt (by unfold UInt64.size; omega), atomsMatch]
  by_cases inTables : i < esyms.length ∧ j < psyms.length
  · obtain ⟨spanE, atE, textE, lengthE⟩ := resolvesE.span (List.getElem?_eq_getElem inTables.1)
    obtain ⟨spanP, atP, textP, lengthP⟩ := resolvesP.span (List.getElem?_eq_getElem inTables.2)
    rw [if_neg (by omega), atE, atP, List.getElem?_eq_getElem inTables.1,
      List.getElem?_eq_getElem inTables.2]
    dsimp only
    have takeP := textP
    rw [lengthP, Int.toNat_ofNat] at takeP
    rw [textE, lengthE, lengthP, Int.toNat_ofNat]
    by_cases lengths : esyms[i].length = psyms[j].length
    · simp only [lengths, takeP, beq_self_eq_true]
    · have castLengths : ((esyms[i].length : Int) == psyms[j].length) = false :=
        beq_eq_false_iff_ne.2 (by omega)
      simp only [castLengths, beq_eq_false_iff_ne.2 lengths, Bool.false_and]
  · rw [if_pos (by omega)]
    rcases not_and_or.1 inTables with outE | outP
    · rw [List.getElem?_eq_none (by omega)]
    · rw [List.getElem?_eq_none (Nat.le_of_not_lt outP)]
      cases esyms[i]? <;> rfl

end Symbols

/-! ## Matching in lockstep -/

section Lockstep

variable {edata pdata : List UInt8} {estate pstate : ReadState} {esyms psyms : List (List UInt8)}

theorem matchElements_cons {es : List Elem} {p : Elem} {ps : List Elem} :
    matchElements esyms psyms es (p :: ps) =
      if isRestPattern psyms p then ps.isEmpty
      else
        match es with
        | [] => false
        | e :: es' => elementsMatch esyms psyms e p && matchElements esyms psyms es' ps :=
  rfl

theorem elementsMatch_symbolRef {e : Elem} {j : Nat} :
    elementsMatch esyms psyms e (.symbolRef j) =
      match patternTypeOf psyms (.symbolRef j) with
      | some .wildcard | some .capture => true
      | some .wildcardRest | some .captureRest => false
      | none => atomsMatch esyms psyms e (.symbolRef j) :=
  rfl

theorem elementsMatch_of_special {e p : Elem} {t : PatternType}
    (special : patternTypeOf psyms p = some t) :
    elementsMatch esyms psyms e p = (t == .wildcard || t == .capture) := by
  cases p with
  | symbolRef j =>
    rw [elementsMatch_symbolRef, special]
    cases t <;> rfl
  | _ => cases special

theorem elementsMatch_of_plain {e p : Elem} (plain : patternTypeOf psyms p = none) :
    elementsMatch esyms psyms e p =
      if p.isList then e.isList && matchElements esyms psyms e.children p.children
      else atomsMatch esyms psyms e p := by
  cases p with
  | symbolRef j =>
    rw [elementsMatch_symbolRef, plain]
    rfl
  | _ => rfl

/-- The loop of `match_elements` matches two lists of children as the decoded `matchElements`
does, given the rest symbols it finds, that `skip` steps over an expression child, and that
the recursive call matches any two children written where the cursors are; on a match it
leaves both cursors after the children. -/
theorem matchElementsLoop_encode {matchAt : Nat → Nat → Bool × Nat × Nat}
    {restAt : Nat → Option Nat} {skip : Nat → Nat} :
    ∀ {es ps : List Elem} {pe pp : Nat} {restE restP : List UInt8},
      edata.drop pe = (es.map Elem.encode).flatten ++ restE →
      pe + ((es.map Elem.encode).flatten).length ≤ estate.stop →
      pdata.drop pp = (ps.map Elem.encode).flatten ++ restP →
      pp + ((ps.map Elem.encode).flatten).length ≤ pstate.stop →
      (∀ e ∈ es, ∀ q rest', edata.drop q = e.encode ++ rest' → q + e.encode.length ≤ estate.stop →
        skip q = q + e.encode.length) →
      (∀ p ∈ ps, ∀ q rest', pdata.drop q = p.encode ++ rest' → q + p.encode.length ≤ pstate.stop →
        restAt q = if isRestPattern psyms p then some (q + p.encode.length) else none) →
      (∀ e ∈ es, ∀ p ∈ ps, ∀ qe qp restE' restP', edata.drop qe = e.encode ++ restE' →
        qe + e.encode.length ≤ estate.stop → pdata.drop qp = p.encode ++ restP' →
        qp + p.encode.length ≤ pstate.stop →
          Bytes.Compared (matchAt qe qp) (elementsMatch esyms psyms e p) (qe + e.encode.length)
            (qp + p.encode.length)) →
        Bytes.Compared (Bytes.matchElementsLoop matchAt restAt skip ps.length es.length pe pp)
          (matchElements esyms psyms es ps) (pe + ((es.map Elem.encode).flatten).length)
          (pp + ((ps.map Elem.encode).flatten).length)
  | [], [], _, _, _, _, _, _, _, _, _, _, _ => ⟨rfl, fun _ => rfl⟩
  | _ :: _, [], _, _, _, _, _, _, _, _, _, _, _ => ⟨rfl, fun h => absurd h Bool.false_ne_true⟩
  | es, p :: ps, pe, pp, _, _, placedE, withinE, placedP, withinP, skips, rests, each => by
    simp only [List.map_cons, List.flatten_cons, List.append_assoc] at placedP
    simp only [List.map_cons, List.flatten_cons, List.length_append] at withinP ⊢
    have restHere := rests p (List.mem_cons_self _ _) pp _ placedP (by omega)
    rw [List.length_cons, matchElements_cons]
    by_cases rest : isRestPattern psyms p = true
    · rw [if_pos rest] at restHere ⊢
      simp only [Bytes.matchElementsLoop, restHere]
      cases ps with
      | nil =>
        rw [if_pos List.length_nil, skipTimes_encode placedE withinE skips]
        exact ⟨rfl, fun _ => rfl⟩
      | cons _ _ => exact ⟨rfl, fun h => absurd h Bool.false_ne_true⟩
    rw [if_neg rest] at restHere ⊢
    cases es with
    | nil =>
      simp only [Bytes.matchElementsLoop, restHere]
      exact ⟨rfl, fun h => absurd h Bool.false_ne_true⟩
    | cons e es =>
      simp only [List.map_cons, List.flatten_cons, List.append_assoc] at placedE
      simp only [List.map_cons, List.flatten_cons, List.length_append] at withinE
      obtain ⟨first, ends⟩ := each e (List.mem_cons_self _ _) p (List.mem_cons_self _ _) pe pp _ _
        placedE (by omega) placedP (by omega)
      simp only [List.length_cons, Bytes.matchElementsLoop, restHere]
      by_cases matched : elementsMatch esyms psyms e p = true
      · rw [if_pos (first.trans matched), ends matched, matched, Bool.true_and]
        simp only [List.map_cons, List.flatten_cons, List.length_append, ← Nat.add_assoc]
        exact matchElementsLoop_encode (drop_add_of_drop placedE) (by omega)
          (drop_add_of_drop placedP) (by omega)
          (fun e' mem => skips e' (List.mem_cons_of_mem _ mem))
          (fun p' mem => rests p' (List.mem_cons_of_mem _ mem))
          fun e' memE p' memP => each e' (List.mem_cons_of_mem _ memE) p' (List.mem_cons_of_mem _ memP)
      · rw [if_neg (by rw [first]; exact matched), Bool.eq_false_iff.2 matched, Bool.false_and]
        exact ⟨rfl, fun h => absurd h Bool.false_ne_true⟩

theorem tag_eq_of_atomsMatch {e p : Elem} : atomsMatch esyms psyms e p = true → e.tag = p.tag := by
  cases e <;> cases p <;> first | exact fun h => absurd h Bool.false_ne_true | exact fun _ => rfl

theorem atomsMatch_strings {t u : List UInt8} :
    atomsMatch esyms psyms (.shortString t) (.shortString u) = (t.length == u.length && t == u) ∧
      atomsMatch esyms psyms (.longString t) (.longString u) = (t.length == u.length && t == u) :=
  ⟨rfl, rfl⟩

/-- `elements_match`, with fuel for the expression element's bytes and two read states that
resolve their tables, matches an expression element and a pattern element written where the
cursors are as the decoded `elements_match` does, and on a match leaves both cursors right
after them. -/
theorem elementsMatch_encode (resolvesE : Bytes.Resolves edata estate esyms)
    (resolvesP : Bytes.Resolves pdata pstate psyms) :
    ∀ {fuel : Nat} {e p : Elem} {pe pp : Nat} {restE restP : List UInt8},
      e.Decodable → p.Decodable → e.encode.length ≤ fuel →
      edata.drop pe = e.encode ++ restE → pe + e.encode.length ≤ estate.stop →
      pdata.drop pp = p.encode ++ restP → pp + p.encode.length ≤ pstate.stop →
        Bytes.Compared (Bytes.elementsMatch edata estate pdata pstate fuel pe pp)
          (elementsMatch esyms psyms e p) (pe + e.encode.length) (pp + p.encode.length)
  | 0, e, _, _, _, _, _, _, _, enough, _, _, _, _ =>
    absurd enough (Nat.not_le_of_lt e.length_encode_pos)
  | fuel + 1, e, p, pe, pp, restE, restP, decodableE, decodableP, enough, placedE, withinE,
      placedP, withinP => by
    have positiveE := e.length_encode_pos
    have positiveP := p.length_encode_pos
    have skipped : Bytes.skipInternal edata estate.stop pe = pe + e.encode.length :=
      skipElementInternal_encode decodableE.tagged decodableE.small (by omega) placedE withinE
    simp only [Bytes.elementsMatch]
    rw [if_neg (by omega), patternSymbolAt_encode resolvesP decodableP placedP withinP]
    cases special : patternTypeOf psyms p with
    | some t =>
      rw [elementsMatch_of_special special]
      cases t
      · exact ⟨rfl, fun _ => by rw [← skipped]; rfl⟩
      · exact ⟨rfl, fun h => absurd h Bool.false_ne_true⟩
      · exact ⟨rfl, fun _ => by rw [← skipped]; rfl⟩
      · exact ⟨rfl, fun h => absurd h Bool.false_ne_true⟩
    | none =>
    rw [Option.map_none', elementsMatch_of_plain special]
    dsimp only
    rw [Elem.getD_eq_headD_encode placedE, Elem.getD_eq_headD_encode placedP,
      Elem.headD_encode decodableE.tagged, Elem.headD_encode decodableP.tagged,
      Elem.tagByte_and_tagMask, Elem.tagByte_and_tagMask]
    by_cases sameTag : e.tag = p.tag
    swap
    · have differ : (if p.isList then e.isList && matchElements esyms psyms e.children p.children
          else atomsMatch esyms psyms e p) = false := by
        split
        · rename_i listP
          have atomE : e.isList = false := Bool.eq_false_iff.2 fun listE => sameTag (by
            rw [(Elem.tag_eq_sexpTagList_iff e).2 listE, (Elem.tag_eq_sexpTagList_iff p).2 listP])
          rw [atomE, Bool.false_and]
        · exact Bool.eq_false_iff.2 fun matched => sameTag (tag_eq_of_atomsMatch matched)
      rw [if_pos sameTag, differ]
      exact ⟨rfl, fun h => absurd h Bool.false_ne_true⟩
    rw [if_neg (not_not.2 sameTag)]
    by_cases listE : e.isList = true
    · have listP : p.isList = true :=
        (Elem.tag_eq_sexpTagList_iff p).1 (sameTag ▸ (Elem.tag_eq_sexpTagList_iff e).2 listE)
      obtain ⟨startE, headerE, childrenE, endE⟩ :=
        readListHeader_encode listE decodableE.tagged decodableE.small placedE withinE
      obtain ⟨startP, headerP, childrenP, endP⟩ :=
        readListHeader_encode listP decodableP.tagged decodableP.small placedP withinP
      rw [(Elem.tag_eq_sexpTagList_iff e).2 listE, if_pos listP, listE, Bool.true_and, headerE,
        headerP]
      simp +decide only [↓reduceIte]
      rw [← endE, ← endP]
      exact matchElementsLoop_encode childrenE (by omega) childrenP (by omega)
        (fun e' mem _ _ at' within' => skipElementInternal_encode (decodableE.child mem).tagged
          (decodableE.child mem).small (by omega) at' within')
        (fun p' mem _ _ at' within' => restSymbolAt_encode resolvesP (decodableP.child mem) at' within')
        fun e' memE p' memP _ _ _ _ atE inE atP inP =>
          elementsMatch_encode resolvesE resolvesP (decodableE.child memE) (decodableP.child memP)
            (by have := length_encode_lt_of_mem memE; omega) atE inE atP inP
    · have atomP : p.isList = false := Bool.eq_false_iff.2 fun listP =>
        listE ((Elem.tag_eq_sexpTagList_iff e).1 (sameTag ▸ (Elem.tag_eq_sexpTagList_iff p).2 listP))
      rw [atomP, if_neg Bool.false_ne_true, Elem.tagByte_and_dataMask, Elem.tagByte_and_dataMask,
        toNat_ofNat_payload, toNat_ofNat_payload]
      cases e <;> cases p <;> first
        | exact absurd sameTag (by simp only [Elem.tag]; decide)
        | exact absurd rfl listE
        | simp +decide only [Elem.tag, ↓reduceIte]
      · exact ⟨rfl, fun _ => rfl⟩
      · rename_i a b
        refine ⟨?_, fun _ => rfl⟩
        by_cases same : a = b
        · subst same
          exact (beq_self_eq_true _).trans (beq_self_eq_true a).symm
        · rw [beq_eq_false_iff_ne.2 fun (bytes : (Elem.smallInt a).tagByte = (Elem.smallInt b).tagByte) =>
            same (Elem.payload_eq_of_tagByte_eq bytes)]
          exact (beq_eq_false_iff_ne.2 same).symm
      · rename_i u v
        have bodyE : edata.drop (pe + 1) = encodeVarint u ++ restE := drop_succ_of_drop placedE
        have bodyP : pdata.drop (pp + 1) = encodeVarint v ++ restP := drop_succ_of_drop placedP
        simp only [Elem.encode, List.length_cons] at withinE withinP ⊢
        rw [decodeVarint_encodeVarint u bodyE (by omega), decodeVarint_encodeVarint v bodyP (by omega)]
        exact ⟨rfl, fun _ => by simp only [Prod.mk.injEq]; omega⟩
      · rename_i x y
        rw [loadFloat8_leBytes x (drop_succ_of_drop placedE),
          loadFloat8_leBytes y (drop_succ_of_drop placedP)]
        exact ⟨rfl, fun _ => by simp only [Elem.encode, List.length_cons, length_leBytes, Prod.mk.injEq]⟩
      · rename_i i j
        have bodyE : edata.drop (pe + 1) = encodeVarint (UInt64.ofNat i) ++ restE :=
          drop_succ_of_drop placedE
        have bodyP : pdata.drop (pp + 1) = encodeVarint (UInt64.ofNat j) ++ restP :=
          drop_succ_of_drop placedP
        simp only [Elem.encode, List.length_cons] at withinE withinP ⊢
        rw [decodeVarint_encodeVarint _ bodyE (by omega), decodeVarint_encodeVarint _ bodyP (by omega),
          symbolsMatch_ofNat resolvesE resolvesP (of_decide_eq_true decodableE.refs)
            (of_decide_eq_true decodableP.refs)]
        exact ⟨rfl, fun _ => by simp only [Prod.mk.injEq]; omega⟩
      · rename_i t u
        have shortT : t.length % 32 = t.length :=
          Nat.mod_eq_of_lt (Nat.lt_succ_of_le (of_decide_eq_true decodableE.tagged))
        have shortU : u.length % 32 = u.length :=
          Nat.mod_eq_of_lt (Nat.lt_succ_of_le (of_decide_eq_true decodableP.tagged))
        have bodyE : edata.drop (pe + 1) = t ++ restE := drop_succ_of_drop placedE
        have bodyP : pdata.drop (pp + 1) = u ++ restP := drop_succ_of_drop placedP
        simp only [Elem.payload, shortT, shortU, bodyE, bodyP, List.take_left, atomsMatch_strings.1]
        by_cases lengths : t.length = u.length
        · rw [List.take_left' lengths.symm]
          exact ⟨rfl, fun _ => by simp only [Elem.encode, List.length_cons, Prod.mk.injEq]; omega⟩
        · simp only [beq_eq_false_iff_ne.2 lengths, Bool.false_and]
          exact ⟨rfl, fun h => absurd h Bool.false_ne_true⟩
      · rename_i t u
        have bodyE : edata.drop (pe + 1) = encodeVarint (UInt64.ofNat t.length) ++ (t ++ restE) := by
          rw [drop_succ_of_drop placedE]
          exact List.append_assoc _ _ _
        have bodyP : pdata.drop (pp + 1) = encodeVarint (UInt64.ofNat u.length) ++ (u ++ restP) := by
          rw [drop_succ_of_drop placedP]
          exact List.append_assoc _ _ _
        have smallE := decodableE.small
        have smallP := decodableP.small
        simp only [Elem.encode, List.length_cons, List.length_append] at withinE withinP smallE smallP ⊢
        rw [decodeVarint_encodeVarint _ bodyE (by omega), decodeVarint_encodeVarint _ bodyP (by omega)]
        simp only [UInt64.toNat_ofNat_of_lt (show t.length < UInt64.size by unfold UInt64.size; omega),
          UInt64.toNat_ofNat_of_lt (show u.length < UInt64.size by unfold UInt64.size; omega),
          drop_add_of_drop bodyE, drop_add_of_drop bodyP, List.take_left, atomsMatch_strings.2]
        by_cases lengths : t.length = u.length
        · rw [lengths, List.take_left, beq_self_eq_true, beq_self_eq_true]
          exact ⟨rfl, fun _ => by simp only [Prod.mk.injEq]; omega⟩
        · have words : (UInt64.ofNat t.length == UInt64.ofNat u.length) = false :=
            beq_eq_false_iff_ne.2 fun same => lengths (by
              have := congrArg UInt64.toNat same
              rwa [UInt64.toNat_ofNat_of_lt (by unfold UInt64.size; omega),
                UInt64.toNat_ofNat_of_lt (by unfold UInt64.size; omega)] at this)
          simp only [words, beq_eq_false_iff_ne.2 lengths, Bool.false_and]
          exact ⟨rfl, fun h => absurd h Bool.false_ne_true⟩
end Lockstep

/-! ## The search and its cursor -/

namespace Bytes

/-- What the byte search leaves over an element that ends at `after`, given the decoded
search's answer there: the bounds of a copy of the element found, with the cursor right after
it, or nothing, with the cursor at `after`. -/
def Located (buf : List UInt8) (after : Nat) : Option Elem → Option (Nat × Nat) × Nat → Prop
  | none, result => result = (none, after)
  | some d, result => ∃ q rest, buf.drop q = d.encode ++ rest ∧
      result = (some (q, q + d.encode.length), q + d.encode.length)

theorem located_none {buf : List UInt8} {after : Nat} {result : Option (Nat × Nat) × Nat} :
    Located buf after none result ↔ result = (none, after) :=
  Iff.rfl

theorem located_some {buf : List UInt8} {after : Nat} {d : Elem} {result : Option (Nat × Nat) × Nat} :
    Located buf after (some d) result ↔ ∃ q rest, buf.drop q = d.encode ++ rest ∧
      result = (some (q, q + d.encode.length), q + d.encode.length) :=
  Iff.rfl

end Bytes

section Find

variable {esyms psyms : List (List UInt8)} {pattern : Elem} {buf : List UInt8} {stop : Nat}

theorem findPatternRecursive_eq_ite (e : Elem) :
    findPatternRecursive esyms psyms pattern e =
      if elementsMatch esyms psyms e pattern then some e
      else if e.isList then findInChildren esyms psyms pattern e.children else none := by
  cases e <;> rfl

/-- The child loop reports what the decoded loop finds, given that the search from each child
does, and when no child holds a match leaves the cursor after the last child. -/
theorem findInChildrenLoop_encode {find : Nat → Option (Nat × Nat) × Nat} :
    ∀ {cs : List Elem} {q : Nat} {rest : List UInt8},
      (∀ c ∈ cs, ∀ {q' : Nat} {rest' : List UInt8}, buf.drop q' = c.encode ++ rest' →
        q' + c.encode.length ≤ stop →
          Bytes.Located buf (q' + c.encode.length) (findPatternRecursive esyms psyms pattern c)
            (find q')) →
      buf.drop q = (cs.map Elem.encode).flatten ++ rest →
      q + (cs.map Elem.encode).flatten.length ≤ stop →
        Bytes.Located buf (q + (cs.map Elem.encode).flatten.length)
          (findInChildren esyms psyms pattern cs) (Bytes.findInChildrenLoop find cs.length q)
  | [], _, _, _, _, _ => rfl
  | c :: cs, q, rest, each, placed, within => by
    rw [List.map_cons, List.flatten_cons, List.append_assoc] at placed
    rw [List.map_cons, List.flatten_cons, List.length_append] at within ⊢
    have child := each c (List.mem_cons_self _ _) placed (by omega)
    simp only [List.length_cons, findInChildren, Bytes.findInChildrenLoop]
    cases search : findPatternRecursive esyms psyms pattern c with
    | some d =>
      rw [search] at child
      obtain ⟨q', rest', at', result⟩ := Bytes.located_some.1 child
      exact Bytes.located_some.2 ⟨q', rest', at', by rw [result]⟩
    | none =>
      rw [search] at child
      simp only [Bytes.located_none.1 child, ← Nat.add_assoc]
      exact findInChildrenLoop_encode (fun c' mem => each c' (List.mem_cons_of_mem _ mem))
        (drop_add_of_drop placed) (by omega)

/-- `find_pattern_recursive` over an element written where the cursor is, with a match test
that agrees with the decoded `elements_match` wherever an element is written, reports the
bounds of what the decoded search finds, and when nothing matches leaves the cursor right
after the element: past a small list's size varint or a large list's count, hash and SEntry
table, then past each child in turn. -/
theorem findPatternRecursive_encode {matchAt : Nat → Bool}
    (agrees : ∀ {d : Elem} {q : Nat} {rest : List UInt8}, d.Decodable →
      buf.drop q = d.encode ++ rest → q + d.encode.length ≤ stop →
        matchAt q = elementsMatch esyms psyms d pattern) :
    ∀ {fuel : Nat} {e : Elem} {q : Nat} {rest : List UInt8}, e.Decodable →
      e.encode.length ≤ fuel → buf.drop q = e.encode ++ rest → q + e.encode.length ≤ stop →
        Bytes.Located buf (q + e.encode.length) (findPatternRecursive esyms psyms pattern e)
          (Bytes.findPatternRecursive buf stop matchAt fuel q)
  | 0, e, _, _, _, enough, _, _ => absurd enough (Nat.not_le_of_lt e.length_encode_pos)
  | fuel + 1, e, q, rest, decodable, enough, placed, within => by
    have skipped : Bytes.skipInternal buf stop q = q + e.encode.length :=
      skipElementInternal_encode decodable.tagged decodable.small (by omega) placed within
    simp only [Bytes.findPatternRecursive]
    rw [if_neg (by have := e.length_encode_pos; omega), agrees decodable placed within,
      findPatternRecursive_eq_ite]
    by_cases matched : elementsMatch esyms psyms e pattern = true
    · rw [if_pos matched, if_pos matched, skipped]
      exact Bytes.located_some.2 ⟨q, rest, placed, rfl⟩
    rw [if_neg matched, if_neg matched, Elem.getD_eq_headD_encode placed,
      Elem.headD_encode decodable.tagged, Elem.tagByte_and_tagMask]
    by_cases listE : e.isList = true
    · obtain ⟨start, header, children, ends⟩ :=
        readListHeader_encode listE decodable.tagged decodable.small placed within
      rw [if_pos ((Elem.tag_eq_sexpTagList_iff e).2 listE), if_pos listE, header, ← ends]
      exact findInChildrenLoop_encode (fun c mem _ _ at' within' =>
        findPatternRecursive_encode agrees (decodable.child mem)
          (by have := length_encode_lt_of_mem mem; omega) at' within') children (by omega)
    · rw [if_neg (mt (Elem.tag_eq_sexpTagList_iff e).1 listE), if_neg listE, skipped]
      exact Bytes.located_none.2 rfl

end Find

/-! ## The operators on stored values -/

section Operators

theorem Elem.refsBelow_of_subtree {n : Nat} {d e : Elem} (below : e.refsBelow n = true)
    (sub : d.Subtree e) : d.refsBelow n = true := by
  induction sub with
  | refl => exact below
  | child mem _ inner => exact inner (refsBelow_of_mem below mem)

/-- A subtree of a readable value, under the value's symbol table, is readable. -/
theorem Sexp.Readable.subtree {v : Sexp} (readable : v.Readable) {d : Elem} (sub : d.Subtree v.root) :
    (⟨v.symbols, d⟩ : Sexp).Readable := by
  have shorter := (Elem.encode_infix_of_subtree sub).length_le
  have whole := v.length_bytes
  have part : (⟨v.symbols, d⟩ : Sexp).bytes.length = v.header.length + d.encode.length :=
    Sexp.length_bytes _
  exact ⟨Elem.wellTagged_of_subtree readable.tagged sub, Elem.refsBelow_of_subtree readable.refs sub,
    by have := readable.fits; omega⟩

/-- `sexp_match` on the bytes of two readable values is the decoded `sexp_match`. -/
theorem sexpMatch_bytes (expr pattern : Sexp) (readableE : expr.Readable)
    (readableP : pattern.Readable) :
    Bytes.sexpMatch expr.bytes pattern.bytes = .ok (sexpMatch expr pattern) := by
  have endsE := expr.root_ends
  have endsP := pattern.root_ends
  rw [Bytes.sexpMatch, initReadStateInternal_bytes expr readableE.fits,
    initReadStateInternal_bytes pattern readableP.fits]
  exact congrArg Except.ok (elementsMatch_encode expr.resolves_readState pattern.resolves_readState
    readableE.decodable readableP.decodable
    (show _ ≤ expr.bytes.length - expr.header.length + 1 by omega) expr.drop_header
    (show expr.header.length + _ ≤ expr.bytes.length by omega) pattern.drop_header
    (show pattern.header.length + _ ≤ pattern.bytes.length by omega)).1

/-- `sexp_find_first` on the bytes of two readable values returns the bytes of the value the
decoded search returns: the expression's header, then the bytes the search's bounds cut out. -/
theorem sexpFindFirst_bytes {expr pattern : Sexp} (readableE : expr.Readable)
    (readableP : pattern.Readable) :
    Bytes.sexpFindFirst expr.bytes pattern.bytes = .ok ((sexpFindFirst expr pattern).map Sexp.bytes) := by
  have endsE := expr.root_ends
  have endsP := pattern.root_ends
  have stopE : expr.readState.stop = expr.bytes.length := rfl
  have located : Bytes.Located expr.bytes (expr.header.length + expr.root.encode.length)
      (findPatternRecursive expr.symbols pattern.symbols pattern.root expr.root)
      (Bytes.findPatternRecursive expr.bytes expr.bytes.length
        (fun q => (Bytes.elementsMatch expr.bytes expr.readState pattern.bytes pattern.readState
          (expr.bytes.length - q + 1) q pattern.header.length).1)
        (expr.bytes.length - expr.header.length + 1) expr.header.length) :=
    findPatternRecursive_encode (fun decodable at' within' =>
      (elementsMatch_encode expr.resolves_readState pattern.resolves_readState decodable
        readableP.decodable (by omega) at' within' pattern.drop_header
        (show pattern.header.length + _ ≤ pattern.bytes.length by omega)).1)
      readableE.decodable (by omega) expr.drop_header (by omega)
  simp only [Bytes.sexpFindFirst, initReadStateInternal_bytes expr readableE.fits,
    initReadStateInternal_bytes pattern readableP.fits, Sexp.readState_ptr, Sexp.readState_stop,
    bind, Except.bind, sexpFindFirst]
  revert located
  cases findPatternRecursive expr.symbols pattern.symbols pattern.root expr.root with
  | none =>
    intro located
    rw [Bytes.located_none.1 located]
    rfl
  | some d =>
    intro located
    obtain ⟨q, rest, at', result⟩ := Bytes.located_some.1 located
    rw [result]
    show Except.ok (some (Bytes.extractCurrentElement expr.bytes q (q + d.encode.length))) =
      Except.ok (some (⟨expr.symbols, d⟩ : Sexp).bytes)
    rw [Bytes.extractCurrentElement, Bytes.extractElementFast_bytes expr readableE.fits,
      sliceBytes_encode at']
    rfl

/-- `(b (a 17))` searched for `(a _)`: the root and the symbol `b` fail, `(a 17)` matches. -/
theorem sexpMatch_bytes_wildcard :
    let expr : Sexp := ⟨[[98], [97]], .smallList [.symbolRef 0, .smallList [.symbolRef 1, .smallInt 17]]⟩
    let pattern : Sexp := ⟨[[97], [95]], .smallList [.symbolRef 0, .symbolRef 1]⟩
    expr.Readable ∧ pattern.Readable ∧
      Bytes.sexpMatch expr.bytes pattern.bytes = .ok (sexpMatch expr pattern) :=
  ⟨⟨by decide, by decide, by decide⟩, ⟨by decide, by decide, by decide⟩,
    sexpMatch_bytes _ _ ⟨by decide, by decide, by decide⟩ ⟨by decide, by decide, by decide⟩⟩

/-- `sexp_find_first` on the bytes of two readable values returns `NULL` exactly when no
subtree of the expression matches the pattern as a value of its own; otherwise it returns the
expression's header followed by exactly the bytes of the first subtree, in depth-first
pre-order and left to right, that matches: the bytes of the readable value that subtree makes
under the expression's table. -/
theorem sexpFindFirst_first_match (expr pattern : Sexp) (readableE : expr.Readable)
    (readableP : pattern.Readable) :
    ∃ result, Bytes.sexpFindFirst expr.bytes pattern.bytes = .ok result ∧
      (result = none ↔ ∀ d, d.Subtree expr.root → sexpMatch ⟨expr.symbols, d⟩ pattern = false) ∧
      ∀ found, result = some found →
        ∃ before d after, expr.root.preorder = before ++ d :: after ∧
          found = expr.header ++ d.encode ∧ found = (⟨expr.symbols, d⟩ : Sexp).bytes ∧
          (⟨expr.symbols, d⟩ : Sexp).Readable ∧
          sexpMatch ⟨expr.symbols, d⟩ pattern = true ∧
          ∀ d' ∈ before, sexpMatch ⟨expr.symbols, d'⟩ pattern = false := by
  obtain ⟨nothing, first⟩ := sexpFindFirst_first_in_preorder expr pattern
  refine ⟨_, sexpFindFirst_bytes readableE readableP, by rw [Option.map_eq_none']; exact nothing,
    fun found returned => ?_⟩
  obtain ⟨v, some, rfl⟩ := Option.map_eq_some'.1 returned
  obtain ⟨before, d, after, split, rfl, matched, earlier⟩ := first v some
  have mem : d ∈ expr.root.preorder := by
    rw [split]
    exact List.mem_append_right _ (List.mem_cons_self _ _)
  exact ⟨before, d, after, split, rfl, rfl, readableE.subtree (Elem.subtree_of_mem_preorder mem),
    matched, earlier⟩

/-- `(b (a 17))` searched for `(a _)`. -/
theorem sexpFindFirst_first_match_nested :
    let expr : Sexp := ⟨[[98], [97]], .smallList [.symbolRef 0, .smallList [.symbolRef 1, .smallInt 17]]⟩
    let pattern : Sexp := ⟨[[97], [95]], .smallList [.symbolRef 0, .symbolRef 1]⟩
    expr.Readable ∧ pattern.Readable ∧
      ∃ result, Bytes.sexpFindFirst expr.bytes pattern.bytes = .ok result ∧
        (result = none ↔ ∀ d, d.Subtree expr.root → sexpMatch ⟨expr.symbols, d⟩ pattern = false) ∧
        ∀ found, result = some found →
          ∃ before d after, expr.root.preorder = before ++ d :: after ∧
            found = expr.header ++ d.encode ∧ found = (⟨expr.symbols, d⟩ : Sexp).bytes ∧
            (⟨expr.symbols, d⟩ : Sexp).Readable ∧
            sexpMatch ⟨expr.symbols, d⟩ pattern = true ∧
            ∀ d' ∈ before, sexpMatch ⟨expr.symbols, d'⟩ pattern = false :=
  ⟨⟨by decide, by decide, by decide⟩, ⟨by decide, by decide, by decide⟩,
    sexpFindFirst_first_match _ _ ⟨by decide, by decide, by decide⟩ ⟨by decide, by decide, by decide⟩⟩

end Operators

end PgSexp
