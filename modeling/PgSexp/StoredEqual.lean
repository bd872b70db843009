import PgSexp.Access
import PgSexp.Equal
import PgSexp.PgHash

/-!
# Equality on the stored bytes

`sexp_equal` (`pg_sexp.c`) compares two values' bytes first and, when they differ, reads both
with `sexp_init_read_state` and walks them in lockstep with `elements_equal_recursive`, which
advances both read states past what it compared.  The bytes `sexp_parse` writes decode in one
way only, so equal bytes are equal values; and on readable values the walk computes the
equality `PgSexp.Equal` defines on the decoded elements, whatever the formats of their lists.
-/

namespace PgSexp

namespace Bytes

variable (H : HashFns)

/-- The symbol comparison of `elements_equal_recursive`: both indices below their `sym_count`
after the `(int)` cast, then the cached `hash_bytes` of the two texts (`init_read_state_internal`
fills `sym_hashes` whenever a table has symbols), their `sym_lengths`, and `memcmp` of
`sym_lengths[idx_a]` bytes.  An index past `INT_MAX` that the cast brings below `sym_count`
reads past the table; the model answers `false` there. -/
def symbolRefsEqual (dataA : List UInt8) (stateA : ReadState) (dataB : List UInt8)
    (stateB : ReadState) (idxA idxB : UInt64) : Bool :=
  if stateA.symCount ≤ int32OfUInt64 idxA ∨ stateB.symCount ≤ int32OfUInt64 idxB then false
  else
    match stateA.symbols[idxA.toNat]?, stateB.symbols[idxB.toNat]? with
    | some spanA, some spanB =>
      let symbolA := (dataA.drop spanA.1).take spanA.2.toNat
      let symbolB := (dataB.drop spanB.1).take spanB.2.toNat
      H.hashBytes symbolA == H.hashBytes symbolB && spanA.2 == spanB.2 &&
        symbolA == (dataB.drop spanB.1).take spanA.2.toNat
    | _, _ => false

/-- How `elements_equal_recursive` and `output_element` read a list after its tag byte `byte`,
from `p` on: the count of the tag byte, or of the `uint32` of a large list, and where the
children start, past the `payload_size` of a small list or past the count, the hash and the
SEntry table of a large one. -/
def readListHeader (buf : List UInt8) (stop : Nat) (byte : UInt8) (p : Nat) : Nat × Nat :=
  let count := (byte &&& sexpDataMask).toNat
  if count = 0 then
    let count := (loadUint32 buf p).toNat
    (count, p + 4 + 4 + count * 4)
  else (count, (decodeVarint buf stop p).2)

/-- The child loop of `elements_equal_recursive` once the counts agree: the children compared
pair by pair, both read states moving on; after the first pair that differ, both sides skip
the children left. -/
def childrenEqualLoop (compare : Nat → Nat → Bool × Nat × Nat) (skipA skipB : Nat → Nat) :
    Nat → Nat → Nat → Bool × Nat × Nat
  | 0, pa, pb => (true, pa, pb)
  | count + 1, pa, pb =>
    let compared := compare pa pb
    if compared.1 then childrenEqualLoop compare skipA skipB count compared.2.1 compared.2.2
    else (false, skipTimes skipA count compared.2.1, skipTimes skipB count compared.2.2)

/-- `elements_equal_recursive` on the elements at `pa` of `dataA` and `pb` of `dataB`: whether
they are equal, and where it leaves the two read states.  Each nested call starts past the
tag byte of the call above it, so the fuel `sexp_equal` gives runs out only past the end of
the first value's data. -/
def elementsEqualRecursive (dataA : List UInt8) (stateA : ReadState) (dataB : List UInt8)
    (stateB : ReadState) : Nat → Nat → Nat → Bool × Nat × Nat
  | 0, pa, pb => (false, pa, pb)
  | fuel + 1, pa, pb =>
    if stateA.stop ≤ pa ∨ stateB.stop ≤ pb then
      (decide (stateA.stop ≤ pa) && decide (stateB.stop ≤ pb), pa, pb)
    else
      let byteA := dataA.getD pa 0
      let byteB := dataB.getD pb 0
      let tag := byteA &&& sexpTagMask
      if tag ≠ byteB &&& sexpTagMask then (false, pa + 1, pb + 1)
      else if tag = sexpTagNil then (true, pa + 1, pb + 1)
      else if tag = sexpTagSmallint then (byteA == byteB, pa + 1, pb + 1)
      else if tag = sexpTagInteger then
        let valA := decodeVarint dataA stateA.stop (pa + 1)
        let valB := decodeVarint dataB stateB.stop (pb + 1)
        (valA.1 == valB.1, valA.2, valB.2)
      else if tag = sexpTagFloat then
        (float8Eq (loadFloat8 dataA (pa + 1)) (loadFloat8 dataB (pb + 1)), pa + 1 + 8, pb + 1 + 8)
      else if tag = sexpTagSymbolRef then
        let idxA := decodeVarint dataA stateA.stop (pa + 1)
        let idxB := decodeVarint dataB stateB.stop (pb + 1)
        (symbolRefsEqual H dataA stateA dataB stateB idxA.1 idxB.1, idxA.2, idxB.2)
      else if tag = sexpTagShortString then
        let lenA := (byteA &&& sexpDataMask).toNat
        let lenB := (byteB &&& sexpDataMask).toNat
        (lenA == lenB && (dataA.drop (pa + 1)).take lenA == (dataB.drop (pb + 1)).take lenA,
          pa + 1 + lenA, pb + 1 + lenB)
      else if tag = sexpTagLongString then
        let lenA := decodeVarint dataA stateA.stop (pa + 1)
        let lenB := decodeVarint dataB stateB.stop (pb + 1)
        (lenA.1 == lenB.1 &&
            (dataA.drop lenA.2).take lenA.1.toNat == (dataB.drop lenB.2).take lenA.1.toNat,
          lenA.2 + lenA.1.toNat, lenB.2 + lenB.1.toNat)
      else if tag = sexpTagList then
        let listA := readListHeader dataA stateA.stop byteA (pa + 1)
        let listB := readListHeader dataB stateB.stop byteB (pb + 1)
        let skipA := fun q => sexpSkipElement dataA q stateA.stop
        let skipB := fun q => sexpSkipElement dataB q stateB.stop
        if listA.1 ≠ listB.1 then
          (false, skipTimes skipA listA.1 listA.2, skipTimes skipB listB.1 listB.2)
        else
          childrenEqualLoop (elementsEqualRecursive dataA stateA dataB stateB fuel) skipA skipB
            listA.1 listA.2 listB.2
      else (false, pa + 1, pb + 1)

/-- `sexp_equal`: equal sizes and equal bytes, or else `elements_equal_recursive` from the two
roots. -/
def sexpEqual (dataA dataB : List UInt8) : Except SqlError Bool :=
  if dataA.length = dataB.length ∧ dataA = dataB then pure true
  else do
    let stateA ← initReadStateInternal dataA
    let stateB ← initReadStateInternal dataB
    pure (elementsEqualRecursive H dataA stateA dataB stateB (stateA.stop - stateA.ptr + 1)
      stateA.ptr stateB.ptr).1

/-- `sexp_equal_packed` reads the same bytes through `VARDATA_ANY`. -/
def sexpEqualPacked (dataA dataB : List UInt8) : Except SqlError Bool := sexpEqual H dataA dataB

/-- `sexp_eq`, the `=` operator. -/
def sexpEq (dataA dataB : List UInt8) : Except SqlError Bool := sexpEqualPacked H dataA dataB

/-- `sexp_ne`, the `<>` operator. -/
def sexpNe (dataA dataB : List UInt8) : Except SqlError Bool :=
  (sexpEqualPacked H dataA dataB).map (!·)

end Bytes

/-! ## Unique decoding -/

/-- What decoding an element back from its bytes needs: tag bytes that say what follows them,
and symbol indices and lengths that fit their varints. -/
structure Elem.Decodable (e : Elem) : Prop where
  tagged : e.wellTagged = true
  refs : e.refsBelow (2 ^ 31) = true
  small : e.encode.length < 2 ^ 64

theorem Elem.Decodable.child {c e : Elem} (decodable : e.Decodable) (mem : c ∈ e.children) :
    c.Decodable :=
  ⟨wellTagged_of_mem decodable.tagged mem, refsBelow_of_mem decodable.refs mem,
    Nat.lt_trans (length_encode_lt_of_mem mem) decodable.small⟩

section Decoding

variable {r s : List UInt8}

theorem encodeVarint_append_inj {u v : UInt64} (same : encodeVarint u ++ r = encodeVarint v ++ s) :
    u = v ∧ r = s := by
  have first := @decodeVarint_encodeVarint (encodeVarint u ++ r) r (encodeVarint u ++ r).length 0
    u rfl (by rw [List.length_append]; omega)
  have second := @decodeVarint_encodeVarint (encodeVarint u ++ r) s (encodeVarint u ++ r).length 0
    v same (by rw [same, List.length_append]; omega)
  obtain rfl : u = v := congrArg Prod.fst (first.symm.trans second)
  exact ⟨rfl, List.append_cancel_left same⟩

theorem leBytes_append_inj {m n width : Nat} (fitsM : m < 256 ^ width) (fitsN : n < 256 ^ width)
    (same : leBytes m width ++ r = leBytes n width ++ s) : m = n ∧ r = s := by
  have values := congrArg (leValue · width) same
  simp only [leValue_leBytes, Nat.mod_eq_of_lt fitsM, Nat.mod_eq_of_lt fitsN] at values
  subst values
  exact ⟨rfl, List.append_cancel_left same⟩

/-- Two elements that start the same bytes start with the same tag byte. -/
theorem Elem.tagByte_eq_of_encode_append {a b : Elem} (taggedA : a.wellTagged = true)
    (taggedB : b.wellTagged = true) (same : a.encode ++ r = b.encode ++ s) :
    a.tagByte = b.tagByte := by
  have first : (a.encode ++ r).getD 0 0 = a.encode.headD 0 := Elem.getD_eq_headD_encode rfl
  have second : (a.encode ++ r).getD 0 0 = b.encode.headD 0 := Elem.getD_eq_headD_encode same
  rw [← Elem.headD_encode taggedA, ← Elem.headD_encode taggedB, ← first, second]

theorem Elem.payload_eq_of_tagByte_eq {a b : Elem} (same : a.tagByte = b.tagByte) :
    a.payload = b.payload :=
  Fin.ext (by rw [← toNat_ofNat_payload a.payload, ← toNat_ofNat_payload b.payload,
    ← Elem.tagByte_and_dataMask, ← Elem.tagByte_and_dataMask, same])

mutual
/-- The bytes `sexp_parse` writes are prefix free: an element is read back, with what follows
it, from any bytes it starts. -/
theorem Elem.encode_append_inj : ∀ {a b : Elem} {r s : List UInt8}, a.Decodable → b.Decodable →
    a.encode ++ r = b.encode ++ s → a = b ∧ r = s
  | a, b, r, s, decodableA, decodableB, same => by
    have heads := Elem.tagByte_eq_of_encode_append decodableA.tagged decodableB.tagged same
    have tags := Elem.tag_eq_of_tagByte_eq heads
    have payloads := congrArg Fin.val (Elem.payload_eq_of_tagByte_eq heads)
    have taggedA := decodableA.tagged
    have taggedB := decodableB.tagged
    have smallA := decodableA.small
    have smallB := decodableB.small
    cases a <;> cases b <;> first
      | exact absurd tags (by simp only [Elem.tag]; decide)
      | skip
    case nil.nil => exact ⟨rfl, List.append_cancel_left same⟩
    case smallInt.smallInt p q =>
      obtain rfl : p = q := Fin.ext payloads
      exact ⟨rfl, List.append_cancel_left same⟩
    case integer.integer u v =>
      obtain ⟨rfl, rfl⟩ := encodeVarint_append_inj (List.cons.inj same).2
      exact ⟨rfl, rfl⟩
    case float.float x y =>
      obtain ⟨bits, rfl⟩ := leBytes_append_inj x.toNat_lt_size y.toNat_lt_size (List.cons.inj same).2
      exact ⟨congrArg Elem.float (UInt64.toNat.inj bits), rfl⟩
    case symbolRef.symbolRef i j =>
      have belowI : i < 2 ^ 31 := of_decide_eq_true decodableA.refs
      have belowJ : j < 2 ^ 31 := of_decide_eq_true decodableB.refs
      obtain ⟨indices, rfl⟩ := encodeVarint_append_inj (List.cons.inj same).2
      have := congrArg UInt64.toNat indices
      rw [UInt64.toNat_ofNat_of_lt (by unfold UInt64.size; omega),
        UInt64.toNat_ofNat_of_lt (by unfold UInt64.size; omega)] at this
      exact ⟨congrArg Elem.symbolRef this, rfl⟩
    case shortString.shortString t u =>
      have shortT : t.length ≤ 31 := of_decide_eq_true taggedA
      have shortU : u.length ≤ 31 := of_decide_eq_true taggedB
      obtain ⟨rfl, rfl⟩ := List.append_inj (List.cons.inj same).2 (by simp only [Elem.payload] at payloads; omega)
      exact ⟨rfl, rfl⟩
    case longString.longString t u =>
      simp only [Elem.encode, List.length_cons, List.length_append] at smallA smallB
      rw [Elem.encode, Elem.encode, List.cons_append, List.cons_append, List.append_assoc,
        List.append_assoc] at same
      obtain ⟨lengths, body⟩ := encodeVarint_append_inj (List.cons.inj same).2
      have := congrArg UInt64.toNat lengths
      rw [UInt64.toNat_ofNat_of_lt (by unfold UInt64.size; omega),
        UInt64.toNat_ofNat_of_lt (by unfold UInt64.size; omega)] at this
      obtain ⟨rfl, rfl⟩ := List.append_inj body this
      exact ⟨rfl, rfl⟩
    case smallList.smallList cs ds =>
      rw [Elem.encode_smallList, Elem.encode_smallList, List.cons_append, List.cons_append,
        List.append_assoc, List.append_assoc] at same
      obtain ⟨-, children⟩ := encodeVarint_append_inj (List.cons.inj same).2
      have shortCs := (of_decide_eq_true (Bool.and_eq_true_iff.1 taggedA).1).2
      have shortDs := (of_decide_eq_true (Bool.and_eq_true_iff.1 taggedB).1).2
      obtain ⟨rfl, rfl⟩ := Elem.flatten_append_inj
        (show cs.length = ds.length by simp only [Elem.payload] at payloads; omega)
        (fun c mem => decodableA.child mem) (fun d mem => decodableB.child mem) children
      exact ⟨rfl, rfl⟩
    case smallList.largeList cs h ds =>
      have count := (of_decide_eq_true (Bool.and_eq_true_iff.1 taggedA).1)
      simp only [Elem.payload] at payloads
      omega
    case largeList.smallList h cs ds =>
      have count := (of_decide_eq_true (Bool.and_eq_true_iff.1 taggedB).1)
      simp only [Elem.payload] at payloads
      omega
    case largeList.largeList h cs g ds =>
      have countCs : cs.length < 2 ^ 32 := of_decide_eq_true (Bool.and_eq_true_iff.1 taggedA).1
      have countDs : ds.length < 2 ^ 32 := of_decide_eq_true (Bool.and_eq_true_iff.1 taggedB).1
      rw [Elem.encode_largeList, Elem.encode_largeList, List.cons_append, List.cons_append] at same
      simp only [List.append_assoc] at same
      obtain ⟨counts, afterCount⟩ := leBytes_append_inj countCs countDs (List.cons.inj same).2
      obtain ⟨hashes, afterHash⟩ := leBytes_append_inj h.toNat_lt_size g.toNat_lt_size afterCount
      obtain ⟨-, children⟩ := List.append_inj afterHash (by
        rw [length_flatMap_leBytes, length_flatMap_leBytes, length_encodeChildren_fst,
          length_encodeChildren_fst, counts])
      obtain ⟨rfl, rfl⟩ := Elem.flatten_append_inj counts
        (fun c mem => decodableA.child mem) (fun d mem => decodableB.child mem) children
      exact ⟨congrArg (Elem.largeList · cs) (UInt32.toNat.inj hashes), rfl⟩
/-- `encode_append_inj` of the children of two lists with as many children. -/
theorem Elem.flatten_append_inj : ∀ {cs ds : List Elem} {r s : List UInt8}, cs.length = ds.length →
    (∀ c ∈ cs, c.Decodable) → (∀ d ∈ ds, d.Decodable) →
    (cs.map Elem.encode).flatten ++ r = (ds.map Elem.encode).flatten ++ s → cs = ds ∧ r = s
  | [], [], _, _, _, _, _, same => ⟨rfl, same⟩
  | c :: cs, d :: ds, _, _, lengths, decodableCs, decodableDs, same => by
    simp only [List.map_cons, List.flatten_cons, List.append_assoc] at same
    obtain ⟨rfl, later⟩ := Elem.encode_append_inj (decodableCs c (List.mem_cons_self _ _))
      (decodableDs d (List.mem_cons_self _ _)) same
    obtain ⟨rfl, rfl⟩ := Elem.flatten_append_inj (Nat.succ.inj lengths)
      (fun c mem => decodableCs c (List.mem_cons_of_mem _ mem))
      (fun d mem => decodableDs d (List.mem_cons_of_mem _ mem)) later
    exact ⟨rfl, rfl⟩
end

theorem Sexp.Readable.decodable {v : Sexp} (readable : v.Readable) : v.root.Decodable :=
  ⟨readable.tagged, readable.refs, by have := v.root_ends; have := readable.fits; omega⟩

/-- Two readable values with the same bytes are the same value: the read state gives back the
symbol table, and the root is decoded uniquely after it. -/
theorem Sexp.eq_of_bytes_eq {a b : Sexp} (readableA : a.Readable) (readableB : b.Readable)
    (same : a.bytes = b.bytes) : a = b := by
  have states : a.readState = b.readState := by
    have readA := initReadStateInternal_bytes a readableA.fits
    rw [same, initReadStateInternal_bytes b readableB.fits] at readA
    exact (Except.ok.inj readA).symm
  have symbols : a.symbols = b.symbols := List.ext_getElem? fun i => by
    rw [← Bytes.symbolText_readState, ← Bytes.symbolText_readState, same, states]
  have headers : a.header = b.header := by rw [Sexp.header, Sexp.header, symbols]
  rw [Sexp.bytes_eq_header_append, Sexp.bytes_eq_header_append, headers] at same
  have roots := (@Elem.encode_append_inj _ _ [] [] readableA.decodable readableB.decodable
    (by rw [List.append_nil, List.append_nil]; exact List.append_cancel_left same)).1
  cases a
  cases b
  exact congrArg₂ Sexp.mk symbols roots

end Decoding

/-! ## Comparing symbols -/

section Symbols

variable {data : List UInt8} {state : ReadState} {syms : List (List UInt8)} {i : Nat}

/-- The span a resolving read state records for a symbol of its table. -/
theorem Bytes.Resolves.span (resolves : Bytes.Resolves data state syms) {s : List UInt8}
    (found : syms[i]? = some s) :
    ∃ span, state.symbols[i]? = some span ∧ (data.drop span.1).take span.2.toNat = s ∧
      span.2 = s.length := by
  have lengths := congrArg (·[i]?) resolves.lengths
  simp only [List.getElem?_map, found, Option.map_some'] at lengths
  obtain ⟨span, spanAt, spanLength⟩ := Option.map_eq_some'.1 lengths
  have text := resolves.text i
  rw [Bytes.symbolText, spanAt, found, Option.map_some'] at text
  exact ⟨span, spanAt, Option.some.inj text, spanLength⟩

theorem Bytes.Resolves.span_none (resolves : Bytes.Resolves data state syms)
    (missing : syms[i]? = none) : state.symbols[i]? = none := by
  have lengths := congrArg (·[i]?) resolves.lengths
  simp only [List.getElem?_map, missing, Option.map_none'] at lengths
  exact Option.map_eq_none'.1 lengths

variable (H : HashFns) {dataA dataB : List UInt8} {stateA stateB : ReadState}
  {symsA symsB : List (List UInt8)}

/-- On read states that resolve their tables, the symbol comparison of the readers compares
the texts, as the decoded `symbolRefsEqual` does. -/
theorem symbolRefsEqual_ofNat (resolvesA : Bytes.Resolves dataA stateA symsA)
    (resolvesB : Bytes.Resolves dataB stateB symsB) {i j : Nat} (belowI : i < 2 ^ 31)
    (belowJ : j < 2 ^ 31) :
    Bytes.symbolRefsEqual H dataA stateA dataB stateB (UInt64.ofNat i) (UInt64.ofNat j) =
      symbolRefsEqual H symsA symsB i j := by
  rw [Bytes.symbolRefsEqual, int32OfUInt64_ofNat belowI, int32OfUInt64_ofNat belowJ,
    resolvesA.count, resolvesB.count, UInt64.toNat_ofNat_of_lt (by unfold UInt64.size; omega),
    UInt64.toNat_ofNat_of_lt (by unfold UInt64.size; omega), symbolRefsEqual]
  by_cases inTables : i < symsA.length ∧ j < symsB.length
  · obtain ⟨spanA, atA, textA, lengthA⟩ := resolvesA.span (List.getElem?_eq_getElem inTables.1)
    obtain ⟨spanB, atB, textB, lengthB⟩ := resolvesB.span (List.getElem?_eq_getElem inTables.2)
    rw [if_neg (by omega), atA, atB, List.getElem?_eq_getElem inTables.1,
      List.getElem?_eq_getElem inTables.2]
    dsimp only
    have takeB := textB
    rw [lengthB, Int.toNat_ofNat] at takeB
    rw [textA, textB, lengthA, lengthB, Int.toNat_ofNat]
    by_cases lengths : symsA[i].length = symsB[j].length
    · simp only [lengths, takeB, beq_self_eq_true]
    · have castLengths : ((symsA[i].length : Int) == symsB[j].length) = false :=
        beq_eq_false_iff_ne.2 (by omega)
      simp only [castLengths, beq_eq_false_iff_ne.2 lengths, Bool.and_false, Bool.false_and]
  · rw [if_pos (by omega)]
    rcases not_and_or.1 inTables with outA | outB
    · rw [List.getElem?_eq_none (by omega)]
    · rw [List.getElem?_eq_none (Nat.le_of_not_lt outB)]
      cases symsA[i]? <;> rfl

end Symbols

/-! ## Walking two elements in lockstep -/

/-- What a call of `elements_equal_recursive` answered, and, when it answered `true`, that it
left both read states right after the two elements compared. -/
def Bytes.Compared (result : Bool × Nat × Nat) (equal : Bool) (endA endB : Nat) : Prop :=
  result.1 = equal ∧ (equal = true → result.2 = (endA, endB))

section Lockstep

variable {data rest : List UInt8} {stop p : Nat}

/-- The list header `elements_equal_recursive` and `output_element` read, in either format: the
count, and where the children start. -/
theorem readListHeader_encode {e : Elem} (list : e.isList = true) (tagged : e.wellTagged = true)
    (small : e.encode.length < 2 ^ 64) (placed : data.drop p = e.encode ++ rest)
    (within : p + e.encode.length ≤ stop) :
    ∃ d, Bytes.readListHeader data stop e.tagByte (p + 1) = (e.children.length, d) ∧
      data.drop d = (e.children.map Elem.encode).flatten ++ rest ∧
      d + ((e.children.map Elem.encode).flatten).length = p + e.encode.length := by
  rw [← Elem.headD_encode tagged, ← Elem.getD_eq_headD_encode placed]
  cases e with
  | smallList cs =>
    obtain ⟨-, -, count, varint, -, children, total⟩ := smallList_header tagged small placed within
    have nonzero : cs.length ≠ 0 :=
      Nat.pos_iff_ne_zero.1 (of_decide_eq_true (Bool.and_eq_true_iff.1 tagged).1).1
    exact ⟨_, by simp only [Bytes.readListHeader, count, varint, nonzero, ↓reduceIte,
      Elem.children], children, total⟩
  | largeList hash cs =>
    obtain ⟨-, payload, count, children, total⟩ := largeList_header tagged placed
    exact ⟨_, by simp only [Bytes.readListHeader, payload, count, UInt8.toNat_zero, ↓reduceIte,
      Elem.children], children, total⟩
  | _ => exact absurd list Bool.false_ne_true

variable (H : HashFns) {dataA dataB : List UInt8} {stateA stateB : ReadState}
  {symsA symsB : List (List UInt8)}

theorem elementsEqualRecursive_lists {a b : Elem} (listA : a.isList = true)
    (listB : b.isList = true) :
    elementsEqualRecursive H symsA symsB a b =
      (a.children.length == b.children.length && childrenEqual H symsA symsB a.children b.children) := by
  cases a <;> cases b <;> first
    | rfl
    | exact absurd listA Bool.false_ne_true
    | exact absurd listB Bool.false_ne_true

theorem elementsEqualRecursive_strings {t u : List UInt8} :
    elementsEqualRecursive H symsA symsB (.shortString t) (.shortString u) =
        (t.length == u.length && t == u) ∧
      elementsEqualRecursive H symsA symsB (.longString t) (.longString u) =
        (t.length == u.length && t == u) :=
  ⟨rfl, rfl⟩

theorem childrenEqual_cons {c d : Elem} {cs ds : List Elem} :
    childrenEqual H symsA symsB (c :: cs) (d :: ds) =
      (elementsEqualRecursive H symsA symsB c d && childrenEqual H symsA symsB cs ds) :=
  rfl

/-- The child loop compares two lists of children as the decoded `childrenEqual` does, given
that the recursive call compares any two children written where the read states are. -/
theorem childrenEqualLoop_encode {compare : Nat → Nat → Bool × Nat × Nat} {skipA skipB : Nat → Nat} :
    ∀ {cs ds : List Elem} {pa pb : Nat} {restA restB : List UInt8}, cs.length = ds.length →
      dataA.drop pa = (cs.map Elem.encode).flatten ++ restA →
      pa + ((cs.map Elem.encode).flatten).length ≤ stateA.stop →
      dataB.drop pb = (ds.map Elem.encode).flatten ++ restB →
      pb + ((ds.map Elem.encode).flatten).length ≤ stateB.stop →
      (∀ c ∈ cs, ∀ d ∈ ds, ∀ qa qb restA' restB', dataA.drop qa = c.encode ++ restA' →
        qa + c.encode.length ≤ stateA.stop → dataB.drop qb = d.encode ++ restB' →
        qb + d.encode.length ≤ stateB.stop →
          Bytes.Compared (compare qa qb) (elementsEqualRecursive H symsA symsB c d)
            (qa + c.encode.length) (qb + d.encode.length)) →
        Bytes.Compared (Bytes.childrenEqualLoop compare skipA skipB cs.length pa pb)
          (childrenEqual H symsA symsB cs ds) (pa + ((cs.map Elem.encode).flatten).length)
          (pb + ((ds.map Elem.encode).flatten).length)
  | [], [], _, _, _, _, _, _, _, _, _, _ => ⟨rfl, fun _ => rfl⟩
  | c :: cs, d :: ds, pa, pb, _, _, lengths, placedA, withinA, placedB, withinB, each => by
    simp only [List.map_cons, List.flatten_cons, List.append_assoc] at placedA placedB
    simp only [List.map_cons, List.flatten_cons, List.length_append] at withinA withinB ⊢
    obtain ⟨first, ends⟩ := each c (List.mem_cons_self _ _) d (List.mem_cons_self _ _) pa pb _ _
      placedA (by omega) placedB (by omega)
    rw [List.length_cons, Bytes.childrenEqualLoop, childrenEqual_cons]
    by_cases equal : elementsEqualRecursive H symsA symsB c d = true
    · rw [if_pos (first.trans equal), ends equal, equal, Bool.true_and, ← Nat.add_assoc,
        ← Nat.add_assoc]
      exact childrenEqualLoop_encode (Nat.succ.inj lengths) (drop_add_of_drop placedA)
        (by omega) (drop_add_of_drop placedB) (by omega) fun c' memC d' memD =>
          each c' (List.mem_cons_of_mem _ memC) d' (List.mem_cons_of_mem _ memD)
    · rw [if_neg (by rw [first]; exact equal), Bool.eq_false_iff.2 equal, Bool.false_and]
      exact ⟨rfl, fun h => absurd h Bool.false_ne_true⟩
  | [], _ :: _, _, _, _, _, lengths, _, _, _, _, _ => absurd lengths (Nat.succ_ne_zero _).symm
  | _ :: _, [], _, _, _, _, lengths, _, _, _, _, _ => absurd lengths (Nat.succ_ne_zero _)

/-- `elements_equal_recursive`, with fuel for the first element's bytes and two read states
that resolve their tables, compares two elements written where the read states are as the
decoded `elements_equal_recursive` compares them, and when they are equal leaves both read
states right after them. -/
theorem elementsEqualRecursive_encode (resolvesA : Bytes.Resolves dataA stateA symsA)
    (resolvesB : Bytes.Resolves dataB stateB symsB) :
    ∀ {fuel : Nat} {a b : Elem} {pa pb : Nat} {restA restB : List UInt8},
      a.Decodable → b.Decodable → a.encode.length ≤ fuel →
      dataA.drop pa = a.encode ++ restA → pa + a.encode.length ≤ stateA.stop →
      dataB.drop pb = b.encode ++ restB → pb + b.encode.length ≤ stateB.stop →
        Bytes.Compared (Bytes.elementsEqualRecursive H dataA stateA dataB stateB fuel pa pb)
          (elementsEqualRecursive H symsA symsB a b) (pa + a.encode.length) (pb + b.encode.length)
  | 0, a, _, _, _, _, _, _, _, enough, _, _, _, _ =>
    absurd enough (Nat.not_le_of_lt a.length_encode_pos)
  | fuel + 1, a, b, pa, pb, restA, restB, decodableA, decodableB, enough, placedA, withinA,
      placedB, withinB => by
    have positiveA := a.length_encode_pos
    have positiveB := b.length_encode_pos
    rw [Bytes.elementsEqualRecursive, if_neg (by omega), Elem.getD_eq_headD_encode placedA,
      Elem.getD_eq_headD_encode placedB, Elem.headD_encode decodableA.tagged,
      Elem.headD_encode decodableB.tagged]
    dsimp only
    rw [Elem.tagByte_and_tagMask, Elem.tagByte_and_tagMask]
    by_cases sameTag : a.tag = b.tag
    swap
    · have differ : elementsEqualRecursive H symsA symsB a b = false :=
        Bool.eq_false_iff.2 fun equal => sameTag (tag_eq_of_elementsEqualRecursive H equal)
      rw [if_pos sameTag, differ]
      exact ⟨rfl, fun h => absurd h Bool.false_ne_true⟩
    rw [if_neg (not_not.2 sameTag)]
    by_cases listA : a.isList = true
    · have listB : b.isList = true :=
        (Elem.tag_eq_sexpTagList_iff b).1 (sameTag ▸ (Elem.tag_eq_sexpTagList_iff a).2 listA)
      obtain ⟨startA, headerA, childrenA, endA⟩ :=
        readListHeader_encode listA decodableA.tagged decodableA.small placedA withinA
      obtain ⟨startB, headerB, childrenB, endB⟩ :=
        readListHeader_encode listB decodableB.tagged decodableB.small placedB withinB
      rw [(Elem.tag_eq_sexpTagList_iff a).2 listA, elementsEqualRecursive_lists H listA listB,
        headerA, headerB]
      simp +decide only [↓reduceIte]
      by_cases counts : a.children.length = b.children.length
      · rw [if_neg (not_not.2 counts), beq_iff_eq.2 counts, Bool.true_and, ← endA, ← endB]
        exact childrenEqualLoop_encode H counts childrenA (by omega) childrenB (by omega)
          fun c memA d memB qa qb _ _ atA inA atB inB =>
            elementsEqualRecursive_encode resolvesA resolvesB (decodableA.child memA)
              (decodableB.child memB)
              (show c.encode.length ≤ fuel by have := length_encode_lt_of_mem memA; omega)
              atA inA atB inB
      · rw [if_pos counts, beq_eq_false_iff_ne.2 counts, Bool.false_and]
        exact ⟨rfl, fun h => absurd h Bool.false_ne_true⟩
    · rw [Elem.tagByte_and_dataMask, Elem.tagByte_and_dataMask, toNat_ofNat_payload,
        toNat_ofNat_payload]
      cases a <;> cases b <;> first
        | exact absurd sameTag (by simp only [Elem.tag]; decide)
        | exact absurd rfl listA
        | simp +decide only [Elem.tag, ↓reduceIte]
      · exact ⟨rfl, fun _ => rfl⟩
      · rename_i p q
        refine ⟨?_, fun _ => rfl⟩
        by_cases same : p = q
        · subst same
          exact (beq_self_eq_true _).trans (beq_self_eq_true p).symm
        · rw [beq_eq_false_iff_ne.2 fun (bytes : (Elem.smallInt p).tagByte = (Elem.smallInt q).tagByte) =>
            same (Elem.payload_eq_of_tagByte_eq bytes)]
          exact (beq_eq_false_iff_ne.2 same).symm
      · rename_i u v
        have bodyA : dataA.drop (pa + 1) = encodeVarint u ++ restA := drop_succ_of_drop placedA
        have bodyB : dataB.drop (pb + 1) = encodeVarint v ++ restB := drop_succ_of_drop placedB
        simp only [Elem.encode, List.length_cons] at withinA withinB ⊢
        rw [decodeVarint_encodeVarint u bodyA (by omega), decodeVarint_encodeVarint v bodyB (by omega)]
        exact ⟨rfl, fun _ => by simp only [Prod.mk.injEq]; omega⟩
      · rename_i x y
        rw [loadFloat8_leBytes x (drop_succ_of_drop placedA),
          loadFloat8_leBytes y (drop_succ_of_drop placedB)]
        exact ⟨rfl, fun _ => by simp only [Elem.encode, List.length_cons, length_leBytes, Prod.mk.injEq]⟩
      · rename_i i j
        have bodyA : dataA.drop (pa + 1) = encodeVarint (UInt64.ofNat i) ++ restA :=
          drop_succ_of_drop placedA
        have bodyB : dataB.drop (pb + 1) = encodeVarint (UInt64.ofNat j) ++ restB :=
          drop_succ_of_drop placedB
        simp only [Elem.encode, List.length_cons] at withinA withinB ⊢
        rw [decodeVarint_encodeVarint _ bodyA (by omega), decodeVarint_encodeVarint _ bodyB (by omega),
          symbolRefsEqual_ofNat H resolvesA resolvesB (of_decide_eq_true decodableA.refs)
            (of_decide_eq_true decodableB.refs)]
        exact ⟨rfl, fun _ => by simp only [Prod.mk.injEq]; omega⟩
      · rename_i t u
        have shortT : t.length % 32 = t.length :=
          Nat.mod_eq_of_lt (Nat.lt_succ_of_le (of_decide_eq_true decodableA.tagged))
        have shortU : u.length % 32 = u.length :=
          Nat.mod_eq_of_lt (Nat.lt_succ_of_le (of_decide_eq_true decodableB.tagged))
        have bodyA : dataA.drop (pa + 1) = t ++ restA := drop_succ_of_drop placedA
        have bodyB : dataB.drop (pb + 1) = u ++ restB := drop_succ_of_drop placedB
        simp only [Elem.payload, shortT, shortU, bodyA, bodyB, List.take_left,
          (elementsEqualRecursive_strings H).1]
        by_cases lengths : t.length = u.length
        · rw [List.take_left' lengths.symm]
          exact ⟨rfl, fun _ => by simp only [Elem.encode, List.length_cons, Prod.mk.injEq]; omega⟩
        · simp only [beq_eq_false_iff_ne.2 lengths, Bool.false_and]
          exact ⟨rfl, fun h => absurd h Bool.false_ne_true⟩
      · rename_i t u
        have bodyA : dataA.drop (pa + 1) = encodeVarint (UInt64.ofNat t.length) ++ (t ++ restA) := by
          rw [drop_succ_of_drop placedA]
          exact List.append_assoc _ _ _
        have bodyB : dataB.drop (pb + 1) = encodeVarint (UInt64.ofNat u.length) ++ (u ++ restB) := by
          rw [drop_succ_of_drop placedB]
          exact List.append_assoc _ _ _
        have smallA := decodableA.small
        have smallB := decodableB.small
        simp only [Elem.encode, List.length_cons, List.length_append] at withinA withinB smallA smallB ⊢
        rw [decodeVarint_encodeVarint _ bodyA (by omega), decodeVarint_encodeVarint _ bodyB (by omega)]
        simp only [UInt64.toNat_ofNat_of_lt (show t.length < UInt64.size by unfold UInt64.size; omega),
          UInt64.toNat_ofNat_of_lt (show u.length < UInt64.size by unfold UInt64.size; omega),
          drop_add_of_drop bodyA, drop_add_of_drop bodyB, List.take_left,
          (elementsEqualRecursive_strings H).2]
        by_cases lengths : t.length = u.length
        · rw [lengths, List.take_left, beq_self_eq_true, beq_self_eq_true]
          exact ⟨rfl, fun _ => by simp only [Prod.mk.injEq]; omega⟩
        · have words : (UInt64.ofNat t.length == UInt64.ofNat u.length) = false :=
            beq_eq_false_iff_ne.2 fun same => lengths (by
              have := congrArg UInt64.toNat same
              rwa [UInt64.toNat_ofNat_of_lt (by unfold UInt64.size; omega),
                UInt64.toNat_ofNat_of_lt (by unfold UInt64.size; omega)] at this)
          simp only [words, beq_eq_false_iff_ne.2 lengths, Bool.false_and]
          exact ⟨rfl, fun h => absurd h Bool.false_ne_true⟩

end Lockstep

/-! ## The operators -/

section Operators

variable (H : HashFns)

/-- `sexp_eq` and `sexp_ne` on the bytes of two readable values answer as the decoded
`sexp_equal`: equal bytes are equal values, and otherwise the lockstep walk from the two roots
compares the decoded elements. -/
theorem sexpEq_refines (a b : Sexp) (readableA : a.Readable) (readableB : b.Readable) :
    Bytes.sexpEq H a.bytes b.bytes = .ok (sexpEqual H a b) ∧
      Bytes.sexpNe H a.bytes b.bytes = .ok (!sexpEqual H a b) := by
  have equal : Bytes.sexpEqual H a.bytes b.bytes = .ok (sexpEqual H a b) := by
    rw [Bytes.sexpEqual, sexpEqual]
    by_cases same : a = b
    · subst same
      rw [if_pos ⟨rfl, rfl⟩, if_pos rfl]
      rfl
    · have differ : ¬(a.bytes.length = b.bytes.length ∧ a.bytes = b.bytes) := fun bytes =>
        same (Sexp.eq_of_bytes_eq readableA readableB bytes.2)
      have endsA := a.root_ends
      have endsB := b.root_ends
      rw [if_neg differ, if_neg same, initReadStateInternal_bytes a readableA.fits,
        initReadStateInternal_bytes b readableB.fits]
      exact congrArg Except.ok (elementsEqualRecursive_encode H a.resolves_readState
        b.resolves_readState readableA.decodable readableB.decodable
        (show _ ≤ a.bytes.length - a.header.length + 1 by omega) a.drop_header
        (show a.header.length + _ ≤ a.bytes.length by omega) b.drop_header
        (show b.header.length + _ ≤ b.bytes.length by omega)).1
  refine ⟨equal, ?_⟩
  rw [Bytes.sexpNe, Bytes.sexpEqualPacked, equal]
  rfl

/-- `(a b)` read through two tables that list its symbols in either order. -/
theorem sexpEq_refines_reordered :
    let a : Sexp := ⟨[[97], [98]], .smallList [.symbolRef 0, .symbolRef 1]⟩
    let b : Sexp := ⟨[[98], [97]], .smallList [.symbolRef 1, .symbolRef 0]⟩
    a.Readable ∧ b.Readable ∧ Bytes.sexpEq pgHashFns a.bytes b.bytes = .ok (sexpEqual pgHashFns a b) ∧
      Bytes.sexpNe pgHashFns a.bytes b.bytes = .ok (!sexpEqual pgHashFns a b) :=
  ⟨⟨by decide, by decide, by decide⟩, ⟨by decide, by decide, by decide⟩,
    sexpEq_refines pgHashFns _ _ ⟨by decide, by decide, by decide⟩ ⟨by decide, by decide, by decide⟩⟩

end Operators

end PgSexp
