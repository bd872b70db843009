import PgSexp.StoredEqual
import PgSexp.Contains

/-!
# Containment on the stored bytes

`sexp_contains` (`pg_sexp.c`) reads both values' headers, computes the two Bloom signatures
with `sexp_element_bloom`, and answers false when some bit of the needle's is missing from the
container's; otherwise it runs `contains_fast_scan` from the container's root.  Both walks read
the stored bytes.  A small list's children are read one after the other, each ended by
`skip_element`; a large list's through its SEntry table, child `i` from its offset to the next
child's and the last one up to the end the call was given.  The scan compares a node with
`atom_compare_direct` or `elements_equal_recursive`, and reads the type of a large list's child
from its SEntry, not from the child's tag byte.

On the bytes of two readable values whose SEntry offsets fit their 28 bits, the walks compute
what `PgSexp.Bloom` and `PgSexp.Contains` compute on the decoded values.  The needle's hash,
which `sexp_contains` computes and passes to the scan, is never read there and is left out.
-/

namespace PgSexp

/-- `SENTRY_TYPE_MASK`: the top three bits of an SEntry. -/
def sentryTypeMask : UInt32 := 0xE0000000

/-- `SENTRY_GET_TYPE(se)` -/
def sentryGetType (se : UInt32) : UInt32 := se &&& sentryTypeMask

namespace Bytes

variable (H : HashFns)

/-- Where child `i` of a large list starts and ends for the walks over its SEntry table: from
its offset to the next child's offset, the last child up to `stop`. -/
def sentryBounds (buf : List UInt8) (sentries dataStart count stop i : Nat) : Nat × Nat :=
  let offset := fun j => (sentryGetOffset (loadUint32 buf (sentries + j * 4))).toNat
  (dataStart + offset i, if i + 1 < count then dataStart + offset (i + 1) else stop)

/-- The child loop of a large list in `sexp_element_bloom`, from child `i` on: the union of
the children's signatures, each read within its SEntry bounds. -/
def largeBloomLoop (bloomAt : Nat → Nat → UInt64) (bounds : Nat → Nat × Nat) :
    Nat → Nat → UInt64 → UInt64
  | 0, _, listBloom => listBloom
  | count + 1, i, listBloom =>
    largeBloomLoop bloomAt bounds count (i + 1)
      (bloomCombine listBloom (bloomAt (bounds i).1 (bounds i).2))

/-- The child loop of a small list in `sexp_element_bloom`: each child's signature, then
`skip_element` to the next child. -/
def smallBloomLoop (bloomAt : Nat → UInt64) (skip : Nat → Nat) : Nat → UInt64 → Nat → UInt64
  | 0, listBloom, _ => listBloom
  | count + 1, listBloom, p =>
    smallBloomLoop bloomAt skip count (bloomCombine listBloom (bloomAt p)) (skip p)

/-- `sexp_element_bloom` on the element at `p` of `data`, whose readable bytes end at `stop`,
with the symbol table of `state`.  Each nested call starts past the tag byte of the call
above it, so the fuel `sexp_contains` gives runs out only past the end of the data.  A symbol
index past `INT_MAX` that the `(int)` cast brings below `sym_count` reads past the table; the
model gives `0` there, as for an unknown tag. -/
def sexpElementBloom (data : List UInt8) (state : ReadState) : Nat → Nat → Nat → UInt64
  | 0, _, _ => 0
  | fuel + 1, p, stop =>
    if stop ≤ p then 0
    else
      let byte := data.getD p 0
      let tag := byte &&& sexpTagMask
      if tag = sexpTagNil then bloomComputeSig (sexpHashUint32 H sexpTagNil.toUInt32)
      else if tag = sexpTagSmallint then
        bloomComputeSig (integerElemHash H
          (UInt64.ofNat (byte &&& sexpDataMask).toNat - UInt64.ofNat sexpSmallintBias))
      else if tag = sexpTagInteger then
        bloomComputeSig (integerElemHash H (zigzagDecode (decodeVarint data stop (p + 1)).1))
      else if tag = sexpTagFloat then bloomComputeSig (floatElemHash H (loadFloat8 data (p + 1)))
      else if tag = sexpTagSymbolRef then
        let idx := (decodeVarint data stop (p + 1)).1
        if int32OfUInt64 idx < state.symCount then
          match symbolText data state idx.toNat with
          | some s => bloomComputeSig (sexpHashStringWithTag H sexpTagSymbolRef s)
          | none => 0
        else 0
      else if tag = sexpTagShortString then
        bloomComputeSig (sexpHashStringWithTag H sexpTagShortString
          ((data.drop (p + 1)).take (byte &&& sexpDataMask).toNat))
      else if tag = sexpTagLongString then
        let len := decodeVarint data stop (p + 1)
        bloomComputeSig (sexpHashStringWithTag H sexpTagShortString
          ((data.drop len.2).take len.1.toNat))
      else if tag = sexpTagList then
        let count := (byte &&& sexpDataMask).toNat
        if count = 0 then
          let actualCount := (loadUint32 data (p + 1)).toNat
          let sentries := p + 1 + 4 + 4
          bloomCombine
            (largeBloomLoop (sexpElementBloom data state fuel)
              (sentryBounds data sentries (sentries + actualCount * 4) actualCount stop)
              actualCount 0 0)
            (bloomComputeSig (listHashSeed H actualCount))
        else
          bloomCombine
            (smallBloomLoop (fun q => sexpElementBloom data state fuel q stop)
              (fun q => sexpSkipElement data q stop) count 0 (decodeVarint data stop (p + 1)).2)
            (bloomComputeSig (listHashSeed H count))
      else 0

/-- `sexp_compute_bloom`: the signature of the root element. -/
def sexpComputeBloom (data : List UInt8) : Except SqlError UInt64 := do
  let state ← initReadStateInternal data
  pure (sexpElementBloom H data state (state.stop - state.ptr + 1) state.ptr state.stop)

/-- `atom_compare_direct` on the elements at `pa` of `dataA` and `pb` of `dataB`, each read
up to the end of its read state.  A small integer and a full integer are compared by value,
floats by their eight bytes, and a symbol by the tests of `elements_equal_recursive` (both
indices in their tables, the cached hashes, the lengths, the bytes), which the C runs in
another order; lists are never equal here. -/
def atomCompareDirect (dataA : List UInt8) (stateA : ReadState) (dataB : List UInt8)
    (stateB : ReadState) (pa pb : Nat) : Bool :=
  if stateA.stop ≤ pa ∨ stateB.stop ≤ pb then false
  else
    let byteA := dataA.getD pa 0
    let byteB := dataB.getD pb 0
    let tagA := byteA &&& sexpTagMask
    let tagB := byteB &&& sexpTagMask
    if tagA ≠ tagB then
      if ¬((tagA = sexpTagSmallint ∨ tagA = sexpTagInteger) ∧
          (tagB = sexpTagSmallint ∨ tagB = sexpTagInteger)) then false
      else
        let valA := if tagA = sexpTagSmallint then
            UInt64.ofNat (byteA &&& sexpDataMask).toNat - UInt64.ofNat sexpSmallintBias
          else zigzagDecode (decodeVarint dataA stateA.stop (pa + 1)).1
        let valB := if tagB = sexpTagSmallint then
            UInt64.ofNat (byteB &&& sexpDataMask).toNat - UInt64.ofNat sexpSmallintBias
          else zigzagDecode (decodeVarint dataB stateB.stop (pb + 1)).1
        valA == valB
    else if tagA = sexpTagNil then true
    else if tagA = sexpTagSmallint then byteA == byteB
    else if tagA = sexpTagInteger then
      (decodeVarint dataA stateA.stop (pa + 1)).1 == (decodeVarint dataB stateB.stop (pb + 1)).1
    else if tagA = sexpTagFloat then (dataA.drop (pa + 1)).take 8 == (dataB.drop (pb + 1)).take 8
    else if tagA = sexpTagSymbolRef then
      symbolRefsEqual H dataA stateA dataB stateB (decodeVarint dataA stateA.stop (pa + 1)).1
        (decodeVarint dataB stateB.stop (pb + 1)).1
    else if tagA = sexpTagShortString then
      let lenA := (byteA &&& sexpDataMask).toNat
      let lenB := (byteB &&& sexpDataMask).toNat
      lenA == lenB && (dataA.drop (pa + 1)).take lenA == (dataB.drop (pb + 1)).take lenA
    else if tagA = sexpTagLongString then
      let lenA := decodeVarint dataA stateA.stop (pa + 1)
      let lenB := decodeVarint dataB stateB.stop (pb + 1)
      lenA.1 == lenB.1 &&
        (dataA.drop lenA.2).take lenA.1.toNat == (dataB.drop lenB.2).take lenA.1.toNat
    else false

/-- The child loop of a large list in `contains_fast_scan`, from child `i` on: each child is
searched within its SEntry bounds when the type its SEntry records is the needle's or
`LIST`. -/
def largeScanLoop (scanAt : Nat → Nat → Bool) (typeAt : Nat → UInt32) (bounds : Nat → Nat × Nat)
    (elemStype : UInt32) : Nat → Nat → Bool
  | 0, _ => false
  | count + 1, i =>
    ((typeAt i == elemStype || typeAt i == sentryTypeList) && scanAt (bounds i).1 (bounds i).2) ||
      largeScanLoop scanAt typeAt bounds elemStype count (i + 1)

/-- The child loop of a small list in `contains_fast_scan`, while a child starts before
`dataEnd`: each child is ended by `skip_element` within `dataEnd`, and searched when the type
of its tag byte is the needle's or `LIST`. -/
def smallScanLoop (buf : List UInt8) (scanAt : Nat → Nat → Bool) (dataEnd : Nat)
    (elemStype : UInt32) : Nat → Nat → Bool
  | 0, _ => false
  | count + 1, q =>
    if q < dataEnd then
      let childStype := getSentryTypeFromByte (buf.getD q 0)
      let childEnd := sexpSkipElement buf q dataEnd
      ((childStype == elemStype || childStype == sentryTypeList) && scanAt q childEnd) ||
        smallScanLoop buf scanAt dataEnd elemStype count childEnd
    else false

/-- `contains_fast_scan` on the container node at `p` of `cdata`, whose bytes end at `stop`,
for the needle at `estate.ptr` of `edata`.  The comparison at the node reads the container
up to `stop`, and `elements_equal_recursive` gets fuel for those bytes, as in `sexp_equal`.
Each nested call starts past the tag byte of the call above it, so the fuel `sexp_contains`
gives runs out only past the end of the data. -/
def containsFastScan (cdata : List UInt8) (cstate : ReadState) (edata : List UInt8)
    (estate : ReadState) (elemFirstByte : UInt8) (elemStype : UInt32) :
    Nat → Nat → Nat → Bool
  | 0, _, _ => false
  | fuel + 1, p, stop =>
    if stop ≤ p then false
    else
      let byte := cdata.getD p 0
      let here : ReadState := { cstate with stop := stop }
      (getSentryTypeFromByte byte == elemStype && byte == elemFirstByte &&
          if elemStype != sentryTypeList then
            atomCompareDirect H cdata here edata estate p estate.ptr
          else (elementsEqualRecursive H cdata here edata estate (stop - p + 1) p estate.ptr).1) ||
        if byte &&& sexpTagMask = sexpTagList then
          let count := (byte &&& sexpDataMask).toNat
          if count = 0 then
            let count := (loadUint32 cdata (p + 1)).toNat
            let sentries := p + 1 + 4 + 4
            largeScanLoop (containsFastScan cdata cstate edata estate elemFirstByte elemStype fuel)
              (fun i => sentryGetType (loadUint32 cdata (sentries + i * 4)))
              (sentryBounds cdata sentries (sentries + count * 4) count stop) elemStype count 0
          else
            let payloadSize := decodeVarint cdata stop (p + 1)
            smallScanLoop cdata
              (containsFastScan cdata cstate edata estate elemFirstByte elemStype fuel)
              (min (payloadSize.2 + payloadSize.1.toNat) stop) elemStype count payloadSize.2
        else false

/-- `sexp_contains`: false for a container with no element, false when the Bloom signatures
rule the needle out, and otherwise the scan from the container's root. -/
def sexpContains (container element : List UInt8) : Except SqlError Bool := do
  let containerState ← initReadStateInternal container
  let elemState ← initReadStateInternal element
  if containerState.stop ≤ containerState.ptr then pure false
  else
    let elemFirstByte := element.getD elemState.ptr 0
    let elemStype := getSentryTypeFromByte elemFirstByte
    let containerBloom := sexpElementBloom H container containerState
      (containerState.stop - containerState.ptr + 1) containerState.ptr containerState.stop
    let elemBloom := sexpElementBloom H element elemState (elemState.stop - elemState.ptr + 1)
      elemState.ptr elemState.stop
    if !bloomMayContain containerBloom elemBloom then pure false
    else
      pure (containsFastScan H container containerState element elemState elemFirstByte elemStype
        (containerState.stop - containerState.ptr + 1) containerState.ptr containerState.stop)

/-- `sexp_contains_packed` reads the same bytes through `VARDATA_ANY`. -/
def sexpContainsPacked (container element : List UInt8) : Except SqlError Bool :=
  sexpContains H container element

end Bytes

/-! ## The SEntry table of a large list -/

/-- An SEntry keeps the type it is made with: the type codes sit in the top three bits, above
the offset. -/
theorem sentryGetType_sentryMake (tagByte : UInt8) (offset : Nat) :
    sentryGetType (sentryMake (getSentryTypeFromTag tagByte) offset) =
      getSentryTypeFromTag tagByte := by
  have types : sentryTypeNil.toNat &&& 0xE0000000 = sentryTypeNil.toNat ∧
      sentryTypeInteger.toNat &&& 0xE0000000 = sentryTypeInteger.toNat ∧
      sentryTypeFloat.toNat &&& 0xE0000000 = sentryTypeFloat.toNat ∧
      sentryTypeSymbol.toNat &&& 0xE0000000 = sentryTypeSymbol.toNat ∧
      sentryTypeString.toNat &&& 0xE0000000 = sentryTypeString.toNat ∧
      sentryTypeList.toNat &&& 0xE0000000 = sentryTypeList.toNat :=
    ⟨rfl, rfl, rfl, rfl, rfl, rfl⟩
  have typeBits : (getSentryTypeFromTag tagByte).toNat &&& 0xE0000000 =
      (getSentryTypeFromTag tagByte).toNat := by
    simp only [getSentryTypeFromTag, getSentryTypeFromByte, apply_ite UInt32.toNat,
      apply_ite (· &&& 0xE0000000), types]
  apply UInt32.toNat.inj
  change ((getSentryTypeFromTag tagByte).toNat ||| offset % 2 ^ 32 &&& (2 ^ 28 - 1)) &&&
    0xE0000000 = _
  rw [Nat.and_distrib_right, typeBits, Nat.and_assoc,
    show (2 ^ 28 - 1) &&& 0xE0000000 = 0 by decide, Nat.and_zero, Nat.or_zero]

section Bounds

variable {buf rest : List UInt8} {p stop : Nat}

/-- Child `i` of a large list `sexp_parse` wrote, read within its SEntry bounds: its bytes
start at the lower bound and end by the upper one, which is within the list's end. -/
theorem sentryBounds_child {hash : UInt32} {cs : List Elem} {i : Nat} {c : Elem}
    (tagged : (Elem.largeList hash cs).wellTagged = true)
    (offsets : (Elem.largeList hash cs).encode.length ≤ 2 ^ 28)
    (placed : buf.drop p = (Elem.largeList hash cs).encode ++ rest)
    (within : p + (Elem.largeList hash cs).encode.length ≤ stop) (found : cs[i]? = some c) :
    let bounds := Bytes.sentryBounds buf (p + 1 + 4 + 4) (p + 1 + 4 + 4 + cs.length * 4)
      cs.length stop i
    (∃ rest', buf.drop bounds.1 = c.encode ++ rest') ∧ bounds.1 + c.encode.length ≤ bounds.2 ∧
      bounds.2 ≤ stop ∧
      (p + (Elem.largeList hash cs).encode.length = stop → bounds.2 = bounds.1 + c.encode.length) := by
  obtain ⟨-, -, -, children, total⟩ := largeList_header tagged placed
  have table := largeList_sentries placed
  have dataShort := Elem.length_data_lt (.largeList hash cs)
  have next := childOffset_succ found
  have last := childOffset_le cs (i + 1)
  simp only [Elem.children] at dataShort
  simp only [Bytes.sentryBounds,
    sentryOffset_encodeChildren found (by have := childOffset_le cs i; omega) table]
  refine ⟨⟨_, by rw [← List.drop_drop, children, List.drop_append_of_le_length
    (childOffset_le cs i), drop_childOffset found, List.append_assoc]⟩, ?_⟩
  by_cases later : i + 1 < cs.length
  · obtain ⟨d, foundNext⟩ : ∃ d, cs[i + 1]? = some d :=
      ⟨cs[i + 1], List.getElem?_eq_getElem later⟩
    rw [if_pos later, sentryOffset_encodeChildren foundNext (by omega) table]
    exact ⟨by omega, by omega, fun _ => by omega⟩
  · rw [if_neg later]
    have inList : i < cs.length := (List.getElem?_eq_some_iff.1 found).1
    exact ⟨by omega, by omega, fun _ => by
      rw [show i + 1 = cs.length by omega, childOffset_length] at next
      omega⟩

/-- The type the SEntry of child `j` of a large list `sexp_parse` wrote records is the type of
the child's tag byte. -/
theorem sentryGetType_child {hash : UInt32} {cs : List Elem} {j : Nat} {c : Elem}
    (tagged : (Elem.largeList hash cs).wellTagged = true)
    (placed : buf.drop p = (Elem.largeList hash cs).encode ++ rest) (found : cs[j]? = some c) :
    sentryGetType (loadUint32 buf (p + 1 + 4 + 4 + j * 4)) = c.stype := by
  rw [loadUint32_flatMap_leBytes (getElem?_encodeChildren_fst 0 found) (largeList_sentries placed),
    sentryGetType_sentryMake, getSentryTypeFromTag,
    Elem.headD_encode (Elem.wellTagged_of_mem tagged (List.mem_iff_getElem?.2 ⟨j, found⟩))]
  rfl

end Bounds

/-! ## Signatures -/

section Signatures

variable (H : HashFns) {data : List UInt8} {state : ReadState} {syms : List (List UInt8)}

theorem bloomChildren_cons {c : Elem} {cs : List Elem} {listBloom : UInt64} :
    bloomChildren H syms (c :: cs) listBloom =
      bloomChildren H syms cs (bloomCombine listBloom (sexpElementBloom H syms c)) :=
  rfl

/-- The child loop of a large list unites the children's signatures, given that the recursive
call reads each child within its bounds as the decoded signature. -/
theorem largeBloomLoop_encode {bloomAt : Nat → Nat → UInt64} {bounds : Nat → Nat × Nat} :
    ∀ {cs : List Elem} {i : Nat} {listBloom : UInt64},
      (∀ j c, cs[j]? = some c →
        bloomAt (bounds (i + j)).1 (bounds (i + j)).2 = sexpElementBloom H syms c) →
        Bytes.largeBloomLoop bloomAt bounds cs.length i listBloom = bloomChildren H syms cs listBloom
  | [], _, _, _ => rfl
  | c :: cs, i, listBloom, each => by
    have first := each 0 c (List.getElem?_cons_zero)
    rw [Nat.add_zero] at first
    rw [List.length_cons, Bytes.largeBloomLoop, first, bloomChildren_cons]
    exact largeBloomLoop_encode fun j d found => by
      have := each (j + 1) d (List.getElem?_cons_succ.trans found)
      rwa [show i + (j + 1) = i + 1 + j by omega] at this

/-- The child loop of a small list unites the children's signatures, given that the recursive
call reads, and `skip_element` steps over, any child written where it starts. -/
theorem smallBloomLoop_encode {bloomAt : Nat → UInt64} {skip : Nat → Nat} {stop : Nat} :
    ∀ {cs : List Elem} {listBloom : UInt64} {p : Nat} {rest : List UInt8},
      data.drop p = (cs.map Elem.encode).flatten ++ rest →
      p + ((cs.map Elem.encode).flatten).length ≤ stop →
      (∀ c ∈ cs, ∀ q rest', data.drop q = c.encode ++ rest' → q + c.encode.length ≤ stop →
        bloomAt q = sexpElementBloom H syms c ∧ skip q = q + c.encode.length) →
        Bytes.smallBloomLoop bloomAt skip cs.length listBloom p = bloomChildren H syms cs listBloom
  | [], _, _, _, _, _, _ => rfl
  | c :: cs, listBloom, p, _, placed, within, each => by
    rw [List.map_cons, List.flatten_cons, List.append_assoc] at placed
    rw [List.map_cons, List.flatten_cons, List.length_append] at within
    obtain ⟨signed, skipped⟩ := each c (List.mem_cons_self _ _) p _ placed (by omega)
    rw [List.length_cons, Bytes.smallBloomLoop, signed, skipped, bloomChildren_cons]
    exact smallBloomLoop_encode (drop_add_of_drop placed) (by omega)
      fun d mem => each d (List.mem_cons_of_mem _ mem)

/-- `sexp_element_bloom`, with fuel for the element's bytes and a read state that resolves
its table, reads the signature of an element written at `p`, whatever end past the element
it is given, as the decoded `sexp_element_bloom` computes it. -/
theorem sexpElementBloom_encode (resolves : Bytes.Resolves data state syms) :
    ∀ {fuel : Nat} {e : Elem} {p stop : Nat} {rest : List UInt8}, e.Decodable →
      e.encode.length ≤ 2 ^ 28 → e.encode.length ≤ fuel → data.drop p = e.encode ++ rest →
      p + e.encode.length ≤ stop →
        Bytes.sexpElementBloom H data state fuel p stop = sexpElementBloom H syms e
  | 0, e, _, _, _, _, _, enough, _, _ => absurd enough (Nat.not_le_of_lt e.length_encode_pos)
  | fuel + 1, e, p, stop, rest, decodable, offsets, enough, placed, within => by
    have positive := e.length_encode_pos
    rw [Bytes.sexpElementBloom, if_neg (by omega), Elem.getD_eq_headD_encode placed,
      Elem.headD_encode decodable.tagged]
    dsimp only
    rw [Elem.tagByte_and_tagMask, Elem.tagByte_and_dataMask, toNat_ofNat_payload]
    cases e with
    | nil | smallInt _ => rfl
    | integer z =>
      have body : data.drop (p + 1) = encodeVarint z ++ rest := drop_succ_of_drop placed
      rw [decodeVarint_encodeVarint z body
        (by simp only [Elem.encode, List.length_cons] at within; omega)]
      rfl
    | float bits =>
      rw [loadFloat8_leBytes bits (drop_succ_of_drop placed)]
      rfl
    | symbolRef i =>
      have below : i < 2 ^ 31 := of_decide_eq_true decodable.refs
      have body : data.drop (p + 1) = encodeVarint (UInt64.ofNat i) ++ rest :=
        drop_succ_of_drop placed
      rw [decodeVarint_encodeVarint _ body
        (by simp only [Elem.encode, List.length_cons] at within; omega),
        int32OfUInt64_ofNat below, resolves.count,
        UInt64.toNat_ofNat_of_lt (by unfold UInt64.size; omega), resolves.text, sexpElementBloom]
      by_cases inTable : i < syms.length
      · rw [if_pos (show (i : Int) < syms.length by omega)]
        rfl
      · rw [if_neg (show ¬(i : Int) < syms.length by omega), List.getElem?_eq_none (by omega)]
        rfl
    | shortString s =>
      have short : s.length % 32 = s.length :=
        Nat.mod_eq_of_lt (Nat.lt_succ_of_le (of_decide_eq_true decodable.tagged))
      have body : data.drop (p + 1) = s ++ rest := drop_succ_of_drop placed
      show bloomComputeSig (sexpHashStringWithTag H sexpTagShortString
        ((data.drop (p + 1)).take (s.length % 32))) = _
      rw [short, body, List.take_left]
      rfl
    | longString s =>
      have body : data.drop (p + 1) = encodeVarint (UInt64.ofNat s.length) ++ (s ++ rest) := by
        rw [drop_succ_of_drop placed]
        exact List.append_assoc _ _ _
      have small := decodable.small
      simp only [Elem.encode, List.length_cons, List.length_append] at within small
      rw [decodeVarint_encodeVarint _ body (by omega)]
      show bloomComputeSig (sexpHashStringWithTag H sexpTagShortString
        ((data.drop (p + 1 + (encodeVarint (UInt64.ofNat s.length)).length)).take
          (UInt64.ofNat s.length).toNat)) = _
      rw [UInt64.toNat_ofNat_of_lt (show s.length < UInt64.size by unfold UInt64.size; omega),
        drop_add_of_drop body, List.take_left]
      rfl
    | smallList cs =>
      obtain ⟨-, -, -, varint, -, children, total⟩ :=
        smallList_header decodable.tagged decodable.small placed within
      obtain ⟨nonzero, short⟩ := of_decide_eq_true (Bool.and_eq_true_iff.1 decodable.tagged).1
      have payload : (Elem.smallList cs).payload.val = cs.length := Nat.mod_eq_of_lt short
      rw [payload, if_neg (Nat.pos_iff_ne_zero.1 nonzero), varint,
        smallBloomLoop_encode H children (show _ ≤ stop by omega) fun c mem q rest' at' within' => by
          have shorter := length_encode_lt_of_mem (e := .smallList cs) mem
          exact ⟨sexpElementBloom_encode resolves (decodable.child mem) (by omega) (by omega)
              at' within',
            sexpSkipElement_encode (decodable.child mem).tagged (by omega) at' within'⟩]
      rfl
    | largeList hash cs =>
      obtain ⟨-, -, count, -, -⟩ := largeList_header decodable.tagged placed
      rw [if_pos (show (Elem.largeList hash cs).payload.val = 0 from rfl), count,
        largeBloomLoop_encode H fun j c found => by
          rw [Nat.zero_add]
          obtain ⟨⟨rest', at'⟩, inside, ends, -⟩ :=
            sentryBounds_child decodable.tagged offsets placed within found
          have shorter := length_encode_lt_of_mem (e := .largeList hash cs)
            (List.mem_iff_getElem?.2 ⟨j, found⟩)
          exact sexpElementBloom_encode resolves
            (decodable.child (List.mem_iff_getElem?.2 ⟨j, found⟩)) (by omega) (by omega) at'
            (by omega)]
      rfl

end Signatures

/-! ## Comparing a node with the needle -/

section Compare

variable (H : HashFns) {dataA dataB : List UInt8} {stateA stateB : ReadState}
  {symsA symsB : List (List UInt8)}

/-- The decoded `atom_compare_direct` answers true only for two elements with the same tag
or for two integers. -/
theorem atomCompareDirect_tags {a b : Elem} (equal : atomCompareDirect H symsA symsB a b = true) :
    a.tag = b.tag ∨ ((a.tag = sexpTagSmallint ∨ a.tag = sexpTagInteger) ∧
      (b.tag = sexpTagSmallint ∨ b.tag = sexpTagInteger)) := by
  cases a <;> cases b <;> first
    | exact absurd equal Bool.false_ne_true
    | exact Or.inl rfl
    | exact Or.inr ⟨Or.inl rfl, Or.inr rfl⟩
    | exact Or.inr ⟨Or.inr rfl, Or.inl rfl⟩

/-- `atom_compare_direct` on two elements written where two read states that resolve their
tables are compares them as the decoded `atom_compare_direct` does. -/
theorem atomCompareDirect_encode (resolvesA : Bytes.Resolves dataA stateA symsA)
    (resolvesB : Bytes.Resolves dataB stateB symsB) {a b : Elem} {pa pb : Nat}
    {restA restB : List UInt8} (decodableA : a.Decodable) (decodableB : b.Decodable)
    (placedA : dataA.drop pa = a.encode ++ restA) (withinA : pa + a.encode.length ≤ stateA.stop)
    (placedB : dataB.drop pb = b.encode ++ restB) (withinB : pb + b.encode.length ≤ stateB.stop) :
    Bytes.atomCompareDirect H dataA stateA dataB stateB pa pb = atomCompareDirect H symsA symsB a b := by
  have positiveA := a.length_encode_pos
  have positiveB := b.length_encode_pos
  rw [Bytes.atomCompareDirect, if_neg (by omega), Elem.getD_eq_headD_encode placedA,
    Elem.getD_eq_headD_encode placedB, Elem.headD_encode decodableA.tagged,
    Elem.headD_encode decodableB.tagged]
  dsimp only
  rw [Elem.tagByte_and_tagMask, Elem.tagByte_and_tagMask, Elem.tagByte_and_dataMask,
    Elem.tagByte_and_dataMask, toNat_ofNat_payload, toNat_ofNat_payload]
  by_cases sameTag : a.tag = b.tag
  · rw [if_neg (not_not.2 sameTag)]
    cases a <;> cases b <;> first
      | exact absurd sameTag (by simp only [Elem.tag]; decide)
      | simp +decide only [Elem.tag, ↓reduceIte]
    · rfl
    · rename_i p q
      by_cases same : p = q
      · subst same
        exact (beq_self_eq_true _).trans (beq_self_eq_true p).symm
      · rw [beq_eq_false_iff_ne.2 fun (bytes : (Elem.smallInt p).tagByte = (Elem.smallInt q).tagByte) =>
          same (Elem.payload_eq_of_tagByte_eq bytes)]
        exact (beq_eq_false_iff_ne.2 same).symm
    · rename_i u v
      have bodyA : dataA.drop (pa + 1) = encodeVarint u ++ restA := drop_succ_of_drop placedA
      have bodyB : dataB.drop (pb + 1) = encodeVarint v ++ restB := drop_succ_of_drop placedB
      simp only [Elem.encode, List.length_cons] at withinA withinB
      rw [decodeVarint_encodeVarint u bodyA (by omega), decodeVarint_encodeVarint v bodyB (by omega)]
      rfl
    · rename_i x y
      have bodyA : dataA.drop (pa + 1) = leBytes x.toNat 8 ++ restA := drop_succ_of_drop placedA
      have bodyB : dataB.drop (pb + 1) = leBytes y.toNat 8 ++ restB := drop_succ_of_drop placedB
      rw [bodyA, bodyB, List.take_left' (length_leBytes _ _), List.take_left' (length_leBytes _ _)]
      by_cases same : x = y
      · subst same
        exact (beq_self_eq_true _).trans (beq_self_eq_true x).symm
      · rw [beq_eq_false_iff_ne.2 fun bytes => same (UInt64.toNat.inj
          (@leBytes_append_inj [] [] _ _ _ x.toNat_lt_size y.toNat_lt_size
            (by rw [List.append_nil, List.append_nil]; exact bytes)).1)]
        exact (beq_eq_false_iff_ne.2 same).symm
    · rename_i i j
      have bodyA : dataA.drop (pa + 1) = encodeVarint (UInt64.ofNat i) ++ restA :=
        drop_succ_of_drop placedA
      have bodyB : dataB.drop (pb + 1) = encodeVarint (UInt64.ofNat j) ++ restB :=
        drop_succ_of_drop placedB
      simp only [Elem.encode, List.length_cons] at withinA withinB
      rw [decodeVarint_encodeVarint _ bodyA (by omega), decodeVarint_encodeVarint _ bodyB (by omega),
        symbolRefsEqual_ofNat H resolvesA resolvesB (of_decide_eq_true decodableA.refs)
          (of_decide_eq_true decodableB.refs)]
      rfl
    · rename_i t u
      have shortT : t.length % 32 = t.length :=
        Nat.mod_eq_of_lt (Nat.lt_succ_of_le (of_decide_eq_true decodableA.tagged))
      have shortU : u.length % 32 = u.length :=
        Nat.mod_eq_of_lt (Nat.lt_succ_of_le (of_decide_eq_true decodableB.tagged))
      have bodyA : dataA.drop (pa + 1) = t ++ restA := drop_succ_of_drop placedA
      have bodyB : dataB.drop (pb + 1) = u ++ restB := drop_succ_of_drop placedB
      simp only [Elem.payload, shortT, shortU, bodyA, bodyB, List.take_left]
      show _ = (t.length == u.length && t == u)
      by_cases lengths : t.length = u.length
      · rw [List.take_left' lengths.symm]
      · simp only [beq_eq_false_iff_ne.2 lengths, Bool.false_and]
    · rename_i t u
      have bodyA : dataA.drop (pa + 1) = encodeVarint (UInt64.ofNat t.length) ++ (t ++ restA) := by
        rw [drop_succ_of_drop placedA]
        exact List.append_assoc _ _ _
      have bodyB : dataB.drop (pb + 1) = encodeVarint (UInt64.ofNat u.length) ++ (u ++ restB) := by
        rw [drop_succ_of_drop placedB]
        exact List.append_assoc _ _ _
      have smallA := decodableA.small
      have smallB := decodableB.small
      simp only [Elem.encode, List.length_cons, List.length_append] at withinA withinB smallA smallB
      rw [decodeVarint_encodeVarint _ bodyA (by omega), decodeVarint_encodeVarint _ bodyB (by omega)]
      simp only [UInt64.toNat_ofNat_of_lt (show t.length < UInt64.size by unfold UInt64.size; omega),
        drop_add_of_drop bodyA, drop_add_of_drop bodyB, List.take_left]
      show _ = (t.length == u.length && t == u)
      by_cases lengths : t.length = u.length
      · rw [lengths, List.take_left, beq_self_eq_true, beq_self_eq_true]
      · have words : (UInt64.ofNat t.length == UInt64.ofNat u.length) = false :=
          beq_eq_false_iff_ne.2 fun same => lengths (by
            have := congrArg UInt64.toNat same
            rwa [UInt64.toNat_ofNat_of_lt (by unfold UInt64.size; omega),
              UInt64.toNat_ofNat_of_lt (by unfold UInt64.size; omega)] at this)
        simp only [words, beq_eq_false_iff_ne.2 lengths, Bool.false_and]
    all_goals rfl
  · rw [if_pos sameTag]
    by_cases ints : (a.tag = sexpTagSmallint ∨ a.tag = sexpTagInteger) ∧
        (b.tag = sexpTagSmallint ∨ b.tag = sexpTagInteger)
    · rw [if_neg (not_not.2 ints)]
      obtain ⟨intA, intB⟩ := ints
      cases a <;> first | exact absurd intA (by simp only [Elem.tag]; decide) | cases b <;> first
        | exact absurd intB (by simp only [Elem.tag]; decide)
        | exact absurd sameTag (by simp only [Elem.tag]; decide)
        | simp +decide only [Elem.tag, ↓reduceIte]
      · rename_i p v
        have bodyB : dataB.drop (pb + 1) = encodeVarint v ++ restB := drop_succ_of_drop placedB
        simp only [Elem.encode, List.length_cons] at withinB
        rw [decodeVarint_encodeVarint v bodyB (by omega)]
        rfl
      · rename_i u q
        have bodyA : dataA.drop (pa + 1) = encodeVarint u ++ restA := drop_succ_of_drop placedA
        simp only [Elem.encode, List.length_cons] at withinA
        rw [decodeVarint_encodeVarint u bodyA (by omega)]
        rfl
    · rw [if_pos ints]
      exact (Bool.eq_false_iff.2 fun equal =>
        (atomCompareDirect_tags H equal).elim sameTag ints).symm

end Compare

/-! ## The scan -/

section Scan

variable (H : HashFns) {cdata edata : List UInt8} {cstate estate : ReadState}
  {csyms nsyms : List (List UInt8)} {needle : Elem} {firstByte : UInt8} {elemStype : UInt32}

theorem scanChildren_cons {c : Elem} {cs : List Elem} :
    scanChildren H csyms nsyms needle firstByte elemStype (c :: cs) =
      (((c.stype == elemStype || c.stype == sentryTypeList) &&
          containsFastScan H csyms nsyms needle firstByte elemStype c) ||
        scanChildren H csyms nsyms needle firstByte elemStype cs) :=
  rfl

theorem containsFastScan_of_atom {c : Elem} (atom : c.isList = false) :
    containsFastScan H csyms nsyms needle firstByte elemStype c =
      scanMatchesHere H csyms nsyms needle firstByte elemStype c := by
  cases c <;> first | rfl | cases atom

/-- The child loop of a large list searches the children in turn, given the type each SEntry
records and that the recursive call searches each child within its bounds as the decoded
scan does. -/
theorem largeScanLoop_encode {scanAt : Nat → Nat → Bool} {typeAt : Nat → UInt32}
    {bounds : Nat → Nat × Nat} :
    ∀ {cs : List Elem} {i : Nat},
      (∀ j c, cs[j]? = some c → typeAt (i + j) = c.stype ∧
        scanAt (bounds (i + j)).1 (bounds (i + j)).2 =
          containsFastScan H csyms nsyms needle firstByte elemStype c) →
        Bytes.largeScanLoop scanAt typeAt bounds elemStype cs.length i =
          scanChildren H csyms nsyms needle firstByte elemStype cs
  | [], _, _ => rfl
  | c :: cs, i, each => by
    obtain ⟨typed, scanned⟩ := each 0 c List.getElem?_cons_zero
    rw [Nat.add_zero] at typed scanned
    rw [List.length_cons, Bytes.largeScanLoop, typed, scanned, scanChildren_cons,
      largeScanLoop_encode fun j d found => by
        have := each (j + 1) d (List.getElem?_cons_succ.trans found)
        rwa [show i + (j + 1) = i + 1 + j by omega] at this]

/-- The child loop of a small list searches the children in turn, each ended by
`skip_element`, given that the recursive call searches any child written where it starts as
the decoded scan does. -/
theorem smallScanLoop_encode {scanAt : Nat → Nat → Bool} {dataEnd : Nat} :
    ∀ {cs : List Elem} {q : Nat} {rest : List UInt8}, (∀ c ∈ cs, c.Decodable) →
      cdata.drop q = (cs.map Elem.encode).flatten ++ rest →
      q + ((cs.map Elem.encode).flatten).length ≤ dataEnd →
      (∀ c ∈ cs, ∀ q' rest', cdata.drop q' = c.encode ++ rest' → q' + c.encode.length ≤ dataEnd →
        scanAt q' (q' + c.encode.length) =
          containsFastScan H csyms nsyms needle firstByte elemStype c) →
        Bytes.smallScanLoop cdata scanAt dataEnd elemStype cs.length q =
          scanChildren H csyms nsyms needle firstByte elemStype cs
  | [], _, _, _, _, _, _ => rfl
  | c :: cs, q, _, decodable, placed, within, each => by
    have positive := c.length_encode_pos
    have first := decodable c (List.mem_cons_self _ _)
    rw [List.map_cons, List.flatten_cons, List.append_assoc] at placed
    rw [List.map_cons, List.flatten_cons, List.length_append] at within
    rw [List.length_cons, Bytes.smallScanLoop, if_pos (by omega)]
    dsimp only
    rw [Elem.getD_eq_headD_encode placed, Elem.headD_encode first.tagged,
      sexpSkipElement_encode first.tagged first.small placed (by omega),
      each c (List.mem_cons_self _ _) q _ placed (by omega), scanChildren_cons,
      smallScanLoop_encode (fun d mem => decodable d (List.mem_cons_of_mem _ mem))
        (drop_add_of_drop placed) (by omega) fun d mem => each d (List.mem_cons_of_mem _ mem)]
    rfl

/-- `contains_fast_scan`, with fuel for the node's bytes and read states that resolve both
tables, searches a container node written at `p`, whatever end past the node it is given,
as the decoded `contains_fast_scan` does: the comparison at the node, then the descent into
the children the type filter lets through. -/
theorem containsFastScan_encode (resolvesC : Bytes.Resolves cdata cstate csyms)
    (resolvesN : Bytes.Resolves edata estate nsyms) {restN : List UInt8}
    (decodableN : needle.Decodable) (placedN : edata.drop estate.ptr = needle.encode ++ restN)
    (withinN : estate.ptr + needle.encode.length ≤ estate.stop) :
    ∀ {fuel : Nat} {e : Elem} {p stop : Nat} {rest : List UInt8}, e.Decodable →
      e.encode.length ≤ 2 ^ 28 → e.encode.length ≤ fuel → cdata.drop p = e.encode ++ rest →
      p + e.encode.length ≤ stop →
        Bytes.containsFastScan H cdata cstate edata estate needle.tagByte needle.stype fuel p
            stop =
          containsFastScan H csyms nsyms needle needle.tagByte needle.stype e
  | 0, e, _, _, _, _, _, enough, _, _ => absurd enough (Nat.not_le_of_lt e.length_encode_pos)
  | fuel + 1, e, p, stop, rest, decodable, offsets, enough, placed, within => by
    have positive := e.length_encode_pos
    have resolvesHere : Bytes.Resolves cdata { cstate with stop := stop } csyms :=
      ⟨resolvesC.count, resolvesC.text, resolvesC.lengths⟩
    rw [Bytes.containsFastScan, if_neg (by omega), Elem.getD_eq_headD_encode placed,
      Elem.headD_encode decodable.tagged]
    dsimp only
    rw [atomCompareDirect_encode H resolvesHere resolvesN decodable decodableN placed within
        placedN withinN,
      (elementsEqualRecursive_encode H resolvesHere resolvesN decodable decodableN (by omega)
        placed within placedN withinN).1, Elem.tagByte_and_tagMask]
    by_cases list : e.isList = true
    swap
    · rw [if_neg fun tag => list ((Elem.tag_eq_sexpTagList_iff e).1 tag), Bool.or_false,
        containsFastScan_of_atom H (Bool.eq_false_iff.2 list)]
      rfl
    rw [if_pos ((Elem.tag_eq_sexpTagList_iff e).2 list), Elem.tagByte_and_dataMask,
      toNat_ofNat_payload]
    cases e with
    | smallList cs =>
      obtain ⟨-, -, -, varint, size, children, total⟩ :=
        smallList_header decodable.tagged decodable.small placed within
      obtain ⟨nonzero, short⟩ := of_decide_eq_true (Bool.and_eq_true_iff.1 decodable.tagged).1
      have payload : (Elem.smallList cs).payload.val = cs.length := Nat.mod_eq_of_lt short
      rw [payload, if_neg (Nat.pos_iff_ne_zero.1 nonzero), varint]
      dsimp only
      rw [size, Nat.min_eq_left (by omega),
        smallScanLoop_encode H (fun c (mem : c ∈ cs) => decodable.child mem) children (Nat.le_refl _)
          fun c mem q rest' at' _ => by
            have shorter := length_encode_lt_of_mem (e := .smallList cs) mem
            exact containsFastScan_encode resolvesC resolvesN decodableN placedN withinN
              (decodable.child mem) (by omega) (by omega) at' (Nat.le_refl _)]
      rfl
    | largeList hash cs =>
      obtain ⟨-, -, count, -, -⟩ := largeList_header decodable.tagged placed
      rw [if_pos (show (Elem.largeList hash cs).payload.val = 0 from rfl), count,
        largeScanLoop_encode H fun j c found => by
          rw [Nat.zero_add]
          obtain ⟨⟨rest', at'⟩, inside, -, -⟩ :=
            sentryBounds_child decodable.tagged offsets placed within found
          have mem := List.mem_iff_getElem?.2 ⟨j, found⟩
          have shorter := length_encode_lt_of_mem (e := .largeList hash cs) mem
          exact ⟨sentryGetType_child decodable.tagged placed found,
            containsFastScan_encode resolvesC resolvesN decodableN placedN withinN
              (decodable.child mem) (by omega) (by omega) at' inside⟩]
      rfl
    | _ => exact absurd list Bool.false_ne_true

end Scan

/-! ## The operator -/

section Operator

variable (H : HashFns)

/-- `sexp_compute_bloom` on the bytes of a readable value whose SEntry offsets fit reads the
signature of the decoded value. -/
theorem sexpComputeBloom_bytes {v : Sexp} (readable : v.Readable) (small : v.bytes.length ≤ 2 ^ 28) :
    Bytes.sexpComputeBloom H v.bytes = .ok (sexpComputeBloom H v) := by
  have ends := v.root_ends
  rw [Bytes.sexpComputeBloom, initReadStateInternal_bytes v readable.fits]
  exact congrArg Except.ok (sexpElementBloom_encode H v.resolves_readState readable.decodable
    (by omega) (show _ ≤ v.bytes.length - v.header.length + 1 by omega) v.drop_header
    (show v.header.length + _ ≤ v.bytes.length by omega))

/-- `sexp_contains` and `sexp_contains_packed` on the bytes of two readable values whose SEntry
offsets fit answer as the decoded `sexp_contains`: the two signatures are read from the bytes
as the decoded ones, and so is every comparison and every descent of the scan. -/
theorem sexpContains_refines (container element : Sexp) (readableC : container.Readable)
    (readableE : element.Readable) (smallC : container.bytes.length ≤ 2 ^ 28)
    (smallE : element.bytes.length ≤ 2 ^ 28) :
    Bytes.sexpContains H container.bytes element.bytes = .ok (sexpContains H container element) ∧
      Bytes.sexpContainsPacked H container.bytes element.bytes =
        .ok (sexpContainsPacked H container element) := by
  have endsC := container.root_ends
  have endsE := element.root_ends
  have contains :
      Bytes.sexpContains H container.bytes element.bytes = .ok (sexpContains H container element) := by
    rw [Bytes.sexpContains, initReadStateInternal_bytes container readableC.fits,
      initReadStateInternal_bytes element readableE.fits]
    simp only [bind, Except.bind, pure, Except.pure, Sexp.readState_stop, Sexp.readState_ptr]
    rw [if_neg (Nat.not_le_of_lt container.header_lt_bytes),
      Elem.getD_eq_headD_encode element.drop_header, Elem.headD_encode readableE.tagged,
      sexpElementBloom_encode H container.resolves_readState readableC.decodable (by omega)
        (show _ ≤ container.bytes.length - container.header.length + 1 by omega)
        container.drop_header (show container.header.length + _ ≤ container.bytes.length by omega),
      sexpElementBloom_encode H element.resolves_readState readableE.decodable (by omega)
        (show _ ≤ element.bytes.length - element.header.length + 1 by omega)
        element.drop_header (show element.header.length + _ ≤ element.bytes.length by omega),
      show getSentryTypeFromByte element.root.tagByte = element.root.stype from rfl,
      containsFastScan_encode H container.resolves_readState element.resolves_readState
        readableE.decodable element.drop_header
        (show element.header.length + _ ≤ element.bytes.length by omega)
        readableC.decodable (by omega)
        (show _ ≤ container.bytes.length - container.header.length + 1 by omega)
        container.drop_header (show container.header.length + _ ≤ container.bytes.length by omega),
      sexpContains, apply_ite Except.ok]
    rfl
  exact ⟨contains, contains⟩

/-- `(a (17 5 (a)))` with the inner list in the large format, and the needle `(a)`, under
PostgreSQL's `hash_bytes`. -/
theorem sexpContains_refines_nested :
    let container : Sexp := ⟨[[97]], .smallList [.symbolRef 0,
      .largeList 0 [.smallInt 17, .integer 10, .smallList [.symbolRef 0]]]⟩
    let element : Sexp := ⟨[[97]], .smallList [.symbolRef 0]⟩
    container.Readable ∧ element.Readable ∧ container.bytes.length ≤ 2 ^ 28 ∧
      element.bytes.length ≤ 2 ^ 28 ∧
      Bytes.sexpContains pgHashFns container.bytes element.bytes =
        .ok (sexpContains pgHashFns container element) ∧
      Bytes.sexpContainsPacked pgHashFns container.bytes element.bytes =
        .ok (sexpContainsPacked pgHashFns container element) :=
  ⟨⟨by decide, by decide, by decide⟩, ⟨by decide, by decide, by decide⟩, by decide, by decide,
    sexpContains_refines pgHashFns _ _ ⟨by decide, by decide, by decide⟩
      ⟨by decide, by decide, by decide⟩ (by decide) (by decide)⟩

end Operator

end PgSexp
