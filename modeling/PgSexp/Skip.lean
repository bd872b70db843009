import PgSexp.Layout
import PgSexp.Search

/-!
# Skipping an element

Two readers step over an element without decoding it.  `skip_element` (`pg_sexp.c`, behind
`sexp_skip_element` and the small-list case of `get_element_bounds`) jumps a small list by its
`payload_size` and a large list by its SEntry table and then each child in turn;
`skip_element_internal` (`sexp_match.c`) skips each child of a list in both formats.  The two
switch alike on every other tag.

On the bytes `sexp_parse` writes for an element whose tags say what follows them, both stop
exactly at the end of the element: the `payload_size` of a small list is the byte length of
its children, so the jump of `skip_element` lands where the walk of `skip_element_internal`
does.
-/

namespace PgSexp

/-- `SEXP_DATA_MASK`: the payload bits of a tag byte. -/
def sexpDataMask : UInt8 := 0x1F

/-- The loop `for (i = 0; i < count; i++) skip(state);` over the position. -/
def skipTimes (skip : Nat → Nat) : Nat → Nat → Nat
  | 0, p => p
  | count + 1, p => skipTimes skip count (skip p)

/-- The cases of the switch of `skip_element` and of `skip_element_internal` other than
`SEXP_TAG_LIST`, which the two write alike: the position after the element whose tag byte
`byte` is at `p`.  NIL and a small integer are their tag byte. -/
def skipAtom (buf : List UInt8) (stop : Nat) (byte : UInt8) (p : Nat) : Nat :=
  let tag := byte &&& sexpTagMask
  if tag = sexpTagInteger then (decodeVarint buf stop (p + 1)).2
  else if tag = sexpTagFloat then p + 1 + 8
  else if tag = sexpTagSymbolRef then (decodeVarint buf stop (p + 1)).2
  else if tag = sexpTagShortString then p + 1 + (byte &&& sexpDataMask).toNat
  else if tag = sexpTagLongString then
    let len := decodeVarint buf stop (p + 1)
    len.2 + len.1.toNat
  else p + 1

/-- `skip_element` from position `p` of `buf`, whose readable bytes end at `stop`: the
position after the element there.  A small list is jumped by its `payload_size`; a large list
by its count, hash and SEntry table, then child by child.  Each nested call starts past the
tag byte of the call above it, so the fuel `sexpSkipElement` gives runs out only past
`stop`, where the C returns at once. -/
def skipElement (buf : List UInt8) (stop : Nat) : Nat → Nat → Nat
  | 0, p => p
  | fuel + 1, p =>
    if p < stop then
      let byte := buf.getD p 0
      if byte &&& sexpTagMask = sexpTagList then
        if byte &&& sexpDataMask = 0 then
          let count := (loadUint32 buf (p + 1)).toNat
          skipTimes (skipElement buf stop fuel) count (p + 1 + 4 + 4 + count * 4)
        else
          let payloadSize := decodeVarint buf stop (p + 1)
          payloadSize.2 + payloadSize.1.toNat
      else skipAtom buf stop byte p
    else p

/-- `sexp_skip_element(ptr, end)` -/
def sexpSkipElement (buf : List UInt8) (ptr stop : Nat) : Nat :=
  skipElement buf stop (stop - ptr + 1) ptr

/-- `skip_element_internal`: as `skip_element`, but a small list is walked child by child
after its `payload_size`, as a large list is after its SEntry table. -/
def skipElementInternal (buf : List UInt8) (stop : Nat) : Nat → Nat → Nat
  | 0, p => p
  | fuel + 1, p =>
    if p < stop then
      let byte := buf.getD p 0
      if byte &&& sexpTagMask = sexpTagList then
        let header : Nat × Nat :=
          if byte &&& sexpDataMask = 0 then
            let count := (loadUint32 buf (p + 1)).toNat
            (count, p + 1 + 4 + 4 + count * 4)
          else ((byte &&& sexpDataMask).toNat, (decodeVarint buf stop (p + 1)).2)
        skipTimes (skipElementInternal buf stop fuel) header.1 header.2
      else skipAtom buf stop byte p
    else p

/-! ## Tag bytes -/

/-- The kind bits and the payload bits of a tag byte whose payload is below 32. -/
theorem payload_masks : ∀ n : Fin 32,
    (sexpTagSmallint ||| UInt8.ofNat n.val) &&& sexpTagMask = sexpTagSmallint ∧
      (sexpTagShortString ||| UInt8.ofNat n.val) &&& sexpTagMask = sexpTagShortString ∧
      (sexpTagShortString ||| UInt8.ofNat n.val) &&& sexpDataMask = UInt8.ofNat n.val ∧
      (sexpTagList ||| UInt8.ofNat n.val) &&& sexpTagMask = sexpTagList ∧
      (sexpTagList ||| UInt8.ofNat n.val) &&& sexpDataMask = UInt8.ofNat n.val := by
  decide

theorem toNat_ofNat_payload (n : Fin 32) : (UInt8.ofNat n.val).toNat = n.val :=
  UInt8.toNat_ofNat_of_lt (Nat.lt_trans n.isLt (by decide))

/-- Only a list starts with the list tag. -/
theorem tag_headD_encode_ne_list {e : Elem} (tagged : e.wellTagged = true)
    (atom : e.isList = false) : e.encode.headD 0 &&& sexpTagMask ≠ sexpTagList := by
  cases e with
  | nil => exact (by decide : sexpTagNil &&& sexpTagMask ≠ sexpTagList)
  | smallInt n =>
    show (sexpTagSmallint ||| UInt8.ofNat n.val) &&& sexpTagMask ≠ sexpTagList
    rw [(payload_masks n).1]
    decide
  | integer _ => exact (by decide : sexpTagInteger &&& sexpTagMask ≠ sexpTagList)
  | float _ => exact (by decide : sexpTagFloat &&& sexpTagMask ≠ sexpTagList)
  | symbolRef _ => exact (by decide : sexpTagSymbolRef &&& sexpTagMask ≠ sexpTagList)
  | shortString s =>
    have short : s.length < 32 := Nat.lt_succ_of_le (of_decide_eq_true tagged)
    show (sexpTagShortString ||| UInt8.ofNat s.length) &&& sexpTagMask ≠ sexpTagList
    rw [(payload_masks ⟨s.length, short⟩).2.1]
    decide
  | longString _ => exact (by decide : sexpTagLongString &&& sexpTagMask ≠ sexpTagList)
  | smallList _ | largeList _ _ => cases atom

/-! ## The atoms -/

section Atoms

variable {buf : List UInt8} {stop p : Nat}

theorem skipAtom_smallint (n : Fin 32) :
    skipAtom buf stop (sexpTagSmallint ||| UInt8.ofNat n.val) p = p + 1 := by
  unfold skipAtom
  rw [(payload_masks n).1]
  rfl

theorem skipAtom_shortString (n : Fin 32) :
    skipAtom buf stop (sexpTagShortString ||| UInt8.ofNat n.val) p = p + 1 + n.val := by
  unfold skipAtom
  rw [(payload_masks n).2.1, (payload_masks n).2.2.1, toNat_ofNat_payload]
  rfl

/-- A varint after the tag byte at `p`, as an integer and a symbol reference write it: the
shared switch stops right after it. -/
theorem skipAtom_varint {tag : UInt8} {value : UInt64} {rest : List UInt8}
    (varint : skipAtom buf stop tag p = (decodeVarint buf stop (p + 1)).2)
    (placed : buf.drop p = tag :: (encodeVarint value ++ rest))
    (within : p + ((encodeVarint value).length + 1) ≤ stop) :
    skipAtom buf stop tag p = p + ((encodeVarint value).length + 1) := by
  rw [varint, decodeVarint_encodeVarint value (drop_succ_of_drop placed) (by omega)]
  exact Nat.add_right_comm p 1 _

/-- The switch both readers share steps over an atom written at `p`. -/
theorem skipAtom_encode {e : Elem} {rest : List UInt8} (atom : e.isList = false)
    (tagged : e.wellTagged = true) (small : e.encode.length < 2 ^ 64)
    (placed : buf.drop p = e.encode ++ rest) (within : p + e.encode.length ≤ stop) :
    skipAtom buf stop (e.encode.headD 0) p = p + e.encode.length := by
  cases e with
  | nil => show skipAtom buf stop sexpTagNil p = p + 1; rfl
  | smallInt n => exact skipAtom_smallint n
  | integer z =>
    show skipAtom buf stop sexpTagInteger p = _
    exact skipAtom_varint rfl placed within
  | symbolRef i =>
    show skipAtom buf stop sexpTagSymbolRef p = _
    exact skipAtom_varint rfl placed within
  | float bits =>
    show skipAtom buf stop sexpTagFloat p = p + ((leBytes bits.toNat 8).length + 1)
    rw [length_leBytes]
    rfl
  | shortString s =>
    have short : s.length < 32 := Nat.lt_succ_of_le (of_decide_eq_true tagged)
    exact (skipAtom_shortString ⟨s.length, short⟩).trans (Nat.add_right_comm p 1 _)
  | longString s =>
    have body : buf.drop (p + 1) = encodeVarint (UInt64.ofNat s.length) ++ (s ++ rest) := by
      rw [drop_succ_of_drop placed]
      exact List.append_assoc _ _ _
    have whole : p + ((encodeVarint (UInt64.ofNat s.length)).length + s.length + 1) ≤ stop ∧
        (encodeVarint (UInt64.ofNat s.length)).length + s.length + 1 < 2 ^ 64 := by
      rw [← List.length_append]
      exact ⟨within, small⟩
    have length : (UInt64.ofNat s.length).toNat = s.length :=
      UInt64.toNat_ofNat_of_lt (by unfold UInt64.size; omega)
    show skipAtom buf stop sexpTagLongString p = _
    show (decodeVarint buf stop (p + 1)).2 + (decodeVarint buf stop (p + 1)).1.toNat =
      p + ((encodeVarint (UInt64.ofNat s.length) ++ s).length + 1)
    rw [decodeVarint_encodeVarint _ body (by omega), length, List.length_append]
    omega
  | smallList _ | largeList _ _ => cases atom

end Atoms

/-! ## Lists -/

section Lists

variable {buf : List UInt8} {stop : Nat}

/-- The child loop of either reader, given that one turn steps over any child written where
it starts, steps over all the children. -/
theorem skipTimes_encode {skip : Nat → Nat} : ∀ {cs : List Elem} {p : Nat} {rest : List UInt8},
    buf.drop p = (cs.map Elem.encode).flatten ++ rest →
    p + ((cs.map Elem.encode).flatten).length ≤ stop →
    (∀ c ∈ cs, ∀ q rest', buf.drop q = c.encode ++ rest' → q + c.encode.length ≤ stop →
      skip q = q + c.encode.length) →
      skipTimes skip cs.length p = p + ((cs.map Elem.encode).flatten).length
  | [], _, _, _, _, _ => rfl
  | c :: cs, p, rest, placed, within, each => by
    rw [List.map_cons, List.flatten_cons, List.append_assoc] at placed
    rw [List.map_cons, List.flatten_cons, List.length_append] at within ⊢
    rw [List.length_cons, skipTimes, each c (List.mem_cons_self _ _) p _ placed (by omega),
      skipTimes_encode (drop_add_of_drop placed) (by omega)
        (fun d mem => each d (List.mem_cons_of_mem _ mem)), Nat.add_assoc]

/-- What both readers read of a small list: its tag byte, with the list tag and the count, and
its `payload_size`, whose varint ends where the children start. -/
theorem smallList_header {cs : List Elem} {p : Nat} {rest : List UInt8}
    (tagged : (Elem.smallList cs).wellTagged = true) (small : (Elem.smallList cs).encode.length < 2 ^ 64)
    (placed : buf.drop p = (Elem.smallList cs).encode ++ rest)
    (within : p + (Elem.smallList cs).encode.length ≤ stop) :
    let byte := buf.getD p 0
    let data := (cs.map Elem.encode).flatten
    byte &&& sexpTagMask = sexpTagList ∧ byte &&& sexpDataMask ≠ 0 ∧
      (byte &&& sexpDataMask).toNat = cs.length ∧
      decodeVarint buf stop (p + 1) =
        (UInt64.ofNat data.length, p + 1 + (encodeVarint (UInt64.ofNat data.length)).length) ∧
      (UInt64.ofNat data.length).toNat = data.length ∧
      buf.drop (p + 1 + (encodeVarint (UInt64.ofNat data.length)).length) = data ++ rest ∧
      p + 1 + (encodeVarint (UInt64.ofNat data.length)).length + data.length =
        p + (Elem.smallList cs).encode.length := by
  obtain ⟨count, shortList⟩ := of_decide_eq_true (Bool.and_eq_true_iff.1 tagged).1
  rw [Elem.encode_smallList] at placed within small ⊢
  rw [List.cons_append, List.append_assoc] at placed
  rw [List.length_cons, List.length_append] at within small ⊢
  obtain ⟨-, -, -, tag, payload⟩ := payload_masks ⟨cs.length, shortList⟩
  have data := drop_succ_of_drop placed
  refine ⟨?_, ?_, ?_, ?_, ?_, ?_, by omega⟩
  · rw [getD_eq_of_drop placed, tag]
  · rw [getD_eq_of_drop placed, payload]
    exact fun zero => absurd (congrArg UInt8.toNat zero) (by
      rw [toNat_ofNat_payload ⟨cs.length, shortList⟩]; exact Nat.pos_iff_ne_zero.1 count)
  · rw [getD_eq_of_drop placed, payload, toNat_ofNat_payload ⟨cs.length, shortList⟩]
  · rw [decodeVarint_encodeVarint _ data (by omega)]
  · exact UInt64.toNat_ofNat_of_lt (by unfold UInt64.size; omega)
  · exact drop_add_of_drop data

/-- What both readers read of a large list: the list tag with no count, the count, and the
SEntry table, which ends where the children start. -/
theorem largeList_header {hash : UInt32} {cs : List Elem} {p : Nat} {rest : List UInt8}
    (tagged : (Elem.largeList hash cs).wellTagged = true)
    (placed : buf.drop p = (Elem.largeList hash cs).encode ++ rest) :
    let byte := buf.getD p 0
    let data := (cs.map Elem.encode).flatten
    byte &&& sexpTagMask = sexpTagList ∧ byte &&& sexpDataMask = 0 ∧
      (loadUint32 buf (p + 1)).toNat = cs.length ∧
      buf.drop (p + 1 + 4 + 4 + cs.length * 4) = data ++ rest ∧
      p + 1 + 4 + 4 + cs.length * 4 + data.length = p + (Elem.largeList hash cs).encode.length := by
  have count : cs.length < 2 ^ 32 := of_decide_eq_true (Bool.and_eq_true_iff.1 tagged).1
  rw [Elem.encode_largeList] at placed ⊢
  rw [List.cons_append] at placed
  have header := drop_succ_of_drop placed
  rw [List.append_assoc, List.append_assoc, List.append_assoc] at header
  have counted : leBytes cs.length 4 = leBytes (UInt32.ofNat cs.length).toNat 4 := by
    rw [UInt32.toNat_ofNat_of_lt (by unfold UInt32.size; omega)]
  rw [counted] at header
  have afterTable := drop_add_of_drop (drop_add_of_drop (drop_add_of_drop header))
  simp only [length_leBytes, length_flatMap_leBytes, length_encodeChildren_fst] at afterTable
  refine ⟨by rw [getD_eq_of_drop placed]; rfl, by rw [getD_eq_of_drop placed]; rfl, ?_, ?_, ?_⟩
  · rw [loadUint32_leBytes _ header, UInt32.toNat_ofNat_of_lt (by unfold UInt32.size; omega)]
  · rwa [Nat.mul_comm] at afterTable
  · simp only [List.length_cons, List.length_append, length_leBytes, length_flatMap_leBytes,
      length_encodeChildren_fst]
    omega

end Lists

/-! ## The two readers -/

section Readers

variable {buf : List UInt8} {stop : Nat}

/-- A child of a list whose bytes fit in `fuel + 1` fits in `fuel`, and in a `uint64`. -/
theorem child_bounds {e c : Elem} {fuel : Nat} (mem : c ∈ e.children)
    (small : e.encode.length < 2 ^ 64) (enough : e.encode.length ≤ fuel + 1) :
    c.encode.length < 2 ^ 64 ∧ c.encode.length ≤ fuel := by
  have inData := length_encode_le_of_mem mem
  have shorter := Elem.length_data_lt e
  constructor <;> omega

/-- `skip_element`, with fuel for the element's bytes, steps from where an element's bytes
start to where they end. -/
theorem skipElement_encode : ∀ {fuel : Nat} {e : Elem} {p : Nat} {rest : List UInt8},
    e.wellTagged = true → e.encode.length < 2 ^ 64 → e.encode.length ≤ fuel →
    buf.drop p = e.encode ++ rest → p + e.encode.length ≤ stop →
      skipElement buf stop fuel p = p + e.encode.length
  | 0, e, _, _, _, _, enough, _, _ => absurd enough (Nat.not_le_of_lt e.length_encode_pos)
  | fuel + 1, e, p, rest, tagged, small, enough, placed, within => by
    rw [skipElement, if_pos (Nat.lt_of_lt_of_le (Nat.lt_add_of_pos_right e.length_encode_pos) within)]
    dsimp only
    cases e with
    | smallList cs =>
      obtain ⟨tag, payload, -, varint, size, -, total⟩ := smallList_header tagged small placed within
      rw [if_pos tag, if_neg payload, varint]
      dsimp only
      rw [size, total]
    | largeList hash cs =>
      obtain ⟨tag, payload, count, children, total⟩ := largeList_header tagged placed
      rw [if_pos tag, if_pos payload, count, skipTimes_encode children (by omega)
        fun c mem q rest' placed' within' =>
          have bounds := child_bounds mem small enough
          skipElement_encode (Elem.wellTagged_of_mem tagged mem) bounds.1 bounds.2 placed' within',
        total]
    | _ =>
      rw [Elem.getD_eq_headD_encode placed, if_neg (tag_headD_encode_ne_list tagged rfl)]
      exact skipAtom_encode rfl tagged small placed within

/-- `skip_element_internal`, with fuel for the element's bytes, steps from where an element's
bytes start to where they end. -/
theorem skipElementInternal_encode : ∀ {fuel : Nat} {e : Elem} {p : Nat} {rest : List UInt8},
    e.wellTagged = true → e.encode.length < 2 ^ 64 → e.encode.length ≤ fuel →
    buf.drop p = e.encode ++ rest → p + e.encode.length ≤ stop →
      skipElementInternal buf stop fuel p = p + e.encode.length
  | 0, e, _, _, _, _, enough, _, _ => absurd enough (Nat.not_le_of_lt e.length_encode_pos)
  | fuel + 1, e, p, rest, tagged, small, enough, placed, within => by
    rw [skipElementInternal,
      if_pos (Nat.lt_of_lt_of_le (Nat.lt_add_of_pos_right e.length_encode_pos) within)]
    dsimp only
    have each : ∀ c ∈ e.children, ∀ q rest', buf.drop q = c.encode ++ rest' →
        q + c.encode.length ≤ stop → skipElementInternal buf stop fuel q = q + c.encode.length :=
      fun c mem q rest' placed' within' =>
        have bounds := child_bounds mem small enough
        skipElementInternal_encode (Elem.wellTagged_of_mem tagged mem) bounds.1 bounds.2 placed'
          within'
    cases e with
    | smallList cs =>
      obtain ⟨tag, payload, count, varint, -, children, total⟩ :=
        smallList_header tagged small placed within
      rw [if_pos tag, if_neg payload]
      dsimp only
      rw [count, varint]
      dsimp only
      rw [skipTimes_encode children (by omega) each, total]
    | largeList hash cs =>
      obtain ⟨tag, payload, count, children, total⟩ := largeList_header tagged placed
      rw [if_pos tag, if_pos payload]
      dsimp only
      rw [count, skipTimes_encode children (by omega) each, total]
    | _ =>
      rw [Elem.getD_eq_headD_encode placed, if_neg (tag_headD_encode_ne_list tagged rfl)]
      exact skipAtom_encode rfl tagged small placed within

end Readers

/-! ## Every element of a value -/

theorem Elem.encode_infix_of_subtree {d e : Elem} (sub : d.Subtree e) :
    d.encode <:+: e.encode := by
  induction sub with
  | refl => exact List.infix_refl _
  | child mem _ inner => exact inner.trans (Elem.encode_infix_of_mem mem)

theorem Elem.wellTagged_of_subtree {d e : Elem} (tagged : e.wellTagged = true)
    (sub : d.Subtree e) : d.wellTagged = true := by
  induction sub with
  | refl => exact tagged
  | child mem _ inner => exact inner (Elem.wellTagged_of_mem tagged mem)

/-- In a value whose tag bytes are well formed, every element inside it has its bytes at some
position of the buffer, and from every position where they are, `sexp_skip_element` and
`skip_element_internal` both step to the end of them. -/
theorem skipElement_agrees_with_skipElementInternal (v : Sexp) (tagged : v.root.wellTagged = true)
    (small : v.bytes.length < 2 ^ 64) {d : Elem} (inside : d.Subtree v.root) :
    (∃ p rest, v.bytes.drop p = d.encode ++ rest) ∧
      ∀ p rest, v.bytes.drop p = d.encode ++ rest →
        sexpSkipElement v.bytes p v.bytes.length = p + d.encode.length ∧
          ∀ fuel, d.encode.length ≤ fuel →
            skipElement v.bytes v.bytes.length fuel p = p + d.encode.length ∧
              skipElementInternal v.bytes v.bytes.length fuel p = p + d.encode.length := by
  obtain ⟨before, after, whole⟩ :=
    (Elem.encode_infix_of_subtree inside).trans v.root_suffix_bytes.isInfix
  have dTagged := Elem.wellTagged_of_subtree tagged inside
  refine ⟨⟨before.length, after, by rw [← whole, List.append_assoc, List.drop_left]⟩,
    fun p rest placed => ?_⟩
  have within : p + d.encode.length ≤ v.bytes.length := by
    have lengths := congrArg List.length placed
    rw [List.length_drop, List.length_append] at lengths
    have := d.length_encode_pos
    omega
  have dSmall : d.encode.length < 2 ^ 64 := Nat.lt_of_le_of_lt (by omega) small
  have both : ∀ fuel, d.encode.length ≤ fuel →
      skipElement v.bytes v.bytes.length fuel p = p + d.encode.length ∧
        skipElementInternal v.bytes v.bytes.length fuel p = p + d.encode.length :=
    fun _ enough => ⟨skipElement_encode dTagged dSmall enough placed within,
      skipElementInternal_encode dTagged dSmall enough placed within⟩
  exact ⟨(both _ (by omega)).1, both⟩

/-- `(1 2)` as `sexp_parse` writes it, read from its root. -/
theorem skipElement_agrees_with_skipElementInternal_pair :
    let v : Sexp := ⟨[], .smallList [.smallInt 17, .smallInt 18]⟩
    v.root.wellTagged = true ∧ v.bytes.length < 2 ^ 64 ∧
      ((∃ p rest, v.bytes.drop p = v.root.encode ++ rest) ∧
        ∀ p rest, v.bytes.drop p = v.root.encode ++ rest →
          sexpSkipElement v.bytes p v.bytes.length = p + v.root.encode.length ∧
            ∀ fuel, v.root.encode.length ≤ fuel →
              skipElement v.bytes v.bytes.length fuel p = p + v.root.encode.length ∧
                skipElementInternal v.bytes v.bytes.length fuel p = p + v.root.encode.length) :=
  ⟨by decide, by decide,
    skipElement_agrees_with_skipElementInternal _ (by decide) (by decide) .refl⟩

end PgSexp
