import PgSexp.Varint
import PgSexp.Recv
import PgSexp.Skip
import PgSexp.Ops

/-!
# The list accessors on the stored bytes

`sexp_car`, `sexp_nth`, `sexp_length` and `sexp_cdr` (`pg_sexp.c`) read the bytes of a value
with a `SexpReadState`: the root's tag byte, then the list header, which `decode_list_header`
decodes whole and `decode_list_car_fast` only as far as the first child, and the bounds of a
child, which `get_element_bounds` takes from the SEntry table of a large list and finds by
`skip_element` in a small one.  `extract_element_fast` returns a child as a value of its own:
the parent's version and symbol table, found by walking the symbol lengths, then the child's
bytes.  `sexp_cdr` writes a new value: the symbol table again, from the read state, and the
remaining children, under a small-list header or a large one whose SEntry table it rebuilds
by scanning the copied children.

On the bytes of a value whose tag bytes say what follows them, each of them returns the
bytes of what the accessor of `PgSexp.Ops` returns on the decoded value.  This needs every
count and length to fit the `int` the readers cast it to, and, for a large list, every
child's offset to fit the 28 offset bits of its SEntry: below `2 ^ 28` bytes in all, both
hold.
-/

namespace PgSexp

/-- The C conversion of an `int` to a `uint64`: modulo `2 ^ 64`. -/
def uint64OfInt (n : Int) : UInt64 := UInt64.ofNat (n % 2 ^ 64).toNat

/-- The symbol table of a value as `sexp_parse` writes it: each symbol's length as a varint,
then its bytes. -/
def symbolTableBytes (syms : List (List UInt8)) : List UInt8 :=
  syms.flatMap fun s => encodeVarint (UInt64.ofNat s.length) ++ s

/-- The version and the symbol table: the bytes of a value before its root element. -/
def Sexp.header (v : Sexp) : List UInt8 :=
  sexpFormatVersion :: (encodeVarint (UInt64.ofNat v.symbols.length) ++ symbolTableBytes v.symbols)

theorem Sexp.bytes_eq_header_append (v : Sexp) : v.bytes = v.header ++ v.root.encode := rfl

/-- Where `init_read_state_internal` finds each symbol of a table written from `p` on: the
position of its first byte, after its length, and its length. -/
def symbolSpans : List (List UInt8) → Nat → List (Nat × Int)
  | [], _ => []
  | s :: syms, p =>
    let start := p + (encodeVarint (UInt64.ofNat s.length)).length
    (start, s.length) :: symbolSpans syms (start + s.length)

/-- The read state `init_read_state_internal` leaves for the bytes of a value: the root right
after the header, and the span of each symbol. -/
def Sexp.readState (v : Sexp) : ReadState :=
  ⟨v.bytes.length, v.header.length, v.symbols.length,
    symbolSpans v.symbols (1 + (encodeVarint (UInt64.ofNat v.symbols.length)).length)⟩

@[simp] theorem Sexp.readState_stop (v : Sexp) : v.readState.stop = v.bytes.length := rfl
@[simp] theorem Sexp.readState_ptr (v : Sexp) : v.readState.ptr = v.header.length := rfl
@[simp] theorem Sexp.readState_symCount (v : Sexp) : v.readState.symCount = v.symbols.length := rfl
@[simp] theorem Sexp.readState_symbols (v : Sexp) :
    v.readState.symbols = symbolSpans v.symbols (1 + (encodeVarint (UInt64.ofNat v.symbols.length)).length) :=
  rfl

namespace Bytes

/-- The text of symbol `i` of a read state: the `sym_lengths[i]` bytes at `symbols[i]`. -/
def symbolText (data : List UInt8) (state : ReadState) (i : Nat) : Option (List UInt8) :=
  state.symbols[i]?.map fun span => (data.drop span.1).take span.2.toNat

/-- The bytes from `elemStart` up to `elemEnd`, as `memcpy` and `appendBinaryStringInfo`
copy them. -/
def sliceBytes (data : List UInt8) (elemStart elemEnd : Nat) : List UInt8 :=
  (data.drop elemStart).take (elemEnd - elemStart)

/-- `ListHeader`: the count, the SEntry table of a large list (`NULL` for a small one) and
where the children start.  The structural hash and `is_large`, which no caller reads, are
left out. -/
structure ListHeader where
  count : Nat
  sentries : Option Nat
  dataStart : Nat
  deriving DecidableEq, Repr

/-- `decode_list_header`, with the tag byte read and `ptr` after it.  A small list's count is
in its tag byte, and its children start after its `payload_size`; a large list's count is the
`uint32` after the tag byte, and its children start after the hash and the SEntry table. -/
def decodeListHeader (buf : List UInt8) (stop : Nat) (tagByte : UInt8) (ptr : Nat) :
    ListHeader :=
  let count := (tagByte &&& sexpDataMask).toNat
  if count = 0 then
    let cnt32 := (loadUint32 buf ptr).toNat
    ⟨cnt32, some (ptr + 4 + 4), ptr + 4 + 4 + cnt32 * 4⟩
  else ⟨count, none, (decodeVarint buf stop ptr).2⟩

/-- The loop of `decode_list_car_fast` over the size varint of a small list: past each byte
with the continuation bit, then past the last byte, never past `stop`.  It runs with `stop - p`
turns of fuel, one for each byte it may step over. -/
def skipVarintBytes (buf : List UInt8) (stop : Nat) : Nat → Nat → Nat
  | 0, p => p
  | fuel + 1, p =>
    if p < stop ∧ buf.getD p 0 &&& 0x80 ≠ 0 then skipVarintBytes buf stop fuel (p + 1)
    else if p < stop then p + 1
    else p

/-- `decode_list_car_fast`: where the first child starts, `NULL` for an empty large list,
and the count.  A large list's first child is where its first SEntry says. -/
def decodeListCarFast (buf : List UInt8) (stop : Nat) (tagByte : UInt8) (ptr : Nat) :
    Option Nat × Nat :=
  let count := (tagByte &&& sexpDataMask).toNat
  if count = 0 then
    let cnt32 := (loadUint32 buf ptr).toNat
    if cnt32 = 0 then (none, 0)
    else
      let sentries := ptr + 4 + 4
      let dataStart := sentries + cnt32 * 4
      (some (dataStart + (sentryGetOffset (loadUint32 buf sentries)).toNat), cnt32)
  else (some (skipVarintBytes buf stop (stop - ptr) ptr), count)

/-- `get_element_bounds`: where child `idx` starts and ends.  In a large list both come from
the SEntry table, the end of the last child being `end`; in a small list `skip_element`
steps over the children before it, then over it. -/
def getElementBounds (buf : List UInt8) (hdr : ListHeader) (idx stop : Nat) : Nat × Nat :=
  match hdr.sentries with
  | some sentries =>
    let offset := fun i => (sentryGetOffset (loadUint32 buf (sentries + i * 4))).toNat
    (hdr.dataStart + offset idx,
      if ((idx + 1 : Nat) : Int) < int32OfCount hdr.count then hdr.dataStart + offset (idx + 1)
      else stop)
  | none =>
    let elemStart := skipTimes (fun p => sexpSkipElement buf p stop) idx hdr.dataStart
    (elemStart, sexpSkipElement buf elemStart stop)

/-- `extract_element_fast`: the parent's version and symbol table, as far as its symbol count
and lengths say, then the bytes of the element. -/
def extractElementFast (parent : List UInt8) (elemStart elemEnd : Nat) : List UInt8 :=
  let symCount := decodeVarint parent parent.length 1
  let headerSize :=
    (readSymbols parent parent.length (int32OfUInt64 symCount.1).toNat symCount.2).2
  parent.take headerSize ++ sliceBytes parent elemStart elemEnd

/-- The root's tag byte, once `sexp_init_read_state` has read the header: `none` when the
data ends before it. -/
def rootTagByte (data : List UInt8) (state : ReadState) : Option UInt8 :=
  if state.ptr < state.stop then some (data.getD state.ptr 0) else none

/-- `sexp_length`: `0` for NIL or no element, `1` for an atom, the count of a list as an
`int32`. -/
def sexpLength (data : List UInt8) : Except SqlError Int := do
  let state ← initReadStateInternal data
  match rootTagByte data state with
  | none => pure 0
  | some byte =>
    let tag := byte &&& sexpTagMask
    if tag = sexpTagNil then pure 0
    else if tag ≠ sexpTagList then pure 1
    else
      let count := (byte &&& sexpDataMask).toNat
      let count := if count = 0 then (loadUint32 data (state.ptr + 1)).toNat else count
      pure (int32OfCount count)

/-- `sexp_car`: the first child, with the parent's header, found by `decode_list_car_fast`
and ended by `skip_element`. -/
def sexpCar (data : List UInt8) : Except SqlError (Option (List UInt8)) := do
  let state ← initReadStateInternal data
  match rootTagByte data state with
  | none => pure none
  | some byte =>
    let tag := byte &&& sexpTagMask
    if tag = sexpTagNil then pure none
    else if tag ≠ sexpTagList then throw ⟨.datatypeMismatch, "car requires a list"⟩
    else
      match decodeListCarFast data state.stop byte (state.ptr + 1) with
      | (some elemStart, count) =>
        if count = 0 then pure none
        else pure (some (extractElementFast data elemStart
          (sexpSkipElement data elemStart state.stop)))
      | (none, _) => pure none

/-- `sexp_head`, an alias of `sexp_car`. -/
def sexpHead (data : List UInt8) : Except SqlError (Option (List UInt8)) := sexpCar data

/-- `sexp_nth`: `NULL` for a negative index before anything is read, the value itself for
index `0` of an atom, and otherwise child `n`, bounded by `get_element_bounds`. -/
def sexpNth (data : List UInt8) (n : Int) : Except SqlError (Option (List UInt8)) :=
  if n < 0 then pure none
  else do
    let state ← initReadStateInternal data
    match rootTagByte data state with
    | none => pure none
    | some byte =>
      let tag := byte &&& sexpTagMask
      if tag = sexpTagNil then pure none
      else if tag ≠ sexpTagList then pure (if n = 0 then some data else none)
      else
        let hdr := decodeListHeader data state.stop byte (state.ptr + 1)
        if hdr.count ≤ n.toNat then pure none
        else
          let bounds := getElementBounds data hdr n.toNat state.stop
          pure (some (extractElementFast data bounds.1 bounds.2))

/-- `sexp_get_nil_singleton`: version, no symbols, NIL. -/
def sexpGetNilSingleton : List UInt8 := [sexpFormatVersion, 0, sexpTagNil]

/-- The version and the symbol table `sexp_cdr` writes from its read state: the count, then
each symbol's length and the bytes it spans. -/
def cdrHeader (data : List UInt8) (state : ReadState) : List UInt8 :=
  sexpFormatVersion :: (encodeVarint (uint64OfInt state.symCount) ++
    state.symbols.flatMap fun span =>
      encodeVarint (uint64OfInt span.2) ++ (data.drop span.1).take span.2.toNat)

/-- The rescan of `sexp_cdr` over the copied children: the SEntry of each of `count`
children from `scan` on, made from its first byte by the switch of
`get_sentry_type_from_byte` and from its offset, the next child being where `skip_element`
stops. -/
def cdrSentries (elems : List UInt8) : Nat → Nat → List UInt32
  | 0, _ => []
  | count + 1, scan =>
    sentryMake (getSentryTypeFromByte (elems.getD scan 0)) scan ::
      cdrSentries elems count (sexpSkipElement elems scan elems.length)

/-- The list `sexp_cdr` writes of `newCount` copied children: with its count in the tag byte
and its `payload_size` when at most `SEXP_SMALL_LIST_MAX`, and otherwise with its count, the
placeholder hash `dummy_hash = 0` and the rebuilt SEntry table. -/
def cdrListBytes (newCount : Nat) (elems : List UInt8) : List UInt8 :=
  if newCount ≤ sexpSmallListMax then
    (sexpTagList ||| UInt8.ofNat newCount) :: writeVarint [] (UInt64.ofNat elems.length) ++ elems
  else
    sexpTagList :: (leBytes newCount 4 ++ leBytes 0 4 ++
      (cdrSentries elems newCount 0).flatMap (fun se => leBytes se.toNat 4) ++ elems)

/-- `sexp_cdr`: NIL for a list of at most one child, and otherwise the symbol table and the
children after the first, copied one by one within the bounds `get_element_bounds` gives. -/
def sexpCdr (data : List UInt8) : Except SqlError (Option (List UInt8)) := do
  let state ← initReadStateInternal data
  match rootTagByte data state with
  | none => pure none
  | some byte =>
    let tag := byte &&& sexpTagMask
    if tag = sexpTagNil then pure none
    else if tag ≠ sexpTagList then throw ⟨.datatypeMismatch, "cdr requires a list"⟩
    else
      let hdr := decodeListHeader data state.stop byte (state.ptr + 1)
      if hdr.count ≤ 1 then pure (some sexpGetNilSingleton)
      else
        let elems := (List.range' 1 (hdr.count - 1)).flatMap fun i =>
          let bounds := getElementBounds data hdr i state.stop
          sliceBytes data bounds.1 bounds.2
        pure (some (cdrHeader data state ++ cdrListBytes (hdr.count - 1) elems))

end Bytes

/-! ## The header of a value -/

section Casts

theorem uint64OfInt_natCast (n : Nat) : uint64OfInt n = UInt64.ofNat n := by
  have low : ((n : Int) % 2 ^ 64).toNat = n % 2 ^ 64 := by omega
  rw [uint64OfInt, low]
  exact UInt64.toNat.inj (Nat.mod_mod _ _)

theorem int32OfUInt64_ofNat {n : Nat} (fits : n < 2 ^ 31) : int32OfUInt64 (UInt64.ofNat n) = n := by
  rw [int32OfUInt64, UInt64.toNat_ofNat_of_lt (by unfold UInt64.size; omega),
    Nat.mod_eq_of_lt (by omega), if_pos fits]

theorem int32OfCount_of_lt {count : Nat} (fits : count < 2 ^ 31) : int32OfCount count = count := by
  rw [int32OfCount, if_pos (by omega)]
  omega

end Casts

section SymbolTable

variable {buf rest : List UInt8} {stop : Nat}

theorem symbolTableBytes_cons (s : List UInt8) (syms : List (List UInt8)) :
    symbolTableBytes (s :: syms) = encodeVarint (UInt64.ofNat s.length) ++ (s ++ symbolTableBytes syms) :=
  List.append_assoc _ _ _

theorem length_le_length_symbolTableBytes {s : List UInt8} :
    ∀ {syms : List (List UInt8)}, s ∈ syms → s.length ≤ (symbolTableBytes syms).length
  | t :: syms, mem => by
    rw [symbolTableBytes_cons, List.length_append, List.length_append]
    rcases List.mem_cons.1 mem with rfl | later
    · omega
    · have := length_le_length_symbolTableBytes later
      omega

/-- The symbol loop of `init_read_state_internal` reads a table `sexp_parse` wrote: it
records where each symbol starts and its length, and stops after the last one. -/
theorem readSymbols_symbolTableBytes : ∀ (syms : List (List UInt8)) (p : Nat),
    buf.drop p = symbolTableBytes syms ++ rest → p + (symbolTableBytes syms).length ≤ stop →
    (∀ s ∈ syms, s.length < 2 ^ 31) →
      readSymbols buf stop syms.length p = (symbolSpans syms p, p + (symbolTableBytes syms).length)
  | [], p, _, _, _ => rfl
  | s :: syms, p, placed, within, short => by
    have fits := short s (List.mem_cons_self _ _)
    rw [symbolTableBytes_cons, List.append_assoc, List.append_assoc] at placed
    rw [symbolTableBytes_cons, List.length_append, List.length_append] at within ⊢
    have body := drop_add_of_drop placed
    rw [List.length_cons, readSymbols, decodeVarint_encodeVarint _ placed (by omega)]
    dsimp only
    rw [UInt64.toNat_ofNat_of_lt (by unfold UInt64.size; omega), int32OfUInt64_ofNat fits,
      readSymbols_symbolTableBytes syms _ (drop_add_of_drop body) (by omega)
        fun t mem => short t (List.mem_cons_of_mem _ mem)]
    simp only [symbolSpans, Nat.add_assoc]

/-- The spans `init_read_state_internal` records, written back as `sexp_cdr` writes them,
are the table they were read from. -/
theorem flatMap_symbolSpans : ∀ (syms : List (List UInt8)) (p : Nat),
    buf.drop p = symbolTableBytes syms ++ rest →
      (symbolSpans syms p).flatMap (fun span =>
        encodeVarint (uint64OfInt span.2) ++ (buf.drop span.1).take span.2.toNat) =
        symbolTableBytes syms
  | [], _, _ => rfl
  | s :: syms, p, placed => by
    rw [symbolTableBytes_cons, List.append_assoc, List.append_assoc] at placed
    have body := drop_add_of_drop placed
    rw [symbolSpans, List.flatMap_cons, symbolTableBytes_cons]
    dsimp only
    rw [uint64OfInt_natCast, Int.toNat_ofNat, body, List.take_left,
      flatMap_symbolSpans syms _ (drop_add_of_drop body), List.append_assoc]

/-- The spans `init_read_state_internal` records hold the symbols they were read from. -/
theorem map_symbolSpans : ∀ (syms : List (List UInt8)) (p : Nat),
    buf.drop p = symbolTableBytes syms ++ rest →
      (symbolSpans syms p).map (fun span => (buf.drop span.1).take span.2.toNat) = syms
  | [], _, _ => rfl
  | s :: syms, p, placed => by
    rw [symbolTableBytes_cons, List.append_assoc, List.append_assoc] at placed
    have body := drop_add_of_drop placed
    rw [symbolSpans, List.map_cons]
    dsimp only
    rw [Int.toNat_ofNat, body, List.take_left, map_symbolSpans syms _ (drop_add_of_drop body)]

end SymbolTable

theorem Sexp.length_header (v : Sexp) :
    v.header.length = 1 + (encodeVarint (UInt64.ofNat v.symbols.length)).length + (symbolTableBytes v.symbols).length := by
  rw [Sexp.header, List.length_cons, List.length_append]
  omega

theorem Sexp.length_bytes (v : Sexp) : v.bytes.length = v.header.length + v.root.encode.length := by
  rw [Sexp.bytes_eq_header_append, List.length_append]

/-- The symbol table of a value starts after its version and its count. -/
theorem Sexp.drop_symbolTable (v : Sexp) :
    v.bytes.drop (1 + (encodeVarint (UInt64.ofNat v.symbols.length)).length) = symbolTableBytes v.symbols ++ v.root.encode := by
  rw [← List.drop_drop]
  show List.drop _ (encodeVarint _ ++ symbolTableBytes v.symbols ++ v.root.encode) = _
  rw [List.append_assoc, List.drop_left]

theorem Sexp.drop_header (v : Sexp) : v.bytes.drop v.header.length = v.root.encode ++ [] := by
  rw [List.append_nil, Sexp.bytes_eq_header_append, List.drop_left]

/-- Where a value's symbol table ends, with every symbol recorded: what the loops of
`init_read_state_internal` and `extract_element_fast` find in a value below `2 ^ 31` bytes. -/
theorem Sexp.readSymbols_bytes (v : Sexp) (fits : v.bytes.length < 2 ^ 31) :
    decodeVarint v.bytes v.bytes.length 1 = (UInt64.ofNat v.symbols.length, 1 + (encodeVarint (UInt64.ofNat v.symbols.length)).length) ∧
      int32OfUInt64 (UInt64.ofNat v.symbols.length) = v.symbols.length ∧
      readSymbols v.bytes v.bytes.length v.symbols.length (1 + (encodeVarint (UInt64.ofNat v.symbols.length)).length) =
        (symbolSpans v.symbols (1 + (encodeVarint (UInt64.ofNat v.symbols.length)).length), v.header.length) := by
  have lengths := v.length_bytes
  have header := v.length_header
  have count := v.symbols_add_three_le
  refine ⟨decodeVarint_encodeVarint _ (by rw [List.drop_one]; exact List.append_assoc _ _ _)
    (by omega), int32OfUInt64_ofNat (by omega), ?_⟩
  rw [readSymbols_symbolTableBytes _ _ v.drop_symbolTable (by omega)
    fun s mem => by have := length_le_length_symbolTableBytes mem; omega, header]

/-- `init_read_state_internal` on the bytes of a value below `2 ^ 31` bytes: it accepts the
version, finds every symbol, and leaves `ptr` at the root element. -/
theorem initReadStateInternal_bytes (v : Sexp) (fits : v.bytes.length < 2 ^ 31) :
    initReadStateInternal v.bytes = .ok v.readState := by
  obtain ⟨count, cast, table⟩ := v.readSymbols_bytes fits
  have positive : ∀ {n : Nat} {table : List (Nat × Int) × Nat}, readSymbols v.bytes v.bytes.length n
      (1 + (encodeVarint (UInt64.ofNat v.symbols.length)).length) = table →
      (if 0 < (n : Int) then readSymbols v.bytes v.bytes.length (n : Int).toNat (1 + (encodeVarint (UInt64.ofNat v.symbols.length)).length)
        else ([], 1 + (encodeVarint (UInt64.ofNat v.symbols.length)).length)) = table := by
    rintro (_ | n) _ rfl
    · rfl
    · rw [if_pos (by omega), Int.toNat_ofNat]
  show (do sexpCheckVersion sexpFormatVersion; _) = _
  simp only [count, cast, positive table]
  rfl

/-! ## Reading a list -/

section Offsets

theorem childOffset_eq_length (cs : List Elem) (i : Nat) :
    childOffset cs i = (((cs.take i).map Elem.encode).flatten).length := by
  rw [childOffset, List.length_flatten, List.map_map]
  rfl

theorem childOffset_succ : ∀ {cs : List Elem} {i : Nat} {c : Elem}, cs[i]? = some c →
    childOffset cs (i + 1) = childOffset cs i + c.encode.length
  | c :: cs, 0, _, found => by
    rw [List.getElem?_cons_zero] at found
    cases found
    rw [childOffset_cons_succ]
    show c.encode.length + 0 = 0 + c.encode.length
    omega
  | d :: cs, i + 1, _, found => by
    rw [List.getElem?_cons_succ] at found
    rw [childOffset_cons_succ, childOffset_succ found, childOffset_cons_succ, Nat.add_assoc]

theorem childOffset_le (cs : List Elem) (i : Nat) :
    childOffset cs i ≤ ((cs.map Elem.encode).flatten).length := by
  rw [childOffset_eq_length]
  conv_rhs => rw [← List.take_append_drop i cs]
  rw [List.map_append, List.flatten_append, List.length_append]
  exact Nat.le_add_right _ _

theorem childOffset_length (cs : List Elem) :
    childOffset cs cs.length = ((cs.map Elem.encode).flatten).length := by
  rw [childOffset_eq_length, List.take_length]

end Offsets

section Lists

variable {buf rest : List UInt8} {stop p : Nat}

/-- `skip_element` from where a child's bytes start, with the fuel `sexp_skip_element`
gives it. -/
theorem sexpSkipElement_encode {c : Elem} (tagged : c.wellTagged = true)
    (small : c.encode.length < 2 ^ 64) (placed : buf.drop p = c.encode ++ rest)
    (within : p + c.encode.length ≤ stop) : sexpSkipElement buf p stop = p + c.encode.length :=
  skipElement_encode tagged small (by omega) placed within

/-- The loop of `decode_list_car_fast` steps over the last byte of a varint. -/
theorem skipVarintBytes_last {value : Nat} (last : value < 128)
    (placed : buf.drop p = [UInt8.ofNat value] ++ rest) (within : p + 1 ≤ stop) :
    Bytes.skipVarintBytes buf stop (stop - p) p = p + 1 := by
  obtain ⟨lastBit, -⟩ := lastByte_masks ⟨value, last⟩
  obtain ⟨fuel, fuelEq⟩ : ∃ fuel, stop - p = fuel + 1 := ⟨stop - p - 1, by omega⟩
  rw [fuelEq, Bytes.skipVarintBytes, getD_eq_of_drop placed, if_neg (fun h => h.2 lastBit),
    if_pos (by omega)]

/-- The loop of `decode_list_car_fast` steps over a varint `encode_varint` wrote: over each
byte with the continuation bit, then over the last. -/
theorem skipVarintBytes_encodeVarintLoop : ∀ (f : Nat) (value : UInt64) (p : Nat),
    value.toNat < 128 ^ (f + 1) → buf.drop p = encodeVarintLoop f value ++ rest →
    p + (encodeVarintLoop f value).length ≤ stop →
      Bytes.skipVarintBytes buf stop (stop - p) p = p + (encodeVarintLoop f value).length := by
  intro f
  induction f with
  | zero =>
    intro value p fits placed within
    rw [Nat.zero_add, pow_one] at fits
    rw [encodeVarintLoop_last fits] at placed within ⊢
    exact skipVarintBytes_last fits placed within
  | succ f inductionHypothesis =>
    intro value p fits placed within
    by_cases last : value.toNat < 128
    · rw [encodeVarintLoop_last last] at placed within ⊢
      exact skipVarintBytes_last last placed within
    · rw [encodeVarintLoop_more last, List.cons_append] at placed
      rw [encodeVarintLoop_more last, List.length_cons] at within ⊢
      obtain ⟨continues, -⟩ := continuationByte_masks value.toUInt8
      have fuelEq : stop - p = (stop - (p + 1)) + 1 := by omega
      rw [fuelEq, Bytes.skipVarintBytes, getD_eq_of_drop placed, if_pos ⟨by omega, continues⟩,
        inductionHypothesis _ _ (by rw [toNat_shiftRight_seven]; omega) (drop_succ_of_drop placed)
          (by omega)]
      omega

theorem skipVarintBytes_encodeVarint (value : UInt64) (placed : buf.drop p = encodeVarint value ++ rest)
    (within : p + (encodeVarint value).length ≤ stop) :
    Bytes.skipVarintBytes buf stop (stop - p) p = p + (encodeVarint value).length :=
  skipVarintBytes_encodeVarintLoop 9 value p
    (Nat.lt_of_lt_of_le value.toNat_lt_size (by decide)) placed within

/-- The word at `q + i * 4` of a table of `uint32` words written from `q` on is word `i`. -/
theorem loadUint32_flatMap_leBytes : ∀ {sentries : List UInt32} {i q : Nat} {se : UInt32},
    sentries[i]? = some se → buf.drop q = sentries.flatMap (fun se => leBytes se.toNat 4) ++ rest →
      loadUint32 buf (q + i * 4) = se
  | t :: _, 0, q, se, found, placed => by
    rw [List.getElem?_cons_zero] at found
    cases found
    rw [List.flatMap_cons, List.append_assoc] at placed
    exact loadUint32_leBytes _ placed
  | t :: sentries, i + 1, q, se, found, placed => by
    rw [List.getElem?_cons_succ] at found
    rw [List.flatMap_cons, List.append_assoc] at placed
    have later := drop_add_of_drop placed
    rw [length_leBytes] at later
    rw [show q + (i + 1) * 4 = q + 4 + i * 4 by omega]
    exact loadUint32_flatMap_leBytes found later

/-- The SEntry table of a large list starts after its count and its hash. -/
theorem largeList_sentries {hash : UInt32} {cs : List Elem}
    (placed : buf.drop p = (Elem.largeList hash cs).encode ++ rest) :
    buf.drop (p + 1 + 4 + 4) = (encodeChildren cs 0).1.flatMap (fun se => leBytes se.toNat 4) ++
      ((cs.map Elem.encode).flatten ++ rest) := by
  rw [Elem.encode_largeList, List.cons_append] at placed
  have header := drop_succ_of_drop placed
  simp only [List.append_assoc] at header
  have table := drop_add_of_drop (drop_add_of_drop header)
  rwa [length_leBytes, length_leBytes] at table

/-- The offset the SEntry of child `i` keeps is the child's offset, below `2 ^ 28`. -/
theorem sentryOffset_encodeChildren {cs : List Elem} {i q : Nat} {c : Elem}
    (found : cs[i]? = some c) (before : childOffset cs i < 2 ^ 28)
    (placed : buf.drop q = (encodeChildren cs 0).1.flatMap (fun se => leBytes se.toNat 4) ++ rest) :
    (sentryGetOffset (loadUint32 buf (q + i * 4))).toNat = childOffset cs i := by
  obtain ⟨se, entry, offset⟩ := Option.map_eq_some'.1 (sentryGetOffset_encodeChildren found)
  rw [loadUint32_flatMap_leBytes entry placed, offset, Nat.mod_eq_of_lt before,
    UInt32.toNat_ofNat_of_lt (by unfold UInt32.size; omega)]

/-- Child `i` spans the bytes from its offset to the offset of the child after it. -/
theorem sliceBytes_childOffset {cs : List Elem} {i d : Nat} {c : Elem}
    (placed : buf.drop d = (cs.map Elem.encode).flatten ++ rest) (found : cs[i]? = some c) :
    Bytes.sliceBytes buf (d + childOffset cs i) (d + childOffset cs (i + 1)) = c.encode := by
  rw [Bytes.sliceBytes, childOffset_succ found, ← Nat.add_assoc, Nat.add_sub_cancel_left,
    ← List.drop_drop, placed, List.drop_append_of_le_length (childOffset_le cs i),
    drop_childOffset found, List.append_assoc, List.take_left]

theorem sliceBytes_encode {c : Elem} (placed : buf.drop p = c.encode ++ rest) :
    Bytes.sliceBytes buf p (p + c.encode.length) = c.encode := by
  rw [Bytes.sliceBytes, Nat.add_sub_cancel_left, placed, List.take_left]

/-- A child of a list takes fewer bytes than the list. -/
theorem length_encode_lt_of_mem {c e : Elem} (mem : c ∈ e.children) :
    c.encode.length < e.encode.length :=
  Nat.lt_of_le_of_lt (length_encode_le_of_mem mem) e.length_data_lt

/-- `decode_list_header` on a small list `sexp_parse` wrote: the count of its tag byte, no
SEntry table, and its children right after its `payload_size`. -/
theorem decodeListHeader_smallList {cs : List Elem} (tagged : (Elem.smallList cs).wellTagged = true)
    (small : (Elem.smallList cs).encode.length < 2 ^ 64)
    (placed : buf.drop p = (Elem.smallList cs).encode ++ rest)
    (within : p + (Elem.smallList cs).encode.length ≤ stop) :
    ∃ d, Bytes.decodeListHeader buf stop (buf.getD p 0) (p + 1) = ⟨cs.length, none, d⟩ ∧
      buf.drop d = (cs.map Elem.encode).flatten ++ rest ∧
      d + ((cs.map Elem.encode).flatten).length = p + (Elem.smallList cs).encode.length := by
  obtain ⟨-, -, count, varint, -, children, total⟩ := smallList_header tagged small placed within
  have nonzero : cs.length ≠ 0 :=
    Nat.pos_iff_ne_zero.1 (of_decide_eq_true (Bool.and_eq_true_iff.1 tagged).1).1
  refine ⟨_, ?_, children, total⟩
  simp only [Bytes.decodeListHeader, count, varint, nonzero, ↓reduceIte]

/-- `decode_list_header` on a large list `sexp_parse` wrote: the count of its `uint32`, its
SEntry table after the hash, and its children after the table. -/
theorem decodeListHeader_largeList {hash : UInt32} {cs : List Elem}
    (tagged : (Elem.largeList hash cs).wellTagged = true)
    (placed : buf.drop p = (Elem.largeList hash cs).encode ++ rest) :
    ∃ d, Bytes.decodeListHeader buf stop (buf.getD p 0) (p + 1) =
        ⟨cs.length, some (p + 1 + 4 + 4), d⟩ ∧
      buf.drop d = (cs.map Elem.encode).flatten ++ rest ∧
      d + ((cs.map Elem.encode).flatten).length = p + (Elem.largeList hash cs).encode.length := by
  obtain ⟨-, payload, count, children, total⟩ := largeList_header tagged placed
  refine ⟨_, ?_, children, total⟩
  simp only [Bytes.decodeListHeader, payload, count, UInt8.toNat_zero, ↓reduceIte]

/-- `decode_list_header` on a list `sexp_parse` wrote, in either format: its count, and
where its children start. -/
theorem decodeListHeader_encode {e : Elem} (list : e.isList = true) (tagged : e.wellTagged = true)
    (small : e.encode.length < 2 ^ 64) (placed : buf.drop p = e.encode ++ rest)
    (within : p + e.encode.length ≤ stop) :
    (Bytes.decodeListHeader buf stop (buf.getD p 0) (p + 1)).count = e.children.length ∧
      buf.drop (Bytes.decodeListHeader buf stop (buf.getD p 0) (p + 1)).dataStart =
        (e.children.map Elem.encode).flatten ++ rest ∧
      (Bytes.decodeListHeader buf stop (buf.getD p 0) (p + 1)).dataStart +
        ((e.children.map Elem.encode).flatten).length = p + e.encode.length := by
  cases e with
  | smallList cs =>
    obtain ⟨d, header, children, total⟩ := decodeListHeader_smallList tagged small placed within
    rw [header]
    exact ⟨rfl, children, total⟩
  | largeList hash cs =>
    obtain ⟨d, header, children, total⟩ := @decodeListHeader_largeList _ _ stop _ _ _ tagged placed
    rw [header]
    exact ⟨rfl, children, total⟩
  | _ => cases list

/-- `get_element_bounds` on a list `sexp_parse` wrote whose bytes end the buffer: child `i`
spans the bytes from its offset to the next child's, whether the skips of a small list or the
SEntries of a large one find them. -/
theorem getElementBounds_encode {e c : Elem} {i : Nat} (list : e.isList = true)
    (tagged : e.wellTagged = true) (offsets : e.encode.length ≤ 2 ^ 28)
    (placed : buf.drop p = e.encode ++ rest) (ends : p + e.encode.length = stop)
    (found : e.children[i]? = some c) :
    Bytes.getElementBounds buf (Bytes.decodeListHeader buf stop (buf.getD p 0) (p + 1)) i stop =
      ((Bytes.decodeListHeader buf stop (buf.getD p 0) (p + 1)).dataStart + childOffset e.children i,
        (Bytes.decodeListHeader buf stop (buf.getD p 0) (p + 1)).dataStart +
          childOffset e.children (i + 1)) := by
  have small : e.encode.length < 2 ^ 64 := by omega
  have each : ∀ d ∈ e.children, ∀ q rest', buf.drop q = d.encode ++ rest' →
      q + d.encode.length ≤ stop → sexpSkipElement buf q stop = q + d.encode.length :=
    fun d mem _ _ placed' within' => sexpSkipElement_encode (Elem.wellTagged_of_mem tagged mem)
      (by have := length_encode_lt_of_mem mem; omega) placed' within'
  have next := childOffset_succ found
  have last := childOffset_le e.children (i + 1)
  have inList : i < e.children.length := (List.getElem?_eq_some_iff.1 found).1
  cases e with
  | smallList cs =>
    simp only [Elem.children] at each next last inList found
    obtain ⟨d, header, children, total⟩ := decodeListHeader_smallList tagged small placed ends.le
    have split : buf.drop d =
        ((cs.take i).map Elem.encode).flatten ++ (((cs.drop i).map Elem.encode).flatten ++ rest) := by
      rw [children, ← List.append_assoc, ← List.flatten_append, ← List.map_append,
        List.take_append_drop]
    have before := skipTimes_encode split (by rw [← childOffset_eq_length]; omega)
      fun d mem => each d (List.mem_of_mem_take mem)
    rw [List.length_take_of_le (Nat.le_of_lt inList), ← childOffset_eq_length] at before
    simp only [header, Bytes.getElementBounds, before, Prod.mk.injEq, true_and, Elem.children]
    rw [each c (List.mem_iff_getElem?.2 ⟨i, found⟩) _ _ (by rw [← List.drop_drop, children,
      List.drop_append_of_le_length (childOffset_le cs i), drop_childOffset found,
      List.append_assoc]) (by omega), next, Nat.add_assoc]
  | largeList hash cs =>
    simp only [Elem.children] at each next last inList found
    obtain ⟨d, header, -, total⟩ := @decodeListHeader_largeList _ _ stop _ _ _ tagged placed
    have table := largeList_sentries placed
    have dataShort := Elem.length_data_lt (.largeList hash cs)
    simp only [Elem.children] at dataShort
    have fewer : cs.length < 2 ^ 31 := by
      have := length_le_length_data cs
      omega
    simp only [header, Bytes.getElementBounds, int32OfCount_of_lt fewer, Nat.cast_lt,
      sentryOffset_encodeChildren found (by omega) table, Elem.children]
    congr 1
    by_cases later : i + 1 < cs.length
    · obtain ⟨d, foundNext⟩ : ∃ d, cs[i + 1]? = some d :=
        ⟨cs[i + 1], List.getElem?_eq_getElem later⟩
      rw [if_pos later, sentryOffset_encodeChildren foundNext (by omega) table]
    · rw [if_neg later, show i + 1 = cs.length by omega, childOffset_length]
      omega
  | _ => cases list

end Lists

/-! ## The accessors -/

theorem Sexp.header_lt_bytes (v : Sexp) : v.header.length < v.bytes.length := by
  rw [v.length_bytes]
  exact Nat.lt_add_of_pos_right v.root.length_encode_pos

theorem Sexp.root_ends (v : Sexp) : v.header.length + v.root.encode.length = v.bytes.length :=
  v.length_bytes.symm

theorem Elem.headD_encode {e : Elem} (tagged : e.wellTagged = true) : e.encode.headD 0 = e.tagByte := by
  cases e with
  | shortString s =>
    have short : s.length < 32 := Nat.lt_succ_of_le (of_decide_eq_true tagged)
    show sexpTagShortString ||| UInt8.ofNat s.length = sexpTagShortString ||| UInt8.ofNat (s.length % 32)
    rw [Nat.mod_eq_of_lt short]
  | smallList cs =>
    have short : cs.length < 32 := (of_decide_eq_true (Bool.and_eq_true_iff.1 tagged).1).2
    show sexpTagList ||| UInt8.ofNat cs.length = sexpTagList ||| UInt8.ofNat (cs.length % 32)
    rw [Nat.mod_eq_of_lt short]
  | smallInt _ => rfl
  | _ => exact UInt8.eq_of_toBitVec_eq BitVec.or_zero.symm

/-- The kind bits of the byte after a value's header are its root's. -/
theorem Sexp.tag_getD_header (v : Sexp) (tagged : v.root.wellTagged = true) :
    v.bytes.getD v.header.length 0 &&& sexpTagMask = v.root.tag := by
  rw [Elem.getD_eq_headD_encode v.drop_header, Elem.headD_encode tagged, Elem.tagByte_and_tagMask]

theorem Bytes.decodeListHeader_count (buf : List UInt8) (stop : Nat) (byte : UInt8) (ptr : Nat) :
    (Bytes.decodeListHeader buf stop byte ptr).count =
      if (byte &&& sexpDataMask).toNat = 0 then (loadUint32 buf ptr).toNat
      else (byte &&& sexpDataMask).toNat := by
  exact apply_ite Bytes.ListHeader.count _ _ _

theorem sexpLength_of_isList {v : Sexp} (list : v.root.isList = true) :
    sexpLength v = int32OfCount v.root.children.length := by
  rcases v with ⟨syms, _ | _ | _ | _ | _ | _ | _ | cs | ⟨hash, cs⟩⟩ <;> first | rfl | cases list

theorem sexpLength_refines (v : Sexp) (tagged : v.root.wellTagged = true)
    (fits : v.bytes.length < 2 ^ 31) : Bytes.sexpLength v.bytes = .ok (sexpLength v) := by
  have tag := v.tag_getD_header tagged
  have ends := v.root_ends
  simp only [Bytes.sexpLength, initReadStateInternal_bytes v fits, Bytes.rootTagByte, Sexp.readState_ptr,
    Sexp.readState_stop, if_pos v.header_lt_bytes, tag, bind, Except.bind, ← Bytes.decodeListHeader_count v.bytes v.bytes.length]
  by_cases list : v.root.isList = true
  · rw [(decodeListHeader_encode list tagged (by omega) v.drop_header v.root_ends.le).1,
      sexpLength_of_isList list, (Elem.tag_eq_sexpTagList_iff _).2 list]
    rfl
  · rcases v with ⟨syms, _ | _ | _ | _ | _ | _ | _ | cs | ⟨hash, cs⟩⟩ <;> first | rfl | exact absurd rfl list

/-- `(a 1 2 3 4)` in the large format, with its symbol. -/
theorem sexpLength_refines_five :
    let v : Sexp := ⟨[[97]], .largeList 0 [.symbolRef 0, .smallInt 17, .smallInt 18, .smallInt 19, .smallInt 20]⟩
    v.root.wellTagged = true ∧ v.bytes.length < 2 ^ 31 ∧ Bytes.sexpLength v.bytes = .ok (sexpLength v) :=
  ⟨by decide, by decide, sexpLength_refines _ (by decide) (by decide)⟩

section Car

variable {buf rest : List UInt8} {stop p : Nat}

/-- `decode_list_car_fast` on a list `sexp_parse` wrote with a first child: the count, and
the first child right after the `payload_size` of a small list, or where the first SEntry of
a large one says, which is where the children start. -/
theorem decodeListCarFast_cons {e c : Elem} {cs : List Elem} (list : e.isList = true)
    (tagged : e.wellTagged = true) (small : e.encode.length < 2 ^ 64)
    (placed : buf.drop p = e.encode ++ rest) (within : p + e.encode.length ≤ stop)
    (first : e.children = c :: cs) :
    ∃ d, Bytes.decodeListCarFast buf stop (buf.getD p 0) (p + 1) = (some d, e.children.length) ∧
      buf.drop d = (e.children.map Elem.encode).flatten ++ rest ∧
      d + ((e.children.map Elem.encode).flatten).length ≤ stop := by
  cases e with
  | smallList ds =>
    simp only [Elem.children] at first ⊢
    obtain ⟨-, -, count, -, -, children, total⟩ := smallList_header tagged small placed within
    have nonzero : ds.length ≠ 0 := by rw [first]; exact Nat.succ_ne_zero _
    rw [Elem.encode_smallList, List.cons_append, List.append_assoc] at placed
    have sizeEnds := @skipVarintBytes_encodeVarint _ _ stop _ _ (drop_succ_of_drop placed)
      (by omega)
    refine ⟨_, ?_, children, by omega⟩
    simp only [Bytes.decodeListCarFast, count, nonzero, ↓reduceIte, sizeEnds]
  | largeList hash ds =>
    simp only [Elem.children] at first ⊢
    obtain ⟨-, payload, count, children, total⟩ := largeList_header tagged placed
    have nonzero : ds.length ≠ 0 := by rw [first]; exact Nat.succ_ne_zero _
    have firstOffset := @sentryOffset_encodeChildren _ _ _ 0 _ c
      (by rw [first, List.getElem?_cons_zero]) (Nat.two_pow_pos 28) (largeList_sentries placed)
    rw [Nat.zero_mul, Nat.add_zero] at firstOffset
    refine ⟨_, ?_, children, by omega⟩
    simp only [Bytes.decodeListCarFast, payload, count, UInt8.toNat_zero, nonzero, ↓reduceIte,
      firstOffset]
    rfl
  | _ => cases list

/-- `decode_list_car_fast` on a list `sexp_parse` wrote with no children, which is large:
`NULL`. -/
theorem decodeListCarFast_nil {e : Elem} (list : e.isList = true) (tagged : e.wellTagged = true)
    (placed : buf.drop p = e.encode ++ rest) (empty : e.children = []) :
    Bytes.decodeListCarFast buf stop (buf.getD p 0) (p + 1) = (none, 0) := by
  cases e with
  | smallList ds =>
    simp only [Elem.children] at empty
    cases empty
    exact absurd tagged (by decide)
  | largeList hash ds =>
    simp only [Elem.children] at empty
    cases empty
    obtain ⟨-, payload, count, -, -⟩ := largeList_header tagged placed
    simp only [Bytes.decodeListCarFast, payload, count, UInt8.toNat_zero, List.length_nil,
      ↓reduceIte]
  | _ => cases list

end Car

/-- `extract_element_fast` of a value below `2 ^ 31` bytes copies its whole header. -/
theorem Bytes.extractElementFast_bytes (v : Sexp) (fits : v.bytes.length < 2 ^ 31)
    (elemStart elemEnd : Nat) :
    Bytes.extractElementFast v.bytes elemStart elemEnd =
      v.header ++ Bytes.sliceBytes v.bytes elemStart elemEnd := by
  obtain ⟨count, cast, table⟩ := v.readSymbols_bytes fits
  simp only [Bytes.extractElementFast, count, cast, Int.toNat_ofNat, table]
  rw [v.bytes_eq_header_append, List.take_left]

theorem sexpCar_of_isList {v : Sexp} (list : v.root.isList = true) :
    sexpCar v = .ok (v.root.children.head?.map (extractElementFast v)) := by
  rcases v with ⟨syms, _ | _ | _ | _ | _ | _ | _ | cs | ⟨_, cs⟩⟩ <;>
    first | (cases cs <;> rfl) | cases list

theorem sexpCar_refines (v : Sexp) (tagged : v.root.wellTagged = true)
    (fits : v.bytes.length < 2 ^ 31) :
    Bytes.sexpCar v.bytes = (sexpCar v).map (Option.map Sexp.bytes) := by
  have tag := v.tag_getD_header tagged
  have ends := v.root_ends
  simp only [Bytes.sexpCar, initReadStateInternal_bytes v fits, Bytes.rootTagByte, Sexp.readState_ptr,
    Sexp.readState_stop, if_pos v.header_lt_bytes, tag, bind, Except.bind]
  by_cases list : v.root.isList = true
  · rw [sexpCar_of_isList list, (Elem.tag_eq_sexpTagList_iff _).2 list]
    simp only [show sexpTagList ≠ sexpTagNil by decide, ne_eq, not_true_eq_false, ↓reduceIte]
    cases children : v.root.children with
    | nil =>
      rw [decodeListCarFast_nil list tagged v.drop_header children]
      rfl
    | cons c cs =>
      obtain ⟨d, fast, data, within⟩ := decodeListCarFast_cons list tagged (by omega) v.drop_header
        v.root_ends.le children
      rw [children, List.map_cons, List.flatten_cons, List.append_assoc] at data
      rw [children, List.map_cons, List.flatten_cons, List.length_append] at within
      have mem : c ∈ v.root.children := by rw [children]; exact List.mem_cons_self _ _
      rw [fast, children]
      simp only [List.length_cons, Nat.succ_ne_zero, ↓reduceIte, List.head?_cons, Option.map_some']
      rw [sexpSkipElement_encode (Elem.wellTagged_of_mem tagged mem)
        (by have := length_encode_lt_of_mem mem; omega) data (by omega),
        Bytes.extractElementFast_bytes v fits, sliceBytes_encode data]
      rfl
  · rcases v with ⟨syms, _ | _ | _ | _ | _ | _ | _ | cs | ⟨hash, cs⟩⟩ <;> first | rfl | exact absurd rfl list

theorem sexpCar_refines_five :
    let v : Sexp := ⟨[[97]], .largeList 0 [.symbolRef 0, .smallInt 17, .smallInt 18, .smallInt 19, .smallInt 20]⟩
    v.root.wellTagged = true ∧ v.bytes.length < 2 ^ 31 ∧
      Bytes.sexpCar v.bytes = (sexpCar v).map (Option.map Sexp.bytes) :=
  ⟨by decide, by decide, sexpCar_refines _ (by decide) (by decide)⟩

theorem sexpNth_of_isList {v : Sexp} (list : v.root.isList = true) {n : Int} (nonneg : ¬n < 0) :
    sexpNth v n = v.root.children[n.toNat]?.map (extractElementFast v) := by
  rcases v with ⟨syms, _ | _ | _ | _ | _ | _ | _ | cs | ⟨_, cs⟩⟩ <;>
    first | exact if_neg nonneg | cases list

theorem sexpNth_refines (v : Sexp) (tagged : v.root.wellTagged = true)
    (small : v.bytes.length < 2 ^ 28) (n : Int) :
    Bytes.sexpNth v.bytes n = .ok ((sexpNth v n).map Sexp.bytes) := by
  by_cases negative : n < 0
  · rw [Bytes.sexpNth, sexpNth, if_pos negative, if_pos negative]
    rfl
  have fits : v.bytes.length < 2 ^ 31 := by omega
  have tag := v.tag_getD_header tagged
  have ends := v.root_ends
  rw [Bytes.sexpNth, if_neg negative]
  simp only [initReadStateInternal_bytes v fits, Bytes.rootTagByte, Sexp.readState_ptr,
    Sexp.readState_stop, if_pos v.header_lt_bytes, tag, bind, Except.bind]
  by_cases list : v.root.isList = true
  · obtain ⟨count, children, -⟩ :=
      decodeListHeader_encode list tagged (by omega) v.drop_header v.root_ends.le
    rw [sexpNth_of_isList list negative, (Elem.tag_eq_sexpTagList_iff _).2 list, count]
    simp only [show sexpTagList ≠ sexpTagNil by decide, ne_eq, not_true_eq_false, ↓reduceIte]
    cases found : v.root.children[n.toNat]? with
    | none => rw [if_pos (List.getElem?_eq_none_iff.1 found)]; rfl
    | some c =>
      rw [if_neg (Nat.not_le_of_lt (List.getElem?_eq_some_iff.1 found).1),
        getElementBounds_encode list tagged (by omega) v.drop_header v.root_ends found,
        Bytes.extractElementFast_bytes v fits, sliceBytes_childOffset children found]
      rfl
  · rcases v with ⟨syms, _ | _ | _ | _ | _ | _ | _ | cs | ⟨hash, cs⟩⟩ <;>
      first | exact absurd rfl list |
        (simp only [sexpNth, if_neg negative, apply_ite (Option.map Sexp.bytes)]; rfl)

theorem sexpNth_refines_five :
    let v : Sexp := ⟨[[97]], .largeList 0 [.symbolRef 0, .smallInt 17, .smallInt 18, .smallInt 19, .smallInt 20]⟩
    v.root.wellTagged = true ∧ v.bytes.length < 2 ^ 28 ∧
      Bytes.sexpNth v.bytes 3 = .ok ((sexpNth v 3).map Sexp.bytes) :=
  ⟨by decide, by decide, sexpNth_refines _ (by decide) (by decide) 3⟩

section Cdr

variable {elems rest : List UInt8}

/-- The rescan of `sexp_cdr` over children it copied: the SEntries `parse_list` writes for
them. -/
theorem cdrSentries_encode : ∀ (ds : List Elem) (scan : Nat),
    elems.drop scan = (ds.map Elem.encode).flatten ++ rest →
    scan + ((ds.map Elem.encode).flatten).length ≤ elems.length →
    (∀ d ∈ ds, d.wellTagged = true ∧ d.encode.length < 2 ^ 64) →
      Bytes.cdrSentries elems ds.length scan = (encodeChildren ds scan).1
  | [], _, _, _, _ => rfl
  | d :: ds, scan, placed, within, each => by
    rw [List.map_cons, List.flatten_cons, List.append_assoc] at placed
    rw [List.map_cons, List.flatten_cons, List.length_append] at within
    obtain ⟨tagged, small⟩ := each d (List.mem_cons_self _ _)
    rw [List.length_cons, Bytes.cdrSentries, Elem.getD_eq_headD_encode placed,
      sexpSkipElement_encode tagged small placed (by omega),
      cdrSentries_encode ds _ (drop_add_of_drop placed) (by omega)
        fun d' mem => each d' (List.mem_cons_of_mem _ mem)]
    rfl

end Cdr

/-- The copy loop of `sexp_cdr`, once each index from `k` on gives the bytes of its child:
the children's bytes one after the other. -/
theorem flatMap_range'_encode {g : Nat → List UInt8} : ∀ (ds : List Elem) (k : Nat),
    (∀ i d, ds[i]? = some d → g (k + i) = d.encode) →
      (List.range' k ds.length).flatMap g = (ds.map Elem.encode).flatten
  | [], _, _ => rfl
  | d :: ds, k, each => by
    rw [List.length_cons, List.range'_succ, List.flatMap_cons, List.map_cons, List.flatten_cons,
      show g k = d.encode from each 0 d List.getElem?_cons_zero,
      flatMap_range'_encode ds (k + 1) fun i d' found => by
        rw [Nat.add_right_comm, Nat.add_assoc]
        exact each (i + 1) d' (by rw [List.getElem?_cons_succ]; exact found)]

theorem sexpCdr_of_isList {v : Sexp} (list : v.root.isList = true) :
    sexpCdr v = .ok (some (if v.root.children.length ≤ 1 then buildNilSexp
      else ⟨v.symbols, cdrList v.root.children.tail⟩)) := by
  rcases v with ⟨syms, _ | _ | _ | _ | _ | _ | _ | cs | ⟨_, cs⟩⟩ <;>
    first | exact absurd list Bool.false_ne_true |
      (by_cases short : cs.length ≤ 1 <;> simp only [sexpCdr, Elem.children, short, ↓reduceIte])

/-- The version and symbol table `sexp_cdr` writes from the read state of a value are the
value's own. -/
theorem Bytes.cdrHeader_bytes (v : Sexp) : Bytes.cdrHeader v.bytes v.readState = v.header := by
  rw [Bytes.cdrHeader, Sexp.readState_symCount, Sexp.readState_symbols, uint64OfInt_natCast,
    flatMap_symbolSpans _ _ v.drop_symbolTable]
  rfl

/-- The list `sexp_cdr` writes of the remaining children is the one the decoded `sexp_cdr`
builds. -/
theorem Bytes.cdrListBytes_encode {rest : List Elem} (tagged : ∀ d ∈ rest, d.wellTagged = true)
    (small : ((rest.map Elem.encode).flatten).length < 2 ^ 64) :
    Bytes.cdrListBytes rest.length (rest.map Elem.encode).flatten = (cdrList rest).encode := by
  rw [Bytes.cdrListBytes, cdrList]
  split
  · rw [Elem.encode_smallList]
    rfl
  · rw [Elem.encode_largeList, @cdrSentries_encode _ [] rest 0 (List.append_nil _).symm
      (Nat.zero_add _).le fun d mem => ⟨tagged d mem, by have := length_encode_le_of_mem mem; omega⟩]
    rfl

theorem sexpCdr_refines (v : Sexp) (tagged : v.root.wellTagged = true)
    (small : v.bytes.length < 2 ^ 28) :
    Bytes.sexpCdr v.bytes = (sexpCdr v).map (Option.map Sexp.bytes) := by
  have fits : v.bytes.length < 2 ^ 31 := by omega
  have tag := v.tag_getD_header tagged
  have ends := v.root_ends
  simp only [Bytes.sexpCdr, initReadStateInternal_bytes v fits, Bytes.rootTagByte, Sexp.readState_ptr,
    Sexp.readState_stop, if_pos v.header_lt_bytes, tag, bind, Except.bind]
  by_cases list : v.root.isList = true
  · obtain ⟨count, children, -⟩ :=
      decodeListHeader_encode list tagged (by omega) v.drop_header v.root_ends.le
    rw [sexpCdr_of_isList list, (Elem.tag_eq_sexpTagList_iff _).2 list, count]
    simp only [show sexpTagList ≠ sexpTagNil by decide, ne_eq, not_true_eq_false, ↓reduceIte]
    split
    · rfl
    · have dataShort := v.root.length_data_lt
      have tailShort : ((v.root.children.tail.map Elem.encode).flatten).length ≤
          ((v.root.children.map Elem.encode).flatten).length := by
        generalize v.root.children = cs
        cases cs with
        | nil => exact Nat.le_refl 0
        | cons c cs =>
          rw [List.tail_cons, List.map_cons, List.flatten_cons, List.length_append]
          exact Nat.le_add_left _ _
      rw [← List.length_tail, flatMap_range'_encode v.root.children.tail 1, Bytes.cdrHeader_bytes,
        Bytes.cdrListBytes_encode (fun d mem => Elem.wellTagged_of_mem tagged (List.mem_of_mem_tail mem))
          (by omega)]
      · rfl
      · intro i d found
        rw [List.getElem?_tail] at found
        rw [Nat.add_comm 1 i, getElementBounds_encode list tagged (by omega) v.drop_header v.root_ends found]
        exact sliceBytes_childOffset children found
  · rcases v with ⟨syms, _ | _ | _ | _ | _ | _ | _ | cs | ⟨hash, cs⟩⟩ <;>
      first | exact absurd rfl list | rfl

theorem sexpCdr_refines_five :
    let v : Sexp := ⟨[[97]], .largeList 0 [.symbolRef 0, .smallInt 17, .smallInt 18, .smallInt 19, .smallInt 20]⟩
    v.root.wellTagged = true ∧ v.bytes.length < 2 ^ 28 ∧
      Bytes.sexpCdr v.bytes = (sexpCdr v).map (Option.map Sexp.bytes) :=
  ⟨by decide, by decide, sexpCdr_refines _ (by decide) (by decide)⟩

/-! ## Values the readers read as they were written -/

namespace Elem

mutual
/-- Every symbol reference inside the element is below `n`. -/
def refsBelow (n : Nat) : Elem → Bool
  | .symbolRef i => decide (i < n)
  | .smallList cs => refsBelowList n cs
  | .largeList _ cs => refsBelowList n cs
  | _ => true
/-- `refsBelow` of each child. -/
def refsBelowList (n : Nat) : List Elem → Bool
  | [] => true
  | c :: cs => refsBelow n c && refsBelowList n cs
end

theorem refsBelowList_iff {n : Nat} :
    ∀ {cs : List Elem}, refsBelowList n cs = true ↔ ∀ c ∈ cs, c.refsBelow n = true
  | [] => iff_of_true rfl fun _ mem => absurd mem (List.not_mem_nil _)
  | c :: cs => by rw [refsBelowList, Bool.and_eq_true, refsBelowList_iff, List.forall_mem_cons]

theorem refsBelow_of_mem {n : Nat} {c e : Elem} (below : e.refsBelow n = true)
    (mem : c ∈ e.children) : c.refsBelow n = true := by
  cases e with
  | smallList cs | largeList _ cs => exact refsBelowList_iff.1 below c mem
  | _ => exact absurd mem (List.not_mem_nil _)

end Elem

/-- What the readers that resolve symbols need of a value to read its bytes as its decoded
form: tag bytes that say what follows them, symbol indices and a size that fit the `int` they
are cast to. -/
structure Sexp.Readable (v : Sexp) : Prop where
  tagged : v.root.wellTagged = true
  refs : v.root.refsBelow (2 ^ 31) = true
  fits : v.bytes.length < 2 ^ 31

/-- The read state of a value resolves each symbol index to the symbol's text. -/
theorem Bytes.symbolText_readState (v : Sexp) (i : Nat) :
    Bytes.symbolText v.bytes v.readState i = v.symbols[i]? := by
  rw [Bytes.symbolText, Sexp.readState_symbols, ← List.getElem?_map,
    map_symbolSpans _ _ v.drop_symbolTable]

theorem map_snd_symbolSpans : ∀ (syms : List (List UInt8)) (p : Nat),
    (symbolSpans syms p).map Prod.snd = syms.map fun s => (s.length : Int)
  | [], _ => rfl
  | _ :: syms, _ => congrArg (List.cons _) (map_snd_symbolSpans syms _)

/-- A read state that reads the table `syms` from `data`: as many symbols, and a span for
each that holds its text and its length. -/
structure Bytes.Resolves (data : List UInt8) (state : ReadState) (syms : List (List UInt8)) :
    Prop where
  count : state.symCount = syms.length
  text : ∀ i, Bytes.symbolText data state i = syms[i]?
  lengths : state.symbols.map Prod.snd = syms.map fun s => (s.length : Int)

/-- The read state of a value resolves its table. -/
theorem Sexp.resolves_readState (v : Sexp) : Bytes.Resolves v.bytes v.readState v.symbols :=
  ⟨rfl, Bytes.symbolText_readState v, map_snd_symbolSpans _ _⟩

/-- `memcpy(&val, ptr, sizeof(double))`: the bits of the double at `p`, low byte first. -/
def Bytes.loadFloat8 (buf : List UInt8) (p : Nat) : UInt64 := UInt64.ofNat (leValue (buf.drop p) 8)

/-- A double reads back as the bits `parse_number_or_symbol` wrote. -/
theorem loadFloat8_leBytes {buf rest : List UInt8} {p : Nat} (x : UInt64)
    (placed : buf.drop p = leBytes x.toNat 8 ++ rest) : Bytes.loadFloat8 buf p = x := by
  rw [Bytes.loadFloat8, placed, leValue_leBytes,
    Nat.mod_eq_of_lt (show x.toNat < 256 ^ 8 from x.toNat_lt_size)]
  exact UInt64.toNat.inj (UInt64.toNat_ofNat_of_lt x.toNat_lt_size)

/-- The payload bits of a tag byte, which the readers mask with `SEXP_DATA_MASK`. -/
theorem Elem.tagByte_and_dataMask (e : Elem) :
    e.tagByte &&& sexpDataMask = UInt8.ofNat e.payload.val := by
  unfold tagByte
  generalize e.payload = p
  cases e <;> simp only [tag] <;> revert p <;> decide

end PgSexp
