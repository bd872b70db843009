import PgSexp.Access
import PgSexp.ElementHash
import PgSexp.PgHash
import PgSexp.Offsets
import PgSexp.Reachable
import PgSexp.HashConsistency

/-!
# The structural hash on the stored bytes

`sexp_compute_hash` (`pg_sexp.c`) reads a value's header with `sexp_init_read_state` and
hands `sexp_element_hash` the root's position, the end of the data and the symbol table of
the read state.  `sexp_element_hash` reads each kind from its bytes: the payload of a small
integer, the varint of a full one, the eight bytes of a double, a symbol's text through the
read state, a string's bytes, and for a small list its children one by one, each found by
`skip_element` after the one before; a large list's stored hash is returned as it is.

On the bytes of a readable value it computes the hash `PgSexp.ElementHash` defines on the
decoded value, and so do `sexp_hash` and `sexp_hash_extended`, whatever the seed.
-/

namespace PgSexp

namespace Bytes

variable (H : HashFns)

/-- The child loop of a small list in `sexp_element_hash`, from child `i` at `p`: the child's
hash, rotated by its position into the list hash, then `skip_element` to the next child. -/
def hashChildrenLoop (hashAt : Nat → UInt32) (skip : Nat → Nat) :
    Nat → Nat → UInt32 → Nat → UInt32
  | 0, _, listHash, _ => listHash
  | count + 1, i, listHash, p =>
    hashChildrenLoop hashAt skip count (i + 1) (sexpHashCombine listHash (hashAt p) i) (skip p)

/-- `sexp_element_hash` at position `p` of `data`, with the end and the symbol table of
`state`.  Each nested call starts past the tag byte of the call above it, so the fuel
`sexp_compute_hash` gives runs out only past the end of the data, where the C returns `0`.
A symbol index past `INT_MAX`, which the `(int)` cast can bring below `sym_count`, reads past
the table; the model returns `0` there. -/
def sexpElementHash (data : List UInt8) (state : ReadState) : Nat → Nat → UInt32
  | 0, _ => 0
  | fuel + 1, p =>
    if p < state.stop then
      let byte := data.getD p 0
      let tag := byte &&& sexpTagMask
      if tag = sexpTagNil then 0
      else if tag = sexpTagSmallint then
        integerElemHash H
          (UInt64.ofNat (byte &&& sexpDataMask).toNat - UInt64.ofNat sexpSmallintBias)
      else if tag = sexpTagInteger then
        integerElemHash H (zigzagDecode (decodeVarint data state.stop (p + 1)).1)
      else if tag = sexpTagFloat then floatElemHash H (loadFloat8 data (p + 1))
      else if tag = sexpTagSymbolRef then
        let idx := (decodeVarint data state.stop (p + 1)).1
        if int32OfUInt64 idx < state.symCount then
          match symbolText data state idx.toNat with
          | some s => sexpHashStringWithTag H sexpTagSymbolRef s
          | none => 0
        else 0
      else if tag = sexpTagShortString then
        sexpHashStringWithTag H sexpTagShortString
          ((data.drop (p + 1)).take (byte &&& sexpDataMask).toNat)
      else if tag = sexpTagLongString then
        let len := decodeVarint data state.stop (p + 1)
        sexpHashStringWithTag H sexpTagShortString ((data.drop len.2).take len.1.toNat)
      else if tag = sexpTagList then
        let count := (byte &&& sexpDataMask).toNat
        if count = 0 then loadUint32 data (p + 1 + 4)
        else
          hashChildrenLoop (sexpElementHash data state fuel)
            (fun q => sexpSkipElement data q state.stop) count 0 (listHashSeed H count)
            (decodeVarint data state.stop (p + 1)).2
      else 0
    else 0

/-- `sexp_compute_hash`: the hash of the root element. -/
def sexpComputeHash (data : List UInt8) : Except SqlError UInt32 := do
  let state ← initReadStateInternal data
  pure (sexpElementHash H data state (state.stop - state.ptr + 1) state.ptr)

/-- `sexp_compute_hash_packed` reads the same bytes through `VARDATA_ANY`. -/
def sexpComputeHashPacked (data : List UInt8) : Except SqlError UInt32 := sexpComputeHash H data

/-- `sexp_hash`, the support function of the hash operator class (its `int4` result as bits). -/
def sexpHash (data : List UInt8) : Except SqlError UInt32 := sexpComputeHashPacked H data

/-- `sexp_hash_extended`: with a nonzero seed, the hash is mixed with the half-swapped seed. -/
def sexpHashExtended (data : List UInt8) (seed : UInt64) : Except SqlError UInt64 := do
  let hash := (← sexpComputeHashPacked H data).toUInt64
  if seed = 0 then pure hash
  else
    let mixedSeed := (seed <<< 32) ||| (seed >>> 32)
    let hash := (hash ^^^ mixedSeed) * 0x9e3779b97f4a7c15
    pure ((hash >>> 32) ^^^ hash)

end Bytes

/-! ## Reading each kind -/

section Hash

variable (H : HashFns) {data : List UInt8} {state : ReadState} {syms : List (List UInt8)}

/-- The child loop of a small list hashes the children in turn, given that the recursive call
hashes, and `skip_element` steps over, any child written where it starts. -/
theorem hashChildrenLoop_encode {hashAt : Nat → UInt32} {skip : Nat → Nat} :
    ∀ {cs : List Elem} {i : Nat} {listHash : UInt32} {p : Nat} {rest : List UInt8},
      data.drop p = (cs.map Elem.encode).flatten ++ rest →
      p + ((cs.map Elem.encode).flatten).length ≤ state.stop →
      (∀ c ∈ cs, ∀ q rest', data.drop q = c.encode ++ rest' → q + c.encode.length ≤ state.stop →
        hashAt q = sexpElementHash H syms c ∧ skip q = q + c.encode.length) →
        Bytes.hashChildrenLoop hashAt skip cs.length i listHash p = hashChildren H syms cs i listHash
  | [], _, _, _, _, _, _, _ => rfl
  | c :: cs, i, listHash, p, _, placed, within, each => by
    rw [List.map_cons, List.flatten_cons, List.append_assoc] at placed
    rw [List.map_cons, List.flatten_cons, List.length_append] at within
    obtain ⟨hashed, skipped⟩ := each c (List.mem_cons_self _ _) p _ placed (by omega)
    rw [List.length_cons, Bytes.hashChildrenLoop, hashed, skipped,
      hashChildrenLoop_encode (drop_add_of_drop placed) (by omega)
        fun d mem => each d (List.mem_cons_of_mem _ mem)]
    rfl

/-- `sexp_element_hash`, with fuel for the element's bytes and a read state that resolves
every symbol index to the table `syms`, hashes an element written at `p` as the decoded
`sexp_element_hash` hashes it. -/
theorem sexpElementHash_encode (resolves : Bytes.Resolves data state syms) :
    ∀ {fuel : Nat} {e : Elem} {p : Nat} {rest : List UInt8},
      e.wellTagged = true → e.refsBelow (2 ^ 31) = true → e.encode.length < 2 ^ 64 →
      e.encode.length ≤ fuel → data.drop p = e.encode ++ rest → p + e.encode.length ≤ state.stop →
        Bytes.sexpElementHash H data state fuel p = sexpElementHash H syms e
  | 0, e, _, _, _, _, _, enough, _, _ => absurd enough (Nat.not_le_of_lt e.length_encode_pos)
  | fuel + 1, e, p, rest, tagged, refs, small, enough, placed, within => by
    rw [Bytes.sexpElementHash,
      if_pos (Nat.lt_of_lt_of_le (Nat.lt_add_of_pos_right e.length_encode_pos) within),
      Elem.getD_eq_headD_encode placed, Elem.headD_encode tagged]
    dsimp only
    rw [Elem.tagByte_and_tagMask, Elem.tagByte_and_dataMask, toNat_ofNat_payload]
    cases e with
    | nil | smallInt _ => rfl
    | integer z =>
      have body : data.drop (p + 1) = encodeVarint z ++ rest := drop_succ_of_drop placed
      rw [decodeVarint_encodeVarint z body
        (by simp only [Elem.encode, List.length_cons] at within; omega)]
      rfl
    | float bits =>
      rw [loadFloat8_leBytes bits (drop_succ_of_drop placed)]
      rfl
    | symbolRef i =>
      have below : i < 2 ^ 31 := of_decide_eq_true refs
      have body : data.drop (p + 1) = encodeVarint (UInt64.ofNat i) ++ rest :=
        drop_succ_of_drop placed
      rw [decodeVarint_encodeVarint _ body
        (by simp only [Elem.encode, List.length_cons] at within; omega),
        int32OfUInt64_ofNat below, resolves.count,
        UInt64.toNat_ofNat_of_lt (by unfold UInt64.size; omega), resolves.text]
      rw [sexpElementHash]
      by_cases inTable : i < syms.length
      · rw [if_pos (show (i : Int) < syms.length by omega), List.getElem?_eq_getElem inTable]
        rfl
      · rw [if_neg (show ¬(i : Int) < syms.length by omega), List.getElem?_eq_none (by omega)]
        rfl
    | shortString s =>
      have short : s.length % 32 = s.length :=
        Nat.mod_eq_of_lt (Nat.lt_succ_of_le (of_decide_eq_true tagged))
      have body : data.drop (p + 1) = s ++ rest := drop_succ_of_drop placed
      show sexpHashStringWithTag H sexpTagShortString ((data.drop (p + 1)).take (s.length % 32)) = _
      rw [short, body, List.take_left]
      rfl
    | longString s =>
      have body : data.drop (p + 1) = encodeVarint (UInt64.ofNat s.length) ++ (s ++ rest) := by
        rw [drop_succ_of_drop placed]
        exact List.append_assoc _ _ _
      have fits : s.length < 2 ^ 64 := by
        simp only [Elem.encode, List.length_cons, List.length_append] at small
        omega
      rw [decodeVarint_encodeVarint _ body
        (by simp only [Elem.encode, List.length_cons, List.length_append] at within; omega)]
      show sexpHashStringWithTag H sexpTagShortString
        ((data.drop (p + 1 + (encodeVarint (UInt64.ofNat s.length)).length)).take
          (UInt64.ofNat s.length).toNat) = _
      rw [UInt64.toNat_ofNat_of_lt fits, drop_add_of_drop body, List.take_left]
      rfl
    | smallList cs =>
      obtain ⟨-, -, -, varint, -, children, total⟩ := smallList_header tagged small placed within
      obtain ⟨nonzero, short⟩ := of_decide_eq_true (Bool.and_eq_true_iff.1 tagged).1
      have payload : (Elem.smallList cs).payload.val = cs.length := Nat.mod_eq_of_lt short
      rw [payload, if_neg (Nat.pos_iff_ne_zero.1 nonzero), varint,
        hashChildrenLoop_encode H children (show _ ≤ state.stop by omega) fun c mem q rest' at' within' => by
          have shorter := length_encode_lt_of_mem (e := .smallList cs) mem
          exact ⟨sexpElementHash_encode resolves (Elem.wellTagged_of_mem tagged mem)
              (Elem.refsBelow_of_mem refs mem) (by omega) (by omega) at' within',
            sexpSkipElement_encode (Elem.wellTagged_of_mem tagged mem) (by omega) at' within'⟩]
      rfl
    | largeList hash cs =>
      rw [Elem.encode_largeList, List.cons_append] at placed
      simp only [List.append_assoc] at placed
      have stored := drop_add_of_drop (drop_succ_of_drop placed)
      rw [length_leBytes] at stored
      rw [if_pos (show (Elem.largeList hash cs).payload.val = 0 from rfl),
        loadUint32_leBytes hash stored]
      rfl

end Hash

/-! ## The hash of a value -/

section Value

variable (H : HashFns)

/-- `sexp_compute_hash` on the bytes of a readable value is the structural hash of the value:
the root is hashed from right after the symbol table, which resolves every index. -/
theorem sexpComputeHash_bytes {v : Sexp} (readable : v.Readable) :
    Bytes.sexpComputeHash H v.bytes = .ok (sexpComputeHash H v) := by
  have ends := v.root_ends
  have fits := readable.fits
  rw [Bytes.sexpComputeHash, initReadStateInternal_bytes v readable.fits]
  exact congrArg Except.ok (sexpElementHash_encode H v.resolves_readState readable.tagged
    readable.refs (by omega)
    (show _ ≤ v.bytes.length - v.header.length + 1 by omega) v.drop_header
    (show v.header.length + _ ≤ v.bytes.length by omega))

/-- `sexp_hash_extended` mixes the same hash with the seed. -/
theorem sexpHashExtended_bytes {v : Sexp} (readable : v.Readable) (seed : UInt64) :
    Bytes.sexpHashExtended H v.bytes seed = .ok (sexpHashExtended H v seed) := by
  rw [Bytes.sexpHashExtended, Bytes.sexpComputeHashPacked, sexpComputeHash_bytes H readable]
  by_cases zero : seed = 0
  · simp only [sexpHashExtended, sexpComputeHashPacked, zero, ↓reduceIte]; rfl
  · simp only [sexpHashExtended, sexpComputeHashPacked, zero, ↓reduceIte]; rfl

/-- `sexp_hash` and `sexp_hash_extended`, under every seed, read the hash of a readable
value's bytes as the hash the decoded value has. -/
theorem sexpHash_refines (v : Sexp) (readable : v.Readable) :
    Bytes.sexpHash H v.bytes = .ok (sexpHash H v) ∧
      ∀ seed, Bytes.sexpHashExtended H v.bytes seed = .ok (sexpHashExtended H v seed) :=
  ⟨sexpComputeHash_bytes H readable, sexpHashExtended_bytes H readable⟩

/-- `(a "b" (17))` with the large inner list, under PostgreSQL's `hash_bytes`. -/
theorem sexpHash_refines_nested :
    let v : Sexp := ⟨[[97]], .smallList [.symbolRef 0, .shortString [98], .largeList 0 [.smallInt 17]]⟩
    v.Readable ∧ Bytes.sexpHash pgHashFns v.bytes = .ok (sexpHash pgHashFns v) ∧
      ∀ seed, Bytes.sexpHashExtended pgHashFns v.bytes seed = .ok (sexpHashExtended pgHashFns v seed) :=
  ⟨⟨by decide, by decide, by decide⟩, sexpHash_refines pgHashFns _ ⟨by decide, by decide, by decide⟩⟩

end Value

/-! ## Values the parser writes -/

section Reachable

variable {H} {syms : List (List UInt8)} {n : Nat}

mutual
/-- A canonical element refers only to symbols of its table. -/
theorem Elem.refsBelow_of_canonical (bound : syms.length ≤ n) :
    ∀ {e : Elem} {depth : Nat}, e.canonical H syms depth = true → e.refsBelow n = true
  | .symbolRef _, _, canonical => by
    obtain ⟨_, found, -⟩ := Elem.canonical_symbolRef.1 canonical
    exact decide_eq_true (Nat.lt_of_lt_of_le (List.getElem?_eq_some_iff.1 found).1 bound)
  | .smallList _, _, canonical | .largeList _ _, _, canonical =>
    Elem.refsBelowList_of_canonicalList bound (Elem.canonicalList_children canonical)
  | .nil, _, _ | .smallInt _, _, _ | .integer _, _, _ | .float _, _, _
  | .shortString _, _, _ | .longString _, _, _ => rfl
/-- `refsBelow_of_canonical` of each child. -/
theorem Elem.refsBelowList_of_canonicalList (bound : syms.length ≤ n) :
    ∀ {cs : List Elem} {depth : Nat}, Elem.canonicalList H syms depth cs = true →
      Elem.refsBelowList n cs = true
  | [], _, _ => rfl
  | _ :: _, _, canonical =>
    have both := Bool.and_eq_true_iff.1 canonical
    Bool.and_eq_true_iff.2 ⟨Elem.refsBelow_of_canonical bound both.1,
      Elem.refsBelowList_of_canonicalList bound both.2⟩
end

/-- A value in the parser's form, of fewer than `2 ^ 31` bytes, is readable: its tags are
well formed, and its table, which takes a byte at least per symbol, has fewer than `2 ^ 31`
symbols. -/
theorem Sexp.Settled.readable {v : Sexp} (settled : v.Settled H) (fits : v.bytes.length < 2 ^ 31) :
    v.Readable := by
  obtain ⟨⟨_, canonical⟩, -⟩ := settled
  have ends := v.root_ends
  have header := v.length_header
  have table := v.symbols_add_three_le
  exact ⟨Elem.wellTagged_of_canonical H canonical (by omega),
    Elem.refsBelow_of_canonical (show v.symbols.length ≤ 2 ^ 31 by omega) canonical, fits⟩

/-- The hash operator class on the stored bytes: two values `sexp_parse` returns that
`sexp_equal` holds equal, each of fewer than `2 ^ 31` bytes, get the same `sexp_hash` and,
under every seed, the same `sexp_hash_extended` from their bytes. -/
theorem sexpHash_bytes_eq_of_sexpEqual {inputA inputB : List UInt8} {a b : Sexp}
    (parsedA : sexpParse H inputA = .ok a) (parsedB : sexpParse H inputB = .ok b)
    (fitsA : a.bytes.length < 2 ^ 31) (fitsB : b.bytes.length < 2 ^ 31)
    (equal : sexpEqual H a b = true) :
    Bytes.sexpHash H a.bytes = Bytes.sexpHash H b.bytes ∧
      ∀ seed, Bytes.sexpHashExtended H a.bytes seed = Bytes.sexpHashExtended H b.bytes seed := by
  have readableA := (Sexp.settled_of_sexpParse parsedA).readable fitsA
  have readableB := (Sexp.settled_of_sexpParse parsedB).readable fitsB
  obtain ⟨-, hashes, extended⟩ := sexpComputeHash_eq_of_sexpEqual H
    (sexpParse_written H parsedA).2 (sexpParse_written H parsedB).2 equal
  refine ⟨?_, fun seed => ?_⟩
  · exact (sexpComputeHash_bytes H readableA).trans
      ((congrArg Except.ok hashes).trans (sexpComputeHash_bytes H readableB).symm)
  · rw [sexpHashExtended_bytes H readableA, sexpHashExtended_bytes H readableB, extended seed]

/-- `0.0` and `-0.0` are written with different bits and hash alike. -/
theorem sexpHash_bytes_eq_of_sexpEqual_signedZero :
    sexpParse pgHashFns [48, 46, 48] = .ok ⟨[], .float 0⟩ ∧
      sexpParse pgHashFns [45, 48, 46, 48] = .ok ⟨[], .float 0x8000000000000000⟩ ∧
      Bytes.sexpHash pgHashFns (Sexp.bytes ⟨[], .float 0⟩) =
        Bytes.sexpHash pgHashFns (Sexp.bytes ⟨[], .float 0x8000000000000000⟩) ∧
      ∀ seed, Bytes.sexpHashExtended pgHashFns (Sexp.bytes ⟨[], .float 0⟩) seed =
        Bytes.sexpHashExtended pgHashFns (Sexp.bytes ⟨[], .float 0x8000000000000000⟩) seed :=
  ⟨rfl, rfl, @sexpHash_bytes_eq_of_sexpEqual pgHashFns [48, 46, 48] [45, 48, 46, 48] _ _ rfl rfl
    (by decide) (by decide) rfl⟩

end Reachable

end PgSexp
