import PgSexp.StoredEqual
import PgSexp.Print

/-!
# The text of the stored bytes

`sexp_out` (`pg_sexp.c`) prints a value with `sexp_to_cstring` (`sexp_io.c`), which reads the
header with `sexp_init_read_state` and hands the read state to `output_element`.  That walks
the bytes once, left to right: each element's text is appended and the read state moves past
it, so a list prints its children one after the other without `skip_element`.  On the bytes of
a readable value it writes the text `PgSexp.Print` gives the decoded value.
-/

namespace PgSexp

namespace Bytes

/-- The copy loop of a string in `output_element`: up to `count` bytes from `p`, as long as
the data lasts, each escaped. -/
def escapeLoop (data : List UInt8) (stop : Nat) : Nat → Nat → List UInt8 × Nat
  | 0, p => ([], p)
  | count + 1, p =>
    if p < stop then
      let later := escapeLoop data stop count (p + 1)
      (escapeByte (data.getD p 0) ++ later.1, later.2)
    else ([], p)

/-- The child loop of a list in `output_element`: a space before every child but the first,
each child printed where the one before it ended. -/
def outputChildrenLoop (output : Nat → List UInt8 × Nat) : Nat → Nat → Nat → List UInt8 × Nat
  | 0, _, p => ([], p)
  | count + 1, i, p =>
    let child := output p
    let later := outputChildrenLoop output count (i + 1) child.2
    ((if 0 < i then [32] else []) ++ child.1 ++ later.1, later.2)

/-- `output_element` at position `p`: the text it appends, and where it leaves the read state.
Each nested call starts past the tag byte of the call above it, so the fuel `sexp_to_cstring`
gives runs out only past the end of the data.  A symbol index past `INT_MAX` that the `(int)`
cast brings below `sym_count` reads past the table; the model appends nothing there.  The
`default` case, an `ERROR` for an unknown tag, is never reached: the eight values of the three
tag bits are all cases. -/
def outputElement (data : List UInt8) (state : ReadState) : Nat → Nat → List UInt8 × Nat
  | 0, p => ([40, 41], p)
  | fuel + 1, p =>
    if state.stop ≤ p then ([40, 41], p)
    else
      let byte := data.getD p 0
      let tag := byte &&& sexpTagMask
      if tag = sexpTagNil then ([40, 41], p + 1)
      else if tag = sexpTagSmallint then
        (formatInt (((byte &&& sexpDataMask).toNat : Int) - sexpSmallintBias), p + 1)
      else if tag = sexpTagInteger then
        let encoded := decodeVarint data state.stop (p + 1)
        (formatInt (int64Value (zigzagDecode encoded.1)), encoded.2)
      else if tag = sexpTagFloat then (formatFloat8 (loadFloat8 data (p + 1)), p + 1 + 8)
      else if tag = sexpTagSymbolRef then
        let idx := decodeVarint data state.stop (p + 1)
        if int32OfUInt64 idx.1 < state.symCount then
          ((symbolText data state idx.1.toNat).getD [], idx.2)
        else (invalidSymbolText, idx.2)
      else if tag = sexpTagShortString then
        let body := escapeLoop data state.stop (byte &&& sexpDataMask).toNat (p + 1)
        (34 :: body.1 ++ [34], body.2)
      else if tag = sexpTagLongString then
        let len := decodeVarint data state.stop (p + 1)
        let body := escapeLoop data state.stop len.1.toNat len.2
        (34 :: body.1 ++ [34], body.2)
      else if tag = sexpTagList then
        let list := readListHeader data state.stop byte (p + 1)
        let children := outputChildrenLoop (outputElement data state fuel) list.1 0 list.2
        (40 :: children.1 ++ [41], children.2)
      else ([], p + 1)

/-- `sexp_to_cstring`: the text of the root element. -/
def sexpToCstring (data : List UInt8) : Except SqlError (List UInt8) := do
  let state ← initReadStateInternal data
  pure (outputElement data state (state.stop - state.ptr + 1) state.ptr).1

/-- `sexp_out`, the output function of the type. -/
def sexpOut (data : List UInt8) : Except SqlError (List UInt8) := sexpToCstring data

end Bytes

section Printing

variable {data rest : List UInt8} {state : ReadState} {syms : List (List UInt8)}

/-- The string loop prints a string stored where the read state is, escaped, and stops right
after it. -/
theorem escapeLoop_encode : ∀ {s rest : List UInt8} {p : Nat}, data.drop p = s ++ rest →
    p + s.length ≤ state.stop →
      Bytes.escapeLoop data state.stop s.length p = (s.flatMap escapeByte, p + s.length)
  | [], _, _, _, _ => rfl
  | c :: s, _, p, placed, within => by
    rw [List.length_cons] at within
    rw [List.length_cons, Bytes.escapeLoop, if_pos (by omega), getD_eq_of_drop placed,
      escapeLoop_encode (drop_succ_of_drop placed) (by omega), List.flatMap_cons]
    simp only [Nat.add_right_comm, Nat.add_assoc, Nat.add_comm 1 s.length]

/-- The child loop prints the children of a list one after the other, given that the recursive
call prints any child written where the read state is and stops right after it. -/
theorem outputChildrenLoop_encode {output : Nat → List UInt8 × Nat} :
    ∀ {cs : List Elem} {i p : Nat} {rest : List UInt8},
      data.drop p = (cs.map Elem.encode).flatten ++ rest →
      p + ((cs.map Elem.encode).flatten).length ≤ state.stop →
      (∀ c ∈ cs, ∀ q rest', data.drop q = c.encode ++ rest' → q + c.encode.length ≤ state.stop →
        output q = (outputElement syms c, q + c.encode.length)) →
        Bytes.outputChildrenLoop output cs.length i p =
          (outputChildren syms i cs, p + ((cs.map Elem.encode).flatten).length)
  | [], _, _, _, _, _, _ => rfl
  | c :: cs, i, p, _, placed, within, each => by
    simp only [List.map_cons, List.flatten_cons, List.append_assoc] at placed
    simp only [List.map_cons, List.flatten_cons, List.length_append] at within ⊢
    rw [List.length_cons, Bytes.outputChildrenLoop, outputChildren,
      each c (List.mem_cons_self _ _) p _ placed (by omega),
      outputChildrenLoop_encode (drop_add_of_drop placed) (by omega)
        fun d mem => each d (List.mem_cons_of_mem _ mem), Nat.add_assoc]

/-- `output_element`, with fuel for the element's bytes and a read state that resolves its
table, prints an element written where the read state is as the decoded `output_element`
prints it, and leaves the read state right after it. -/
theorem outputElement_encode (resolves : Bytes.Resolves data state syms) :
    ∀ {fuel : Nat} {e : Elem} {p : Nat} {rest : List UInt8}, e.Decodable → e.encode.length ≤ fuel →
      data.drop p = e.encode ++ rest → p + e.encode.length ≤ state.stop →
        Bytes.outputElement data state fuel p = (outputElement syms e, p + e.encode.length)
  | 0, e, _, _, _, enough, _, _ => absurd enough (Nat.not_le_of_lt e.length_encode_pos)
  | fuel + 1, e, p, rest, decodable, enough, placed, within => by
    have positive := e.length_encode_pos
    rw [Bytes.outputElement, if_neg (by omega), Elem.getD_eq_headD_encode placed,
      Elem.headD_encode decodable.tagged]
    dsimp only
    rw [Elem.tagByte_and_tagMask]
    by_cases list : e.isList = true
    · obtain ⟨start, header, children, ends⟩ :=
        readListHeader_encode list decodable.tagged decodable.small placed within
      rw [(Elem.tag_eq_sexpTagList_iff e).2 list, header]
      simp +decide only [↓reduceIte]
      rw [outputChildrenLoop_encode children (by omega) fun c mem q rest' at' within' =>
        outputElement_encode resolves (decodable.child mem)
          (show c.encode.length ≤ fuel by have := length_encode_lt_of_mem mem; omega) at' within',
        ends]
      cases e <;> first
        | rfl
        | exact absurd list Bool.false_ne_true
    · rw [Elem.tagByte_and_dataMask, toNat_ofNat_payload]
      cases e <;> first
        | exact absurd rfl list
        | simp +decide only [Elem.tag, ↓reduceIte]
      · rfl
      · rfl
      · rename_i u
        have body : data.drop (p + 1) = encodeVarint u ++ rest := drop_succ_of_drop placed
        simp only [Elem.encode, List.length_cons] at within ⊢
        rw [decodeVarint_encodeVarint u body (by omega), Nat.add_assoc, Nat.add_comm 1]
        rfl
      · rename_i x
        rw [loadFloat8_leBytes x (drop_succ_of_drop placed)]
        simp only [Elem.encode, List.length_cons, length_leBytes]
        rfl
      · rename_i i
        have below : i < 2 ^ 31 := of_decide_eq_true decodable.refs
        have body : data.drop (p + 1) = encodeVarint (UInt64.ofNat i) ++ rest :=
          drop_succ_of_drop placed
        simp only [Elem.encode, List.length_cons] at within ⊢
        rw [decodeVarint_encodeVarint _ body (by omega), int32OfUInt64_ofNat below, resolves.count,
          UInt64.toNat_ofNat_of_lt (by unfold UInt64.size; omega), resolves.text, Nat.add_assoc,
          Nat.add_comm 1, outputElement]
        by_cases inTable : i < syms.length
        · rw [if_pos (show (i : Int) < syms.length by omega), List.getElem?_eq_getElem inTable]
          rfl
        · rw [if_neg (show ¬(i : Int) < syms.length by omega), List.getElem?_eq_none (by omega)]
      · rename_i s
        have short : (Elem.shortString s).payload.val = s.length :=
          Nat.mod_eq_of_lt (Nat.lt_succ_of_le (of_decide_eq_true decodable.tagged))
        simp only [Elem.encode, List.length_cons] at within ⊢
        rw [short, escapeLoop_encode (drop_succ_of_drop placed) (by omega),
          Nat.add_assoc, Nat.add_comm 1]
        rfl
      · rename_i s
        have body : data.drop (p + 1) = encodeVarint (UInt64.ofNat s.length) ++ (s ++ rest) := by
          rw [drop_succ_of_drop placed]
          exact List.append_assoc _ _ _
        have small := decodable.small
        simp only [Elem.encode, List.length_cons, List.length_append] at within small ⊢
        rw [decodeVarint_encodeVarint _ body (by omega),
          UInt64.toNat_ofNat_of_lt (show s.length < UInt64.size by unfold UInt64.size; omega),
          escapeLoop_encode (drop_add_of_drop body) (by omega)]
        exact Prod.ext rfl (by omega)

end Printing

/-- `sexp_out` prints the bytes of a readable value as `sexp_to_cstring` prints the decoded
value: the root is printed from right after the symbol table, which resolves every index. -/
theorem sexpOut_refines (v : Sexp) (readable : v.Readable) :
    Bytes.sexpOut v.bytes = .ok (sexpToCstring v) := by
  have ends := v.root_ends
  have fits := readable.fits
  rw [Bytes.sexpOut, Bytes.sexpToCstring, initReadStateInternal_bytes v readable.fits]
  exact congrArg (Except.ok ∘ Prod.fst) (outputElement_encode v.resolves_readState
    readable.decodable (show _ ≤ v.bytes.length - v.header.length + 1 by omega) v.drop_header
    (show v.header.length + _ ≤ v.bytes.length by omega))

/-- `(a "b\n" (1 -3))`, the inner list in the large format. -/
theorem sexpOut_refines_nested :
    let v : Sexp := ⟨[[97]], .smallList [.symbolRef 0, .shortString [98, 10],
      .largeList 0 [.smallInt 17, .integer 5]]⟩
    v.Readable ∧ Bytes.sexpOut v.bytes = .ok (sexpToCstring v) :=
  ⟨⟨by decide, by decide, by decide⟩, sexpOut_refines _ ⟨by decide, by decide, by decide⟩⟩

end PgSexp
