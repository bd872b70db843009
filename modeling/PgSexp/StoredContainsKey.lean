import PgSexp.StoredContains
import PgSexp.ContainsKey

/-!
# Key containment on the stored bytes

`sexp_contains_key` (`pg_sexp.c`), the `@>>` operator, reads both values' headers, rejects
through the Bloom signatures as `sexp_contains` does, and runs `contains_key_search` from the
container's root with the tag of the needle's root.  At each node the search compares an atom
needle with `atom_compare_direct` and matches a list needle with `key_contains_recursive`,
then descends into the children its type filter lets through: on the SEntry type in a large
list, on the tag byte in a small one.

`key_contains_recursive` reads both list headers, compares the heads with
`elements_equal_recursive`, and looks for each element of the needle's tail among the
container's tail with `element_key_matches`, which compares atoms and matches lists by
`key_contains_recursive` again.  A child is located by the SEntry table of a large list and by
`skip_element` from the first child in a small one.

On the bytes of two readable values whose SEntry offsets fit their 28 bits, the search answers
what `PgSexp.ContainsKey` answers on the decoded values.
-/

namespace PgSexp

namespace Bytes

variable (H : HashFns)

/-- Where the head of a list starts and ends in `key_contains_recursive`: at the first SEntry,
up to the second one when there is a second child, in a large list; at the first child, up to
where `sexp_skip_element` stops, in a small one. -/
def headBounds (buf : List UInt8) (hdr : ListHeader) (stop : Nat) : Nat × Nat :=
  match hdr.sentries with
  | some sentries =>
    let offset := fun j => (sentryGetOffset (loadUint32 buf (sentries + j * 4))).toNat
    (hdr.dataStart + offset 0, if 1 < hdr.count then hdr.dataStart + offset 1 else stop)
  | none => (hdr.dataStart, sexpSkipElement buf hdr.dataStart stop)

/-- `element_key_matches` on the container element from `cp` to `cstop` and the needle
element from `np` to `nstop`, with `keyContains` for `key_contains_recursive`: an atom needle
is compared by `elements_equal_recursive` after the tag test, a list needle is matched by key
against a list. -/
def elementKeyMatches (keyContains : Nat → Nat → Nat → Nat → Bool) (cdata : List UInt8)
    (cstate : ReadState) (ndata : List UInt8) (nstate : ReadState) (cp cstop np nstop : Nat) :
    Bool :=
  if cstop ≤ cp ∨ nstop ≤ np then false
  else
    let containerTag := cdata.getD cp 0 &&& sexpTagMask
    let needleTag := ndata.getD np 0 &&& sexpTagMask
    if needleTag ≠ sexpTagList then
      if containerTag ≠ needleTag ∧ intTags containerTag needleTag = false then false
      else
        (elementsEqualRecursive H cdata { cstate with stop := cstop } ndata
          { nstate with stop := nstop } (cstop - cp + 1) cp np).1
    else if containerTag ≠ sexpTagList then false
    else keyContains cp cstop np nstop

/-- `key_contains_recursive` on the container list from `cp` to `cstop` and the needle list
from `np` to `nstop`.  The loops over the two tails run while the index is below the `(int)`
cast of the count.  Each nested call starts inside the container list of the call above it,
so the fuel `contains_key_search` gives, one unit per byte of the container node, runs out
only past its end. -/
def keyContainsRecursive (cdata : List UInt8) (cstate : ReadState) (ndata : List UInt8)
    (nstate : ReadState) : Nat → Nat → Nat → Nat → Nat → Bool
  | 0, _, _, _, _ => false
  | fuel + 1, cp, cstop, np, nstop =>
    if cstop ≤ cp ∨ nstop ≤ np then false
    else
      let containerByte := cdata.getD cp 0
      let needleByte := ndata.getD np 0
      if containerByte &&& sexpTagMask ≠ sexpTagList ∨ needleByte &&& sexpTagMask ≠ sexpTagList
      then false
      else
        let containerHdr := decodeListHeader cdata cstop containerByte (cp + 1)
        let needleHdr := decodeListHeader ndata nstop needleByte (np + 1)
        if needleHdr.count = 0 then true
        else if containerHdr.count < needleHdr.count then false
        else
          let containerHead := headBounds cdata containerHdr cstop
          let needleHead := headBounds ndata needleHdr nstop
          if !(elementsEqualRecursive H cdata { cstate with stop := containerHead.2 } ndata
              { nstate with stop := needleHead.2 } (containerHead.2 - containerHead.1 + 1)
              containerHead.1 needleHead.1).1 then false
          else if needleHdr.count = 1 then true
          else
            (List.range' 1 ((int32OfCount needleHdr.count).toNat - 1)).all fun ni =>
              let needleBounds := getElementBounds ndata needleHdr ni nstop
              let needleTag := ndata.getD needleBounds.1 0 &&& sexpTagMask
              (List.range' 1 ((int32OfCount containerHdr.count).toNat - 1)).any fun ci =>
                let containerBounds := getElementBounds cdata containerHdr ci cstop
                let containerTag := cdata.getD containerBounds.1 0 &&& sexpTagMask
                if needleTag ≠ sexpTagList ∧ containerTag ≠ needleTag ∧
                    intTags containerTag needleTag = false then false
                else
                  elementKeyMatches H (keyContainsRecursive cdata cstate ndata nstate fuel)
                    cdata cstate ndata nstate containerBounds.1 containerBounds.2
                    needleBounds.1 needleBounds.2

/-- The child loop of a large list in `contains_key_search`, from child `i` on: each child is
searched within its SEntry bounds when `descends` lets the type its SEntry records through. -/
def largeKeySearchLoop (searchAt : Nat → Nat → Bool) (typeAt : Nat → UInt32)
    (bounds : Nat → Nat × Nat) (descends : UInt32 → Bool) : Nat → Nat → Bool
  | 0, _ => false
  | count + 1, i =>
    (descends (typeAt i) && searchAt (bounds i).1 (bounds i).2) ||
      largeKeySearchLoop searchAt typeAt bounds descends count (i + 1)

/-- The child loop of a small list in `contains_key_search`: each child is ended by
`skip_element` within `stop`, and searched when `descends` lets its tag through. -/
def smallKeySearchLoop (buf : List UInt8) (searchAt : Nat → Nat → Bool) (descends : UInt8 → Bool)
    (stop : Nat) : Nat → Nat → Bool
  | 0, _ => false
  | count + 1, q =>
    let childTag := buf.getD q 0 &&& sexpTagMask
    let childEnd := sexpSkipElement buf q stop
    (descends childTag && searchAt q childEnd) ||
      smallKeySearchLoop buf searchAt descends stop count childEnd

/-- `contains_key_search` on the container node from `p` to `stop`, for the needle at
`nstate.ptr` whose root has tag `needleTag`.  `key_contains_recursive` gets fuel for the
node's bytes, and so does `elements_equal_recursive` in `sexp_equal`.  Each nested call starts
past the tag byte of the call above it, so the fuel `sexp_contains_key` gives runs out only
past the end of the data. -/
def containsKeySearch (cdata : List UInt8) (cstate : ReadState) (ndata : List UInt8)
    (nstate : ReadState) (needleTag : UInt8) : Nat → Nat → Nat → Bool
  | 0, _, _ => false
  | fuel + 1, p, stop =>
    if stop ≤ p then false
    else
      let containerByte := cdata.getD p 0
      let containerTag := containerByte &&& sexpTagMask
      (if needleTag != sexpTagList then
          (containerTag == needleTag || intTags containerTag needleTag) &&
            atomCompareDirect H cdata { cstate with stop := stop } ndata nstate p nstate.ptr
        else
          containerTag == sexpTagList &&
            keyContainsRecursive H cdata cstate ndata nstate (stop - p + 1) p stop nstate.ptr
              nstate.stop) ||
        if containerTag = sexpTagList then
          let hdr := decodeListHeader cdata stop containerByte (p + 1)
          match hdr.sentries with
          | some sentries =>
            largeKeySearchLoop
              (containsKeySearch cdata cstate ndata nstate needleTag fuel)
              (fun i => sentryGetType (loadUint32 cdata (sentries + i * 4)))
              (sentryBounds cdata sentries hdr.dataStart hdr.count stop)
              (fun childStype => if needleTag != sexpTagList then
                  childStype == getSentryTypeFromByte needleTag || childStype == sentryTypeList
                else childStype == sentryTypeList)
              hdr.count 0
          | none =>
            smallKeySearchLoop cdata
              (containsKeySearch cdata cstate ndata nstate needleTag fuel)
              (fun childTag => if needleTag != sexpTagList then
                  childTag == needleTag || childTag == sexpTagList || intTags childTag needleTag
                else childTag == sexpTagList)
              stop hdr.count hdr.dataStart
        else false

/-- `sexp_contains_key`: false when either value has no element or when the Bloom signatures
rule the needle out, and otherwise the search from the container's root. -/
def sexpContainsKey (container needle : List UInt8) : Except SqlError Bool := do
  let containerState ← initReadStateInternal container
  let needleState ← initReadStateInternal needle
  if containerState.stop ≤ containerState.ptr ∨ needleState.stop ≤ needleState.ptr then
    pure false
  else
    let containerBloom := sexpElementBloom H container containerState
      (containerState.stop - containerState.ptr + 1) containerState.ptr containerState.stop
    let needleBloom := sexpElementBloom H needle needleState
      (needleState.stop - needleState.ptr + 1) needleState.ptr needleState.stop
    if !bloomMayContain containerBloom needleBloom then pure false
    else
      let needleTag := needle.getD needleState.ptr 0 &&& sexpTagMask
      pure (containsKeySearch H container containerState needle needleState needleTag
        (containerState.stop - containerState.ptr + 1) containerState.ptr containerState.stop)

end Bytes

/-! ## Tag tests and index loops -/

section Tests

/-- The tag test `element_key_matches` makes before comparing an atom needle passes exactly
the tag pairs `keyTagsCompatible` passes. -/
theorem ite_tagTest_eq (a b : UInt8) (x : Bool) :
    (if a ≠ b ∧ intTags a b = false then false else x) = ((a == b || intTags a b) && x) := by
  by_cases same : a = b
  · rw [if_neg fun test => test.1 same, same, beq_self_eq_true, Bool.true_or, Bool.true_and]
  · cases ints : intTags a b
    · rw [if_pos ⟨same, rfl⟩, beq_false_of_ne same, Bool.false_or, Bool.false_and]
    · rw [if_neg fun test => Bool.noConfusion test.2, Bool.or_true, Bool.true_and]

/-- The tag test of the tail loop of `key_contains_recursive` lets every list needle through,
and an atom needle as `element_key_matches` does. -/
theorem ite_tailTest_eq (c n : Elem) (x : Bool) :
    (if n.tag ≠ sexpTagList ∧ c.tag ≠ n.tag ∧ intTags c.tag n.tag = false then false else x) =
      ((n.isList || keyTagsCompatible c n) && x) := by
  by_cases list : n.isList = true
  · rw [if_neg fun test => test.1 ((Elem.tag_eq_sexpTagList_iff n).2 list), list, Bool.true_or,
      Bool.true_and]
  · rw [Bool.eq_false_iff.2 list, Bool.false_or, keyTagsCompatible, ← ite_tagTest_eq]
    exact if_congr (and_iff_right fun tag => list ((Elem.tag_eq_sexpTagList_iff n).1 tag)) rfl rfl

variable {α : Type} {f : Nat → Bool} {g : α → Bool}

/-- A loop over the indices from `s` of a list's elements asks of each what `g` asks of the
element at that index. -/
theorem all_range'_eq_all : ∀ {xs : List α} {s : Nat},
    (∀ i x, xs[i]? = some x → f (i + s) = g x) → (List.range' s xs.length).all f = xs.all g
  | [], _, _ => rfl
  | x :: xs, s, each => by
    have first := each 0 x List.getElem?_cons_zero
    rw [Nat.zero_add] at first
    rw [List.length_cons, List.range'_succ, List.all_cons, List.all_cons, first,
      all_range'_eq_all fun i y found => by
        rw [show i + (s + 1) = i + 1 + s by omega]
        exact each (i + 1) y (List.getElem?_cons_succ.trans found)]

theorem any_range'_eq_any {xs : List α} {s : Nat}
    (each : ∀ i x, xs[i]? = some x → f (i + s) = g x) :
    (List.range' s xs.length).any f = xs.any g := by
  rw [List.any_eq_not_all_not, List.any_eq_not_all_not, all_range'_eq_all (f := fun i => !f i)
    (g := fun x => !g x) fun i x found => congrArg (!·) (each i x found)]

end Tests

/-! ## Children of a list written up to its end -/

section Bounds

variable {buf rest : List UInt8} {p stop : Nat}

theorem getD_and_tagMask {e : Elem} (tagged : e.wellTagged = true)
    (placed : buf.drop p = e.encode ++ rest) : buf.getD p 0 &&& sexpTagMask = e.tag := by
  rw [Elem.getD_eq_headD_encode placed, Elem.headD_encode tagged, Elem.tagByte_and_tagMask]

/-- The tail loops of `key_contains_recursive` run over every child after the head. -/
theorem int32OfCount_toNat_sub_one {e : Elem} (offsets : e.encode.length ≤ 2 ^ 28) :
    (int32OfCount e.children.length).toNat - 1 = e.children.length - 1 := by
  have fewer := length_le_length_data e.children
  have data := e.length_data_lt
  rw [int32OfCount_of_lt (by omega), Int.toNat_ofNat]

/-- `get_element_bounds` on a list `sexp_parse` wrote up to `stop` spans child `i`'s bytes. -/
theorem getElementBounds_child {e c : Elem} {i : Nat} (list : e.isList = true)
    (tagged : e.wellTagged = true) (offsets : e.encode.length ≤ 2 ^ 28)
    (placed : buf.drop p = e.encode ++ rest) (ends : p + e.encode.length = stop)
    (found : e.children[i]? = some c) :
    ∃ start rest', Bytes.getElementBounds buf (Bytes.decodeListHeader buf stop (buf.getD p 0) (p + 1))
        i stop = (start, start + c.encode.length) ∧ buf.drop start = c.encode ++ rest' := by
  obtain ⟨-, children, -⟩ := decodeListHeader_encode list tagged (by omega) placed ends.le
  rw [getElementBounds_encode list tagged offsets placed ends found, childOffset_succ found,
    ← Nat.add_assoc]
  exact ⟨_, _, rfl, by rw [← List.drop_drop, children, List.drop_append_of_le_length
    (childOffset_le _ i), drop_childOffset found, List.append_assoc]⟩

/-- With fewer than `2^31` children, the head `key_contains_recursive` reads is child `0` as
`get_element_bounds` finds it. -/
theorem headBounds_eq_getElementBounds (buf : List UInt8) (hdr : Bytes.ListHeader) (stop : Nat)
    (fits : hdr.count < 2 ^ 31) :
    Bytes.headBounds buf hdr stop = Bytes.getElementBounds buf hdr 0 stop := by
  obtain ⟨count, _ | sentries, dataStart⟩ := hdr
  · rfl
  · simp only [Bytes.headBounds, Bytes.getElementBounds, int32OfCount_of_lt fits, Nat.zero_add,
      Nat.cast_lt]

/-- The head `key_contains_recursive` reads spans the first child. -/
theorem headBounds_child {e c : Elem} (list : e.isList = true) (tagged : e.wellTagged = true)
    (offsets : e.encode.length ≤ 2 ^ 28) (placed : buf.drop p = e.encode ++ rest)
    (ends : p + e.encode.length = stop) (found : e.children[0]? = some c) :
    ∃ start rest', Bytes.headBounds buf (Bytes.decodeListHeader buf stop (buf.getD p 0) (p + 1))
        stop = (start, start + c.encode.length) ∧ buf.drop start = c.encode ++ rest' := by
  obtain ⟨count, -, -⟩ := decodeListHeader_encode list tagged (by omega) placed ends.le
  have fewer := length_le_length_data e.children
  have data := e.length_data_lt
  rw [headBounds_eq_getElementBounds _ _ _ (by omega)]
  exact getElementBounds_child list tagged offsets placed ends found

end Bounds

/-! ## Matching by key -/

/-- A read state resolves its table whatever end it is given. -/
theorem Bytes.Resolves.withStop {data : List UInt8} {state : ReadState}
    {syms : List (List UInt8)} (resolves : Bytes.Resolves data state syms) (stop : Nat) :
    Bytes.Resolves data { state with stop := stop } syms :=
  ⟨resolves.count, resolves.text, resolves.lengths⟩

section Match

variable (H : HashFns) {cdata ndata : List UInt8} {cstate nstate : ReadState}
  {csyms nsyms : List (List UInt8)}

/-- `element_key_matches` compares an atom needle as the decoded one does, and hands a list
needle against a list to `keyContains`, which the caller shows to match as the decoded
`key_contains_recursive`. -/
theorem elementKeyMatches_encode (resolvesC : Bytes.Resolves cdata cstate csyms)
    (resolvesN : Bytes.Resolves ndata nstate nsyms) {keyContains : Nat → Nat → Nat → Nat → Bool}
    {c n : Elem} {cp cstop np nstop : Nat} {restC restN : List UInt8}
    (decodableC : c.Decodable) (decodableN : n.Decodable)
    (placedC : cdata.drop cp = c.encode ++ restC) (withinC : cp + c.encode.length ≤ cstop)
    (placedN : ndata.drop np = n.encode ++ restN) (withinN : np + n.encode.length ≤ nstop)
    (recursive : keyContains cp cstop np nstop = keyContainsRecursive H csyms nsyms c n) :
    Bytes.elementKeyMatches H keyContains cdata cstate ndata nstate cp cstop np nstop =
      elementKeyMatches H csyms nsyms c n := by
  have positiveC := c.length_encode_pos
  have positiveN := n.length_encode_pos
  rw [Bytes.elementKeyMatches, if_neg (by omega)]
  dsimp only
  rw [getD_and_tagMask decodableC.tagged placedC, getD_and_tagMask decodableN.tagged placedN]
  by_cases listN : n.isList = true
  · rw [if_neg (not_not.2 ((Elem.tag_eq_sexpTagList_iff n).2 listN)),
      elementKeyMatches_of_list H listN, recursive, keyContainsRecursive, listN, Bool.and_true]
    by_cases listC : c.isList = true
    · rw [if_neg (not_not.2 ((Elem.tag_eq_sexpTagList_iff c).2 listC))]
    · rw [if_pos (mt (Elem.tag_eq_sexpTagList_iff c).1 listC), Bool.eq_false_iff.2 listC,
        Bool.false_and]
  · rw [if_pos (mt (Elem.tag_eq_sexpTagList_iff n).1 listN),
      elementKeyMatches_of_atom H (Bool.eq_false_iff.2 listN),
      (elementsEqualRecursive_encode H (resolvesC.withStop cstop) (resolvesN.withStop nstop)
        decodableC decodableN
        (by omega) placedC withinC placedN withinN).1, ite_tagTest_eq]
    rfl

/-- `key_contains_recursive`, with fuel for the container's bytes, matches a container and a
needle written up to the ends it is given as the decoded `key_contains_recursive` does: the
two list headers, the heads, then each needle tail element against the whole container tail,
a list in the needle's tail by `key_contains_recursive` again. -/
theorem keyContainsRecursive_encode (resolvesC : Bytes.Resolves cdata cstate csyms)
    (resolvesN : Bytes.Resolves ndata nstate nsyms) :
    ∀ {fuel : Nat} {c n : Elem} {cp cstop np nstop : Nat} {restC restN : List UInt8},
      c.Decodable → n.Decodable → c.encode.length ≤ 2 ^ 28 → n.encode.length ≤ 2 ^ 28 →
      c.encode.length ≤ fuel → cdata.drop cp = c.encode ++ restC → cp + c.encode.length = cstop →
      ndata.drop np = n.encode ++ restN → np + n.encode.length = nstop →
        Bytes.keyContainsRecursive H cdata cstate ndata nstate fuel cp cstop np nstop =
          keyContainsRecursive H csyms nsyms c n
  | 0, c, _, _, _, _, _, _, _, _, _, _, _, enough, _, _, _, _ =>
    absurd enough (Nat.not_le_of_lt c.length_encode_pos)
  | fuel + 1, c, n, cp, cstop, np, nstop, restC, restN, decodableC, decodableN, smallC, smallN,
      enough, placedC, endsC, placedN, endsN => by
    have positiveC := c.length_encode_pos
    have positiveN := n.length_encode_pos
    rw [Bytes.keyContainsRecursive, if_neg (by omega)]
    dsimp only
    rw [getD_and_tagMask decodableC.tagged placedC, getD_and_tagMask decodableN.tagged placedN,
      keyContainsRecursive]
    by_cases listC : c.isList = true
    swap
    · rw [if_pos (.inl (mt (Elem.tag_eq_sexpTagList_iff c).1 listC)), Bool.eq_false_iff.2 listC,
        Bool.false_and, Bool.false_and]
    by_cases listN : n.isList = true
    swap
    · rw [if_pos (.inr (mt (Elem.tag_eq_sexpTagList_iff n).1 listN)), Bool.eq_false_iff.2 listN,
        Bool.and_false, Bool.false_and]
    rw [if_neg (not_or.2 ⟨not_not.2 ((Elem.tag_eq_sexpTagList_iff c).2 listC),
      not_not.2 ((Elem.tag_eq_sexpTagList_iff n).2 listN)⟩), listC, listN, Bool.true_and,
      Bool.true_and]
    obtain ⟨countC, -, -⟩ :=
      decodeListHeader_encode listC decodableC.tagged decodableC.small placedC endsC.le
    obtain ⟨countN, -, -⟩ :=
      decodeListHeader_encode listN decodableN.tagged decodableN.small placedN endsN.le
    rw [countC, countN, int32OfCount_toNat_sub_one smallC, int32OfCount_toNat_sub_one smallN]
    cases hn : n.children with
    | nil => rfl
    | cons nh ntail =>
    cases hc : c.children with
    | nil =>
      rw [List.length_cons, List.length_nil, if_neg (Nat.succ_ne_zero _), if_pos (Nat.succ_pos _)]
      exact (if_pos (Nat.succ_pos _)).symm
    | cons ch ctail =>
    rw [List.length_cons, List.length_cons, if_neg (Nat.succ_ne_zero _), keyContainsLists_cons_cons]
    by_cases fewer : ctail.length + 1 < ntail.length + 1
    · rw [if_pos fewer, if_pos fewer]
    rw [if_neg fewer, if_neg fewer]
    have memC : ch ∈ c.children := by rw [hc]; exact List.mem_cons_self _ _
    have memN : nh ∈ n.children := by rw [hn]; exact List.mem_cons_self _ _
    obtain ⟨startC, _, headC, atC⟩ := headBounds_child listC decodableC.tagged smallC placedC endsC
      (by rw [hc, List.getElem?_cons_zero])
    obtain ⟨startN, _, headN, atN⟩ := headBounds_child listN decodableN.tagged smallN placedN endsN
      (by rw [hn, List.getElem?_cons_zero])
    rw [headC, headN]
    dsimp only
    rw [(elementsEqualRecursive_encode H (resolvesC.withStop _) (resolvesN.withStop _)
      (decodableC.child memC) (decodableN.child memN) (by omega) atC (Nat.le_refl _) atN
      (Nat.le_refl _)).1]
    cases elementsEqualRecursive H csyms nsyms ch nh
    · rfl
    rw [if_neg (by decide), Bool.true_and]
    cases ntail with
    | nil => rfl
    | cons n1 ns =>
    rw [if_neg (by rw [List.length_cons]; omega), List.isEmpty_cons, Bool.false_or,
      Nat.add_sub_cancel, Nat.add_sub_cancel, keyTailFound_eq_all]
    refine all_range'_eq_all fun i d foundN => ?_
    have found : n.children[i + 1]? = some d := by rw [hn]; exact List.getElem?_cons_succ.trans foundN
    have memD := List.mem_iff_getElem?.2 ⟨_, found⟩
    obtain ⟨startD, _, boundsD, atD⟩ :=
      getElementBounds_child listN decodableN.tagged smallN placedN endsN found
    rw [boundsD, getD_and_tagMask (decodableN.child memD).tagged atD]
    refine any_range'_eq_any fun j e foundC => ?_
    have found' : c.children[j + 1]? = some e := by rw [hc]; exact List.getElem?_cons_succ.trans foundC
    have memE := List.mem_iff_getElem?.2 ⟨_, found'⟩
    obtain ⟨startE, _, boundsE, atE⟩ :=
      getElementBounds_child listC decodableC.tagged smallC placedC endsC found'
    have shorterE := length_encode_lt_of_mem memE
    have shorterD := length_encode_lt_of_mem memD
    dsimp only
    rw [boundsE, getD_and_tagMask (decodableC.child memE).tagged atE, ite_tailTest_eq,
      elementKeyMatches_encode H resolvesC resolvesN (decodableC.child memE) (decodableN.child memD)
        atE (Nat.le_refl _) atD (Nat.le_refl _)
        (keyContainsRecursive_encode resolvesC resolvesN (decodableC.child memE)
          (decodableN.child memD) (by omega) (by omega) (by omega) atE rfl atD rfl)]

end Match

/-! ## The search -/

section Search

variable (H : HashFns) {cdata ndata : List UInt8} {cstate nstate : ReadState}
  {csyms nsyms : List (List UInt8)} {needle : Elem} {needleTag : UInt8}

/-- The child loop of a large list searches the children in turn, given the type each SEntry
records and that the recursive call searches each child within its bounds as the decoded
search does. -/
theorem largeKeySearchLoop_encode {searchAt : Nat → Nat → Bool} {typeAt : Nat → UInt32}
    {bounds : Nat → Nat × Nat} {descends : UInt32 → Bool}
    (filter : ∀ c : Elem, descends c.stype = keySearchDescendsLarge needleTag c) :
    ∀ {cs : List Elem} {i : Nat},
      (∀ j c, cs[j]? = some c → typeAt (i + j) = c.stype ∧
        searchAt (bounds (i + j)).1 (bounds (i + j)).2 =
          containsKeySearch H csyms nsyms needle needleTag c) →
        Bytes.largeKeySearchLoop searchAt typeAt bounds descends cs.length i =
          keySearchLarge H csyms nsyms needle needleTag cs
  | [], _, _ => rfl
  | c :: cs, i, each => by
    obtain ⟨typed, searched⟩ := each 0 c List.getElem?_cons_zero
    rw [Nat.add_zero] at typed searched
    rw [List.length_cons, Bytes.largeKeySearchLoop, typed, searched, filter, keySearchLarge_cons,
      largeKeySearchLoop_encode filter fun j d found => by
        have := each (j + 1) d (List.getElem?_cons_succ.trans found)
        rwa [show i + (j + 1) = i + 1 + j by omega] at this]

/-- The child loop of a small list searches the children in turn, each ended by
`skip_element`, given that the recursive call searches any child from where it starts to
where it ends as the decoded search does. -/
theorem smallKeySearchLoop_encode {searchAt : Nat → Nat → Bool} {descends : UInt8 → Bool}
    {stop : Nat} (filter : ∀ c : Elem, descends c.tag = keySearchDescendsSmall needleTag c) :
    ∀ {cs : List Elem} {q : Nat} {rest : List UInt8}, (∀ c ∈ cs, c.Decodable) →
      cdata.drop q = (cs.map Elem.encode).flatten ++ rest →
      q + ((cs.map Elem.encode).flatten).length ≤ stop →
      (∀ c ∈ cs, ∀ q' rest', cdata.drop q' = c.encode ++ rest' →
        searchAt q' (q' + c.encode.length) = containsKeySearch H csyms nsyms needle needleTag c) →
        Bytes.smallKeySearchLoop cdata searchAt descends stop cs.length q =
          keySearchSmall H csyms nsyms needle needleTag cs
  | [], _, _, _, _, _, _ => rfl
  | c :: cs, q, _, decodable, placed, within, each => by
    have first := decodable c (List.mem_cons_self _ _)
    rw [List.map_cons, List.flatten_cons, List.append_assoc] at placed
    rw [List.map_cons, List.flatten_cons, List.length_append] at within
    rw [List.length_cons, Bytes.smallKeySearchLoop, getD_and_tagMask first.tagged placed, filter,
      sexpSkipElement_encode first.tagged first.small placed (by omega),
      each c (List.mem_cons_self _ _) q _ placed, keySearchSmall_cons,
      smallKeySearchLoop_encode filter (fun d mem => decodable d (List.mem_cons_of_mem _ mem))
        (drop_add_of_drop placed) (by omega) fun d mem => each d (List.mem_cons_of_mem _ mem)]

/-- `contains_key_search`, with fuel for the node's bytes and read states that resolve both
tables, searches a container node written from `p` up to `stop` for a needle written where
the needle's read state is, as the decoded `contains_key_search` does: the match at the node,
then the descent into the children the type filter lets through. -/
theorem containsKeySearch_encode (resolvesC : Bytes.Resolves cdata cstate csyms)
    (resolvesN : Bytes.Resolves ndata nstate nsyms) {restN : List UInt8}
    (decodableN : needle.Decodable) (smallN : needle.encode.length ≤ 2 ^ 28)
    (placedN : ndata.drop nstate.ptr = needle.encode ++ restN)
    (endsN : nstate.ptr + needle.encode.length = nstate.stop) :
    ∀ {fuel : Nat} {e : Elem} {p stop : Nat} {rest : List UInt8}, e.Decodable →
      e.encode.length ≤ 2 ^ 28 → e.encode.length ≤ fuel → cdata.drop p = e.encode ++ rest →
      p + e.encode.length = stop →
        Bytes.containsKeySearch H cdata cstate ndata nstate needle.tag fuel p stop =
          containsKeySearch H csyms nsyms needle needle.tag e
  | 0, e, _, _, _, _, _, enough, _, _ => absurd enough (Nat.not_le_of_lt e.length_encode_pos)
  | fuel + 1, e, p, stop, rest, decodable, offsets, enough, placed, ends => by
    have positive := e.length_encode_pos
    rw [Bytes.containsKeySearch, if_neg (by omega)]
    dsimp only
    rw [getD_and_tagMask decodable.tagged placed,
      atomCompareDirect_encode H (resolvesC.withStop stop) resolvesN decodable decodableN placed
        ends.le placedN endsN.le,
      keyContainsRecursive_encode H resolvesC resolvesN decodable decodableN offsets smallN
        (by omega) placed ends placedN endsN]
    change (keySearchHere H csyms nsyms needle needle.tag e || _) = _
    by_cases list : e.isList = true
    swap
    · rw [if_neg fun tag => list ((Elem.tag_eq_sexpTagList_iff e).1 tag), Bool.or_false,
        containsKeySearch_of_atom H (Bool.eq_false_iff.2 list)]
    rw [if_pos ((Elem.tag_eq_sexpTagList_iff e).2 list)]
    cases e with
    | smallList cs =>
      obtain ⟨d, header, children, total⟩ :=
        decodeListHeader_smallList decodable.tagged decodable.small placed ends.le
      rw [header]
      dsimp only
      rw [smallKeySearchLoop_encode H (fun _ => rfl) (fun c (mem : c ∈ cs) => decodable.child mem)
        children (by omega) fun c mem q rest' at' => by
          have shorter := length_encode_lt_of_mem (e := .smallList cs) mem
          exact containsKeySearch_encode resolvesC resolvesN decodableN smallN placedN endsN
            (decodable.child mem) (by omega) (by omega) at' rfl]
      rfl
    | largeList hash cs =>
      obtain ⟨d, header, children, total⟩ :=
        @decodeListHeader_largeList _ _ stop _ _ _ decodable.tagged placed
      obtain ⟨-, -, -, children', total'⟩ := largeList_header decodable.tagged placed
      rw [header, show d = p + 1 + 4 + 4 + cs.length * 4 by omega]
      dsimp only
      rw [largeKeySearchLoop_encode H (fun _ => rfl) fun j c found => by
          rw [Nat.zero_add]
          obtain ⟨⟨rest', at'⟩, inside, -, exact⟩ :=
            sentryBounds_child decodable.tagged offsets placed ends.le found
          have mem := List.mem_iff_getElem?.2 ⟨j, found⟩
          have shorter := length_encode_lt_of_mem (e := .largeList hash cs) mem
          rw [exact ends]
          exact ⟨sentryGetType_child decodable.tagged placed found,
            containsKeySearch_encode resolvesC resolvesN decodableN smallN placedN endsN
              (decodable.child mem) (by omega) (by omega) at' rfl⟩]
      rfl
    | _ => exact absurd list Bool.false_ne_true

end Search

/-! ## The operator -/

section Operator

variable (H : HashFns)

/-- `sexp_contains_key` on the bytes of two readable values whose SEntry offsets fit answers
as the decoded `sexp_contains_key`: the two signatures are read from the bytes as the decoded
ones, the needle's tag is its root's, and every match and every descent of the search is the
decoded one. -/
theorem sexpContainsKey_refines (container needle : Sexp) (readableC : container.Readable)
    (readableN : needle.Readable) (smallC : container.bytes.length ≤ 2 ^ 28)
    (smallN : needle.bytes.length ≤ 2 ^ 28) :
    Bytes.sexpContainsKey H container.bytes needle.bytes =
      .ok (sexpContainsKey H container needle) := by
  have endsC := container.root_ends
  have endsN := needle.root_ends
  rw [Bytes.sexpContainsKey, initReadStateInternal_bytes container readableC.fits,
    initReadStateInternal_bytes needle readableN.fits]
  simp only [bind, Except.bind, pure, Except.pure, Sexp.readState_stop, Sexp.readState_ptr]
  rw [if_neg (not_or.2 ⟨Nat.not_le_of_lt container.header_lt_bytes,
      Nat.not_le_of_lt needle.header_lt_bytes⟩),
    needle.tag_getD_header readableN.tagged,
    sexpElementBloom_encode H container.resolves_readState readableC.decodable (by omega)
      (show _ ≤ container.bytes.length - container.header.length + 1 by omega)
      container.drop_header (show container.header.length + _ ≤ container.bytes.length by omega),
    sexpElementBloom_encode H needle.resolves_readState readableN.decodable (by omega)
      (show _ ≤ needle.bytes.length - needle.header.length + 1 by omega)
      needle.drop_header (show needle.header.length + _ ≤ needle.bytes.length by omega),
    containsKeySearch_encode H container.resolves_readState needle.resolves_readState
      readableN.decodable (by omega) needle.drop_header
      (show needle.header.length + _ = needle.bytes.length by omega)
      readableC.decodable (by omega)
      (show _ ≤ container.bytes.length - container.header.length + 1 by omega)
      container.drop_header (show container.header.length + _ = container.bytes.length by omega),
    sexpContainsKey, apply_ite Except.ok]

/-- `(a (17 5 (a)))` with the inner list in the large format, and the needle `(17 5)`, found
by key in the inner list, under PostgreSQL's `hash_bytes`. -/
theorem sexpContainsKey_refines_nested :
    let container : Sexp := ⟨[[97]], .smallList [.symbolRef 0,
      .largeList 0 [.smallInt 17, .integer 10, .smallList [.symbolRef 0]]]⟩
    let needle : Sexp := ⟨[], .smallList [.smallInt 17, .integer 10]⟩
    container.Readable ∧ needle.Readable ∧ container.bytes.length ≤ 2 ^ 28 ∧
      needle.bytes.length ≤ 2 ^ 28 ∧
      Bytes.sexpContainsKey pgHashFns container.bytes needle.bytes =
        .ok (sexpContainsKey pgHashFns container needle) :=
  ⟨⟨by decide, by decide, by decide⟩, ⟨by decide, by decide, by decide⟩, by decide, by decide,
    sexpContainsKey_refines pgHashFns _ _ ⟨by decide, by decide, by decide⟩
      ⟨by decide, by decide, by decide⟩ (by decide) (by decide)⟩

end Operator

end PgSexp
