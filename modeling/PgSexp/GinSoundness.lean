import PgSexp.GinKeys
import PgSexp.Search

/-!
# Soundness of the GIN operator class

GIN passes `consistent` and `triconsistent` a check array: for each key of
`sexp_gin_extract_query`, whether the row's `sexp_gin_extract_value` holds it
(`keyPresence`, `ternaryKeyPresence`).  The index never loses a row the operator accepts
when every query key of an accepted pair is among the value keys.

For `@>` that holds whenever the needle has no empty list: the scan accepts the needle at a
subtree equal to it, whose keys are the needle's, and a subtree's keys are among the
container's.  For `@>>` a needle list is matched by a longer container list with the same
head, and its key is the same list-head key unless the container list is a pair, whose key
is its pair key: a needle `(h)` matched against a container `(h x)` has a key the container
lacks.  In both cases `add_key` must not have dropped a container key at `MAX_GIN_KEYS`.

The converse shortcut is not sound: `triconsistent` admits a row without recheck when the
query has one key and it is present, and one key says less than the operator checks.
-/

namespace PgSexp

/-- The check array GIN passes to `sexp_gin_consistent`: for each query key, whether the
row's keys hold it. -/
def keyPresence (queryKeys valueKeys : List UInt32) : List Bool :=
  queryKeys.map fun k => decide (k ∈ valueKeys)

/-- The check array GIN passes to `sexp_gin_triconsistent`, every entry certain. -/
def ternaryKeyPresence (queryKeys valueKeys : List UInt32) : List GinTernaryValue :=
  queryKeys.map fun k => if k ∈ valueKeys then .ginTrue else .ginFalse

variable {H : HashFns}

/-! ## The support functions on present keys -/

section Support

variable {queryKeys valueKeys : List UInt32} {strategy : Nat}

theorem sexpGinConsistent_of_present (present : ∀ k ∈ queryKeys, k ∈ valueKeys)
    (keyed : strategy = sexpGinContainsStrategy ∨ strategy = sexpGinContainsKeyStrategy) :
    sexpGinConsistent (keyPresence queryKeys valueKeys) strategy = .ok (true, true) := by
  simp only [sexpGinConsistent, keyed, if_true, keyPresence, List.all_map]
  simpa using present

theorem sexpGinTriconsistent_ne_ginFalse_of_present
    (present : ∀ k ∈ queryKeys, k ∈ valueKeys) :
    sexpGinTriconsistent (ternaryKeyPresence queryKeys valueKeys) strategy ≠ .ok .ginFalse := by
  have noFalse : GinTernaryValue.ginFalse ∉ ternaryKeyPresence queryKeys valueKeys := by
    simp only [ternaryKeyPresence, List.mem_map, not_exists, not_and]
    intro k mem
    simp [present k mem]
  unfold sexpGinTriconsistent
  split_ifs <;> simp [noFalse]
  split <;> simp

end Support

/-! ## The keys of subtrees -/

theorem Elem.decode_of_isList {syms : List (List UInt8)} {e : Elem} (list : e.isList = true) :
    e.decode syms = .list (e.children.map (Elem.decode syms)) := by
  cases e <;> first | exact absurd list Bool.false_ne_true | simp [Elem.decode, Elem.children]

/-- A subtree's value keys are among the whole tree's. -/
theorem valueKeys_subset_of_subtree {syms : List (List UInt8)} {d e : Elem} (sub : d.Subtree e) :
    (d.decode syms).valueKeys H ⊆ (e.decode syms).valueKeys H := by
  induction sub with
  | refl => exact List.Subset.refl _
  | @child c e mem _ below =>
    refine below.trans ?_
    cases e <;> first
      | exact absurd mem (List.not_mem_nil c)
      | exact Datum.valueKeys_subset_of_mem H
          (by rw [Elem.decodeList_eq_map]; exact List.mem_map_of_mem _ mem)

section Match

variable {csyms nsyms : List (List UInt8)}

/-- An atom needle that `atom_compare_direct` accepts is in its table, so it has a key. -/
theorem queryKeys_ne_nil_of_atomCompareDirect (skipPairKeys : Bool) {d n : Elem}
    (compare : atomCompareDirect H csyms nsyms d n = true) :
    (n.decode nsyms).queryKeys H skipPairKeys ≠ [] := by
  cases d <;> cases n <;> first
    | exact absurd compare Bool.false_ne_true
    | (simp [Elem.decode, Datum.queryKeys, Datum.atomKey]; done)
    | skip
  obtain ⟨s, -, inTable⟩ := (symbolRefsEqual_iff H csyms nsyms _ _).1 compare
  simp [Elem.decode, inTable, Datum.queryKeys, Datum.atomKey]

/-- Where `atom_compare_direct` accepts a needle, the node has the needle's keys. -/
theorem queryKeys_subset_of_atomCompareDirect (skipPairKeys : Bool) {d n : Elem}
    (compare : atomCompareDirect H csyms nsyms d n = true) :
    (n.decode nsyms).queryKeys H skipPairKeys ⊆ (d.decode csyms).valueKeys H := by
  rw [decode_eq_of_atomCompareDirect compare]
  refine Datum.queryKeys_subset_valueKeys H skipPairKeys _ ?_
  cases d <;> cases n <;> first
    | exact absurd compare Bool.false_ne_true
    | rfl
    | (simp only [Elem.decode]; split <;> rfl)

/-- For `@>` the keys of the needle are among those of a node the scan accepts, and there is
at least one. -/
theorem queryKeys_subset_of_scanMatchesHere {needle d : Elem}
    (noEmpty : (needle.decode nsyms).anyList List.isEmpty = false)
    (here : scanMatchesHere H csyms nsyms needle needle.tagByte needle.stype d = true) :
    (needle.decode nsyms).queryKeys H false ⊆ (d.decode csyms).valueKeys H ∧
      (needle.decode nsyms).queryKeys H false ≠ [] := by
  simp only [scanMatchesHere, Bool.and_eq_true] at here
  split at here
  · exact ⟨queryKeys_subset_of_atomCompareDirect false here.2,
      queryKeys_ne_nil_of_atomCompareDirect false here.2⟩
  · have equal := ieeeEq_decode_of_elementsEqualRecursive d needle here.2
    exact ⟨Datum.queryKeys_subset_valueKeys_of_ieeeEq H false equal noEmpty,
      Datum.queryKeys_ne_nil_of_ieeeEq H false _ _ equal⟩

/-- For a key-based query a list contributes its list-head key unless it is a pair.  A
container list with an equal head, at least as long, contributes the same key unless it is
a pair; then the query list, with a symbol head and not a pair, has that symbol alone. -/
theorem queryListKeys_subset_of_head {c n : Datum} {cs ns : List Datum}
    (heads : c.ieeeEq n = true) (lengths : ns.length ≤ cs.length)
    (notSingleton : Datum.isSymbolSingleton (n :: ns) = false) :
    Datum.queryListKeys H true (n :: ns) ⊆ Datum.valueListKeys H (c :: cs) := by
  have sameHead : Datum.headHash H (c :: cs) = Datum.headHash H (n :: ns) :=
    Datum.elementHash_eq_of_ieeeEq H c n heads
  simp only [Datum.queryListKeys, Datum.valueListKeys, Bool.not_true, Bool.false_and,
    Bool.false_eq_true, if_false, List.append_nil]
  split
  · exact List.nil_subset _
  · rename_i queryNotPair
    have valueNotPair : Datum.isPair (c :: cs) = false := by
      rcases cs with _ | ⟨x, _ | ⟨x2, cs⟩⟩
      · rfl
      · rcases ns with _ | ⟨y, _ | ⟨y2, ns⟩⟩
        · simpa [Datum.isPair, Datum.isSymbolSingleton, Datum.isSymbol_eq_of_ieeeEq heads]
            using notSingleton
        · simpa [Datum.isPair, Datum.isSymbol_eq_of_ieeeEq heads] using queryNotPair
        · simp at lengths
      · rfl
    simp [valueNotPair, Datum.listHeadKey, sameHead]

mutual
/-- For a key-based query, a needle element that `element_key_matches` accepts at a
container element has its keys among the element's. -/
theorem queryKeys_subset_of_elementKeyMatches (c : Elem) : ∀ n : Elem,
    elementKeyMatches H csyms nsyms c n = true →
    (n.decode nsyms).anyList List.isEmpty = false →
    (n.decode nsyms).anyList Datum.isSymbolSingleton = false →
    (n.decode nsyms).queryKeys H true ⊆ (c.decode csyms).valueKeys H
  | .smallList ns, found, noEmpty, noSingleton
  | .largeList _ ns, found, noEmpty, noSingleton => by
    obtain ⟨list, lists⟩ := Bool.and_eq_true_iff.1 found
    rw [Elem.decode_of_isList list]
    simp only [Elem.decode, Elem.decodeList_eq_map] at noEmpty noSingleton ⊢
    exact queryKeys_subset_of_keyContainsLists c.children ns lists noEmpty noSingleton
  | .nil, found, noEmpty, _ | .smallInt _, found, noEmpty, _ | .integer _, found, noEmpty, _
  | .float _, found, noEmpty, _ | .symbolRef _, found, noEmpty, _
  | .shortString _, found, noEmpty, _ | .longString _, found, noEmpty, _ =>
    Datum.queryKeys_subset_valueKeys_of_ieeeEq H true
      (ieeeEq_decode_of_elementsEqualRecursive c _ (Bool.and_eq_true_iff.1 found).2) noEmpty
termination_by structural n => n
/-- The same for two lists that `key_contains_recursive` matches. -/
theorem queryKeys_subset_of_keyContainsLists (cs : List Elem) : ∀ ns : List Elem,
    keyContainsLists H csyms nsyms cs ns = true →
    (Datum.list (ns.map (Elem.decode nsyms))).anyList List.isEmpty = false →
    (Datum.list (ns.map (Elem.decode nsyms))).anyList Datum.isSymbolSingleton = false →
    (Datum.list (ns.map (Elem.decode nsyms))).queryKeys H true ⊆
      (Datum.list (cs.map (Elem.decode csyms))).valueKeys H
  | [], _, noEmpty, _ => absurd noEmpty (by simp [Datum.anyList])
  | nh :: ntail, contains, noEmpty, noSingleton => by
    simp only [keyContainsLists] at contains
    split at contains
    · exact absurd contains Bool.false_ne_true
    rename_i longEnough
    cases cs with
    | nil => exact absurd contains Bool.false_ne_true
    | cons ch ctail =>
      obtain ⟨heads, tail⟩ := Bool.and_eq_true_iff.1 contains
      have headsEqual := ieeeEq_decode_of_elementsEqualRecursive ch nh heads
      simp only [Datum.anyList, Datum.anyListIn, List.map_cons, Bool.or_eq_false_iff]
        at noEmpty noSingleton
      have listKey : Datum.queryListKeys H true
          (nh.decode nsyms :: ntail.map (Elem.decode nsyms)) ⊆
          Datum.valueListKeys H (ch.decode csyms :: ctail.map (Elem.decode csyms)) :=
        queryListKeys_subset_of_head headsEqual
          (by simp only [List.length_map, List.length_cons] at longEnough ⊢; omega) noSingleton.1
      have headKeys :=
        Datum.queryKeys_subset_valueKeys_of_ieeeEq H true headsEqual noEmpty.2.1
      have tailKeys : Datum.queryKeysList H true (ntail.map (Elem.decode nsyms)) ⊆
          Datum.valueKeysList H (ctail.map (Elem.decode csyms)) := by
        rcases Bool.or_eq_true_iff.1 tail with empty | found
        · simp [List.isEmpty_iff.1 empty, Datum.queryKeysList]
        · exact queryKeys_subset_of_keyTailFound ctail ntail found noEmpty.2.2 noSingleton.2.2
      simp only [Datum.queryKeys, Datum.valueKeys, List.map_cons, Datum.queryKeysList,
        Datum.valueKeysList, List.append_subset]
      exact ⟨listKey.trans (List.subset_append_left _ _),
        headKeys.trans ((List.subset_append_left _ _).trans (List.subset_append_right _ _)),
        tailKeys.trans ((List.subset_append_right _ _).trans (List.subset_append_right _ _))⟩
termination_by structural ns => ns
/-- The same for the needle tail loop: each needle element is matched somewhere in the
container tail, whose keys hold its keys. -/
theorem queryKeys_subset_of_keyTailFound (ctail : List Elem) : ∀ ns : List Elem,
    keyTailFound H csyms nsyms ctail ns = true →
    Datum.anyListIn List.isEmpty (ns.map (Elem.decode nsyms)) = false →
    Datum.anyListIn Datum.isSymbolSingleton (ns.map (Elem.decode nsyms)) = false →
    Datum.queryKeysList H true (ns.map (Elem.decode nsyms)) ⊆
      Datum.valueKeysList H (ctail.map (Elem.decode csyms))
  | [], _, _, _ => List.nil_subset _
  | n :: ns, found, noEmpty, noSingleton => by
    obtain ⟨here, rest⟩ := Bool.and_eq_true_iff.1 found
    obtain ⟨c, mem, matched⟩ := List.any_eq_true.1 here
    simp only [List.map_cons, Datum.anyListIn, Bool.or_eq_false_iff] at noEmpty noSingleton
    simp only [List.map_cons, Datum.queryKeysList, List.append_subset]
    exact ⟨(queryKeys_subset_of_elementKeyMatches c n (Bool.and_eq_true_iff.1 matched).2
        noEmpty.1 noSingleton.1).trans
        (Datum.valueKeys_subset_valueKeysList H (List.mem_map_of_mem _ mem)),
      queryKeys_subset_of_keyTailFound ctail ns rest noEmpty.2 noSingleton.2⟩
termination_by structural ns => ns
end

/-- For `@>>` the keys of the needle are among those of a node the key search accepts, and
there is at least one. -/
theorem queryKeys_subset_of_keySearchHere {needle d : Elem}
    (noEmpty : (needle.decode nsyms).anyList List.isEmpty = false)
    (noSingleton : (needle.decode nsyms).anyList Datum.isSymbolSingleton = false)
    (here : keySearchHere H csyms nsyms needle needle.tag d = true) :
    (needle.decode nsyms).queryKeys H true ⊆ (d.decode csyms).valueKeys H ∧
      (needle.decode nsyms).queryKeys H true ≠ [] := by
  unfold keySearchHere at here
  split at here
  · have compare := (Bool.and_eq_true_iff.1 here).2
    exact ⟨queryKeys_subset_of_atomCompareDirect true compare,
      queryKeys_ne_nil_of_atomCompareDirect true compare⟩
  · rename_i list
    have needleList : needle.isList = true := by
      simpa [Elem.tag_eq_sexpTagList_iff] using list
    obtain ⟨-, contains⟩ := Bool.and_eq_true_iff.1 here
    obtain ⟨⟨dList, -⟩, lists⟩ :=
      (Bool.and_eq_true_iff.1 contains).imp_left Bool.and_eq_true_iff.1
    rw [Elem.decode_of_isList needleList] at noEmpty noSingleton ⊢
    rw [Elem.decode_of_isList dList]
    refine ⟨queryKeys_subset_of_keyContainsLists d.children needle.children lists noEmpty
      noSingleton, ?_⟩
    cases ns : needle.children with
    | nil => simp [Datum.queryKeys, Datum.queryListKeys]
    | cons nh ntail =>
      rw [ns] at lists
      simp only [keyContainsLists] at lists
      split at lists
      · exact absurd lists Bool.false_ne_true
      cases cs : d.children with
      | nil => simp [cs] at lists
      | cons ch ctail =>
        simp only [cs, Bool.and_eq_true] at lists
        have nonEmpty := Datum.queryKeys_ne_nil_of_ieeeEq H true _ _
          (ieeeEq_decode_of_elementsEqualRecursive ch nh lists.1)
        simp [Datum.queryKeys, Datum.queryKeysList, nonEmpty]

end Match

/-! ## Soundness of the index for `@>` and `@>>` -/

section Extract

variable {C N : Sexp}

theorem sexpGinExtractValue_of_ne_nil (nonEmpty : extractKeysRecursive H C.symbols C.root [] ≠ []) :
    sexpGinExtractValue H C = extractKeysRecursive H C.symbols C.root [] := by
  unfold sexpGinExtractValue
  split
  · contradiction
  · rfl

/-- The keys a query extracts for `@>` (`skip_pair_keys` false) or `@>>` (true) when the
extractor finds any. -/
theorem sexpGinExtractQuery_of_ne_nil {strategy : Nat} {skipPairKeys : Bool}
    (chosen : strategy = sexpGinContainsStrategy ∧ skipPairKeys = false ∨
      strategy = sexpGinContainsKeyStrategy ∧ skipPairKeys = true)
    (nonEmpty : extractQueryKeysRecursive H N.symbols skipPairKeys N.root [] ≠ []) :
    sexpGinExtractQuery H N strategy =
      .ok (extractQueryKeysRecursive H N.symbols skipPairKeys N.root [], .searchModeDefault) := by
  unfold sexpGinExtractQuery
  rcases chosen with ⟨rfl, rfl⟩ | ⟨rfl, rfl⟩
  · simp only [if_pos]
  · simp only [if_neg (by decide : sexpGinContainsKeyStrategy ≠ sexpGinContainsStrategy), if_pos]

/-- When a pair's query keys are among the value keys of the container's decoded tree, and
the container's extraction stopped short of `MAX_GIN_KEYS`, every extracted query key is an
extracted value key. -/
theorem extracted_subset_of_queryKeys_subset {skipPairKeys : Bool}
    (covered : (N.root.decode N.symbols).queryKeys H skipPairKeys ⊆
      (C.root.decode C.symbols).valueKeys H)
    (nonEmpty : (N.root.decode N.symbols).queryKeys H skipPairKeys ≠ [])
    (notTruncated : (extractKeysRecursive H C.symbols C.root []).length < maxGinKeys) :
    extractQueryKeysRecursive H N.symbols skipPairKeys N.root [] ≠ [] ∧
      ∀ k ∈ extractQueryKeysRecursive H N.symbols skipPairKeys N.root [],
        k ∈ sexpGinExtractValue H C := by
  rw [extractQueryKeysRecursive_eq_foldl]
  refine ⟨foldl_addKey_nil_ne_nil nonEmpty, fun k mem => ?_⟩
  have inValue : k ∈ extractKeysRecursive H C.symbols C.root [] := by
    rw [extractKeysRecursive_eq_foldl] at notTruncated ⊢
    exact mem_foldl_addKey_of_mem
      (.inr (covered ((mem_foldl_addKey mem).resolve_left (List.not_mem_nil k)))) notTruncated
  rwa [sexpGinExtractValue_of_ne_nil (List.ne_nil_of_mem inValue)]

end Extract

theorem sexpGinExtractQuery_keys_in_value (C N : Sexp) (strategy : Nat)
    (noEmptyList : (N.root.decode N.symbols).anyList List.isEmpty = false)
    (notTruncated : (extractKeysRecursive H C.symbols C.root []).length < maxGinKeys)
    (holds : strategy = sexpGinContainsStrategy ∧ sexpContains H C N = true ∨
      strategy = sexpGinContainsKeyStrategy ∧ sexpContainsKey H C N = true ∧
        (N.root.decode N.symbols).anyList Datum.isSymbolSingleton = false) :
    ∃ keys, (sexpGinExtractQuery H N strategy).toOption = some (keys, .searchModeDefault) ∧
      (∀ k ∈ keys, k ∈ sexpGinExtractValue H C) ∧
      sexpGinConsistent (keyPresence keys (sexpGinExtractValue H C)) strategy = .ok (true, true) ∧
      sexpGinTriconsistent (ternaryKeyPresence keys (sexpGinExtractValue H C)) strategy ≠
        .ok .ginFalse := by
  obtain ⟨skipPairKeys, chosen, covered, nonEmpty⟩ :
      ∃ skipPairKeys, (strategy = sexpGinContainsStrategy ∧ skipPairKeys = false ∨
        strategy = sexpGinContainsKeyStrategy ∧ skipPairKeys = true) ∧
        (N.root.decode N.symbols).queryKeys H skipPairKeys ⊆
          (C.root.decode C.symbols).valueKeys H ∧
        (N.root.decode N.symbols).queryKeys H skipPairKeys ≠ [] := by
    rcases holds with ⟨rfl, contains⟩ | ⟨rfl, containsKey, noSingleton⟩
    · rw [sexpContains_eq_containsFastScan] at contains
      obtain ⟨d, sub, here⟩ := exists_scanMatchesHere_of_containsFastScan C.root contains
      obtain ⟨covered, nonEmpty⟩ := queryKeys_subset_of_scanMatchesHere noEmptyList here
      exact ⟨false, .inl ⟨rfl, rfl⟩, covered.trans (valueKeys_subset_of_subtree sub), nonEmpty⟩
    · simp only [sexpContainsKey] at containsKey
      split at containsKey
      · exact absurd containsKey Bool.false_ne_true
      obtain ⟨d, sub, here⟩ := exists_keySearchHere_of_containsKeySearch C.root containsKey
      obtain ⟨covered, nonEmpty⟩ := queryKeys_subset_of_keySearchHere noEmptyList noSingleton here
      exact ⟨true, .inr ⟨rfl, rfl⟩, covered.trans (valueKeys_subset_of_subtree sub), nonEmpty⟩
  obtain ⟨extracted, present⟩ := extracted_subset_of_queryKeys_subset covered nonEmpty notTruncated
  have keyed : strategy = sexpGinContainsStrategy ∨ strategy = sexpGinContainsKeyStrategy :=
    chosen.imp And.left And.left
  refine ⟨_, by rw [sexpGinExtractQuery_of_ne_nil chosen extracted]; rfl, present,
    sexpGinConsistent_of_present present keyed, sexpGinTriconsistent_ne_ginFalse_of_present present⟩

/-- `(a (b 1))` contains `(b 1)`, and the index finds it: both of the needle's keys, its pair
key and the key of `1`, are among the container's. -/
theorem sexpGinExtractQuery_keys_in_value_pair :
    let C : Sexp :=
      ⟨[[97], [98]], .smallList [.symbolRef 0, .smallList [.symbolRef 1, .smallInt 17]]⟩
    let N : Sexp := ⟨[[98]], .smallList [.symbolRef 0, .smallInt 17]⟩
    ((N.root.decode N.symbols).anyList List.isEmpty = false ∧
      (extractKeysRecursive pgHashFns C.symbols C.root []).length < maxGinKeys ∧
      sexpContains pgHashFns C N = true) ∧
    ∃ keys, (sexpGinExtractQuery pgHashFns N sexpGinContainsStrategy).toOption =
        some (keys, .searchModeDefault) ∧
      (∀ k ∈ keys, k ∈ sexpGinExtractValue pgHashFns C) ∧
      sexpGinConsistent (keyPresence keys (sexpGinExtractValue pgHashFns C))
        sexpGinContainsStrategy = .ok (true, true) ∧
      sexpGinTriconsistent (ternaryKeyPresence keys (sexpGinExtractValue pgHashFns C))
        sexpGinContainsStrategy ≠ .ok .ginFalse :=
  have noEmpty : (Elem.decode [[98]] (.smallList [.symbolRef 0, .smallInt 17])).anyList
      List.isEmpty = false := by decide
  have notTruncated : (extractKeysRecursive pgHashFns [[97], [98]]
      (.smallList [.symbolRef 0, .smallList [.symbolRef 1, .smallInt 17]]) []).length <
      maxGinKeys := by decide
  have contains : sexpContains pgHashFns
      ⟨[[97], [98]], .smallList [.symbolRef 0, .smallList [.symbolRef 1, .smallInt 17]]⟩
      ⟨[[98]], .smallList [.symbolRef 0, .smallInt 17]⟩ = true := by decide
  ⟨⟨noEmpty, notTruncated, contains⟩,
    sexpGinExtractQuery_keys_in_value _ _ _ noEmpty notTruncated (.inl ⟨rfl, contains⟩)⟩

/-- `((y) (h x))` key-contains `(h)`, which matches the pair `(h x)`.  The query's list-head
key of `(h)` is not among the container's keys, where `(h x)` has a pair key instead, so
`sexp_gin_consistent` and `sexp_gin_triconsistent` reject the row. -/
theorem sexpGinExtractQuery_symbol_singleton_missing :
    (sexpIn pgHashFns "((y) (h x))").toOption =
        some ⟨[[121], [104], [120]],
          .smallList [.smallList [.symbolRef 0], .smallList [.symbolRef 1, .symbolRef 2]]⟩ ∧
      (sexpIn pgHashFns "(h)").toOption = some ⟨[[104]], .smallList [.symbolRef 0]⟩ ∧
      sexpContainsKey pgHashFns
        ⟨[[121], [104], [120]],
          .smallList [.smallList [.symbolRef 0], .smallList [.symbolRef 1, .symbolRef 2]]⟩
        ⟨[[104]], .smallList [.symbolRef 0]⟩ = true ∧
      (sexpGinExtractQuery pgHashFns ⟨[[104]], .smallList [.symbolRef 0]⟩
          sexpGinContainsKeyStrategy).toOption =
        some ([2501796542, 2485019326], .searchModeDefault) ∧
      sexpGinExtractValue pgHashFns
          ⟨[[121], [104], [120]],
            .smallList [.smallList [.symbolRef 0], .smallList [.symbolRef 1, .symbolRef 2]]⟩ =
        [2213664264, 2196887048, 3906190184, 2485019326, 3272759433] ∧
      (sexpGinConsistent (keyPresence [2501796542, 2485019326]
          [2213664264, 2196887048, 3906190184, 2485019326, 3272759433])
          sexpGinContainsKeyStrategy).toOption = some (false, true) ∧
      (sexpGinTriconsistent (ternaryKeyPresence [2501796542, 2485019326]
          [2213664264, 2196887048, 3906190184, 2485019326, 3272759433])
          sexpGinContainsKeyStrategy).toOption = some .ginFalse :=
  ⟨by decide, by decide, by decide, by decide, by decide, by decide, by decide⟩

/-! ## Admission without recheck -/

/-- `triconsistent` admits two rows without recheck that the operators reject: `-0.0` for the
needle `0.0` under `@>`, whose one float key is the same since the key hash folds `-0.0`
into `0.0`; and `(a x)` for the needle `(x x)` under `@>>`, whose one key is the symbol `x`
once the pair key is skipped and the repeat dropped. -/
theorem sexpGinTriconsistent_admits_rejected_rows :
    (sexpGinExtractQuery pgHashFns ⟨[], .float 0⟩ sexpGinContainsStrategy).toOption =
        some ([3916858396], .searchModeDefault) ∧
      sexpGinExtractValue pgHashFns ⟨[], .float 0x8000000000000000⟩ = [3916858396] ∧
      (sexpGinTriconsistent (ternaryKeyPresence [3916858396] [3916858396])
        sexpGinContainsStrategy).toOption = some .ginTrue ∧
      sexpContains pgHashFns ⟨[], .float 0x8000000000000000⟩ ⟨[], .float 0⟩ = false ∧
      (sexpIn pgHashFns "(a x)").toOption =
        some ⟨[[97], [120]], .smallList [.symbolRef 0, .symbolRef 1]⟩ ∧
      (sexpIn pgHashFns "(x x)").toOption =
        some ⟨[[120]], .smallList [.symbolRef 0, .symbolRef 0]⟩ ∧
      (sexpGinExtractQuery pgHashFns ⟨[[120]], .smallList [.symbolRef 0, .symbolRef 0]⟩
          sexpGinContainsKeyStrategy).toOption = some ([3272759433], .searchModeDefault) ∧
      sexpGinExtractValue pgHashFns ⟨[[97], [120]], .smallList [.symbolRef 0, .symbolRef 1]⟩ =
        [3939355958, 3272831153, 3272759433] ∧
      (sexpGinTriconsistent
        (ternaryKeyPresence [3272759433] [3939355958, 3272831153, 3272759433])
        sexpGinContainsKeyStrategy).toOption = some .ginTrue ∧
      sexpContainsKey pgHashFns ⟨[[97], [120]], .smallList [.symbolRef 0, .symbolRef 1]⟩
        ⟨[[120]], .smallList [.symbolRef 0, .symbolRef 0]⟩ = false :=
  ⟨by decide, by decide, by decide, by decide, by decide, by decide, by decide, by decide,
    by decide, by decide⟩

end PgSexp
