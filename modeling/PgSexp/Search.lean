import PgSexp.BloomSoundness
import PgSexp.ContainsKey
import PgSexp.Parse

/-!
# What the containment searches find

Both searches stop at the first node of the container where their comparison succeeds, so
each answers true exactly when some subtree passes the comparison made there.
`Elem.Subtree` names the subtrees; the lemmas below turn a search's answer into a subtree
and the test it passed.

For `sexp_contains` the test at a node is the first-byte filter and then
`atom_compare_direct` or `elements_equal_recursive`.  A node that passes equals the needle
under `elements_equal_recursive`, unless the needle is a NaN, which the byte comparison
accepts and C's `==` refuses.  The converse fails on zeros: `sexp_equal` identifies `-0.0`
with `0.0`, `atom_compare_direct` compares their bits, and `-0.0` does not contain `0.0`.

For `sexp_contains_key` the Bloom test is sound for an atom needle, which the search only
accepts at a node that decodes to it.  A list needle may be shorter than the list it
matches, and the signature of its count then has bits the container's lacks.
-/

namespace PgSexp

namespace Elem

/-- `d` is `e` or an element below it, at any depth. -/
inductive Subtree (d : Elem) : Elem → Prop
  | refl : Subtree d d
  | child {c e : Elem} : c ∈ e.children → Subtree d c → Subtree d e

theorem Subtree.trans {a b c : Elem} (ab : a.Subtree b) (bc : b.Subtree c) : a.Subtree c := by
  induction bc with
  | refl => exact ab
  | child mem _ below => exact .child mem below

end Elem

variable {H : HashFns}

/-! ## Where the searches stop -/

section Scan

variable {csyms nsyms : List (List UInt8)} {needle : Elem} {firstByte : UInt8}
  {stype : UInt32}

mutual
/-- The structural scan answers true only at a subtree where its comparison succeeds. -/
theorem exists_scanMatchesHere_of_containsFastScan :
    ∀ c : Elem, containsFastScan H csyms nsyms needle firstByte stype c = true →
      ∃ d, d.Subtree c ∧ scanMatchesHere H csyms nsyms needle firstByte stype d = true
  | .smallList cs, scan | .largeList _ cs, scan => by
    simp only [containsFastScan, Bool.or_eq_true] at scan
    rcases scan with here | below
    · exact ⟨_, .refl, here⟩
    · obtain ⟨c, mem, d, sub, here⟩ := exists_scanMatchesHere_of_scanChildren cs below
      exact ⟨d, .child mem sub, here⟩
  | .nil, scan | .smallInt _, scan | .integer _, scan | .float _, scan | .symbolRef _, scan
  | .shortString _, scan | .longString _, scan => ⟨_, .refl, scan⟩
theorem exists_scanMatchesHere_of_scanChildren :
    ∀ cs : List Elem, scanChildren H csyms nsyms needle firstByte stype cs = true →
      ∃ c ∈ cs, ∃ d, d.Subtree c ∧ scanMatchesHere H csyms nsyms needle firstByte stype d = true
  | [], scan => absurd scan Bool.false_ne_true
  | c :: cs, scan => by
    simp only [scanChildren, Bool.or_eq_true, Bool.and_eq_true] at scan
    rcases scan with ⟨-, found⟩ | later
    · exact ⟨c, .head _, exists_scanMatchesHere_of_containsFastScan c found⟩
    · obtain ⟨c', mem, found⟩ := exists_scanMatchesHere_of_scanChildren cs later
      exact ⟨c', .tail _ mem, found⟩
end

end Scan

section KeySearch

variable {csyms nsyms : List (List UInt8)} {needle : Elem} {needleTag : UInt8}

mutual
/-- The key search answers true only at a subtree where its test succeeds. -/
theorem exists_keySearchHere_of_containsKeySearch :
    ∀ c : Elem, containsKeySearch H csyms nsyms needle needleTag c = true →
      ∃ d, d.Subtree c ∧ keySearchHere H csyms nsyms needle needleTag d = true
  | .smallList cs, search => by
    simp only [containsKeySearch, Bool.or_eq_true] at search
    rcases search with here | below
    · exact ⟨_, .refl, here⟩
    · obtain ⟨c, mem, d, sub, here⟩ := exists_keySearchHere_of_keySearchSmall cs below
      exact ⟨d, .child mem sub, here⟩
  | .largeList _ cs, search => by
    simp only [containsKeySearch, Bool.or_eq_true] at search
    rcases search with here | below
    · exact ⟨_, .refl, here⟩
    · obtain ⟨c, mem, d, sub, here⟩ := exists_keySearchHere_of_keySearchLarge cs below
      exact ⟨d, .child mem sub, here⟩
  | .nil, search | .smallInt _, search | .integer _, search | .float _, search
  | .symbolRef _, search | .shortString _, search | .longString _, search =>
    ⟨_, .refl, search⟩
theorem exists_keySearchHere_of_keySearchSmall :
    ∀ cs : List Elem, keySearchSmall H csyms nsyms needle needleTag cs = true →
      ∃ c ∈ cs, ∃ d, d.Subtree c ∧ keySearchHere H csyms nsyms needle needleTag d = true
  | [], search => absurd search Bool.false_ne_true
  | c :: cs, search => by
    simp only [keySearchSmall, Bool.or_eq_true, Bool.and_eq_true] at search
    rcases search with ⟨-, found⟩ | later
    · exact ⟨c, .head _, exists_keySearchHere_of_containsKeySearch c found⟩
    · obtain ⟨c', mem, found⟩ := exists_keySearchHere_of_keySearchSmall cs later
      exact ⟨c', .tail _ mem, found⟩
theorem exists_keySearchHere_of_keySearchLarge :
    ∀ cs : List Elem, keySearchLarge H csyms nsyms needle needleTag cs = true →
      ∃ c ∈ cs, ∃ d, d.Subtree c ∧ keySearchHere H csyms nsyms needle needleTag d = true
  | [], search => absurd search Bool.false_ne_true
  | c :: cs, search => by
    simp only [keySearchLarge, Bool.or_eq_true, Bool.and_eq_true] at search
    rcases search with ⟨-, found⟩ | later
    · exact ⟨c, .head _, exists_keySearchHere_of_containsKeySearch c found⟩
    · obtain ⟨c', mem, found⟩ := exists_keySearchHere_of_keySearchLarge cs later
      exact ⟨c', .tail _ mem, found⟩
end

end KeySearch

/-! ## Signatures of subtrees -/

section Bloom

variable {syms : List (List UInt8)}

theorem bloomSubset_bloomChildren_of_mem {c : Elem} :
    ∀ {cs : List Elem}, c ∈ cs → ∀ acc,
      BloomSubset (sexpElementBloom H syms c) (bloomChildren H syms cs acc)
  | _ :: cs, .head _, _ => (BloomSubset.right_or _ _).trans (bloomSubset_bloomChildren cs _)
  | _ :: _, .tail _ mem, _ => bloomSubset_bloomChildren_of_mem mem _

/-- A subtree's signature is inside the signature of every list above it. -/
theorem bloomSubset_of_subtree {d e : Elem} (sub : d.Subtree e) :
    BloomSubset (sexpElementBloom H syms d) (sexpElementBloom H syms e) := by
  induction sub with
  | refl => exact .refl _
  | @child c e mem _ below =>
    refine below.trans ?_
    cases e <;> first
      | exact absurd mem (List.not_mem_nil c)
      | exact (bloomSubset_bloomChildren_of_mem mem 0).trans (BloomSubset.left_or _ _)

end Bloom

/-! ## Structural containment finds equal subtrees -/

/-- Two doubles with the same bits are equal under C's `==` unless they are NaN. -/
theorem float8Eq_of_beq {x y : UInt64} (same : (x == y) = true) (notNaN : float8IsNaN y = false) :
    float8Eq x y = true := by
  simp [float8Eq, eq_of_beq same, notNaN]

/-- A node the scan accepts equals the needle, unless the needle is a NaN. -/
theorem elementsEqualRecursive_of_scanMatchesHere {csyms nsyms : List (List UInt8)}
    {needle d : Elem} (notNaN : ∀ x, needle = .float x → float8IsNaN x = false)
    (here : scanMatchesHere H csyms nsyms needle needle.tagByte needle.stype d = true) :
    elementsEqualRecursive H csyms nsyms d needle = true := by
  simp only [scanMatchesHere, Bool.and_eq_true, beq_iff_eq] at here
  obtain ⟨⟨-, bytes⟩, compare⟩ := here
  split at compare
  · have tags := Elem.tag_eq_of_tagByte_eq bytes
    cases d <;> cases needle <;> first
      | exact absurd tags (by simp only [Elem.tag]; decide)
      | exact absurd compare Bool.false_ne_true
      | exact compare
      | exact float8Eq_of_beq compare (notNaN _ rfl)
  · exact compare

/-- Where `sexp_contains` holds, the container has a subtree equal to the needle under
`sexp_equal`, with the container's symbols, as `sexp_nth` and `sexp_car` extract it; the
needle is not a NaN. -/
theorem exists_sexpEqual_of_sexpContains {C N : Sexp}
    (notNaN : ∀ x, N.root = .float x → float8IsNaN x = false)
    (contains : sexpContains H C N = true) :
    ∃ d, d.Subtree C.root ∧ sexpEqual H ⟨C.symbols, d⟩ N = true := by
  rw [sexpContains_eq_containsFastScan] at contains
  obtain ⟨d, sub, here⟩ := exists_scanMatchesHere_of_containsFastScan C.root contains
  refine ⟨d, sub, ?_⟩
  unfold sexpEqual
  split
  · rfl
  · exact elementsEqualRecursive_of_scanMatchesHere notNaN here

/-- `-0.0` does not contain `0.0`, though `sexp_equal` identifies the two: the Bloom test
passes, since the signatures fold `-0.0` into `0.0`, and the scan compares the bits. -/
theorem sexpContains_negative_zero_misses_zero :
    (sexpIn pgHashFns "-0.0").toOption = some ⟨[], .float 0x8000000000000000⟩ ∧
      (sexpIn pgHashFns "0.0").toOption = some ⟨[], .float 0⟩ ∧
      sexpEqual pgHashFns ⟨[], .float 0x8000000000000000⟩ ⟨[], .float 0⟩ = true ∧
      sexpContains pgHashFns ⟨[], .float 0x8000000000000000⟩ ⟨[], .float 0⟩ = false ∧
      sexpContainsPacked pgHashFns ⟨[], .float 0x8000000000000000⟩ ⟨[], .float 0⟩ = false :=
  ⟨by decide, by decide, by decide, by decide, by decide⟩

/-! ## The Bloom test of key containment -/

/-- For an atom needle the Bloom test of `sexp_contains_key` never changes the answer: the
search accepts only a node that decodes to the needle, whose signature is then inside the
container's. -/
theorem sexpContainsKey_eq_containsKeySearch_of_atom {C N : Sexp} (atom : N.root.isList = false) :
    sexpContainsKey H C N =
      containsKeySearch H C.symbols N.symbols N.root N.root.tag C.root := by
  unfold sexpContainsKey
  cases search : containsKeySearch H C.symbols N.symbols N.root N.root.tag C.root
  · simp [search]
  · obtain ⟨d, sub, here⟩ := exists_keySearchHere_of_containsKeySearch C.root search
    have notList : (N.root.tag != sexpTagList) = true := by
      simpa [Elem.tag_eq_sexpTagList_iff] using atom
    simp only [keySearchHere, notList, if_true, Bool.and_eq_true] at here
    have sameBloom : sexpElementBloom H C.symbols d = sexpElementBloom H N.symbols N.root := by
      rw [sexpElementBloom_eq_bloom_decode, sexpElementBloom_eq_bloom_decode,
        decode_eq_of_atomCompareDirect here.2]
    have passes := (bloomMayContain_iff _ _).2 (sameBloom ▸ bloomSubset_of_subtree sub)
    simp [passes]

/-- `(a b c)` key-contains `(a b)`, and so does `(+ 1 2 3)` contain `(+ 2 1)` as the comment
of the key-based matcher has it; the Bloom test refuses both, since the signature of a
two-element list is not among those of the container. -/
theorem sexpContainsKey_bloom_refuses_shorter_list :
    (sexpIn pgHashFns "(a b c)").toOption =
        some ⟨[[97], [98], [99]], .smallList [.symbolRef 0, .symbolRef 1, .symbolRef 2]⟩ ∧
      (sexpIn pgHashFns "(a b)").toOption =
        some ⟨[[97], [98]], .smallList [.symbolRef 0, .symbolRef 1]⟩ ∧
      containsKeySearch pgHashFns [[97], [98], [99]] [[97], [98]]
        (.smallList [.symbolRef 0, .symbolRef 1]) sexpTagList
        (.smallList [.symbolRef 0, .symbolRef 1, .symbolRef 2]) = true ∧
      sexpContainsKey pgHashFns
        ⟨[[97], [98], [99]], .smallList [.symbolRef 0, .symbolRef 1, .symbolRef 2]⟩
        ⟨[[97], [98]], .smallList [.symbolRef 0, .symbolRef 1]⟩ = false ∧
      (sexpIn pgHashFns "(+ 1 2 3)").toOption =
        some ⟨[[43]], .smallList [.symbolRef 0, .smallInt 17, .smallInt 18, .smallInt 19]⟩ ∧
      (sexpIn pgHashFns "(+ 2 1)").toOption =
        some ⟨[[43]], .smallList [.symbolRef 0, .smallInt 18, .smallInt 17]⟩ ∧
      containsKeySearch pgHashFns [[43]] [[43]]
        (.smallList [.symbolRef 0, .smallInt 18, .smallInt 17]) sexpTagList
        (.smallList [.symbolRef 0, .smallInt 17, .smallInt 18, .smallInt 19]) = true ∧
      sexpContainsKey pgHashFns
        ⟨[[43]], .smallList [.symbolRef 0, .smallInt 17, .smallInt 18, .smallInt 19]⟩
        ⟨[[43]], .smallList [.symbolRef 0, .smallInt 18, .smallInt 17]⟩ = false :=
  ⟨by decide, by decide, by decide, by decide, by decide, by decide, by decide, by decide⟩

end PgSexp
