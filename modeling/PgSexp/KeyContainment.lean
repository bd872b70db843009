import PgSexp.ContainsKey
import PgSexp.BloomSoundness

/-!
# Structural containment is a case of key containment

Whatever `sexp_contains` finds, `sexp_contains_key` finds too.  Three facts over all trees
make this so.  Two lists that `elements_equal_recursive` identifies pass
`key_contains_recursive`: the counts agree, the heads are equal, and each needle tail
element is matched by the container element at its own position.  The node tests agree:
a node the scan accepts has the needle's tag byte, so the key search's tag test passes too.
And the key search descends wherever the scan finds the needle: the scan only finds it
below a list or at an element with the needle's tag, and both type filters let such a child
through, small list or large.  The Bloom test of the two operators is the same, and it
never rejects a pair the scan accepts.
-/

namespace PgSexp

variable {H : HashFns}

section KeyMatch

variable {csyms nsyms : List (List UInt8)}

theorem keyTagsCompatible_of_elementsEqualRecursive {c n : Elem}
    (equal : elementsEqualRecursive H csyms nsyms c n = true) : keyTagsCompatible c n = true := by
  simp [keyTagsCompatible, tag_eq_of_elementsEqualRecursive H equal]

mutual
/-- An element equal to a needle element passes the tail search's test for it. -/
theorem keyTailTest_of_elementsEqualRecursive :
    ∀ c n : Elem, elementsEqualRecursive H csyms nsyms c n = true →
      ((n.isList || keyTagsCompatible c n) && elementKeyMatches H csyms nsyms c n) = true
  | c, .smallList ns, equal | c, .largeList _ ns, equal => by
    obtain ⟨cList, lengths, children⟩ := elementsEqualRecursive_children H equal rfl
    exact Bool.and_eq_true_iff.2 ⟨Bool.or_eq_true_iff.2 (.inl rfl), Bool.and_eq_true_iff.2
      ⟨cList, keyContainsLists_of_childrenEqual c.children ns lengths children⟩⟩
  | c, .nil, equal | c, .smallInt _, equal | c, .integer _, equal | c, .float _, equal
  | c, .symbolRef _, equal | c, .shortString _, equal | c, .longString _, equal => by
    have compatible := keyTagsCompatible_of_elementsEqualRecursive equal
    exact Bool.and_eq_true_iff.2 ⟨Bool.or_eq_true_iff.2 (.inr compatible),
      Bool.and_eq_true_iff.2 ⟨compatible, equal⟩⟩
termination_by structural _ n => n
/-- Lists equal child by child pass `key_contains_recursive`. -/
theorem keyContainsLists_of_childrenEqual :
    ∀ cs ns : List Elem, cs.length = ns.length → childrenEqual H csyms nsyms cs ns = true →
      keyContainsLists H csyms nsyms cs ns = true
  | _, [], _, _ => by simp only [keyContainsLists]
  | [], _ :: _, lengths, _ => absurd lengths (by simp)
  | c :: ctail, n :: ntail, lengths, equal => by
    have equal := Bool.and_eq_true_iff.1 equal
    have tailLengths : ctail.length = ntail.length := Nat.succ.inj lengths
    have found := keyTailFound_of_childrenEqual ctail ctail ntail (fun _ mem => mem) tailLengths
      equal.2
    simp [keyContainsLists, tailLengths, equal.1, found]
termination_by structural _ ns => ns
/-- Each needle tail element is matched by the container element at its position, which
the search meets as it runs over the whole container tail. -/
theorem keyTailFound_of_childrenEqual (ctail : List Elem) :
    ∀ sub ns : List Elem, (∀ c ∈ sub, c ∈ ctail) → sub.length = ns.length →
      childrenEqual H csyms nsyms sub ns = true → keyTailFound H csyms nsyms ctail ns = true
  | _, [], _, _, _ => rfl
  | [], _ :: _, _, lengths, _ => absurd lengths (by simp)
  | c :: sub, n :: ns, inTail, lengths, equal => by
    have equal := Bool.and_eq_true_iff.1 equal
    exact Bool.and_eq_true_iff.2
      ⟨List.any_eq_true.2 ⟨c, inTail c (.head _), keyTailTest_of_elementsEqualRecursive c n equal.1⟩,
      keyTailFound_of_childrenEqual ctail sub ns (fun d mem => inTail d (.tail _ mem))
        (Nat.succ.inj lengths) equal.2⟩
termination_by structural _ ns => ns
end

/-- `key_contains_recursive` accepts every pair of lists `elements_equal_recursive` does. -/
theorem keyContainsRecursive_of_elementsEqualRecursive {c n : Elem}
    (equal : elementsEqualRecursive H csyms nsyms c n = true) (list : n.isList = true) :
    keyContainsRecursive H csyms nsyms c n = true := by
  obtain ⟨cList, lengths, children⟩ := elementsEqualRecursive_children H equal list
  simp only [keyContainsRecursive, cList, list, Bool.and_self, Bool.true_and]
  exact keyContainsLists_of_childrenEqual _ _ lengths children

end KeyMatch

section Search

variable {csyms nsyms : List (List UInt8)} {needle : Elem}

/-- The key search's test at a node passes where the scan's does. -/
theorem keySearchHere_of_scanMatchesHere {c : Elem}
    (here : scanMatchesHere H csyms nsyms needle needle.tagByte needle.stype c = true) :
    keySearchHere H csyms nsyms needle needle.tag c = true := by
  simp only [scanMatchesHere, Bool.and_eq_true, beq_iff_eq] at here
  obtain ⟨⟨-, tagBytes⟩, compare⟩ := here
  have tags := Elem.tag_eq_of_tagByte_eq tagBytes
  by_cases list : needle.isList = true
  · have stypeList := (Elem.stype_eq_sentryTypeList_iff needle).2 list
    have tagList := (Elem.tag_eq_sexpTagList_iff needle).2 list
    simp only [stypeList, bne_self_eq_false, Bool.false_eq_true, if_false] at compare
    simp [keySearchHere, tagList, tags, keyContainsRecursive_of_elementsEqualRecursive compare list]
  · have stypeAtom : needle.stype ≠ sentryTypeList := mt (Elem.stype_eq_sentryTypeList_iff _).1 list
    have tagAtom : needle.tag ≠ sexpTagList := mt (Elem.tag_eq_sexpTagList_iff _).1 list
    simp only [bne_iff_ne, ne_eq, stypeAtom, not_false_eq_true, if_true] at compare
    simp [keySearchHere, tagAtom, tags, compare]

/-- The scan finds the needle only below a list or at an element of the needle's kind. -/
theorem isList_or_tag_eq_of_containsFastScan {c : Elem}
    (scan : containsFastScan H csyms nsyms needle needle.tagByte needle.stype c = true) :
    c.isList = true ∨ c.tag = needle.tag := by
  cases c with
  | smallList _ | largeList _ _ => exact .inl rfl
  | _ =>
    simp only [containsFastScan, scanMatchesHere, Bool.and_eq_true, beq_iff_eq] at scan
    exact .inr (Elem.tag_eq_of_tagByte_eq scan.1.2)

/-- Both type filters of the key search let through a child where the scan finds the
needle. -/
theorem keySearchDescends_of_containsFastScan {c : Elem}
    (scan : containsFastScan H csyms nsyms needle needle.tagByte needle.stype c = true) :
    keySearchDescendsSmall needle.tag c = true ∧ keySearchDescendsLarge needle.tag c = true := by
  rcases isList_or_tag_eq_of_containsFastScan scan with list | tags
  · have tagList := (Elem.tag_eq_sexpTagList_iff c).2 list
    have stypeList := (Elem.stype_eq_sentryTypeList_iff c).2 list
    simp [keySearchDescendsSmall, keySearchDescendsLarge, tagList, stypeList]
  · have stypes : c.stype = getSentryTypeFromByte needle.tag := by
      rw [Elem.stype_eq_getSentryTypeFromByte_tag, tags]
    by_cases tagList : needle.tag = sexpTagList
    · have stypeList : c.stype = sentryTypeList := by rw [stypes, tagList]; decide
      simp [keySearchDescendsSmall, keySearchDescendsLarge, tagList, tags, stypeList]
    · simp [keySearchDescendsSmall, keySearchDescendsLarge, tagList, tags, stypes]

mutual
/-- Wherever the scan finds the needle, so does the key search. -/
theorem containsKeySearch_of_containsFastScan :
    ∀ c : Elem, containsFastScan H csyms nsyms needle needle.tagByte needle.stype c = true →
      containsKeySearch H csyms nsyms needle needle.tag c = true
  | .smallList cs, scan => by
    simp only [containsFastScan, containsKeySearch, Bool.or_eq_true] at scan ⊢
    exact scan.imp keySearchHere_of_scanMatchesHere (keySearchSmall_of_scanChildren cs)
  | .largeList _ cs, scan => by
    simp only [containsFastScan, containsKeySearch, Bool.or_eq_true] at scan ⊢
    exact scan.imp keySearchHere_of_scanMatchesHere (keySearchLarge_of_scanChildren cs)
  | .nil, scan | .smallInt _, scan | .integer _, scan | .float _, scan | .symbolRef _, scan
  | .shortString _, scan | .longString _, scan => keySearchHere_of_scanMatchesHere scan
/-- The small-list child loop of the key search finds what the scan's child loop finds. -/
theorem keySearchSmall_of_scanChildren :
    ∀ cs : List Elem, scanChildren H csyms nsyms needle needle.tagByte needle.stype cs = true →
      keySearchSmall H csyms nsyms needle needle.tag cs = true
  | [], scan => absurd scan Bool.false_ne_true
  | c :: cs, scan => by
    simp only [scanChildren, keySearchSmall, Bool.or_eq_true, Bool.and_eq_true] at scan ⊢
    rcases scan with ⟨-, found⟩ | later
    · exact .inl ⟨(keySearchDescends_of_containsFastScan found).1,
        containsKeySearch_of_containsFastScan c found⟩
    · exact .inr (keySearchSmall_of_scanChildren cs later)
/-- The large-list child loop of the key search finds what the scan's child loop finds. -/
theorem keySearchLarge_of_scanChildren :
    ∀ cs : List Elem, scanChildren H csyms nsyms needle needle.tagByte needle.stype cs = true →
      keySearchLarge H csyms nsyms needle needle.tag cs = true
  | [], scan => absurd scan Bool.false_ne_true
  | c :: cs, scan => by
    simp only [scanChildren, keySearchLarge, Bool.or_eq_true, Bool.and_eq_true] at scan ⊢
    rcases scan with ⟨-, found⟩ | later
    · exact .inl ⟨(keySearchDescends_of_containsFastScan found).2,
        containsKeySearch_of_containsFastScan c found⟩
    · exact .inr (keySearchLarge_of_scanChildren cs later)
end

end Search

theorem sexpContainsKey_of_sexpContains (C N : Sexp) (contains : sexpContains H C N = true) :
    sexpContainsKey H C N = true := by
  rw [sexpContains_eq_containsFastScan] at contains
  have passes := (bloomMayContain_iff _ _).2 (bloomSubset_of_containsFastScan C.root contains)
  simp only [sexpContainsKey, passes, Bool.not_true, Bool.false_eq_true, if_false]
  exact containsKeySearch_of_containsFastScan C.root contains

/-- `(a (b 17))` contains `(b 17)` in both senses. -/
theorem sexpContainsKey_of_sexpContains_nested :
    sexpContains pgHashFns
        ⟨[[97], [98]], .smallList [.symbolRef 0, .smallList [.symbolRef 1, .integer 34]]⟩
        ⟨[[98]], .smallList [.symbolRef 0, .integer 34]⟩ = true ∧
      sexpContainsKey pgHashFns
        ⟨[[97], [98]], .smallList [.symbolRef 0, .smallList [.symbolRef 1, .integer 34]]⟩
        ⟨[[98]], .smallList [.symbolRef 0, .integer 34]⟩ = true :=
  have contains := show sexpContains pgHashFns
      ⟨[[97], [98]], .smallList [.symbolRef 0, .smallList [.symbolRef 1, .integer 34]]⟩
      ⟨[[98]], .smallList [.symbolRef 0, .integer 34]⟩ = true by decide
  ⟨contains, sexpContainsKey_of_sexpContains _ _ contains⟩

end PgSexp
