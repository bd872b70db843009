import PgSexp.Equal
import PgSexp.Bloom

/-!
# Key-based containment

`key_contains_recursive` matches a needle list against a container list: the container has
at least as many elements, the heads are equal, and every needle tail element is matched by
some container tail element (`element_key_matches`: equality for an atom, key containment
for a list).  Each needle element searches the whole container tail; nothing is consumed.
`contains_key_search` tries that match at every node of the container, descending through a
type filter that reads the SEntry type in a large list and the tag in a small one.
-/

namespace PgSexp

variable (H : HashFns)

/-- Small integer and full integer tags pass each other's tag tests. -/
def intTags (a b : UInt8) : Bool :=
  (a == sexpTagSmallint || a == sexpTagInteger) && (b == sexpTagSmallint || b == sexpTagInteger)

/-- The tag test of `element_key_matches` and of the tail search for an atom needle: equal
tags, or two integer tags. -/
def keyTagsCompatible (c n : Elem) : Bool :=
  c.tag == n.tag || intTags c.tag n.tag

section KeyContains

variable (csyms nsyms : List (List UInt8))

mutual
/-- `element_key_matches`, with `key_contains_recursive` unfolded for a list needle. -/
def elementKeyMatches (c : Elem) : Elem → Bool
  | .smallList ns => c.isList && keyContainsLists c.children ns
  | .largeList _ ns => c.isList && keyContainsLists c.children ns
  | n => keyTagsCompatible c n && elementsEqualRecursive H csyms nsyms c n
/-- The body of `key_contains_recursive` once both lists are decoded. -/
def keyContainsLists (cs : List Elem) : List Elem → Bool
  | [] => true
  | nh :: ntail =>
      if cs.length < ntail.length + 1 then false
      else
        match cs with
        | [] => false
        | ch :: ctail =>
            elementsEqualRecursive H csyms nsyms ch nh &&
              (ntail.isEmpty || keyTailFound ctail ntail)
/-- The needle tail loop: each needle element is found somewhere in the container tail. -/
def keyTailFound (ctail : List Elem) : List Elem → Bool
  | [] => true
  | n :: ns =>
      ctail.any (fun c => (n.isList || keyTagsCompatible c n) && elementKeyMatches c n) &&
        keyTailFound ctail ns
end

/-- `key_contains_recursive`: both elements must be lists. -/
def keyContainsRecursive (c n : Elem) : Bool :=
  c.isList && n.isList && keyContainsLists H csyms nsyms c.children n.children

variable (needle : Elem) (needleTag : UInt8)

/-- The test `contains_key_search` makes at one node. -/
def keySearchHere (c : Elem) : Bool :=
  if needleTag != sexpTagList then
    (c.tag == needleTag || intTags c.tag needleTag) && atomCompareDirect H csyms nsyms c needle
  else c.tag == sexpTagList && keyContainsRecursive H csyms nsyms c needle

/-- The descent filter in a large list, on the SEntry type. -/
def keySearchDescendsLarge (child : Elem) : Bool :=
  if needleTag != sexpTagList then
    child.stype == getSentryTypeFromByte needleTag || child.stype == sentryTypeList
  else child.stype == sentryTypeList

/-- The descent filter in a small list, on the tag. -/
def keySearchDescendsSmall (child : Elem) : Bool :=
  if needleTag != sexpTagList then
    child.tag == needleTag || child.tag == sexpTagList || intTags child.tag needleTag
  else child.tag == sexpTagList

mutual
/-- `contains_key_search` -/
def containsKeySearch : Elem → Bool
  | .smallList cs =>
      keySearchHere H csyms nsyms needle needleTag (.smallList cs) || keySearchSmall cs
  | .largeList h cs =>
      keySearchHere H csyms nsyms needle needleTag (.largeList h cs) || keySearchLarge cs
  | c => keySearchHere H csyms nsyms needle needleTag c
/-- The child loop of a small list. -/
def keySearchSmall : List Elem → Bool
  | [] => false
  | c :: cs => (keySearchDescendsSmall needleTag c && containsKeySearch c) || keySearchSmall cs
/-- The child loop of a large list. -/
def keySearchLarge : List Elem → Bool
  | [] => false
  | c :: cs => (keySearchDescendsLarge needleTag c && containsKeySearch c) || keySearchLarge cs
end

end KeyContains

/-- `sexp_contains_key` -/
def sexpContainsKey (container needle : Sexp) : Bool :=
  let containerBloom := sexpElementBloom H container.symbols container.root
  let needleBloom := sexpElementBloom H needle.symbols needle.root
  if !bloomMayContain containerBloom needleBloom then false
  else
    containsKeySearch H container.symbols needle.symbols needle.root needle.root.tag
      container.root

/-! ## Unfolding the decoded key search -/

section Decoded

variable {csyms nsyms : List (List UInt8)} {needle : Elem} {needleTag : UInt8}

theorem keyContainsLists_cons_cons {ch nh : Elem} {ctail ntail : List Elem} :
    keyContainsLists H csyms nsyms (ch :: ctail) (nh :: ntail) =
      if ctail.length + 1 < ntail.length + 1 then false
      else elementsEqualRecursive H csyms nsyms ch nh &&
        (ntail.isEmpty || keyTailFound H csyms nsyms ctail ntail) :=
  rfl

/-- The needle tail loop asks of each needle element that some container tail element
matches it. -/
theorem keyTailFound_eq_all (ctail : List Elem) : ∀ ntail : List Elem,
    keyTailFound H csyms nsyms ctail ntail = ntail.all fun n =>
      ctail.any fun c => (n.isList || keyTagsCompatible c n) && elementKeyMatches H csyms nsyms c n
  | [] => rfl
  | _ :: ntail => congrArg (_ && ·) (keyTailFound_eq_all ctail ntail)

theorem elementKeyMatches_of_list {c n : Elem} (list : n.isList = true) :
    elementKeyMatches H csyms nsyms c n =
      (c.isList && keyContainsLists H csyms nsyms c.children n.children) := by
  cases n <;> first | rfl | cases list

theorem elementKeyMatches_of_atom {c n : Elem} (atom : n.isList = false) :
    elementKeyMatches H csyms nsyms c n =
      (keyTagsCompatible c n && elementsEqualRecursive H csyms nsyms c n) := by
  cases n <;> first | rfl | cases atom

theorem keySearchSmall_cons {c : Elem} {cs : List Elem} :
    keySearchSmall H csyms nsyms needle needleTag (c :: cs) =
      ((keySearchDescendsSmall needleTag c && containsKeySearch H csyms nsyms needle needleTag c) ||
        keySearchSmall H csyms nsyms needle needleTag cs) :=
  rfl

theorem keySearchLarge_cons {c : Elem} {cs : List Elem} :
    keySearchLarge H csyms nsyms needle needleTag (c :: cs) =
      ((keySearchDescendsLarge needleTag c && containsKeySearch H csyms nsyms needle needleTag c) ||
        keySearchLarge H csyms nsyms needle needleTag cs) :=
  rfl

theorem containsKeySearch_of_atom {c : Elem} (atom : c.isList = false) :
    containsKeySearch H csyms nsyms needle needleTag c =
      keySearchHere H csyms nsyms needle needleTag c := by
  cases c <;> first | rfl | cases atom

end Decoded

end PgSexp
