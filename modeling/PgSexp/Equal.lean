import PgSexp.Hash

/-!
# Equality of elements

`elements_equal_recursive` walks two elements in lockstep: the kinds must agree, scalars
are compared decoded (floats with C's `==`), symbols by their text through each value's own
table, and lists by count and then child by child, whatever their formats.
`atom_compare_direct`, the fast path of the containment scan, differs on three points:
a small integer and a full integer with the same value are equal, floats are compared
byte for byte, and lists are never equal.  `sexp_equal` first compares the two values'
bytes.
-/

namespace PgSexp

variable (H : HashFns)

/-- The symbol comparison of the readers: both indices inside their tables, then the cached
`hash_bytes` of the two texts, their lengths, and their bytes. -/
def symbolRefsEqual (symsA symsB : List (List UInt8)) (i j : Nat) : Bool :=
  match symsA[i]?, symsB[j]? with
  | some s, some t => H.hashBytes s == H.hashBytes t && s.length == t.length && s == t
  | _, _ => false

theorem symbolRefsEqual_iff (symsA symsB : List (List UInt8)) (i j : Nat) :
    symbolRefsEqual H symsA symsB i j = true ↔ ∃ s, symsA[i]? = some s ∧ symsB[j]? = some s := by
  unfold symbolRefsEqual
  cases symsA[i]? <;> cases symsB[j]? <;> simp only [Bool.and_eq_true, beq_iff_eq,
    reduceCtorEq, false_and, and_false, exists_false, Option.some.injEq, exists_eq_left',
    Bool.false_eq_true]
  constructor
  · exact fun h => h.2.symm
  · rintro rfl
    exact ⟨⟨rfl, rfl⟩, rfl⟩

mutual
/-- `elements_equal_recursive` -/
def elementsEqualRecursive (symsA symsB : List (List UInt8)) : Elem → Elem → Bool
  | .nil, .nil => true
  | .smallInt p, .smallInt q => p == q
  | .integer u, .integer v => u == v
  | .float x, .float y => float8Eq x y
  | .symbolRef i, .symbolRef j => symbolRefsEqual H symsA symsB i j
  | .shortString s, .shortString t => s.length == t.length && s == t
  | .longString s, .longString t => s.length == t.length && s == t
  | .smallList cs, .smallList ds
  | .smallList cs, .largeList _ ds
  | .largeList _ cs, .smallList ds
  | .largeList _ cs, .largeList _ ds =>
      cs.length == ds.length && childrenEqual symsA symsB cs ds
  | _, _ => false
/-- The child loop of `elements_equal_recursive`, once the counts agree. -/
def childrenEqual (symsA symsB : List (List UInt8)) : List Elem → List Elem → Bool
  | c :: cs, d :: ds =>
      elementsEqualRecursive symsA symsB c d && childrenEqual symsA symsB cs ds
  | _, _ => true
end

/-- Equal elements have the same kind bits: small and large lists are both `LIST`. -/
theorem tag_eq_of_elementsEqualRecursive {symsA symsB : List (List UInt8)} {a b : Elem}
    (equal : elementsEqualRecursive H symsA symsB a b = true) : a.tag = b.tag := by
  cases a <;> cases b <;> first | rfl | exact absurd equal Bool.false_ne_true

/-- An element equal to a list is a list with as many children, equal one by one. -/
theorem elementsEqualRecursive_children {symsA symsB : List (List UInt8)} {a b : Elem}
    (equal : elementsEqualRecursive H symsA symsB a b = true) (list : b.isList = true) :
    a.isList = true ∧ a.children.length = b.children.length ∧
      childrenEqual H symsA symsB a.children b.children = true := by
  cases b <;> simp only [Elem.isList, Bool.false_eq_true] at list <;> cases a <;>
    first
    | exact absurd equal Bool.false_ne_true
    | exact ⟨rfl, by simpa only [beq_iff_eq] using Bool.and_eq_true_iff.1 equal⟩

/-- `atom_compare_direct` -/
def atomCompareDirect (symsA symsB : List (List UInt8)) : Elem → Elem → Bool
  | .smallInt p, .integer v => smallintValue p == zigzagDecode v
  | .integer u, .smallInt q => zigzagDecode u == smallintValue q
  | .nil, .nil => true
  | .smallInt p, .smallInt q => p == q
  | .integer u, .integer v => u == v
  | .float x, .float y => x == y
  | .symbolRef i, .symbolRef j => symbolRefsEqual H symsA symsB i j
  | .shortString s, .shortString t => s.length == t.length && s == t
  | .longString s, .longString t => s.length == t.length && s == t
  | _, _ => false

/-- `sexp_equal`: equal bytes, or equal elements. -/
def sexpEqual (a b : Sexp) : Bool :=
  if a = b then true else elementsEqualRecursive H a.symbols b.symbols a.root b.root

/-- `sexp_equal_packed` reads the same bytes through `VARDATA_ANY`. -/
def sexpEqualPacked (a b : Sexp) : Bool := sexpEqual H a b

end PgSexp
