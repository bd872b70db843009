import PgSexp.Tokens

/-!
# The form `sexp_parse` writes

An s-expression has several admissible encodings, and `sexp_parse` writes one of them:
integers from `-16` to `15` small and the others full, strings up to `SEXP_SHORT_STRING_MAX`
bytes short and the others long, lists with children and small up to
`SEXP_SMALL_LIST_MAX` of them, no list nested `SEXP_MAX_DEPTH` deep, and every symbol
reference to a token of the table that is neither `nil` nor a number.  `Elem.canonical`
says so of an element.  `Elem.rereadable` says that its text is read back as it: it holds no
double, whose `%.17g` text may read as an integer, and no NIL nested `SEXP_MAX_DEPTH` deep,
which the parser writes for the token `nil` but refuses as `()`.

The parser interns symbols as it reads them, so what it has read refers to a table that
keeps growing.  `Grown` packages what one parse step leaves: a well-formed table that
extends the one before, and a property of what was read that holds through every table
extending the new one.
-/

namespace PgSexp

variable (H : HashFns)

namespace Elem

mutual
/-- The element is in the form `sexp_parse` writes at nesting `depth`. -/
def canonical (syms : List (List UInt8)) (depth : Nat) : Elem → Bool
  | .nil => true
  | .smallInt _ => true
  | .integer u =>
    !decide (-16 ≤ int64Value (zigzagDecode u) ∧ int64Value (zigzagDecode u) ≤ 15)
  | .float _ => true
  | .symbolRef i =>
    match syms[i]? with
    | some s => isSymbolToken H s
    | none => false
  | .shortString s => decide (s.length ≤ sexpShortStringMax)
  | .longString s => decide (sexpShortStringMax < s.length)
  | .smallList cs =>
    decide (depth < sexpMaxDepth) && !cs.isEmpty && decide (cs.length ≤ sexpSmallListMax) &&
      canonicalList syms (depth + 1) cs
  | .largeList _ cs =>
    decide (depth < sexpMaxDepth) && decide (sexpSmallListMax < cs.length) &&
      canonicalList syms (depth + 1) cs
/-- `canonical` of each child. -/
def canonicalList (syms : List (List UInt8)) (depth : Nat) : List Elem → Bool
  | [] => true
  | c :: cs => canonical syms depth c && canonicalList syms depth cs
end

mutual
/-- The element, at nesting `depth`, holds neither of the two things whose text the parser
reads otherwise: a double, and a NIL nested `SEXP_MAX_DEPTH` deep, which the parser writes
for the token `nil` but refuses as `()`. -/
def rereadable (depth : Nat) : Elem → Bool
  | .nil => decide (depth < sexpMaxDepth)
  | .smallInt _ | .integer _ | .symbolRef _ | .shortString _ | .longString _ => true
  | .float _ => false
  | .smallList cs | .largeList _ cs => rereadableList (depth + 1) cs
/-- `rereadable` of each child. -/
def rereadableList (depth : Nat) : List Elem → Bool
  | [] => true
  | c :: cs => rereadable depth c && rereadableList depth cs
end

section Canonical

variable {H} {syms : List (List UInt8)} {depth : Nat}

theorem canonical_symbolRef {i : Nat} :
    (symbolRef i).canonical H syms depth = true ↔
      ∃ s, syms[i]? = some s ∧ isSymbolToken H s = true := by
  simp only [canonical]
  cases syms[i]? with
  | none => simp only [Bool.false_eq_true, reduceCtorEq, false_and, exists_false]
  | some s => simp only [Option.some.injEq, exists_eq_left']

theorem canonical_smallList {cs : List Elem} :
    (smallList cs).canonical H syms depth = true ↔
      depth < sexpMaxDepth ∧ cs ≠ [] ∧ cs.length ≤ sexpSmallListMax ∧
        canonicalList H syms (depth + 1) cs = true := by
  simp only [canonical, Bool.and_eq_true, decide_eq_true_eq, Bool.not_eq_true',
    List.isEmpty_eq_false, and_assoc]

theorem canonical_largeList {h : UInt32} {cs : List Elem} :
    (largeList h cs).canonical H syms depth = true ↔
      depth < sexpMaxDepth ∧ sexpSmallListMax < cs.length ∧
        canonicalList H syms (depth + 1) cs = true := by
  simp only [canonical, Bool.and_eq_true, decide_eq_true_eq, and_assoc]

/-- The children of a canonical element are canonical one level down. -/
theorem canonicalList_children {e : Elem} (canonical : e.canonical H syms depth = true) :
    canonicalList H syms (depth + 1) e.children = true := by
  cases e with
  | smallList cs => exact (canonical_smallList.1 canonical).2.2.2
  | largeList h cs => exact (canonical_largeList.1 canonical).2.2
  | nil | smallInt _ | integer _ | float _ | symbolRef _ | shortString _ | longString _ => rfl

theorem canonicalList_iff {cs : List Elem} :
    canonicalList H syms depth cs = true ↔ ∀ c ∈ cs, c.canonical H syms depth = true := by
  induction cs with
  | nil => simp only [canonicalList, List.not_mem_nil, false_implies, implies_true]
  | cons c cs inductionHypothesis =>
    simp only [canonicalList, Bool.and_eq_true, inductionHypothesis, List.mem_cons,
      forall_eq_or_imp]

end Canonical

end Elem

/-! ## Growing tables -/

theorem getElem?_eq_of_prefix_some {xs ys : List (List UInt8)} (grows : xs <+: ys) {i : Nat}
    {s : List UInt8} (found : xs[i]? = some s) : ys[i]? = some s := by
  obtain ⟨t, rfl⟩ := grows
  rw [List.getElem?_append_left (List.getElem?_eq_some_iff.1 found).1, found]

/-- What one step of the parser leaves: a well-formed table `tab'` grown from `tab`, and a
property `P` of what was read that holds through every table extending `tab'`. -/
structure Grown (tab tab' : SexpSymbolTable) (P : List (List UInt8) → Prop) : Prop where
  wellFormed : tab'.WellFormed
  grows : tab.symbols <+: tab'.symbols
  holds : ∀ syms, tab'.symbols <+: syms → P syms

theorem Grown.refl {tab : SexpSymbolTable} {P : List (List UInt8) → Prop}
    (wf : tab.WellFormed) (holds : ∀ syms, P syms) : Grown tab tab P :=
  ⟨wf, List.prefix_refl _, fun syms _ => holds syms⟩

/-- A step after a step: what the first read still holds through the tables after the second. -/
theorem Grown.trans {tab tab₁ tab₂ : SexpSymbolTable} {P Q : List (List UInt8) → Prop}
    (first : Grown tab tab₁ P) (next : Grown tab₁ tab₂ Q) :
    Grown tab tab₂ fun syms => P syms ∧ Q syms :=
  ⟨next.wellFormed, first.grows.trans next.grows, fun syms later =>
    ⟨first.holds syms (next.grows.trans later), next.holds syms later⟩⟩

theorem Grown.mono {tab tab' : SexpSymbolTable} {P Q : List (List UInt8) → Prop}
    (grown : Grown tab tab' P) (imp : ∀ syms, P syms → Q syms) : Grown tab tab' Q :=
  ⟨grown.wellFormed, grown.grows, fun syms later => imp syms (grown.holds syms later)⟩

end PgSexp

