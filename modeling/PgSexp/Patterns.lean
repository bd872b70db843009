import PgSexp.Deduplication
import PgSexp.Search
import PgSexp.Match

/-!
# What `sexp_match` and `sexp_find_first` decide

The spec states its matcher `M(e, p)` on decoded trees: `_` and `?name` match any element, a
rest symbol (`_*`, `??name`) matches the remaining elements of a list when it comes last and
fails anywhere else, a list pattern matches a list position by position, NIL being the list
of no elements, and any other pattern matches what is equal to it.  `elements_match` tests
the tag of the expression before it walks a list pattern, and NIL is not tagged as a list:
the pure rest pattern `(_*)`, which `M` lets match NIL, does not match it.

`find_pattern_recursive` tries the pattern at a node before it descends, and visits the
children in order: `sexp_find_first` returns the first subtree in pre-order that
`sexp_match` accepts as a value of its own under the expression's header, and `NULL` when
there is none.
-/

namespace PgSexp

/-! ## The spec's matcher -/

/-- `_`, or a symbol that begins with `?` but not with `??`: it matches any element. -/
def matchesAnyText (t : List UInt8) : Bool :=
  t == [95] || (t.take 1 == [63] && t.take 2 != [63, 63])

/-- `_*`, or a symbol that begins with `??`: it matches the rest of a list. -/
def matchesRestText (t : List UInt8) : Bool :=
  t == [95, 42] || t.take 2 == [63, 63]

namespace Datum

/-- The elements of a list, NIL being the list of none; `none` for an atom. -/
def asList : Datum → Option (List Datum)
  | .nil => some []
  | .list es => some es
  | _ => none

/-- A rest symbol. -/
def isRestPattern : Datum → Bool
  | .sym t => matchesRestText t
  | _ => false

mutual
/-- `M(e, p)` as the spec defines it, with atoms compared as decoded trees are. -/
def specMatch (e : Datum) : Datum → Bool
  | .sym t => if matchesAnyText t then true else if matchesRestText t then false else e.ieeeEq (.sym t)
  | .list ps =>
    match e.asList with
    | some es => specMatchList es ps
    | none => false
  | p => e.ieeeEq p
/-- `M` on the elements of a list pattern: a rest symbol in last place matches whatever is
left, anywhere else it fails; every other pattern element takes one element. -/
def specMatchList (es : List Datum) : List Datum → Bool
  | [] => es.isEmpty
  | p :: ps =>
    if p.isRestPattern then ps.isEmpty
    else
      match es with
      | [] => false
      | e :: es => specMatch e p && specMatchList es ps
end

end Datum

variable (H : HashFns)

/-- NIL, which `sexp_parse` writes for `nil`, and the pattern `(_*)`: `M` lets the pattern
match NIL as the list of no elements, and `sexp_match` refuses it because NIL is not tagged
as a list. -/
theorem sexpMatch_nil_restPattern :
    sexpParse H [110, 105, 108] = .ok ⟨[], .nil⟩ ∧
      sexpParse H [40, 95, 42, 41] = .ok ⟨[[95, 42]], .smallList [.symbolRef 0]⟩ ∧
      sexpMatch ⟨[], .nil⟩ ⟨[[95, 42]], .smallList [.symbolRef 0]⟩ = false ∧
      Datum.specMatch (Elem.decode [] .nil) (Elem.decode [[95, 42]] (.smallList [.symbolRef 0])) =
        true := by
  obtain ⟨tab, value, symbols, -⟩ := parseValue_symbol_interned (s := [95, 42])
    rfl (show endsAtom [41] = true from rfl) (interned_initSymbolTable H) 11 1
  have loop : parseElements H (12 + 1) 1 ⟨95 :: [42, 41], initSymbolTable⟩ [] =
      .ok ([(.symbolRef 0, sexpHashStringWithTag H sexpTagSymbolRef [95, 42])], ⟨[], tab⟩) :=
    (parseElements_of_parseValue H (by decide) value []).trans rfl
  refine ⟨rfl, ?_, rfl, rfl⟩
  rw [sexpParse_eq_ok (by decide) (by decide)
    (by rw [show parseFuel [40, 95, 42, 41] = 14 + 1 from rfl, parseValue_open,
      parseList_of_parseElements H (by decide) (show isSpace 95 = false from rfl) (by decide)
        (by decide) loop]) (show skipWhitespace [] = [] from rfl), symbols]
  rfl

/-! ## The first subtree that matches -/

namespace Elem

mutual
/-- The subtrees of an element depth first, in pre-order and left to right, the element
first. -/
def preorder : Elem → List Elem
  | .smallList cs => .smallList cs :: preorderList cs
  | .largeList h cs => .largeList h cs :: preorderList cs
  | e => [e]
/-- `preorder` of each element in turn. -/
def preorderList : List Elem → List Elem
  | [] => []
  | c :: cs => preorder c ++ preorderList cs
end

theorem preorder_eq (e : Elem) : e.preorder = e :: preorderList e.children := by
  cases e <;> rfl

theorem mem_preorderList {d : Elem} :
    ∀ {cs : List Elem}, d ∈ preorderList cs ↔ ∃ c ∈ cs, d ∈ c.preorder
  | [] => by simp only [preorderList, List.not_mem_nil, false_and, exists_false]
  | c :: cs => by
    simp only [preorderList, List.mem_append, mem_preorderList, List.mem_cons, exists_eq_or_imp]

mutual
theorem subtree_of_mem_preorder {d : Elem} : ∀ {e : Elem}, d ∈ e.preorder → d.Subtree e
  | .smallList cs, mem | .largeList _ cs, mem => by
    rw [preorder_eq, List.mem_cons] at mem
    rcases mem with rfl | inside
    · exact .refl
    · obtain ⟨c, held, sub⟩ := subtree_of_mem_preorderList inside
      exact .child held sub
  | .nil, mem | .smallInt _, mem | .integer _, mem | .float _, mem | .symbolRef _, mem
  | .shortString _, mem | .longString _, mem => by
    rw [List.mem_singleton.1 mem]
    exact .refl
theorem subtree_of_mem_preorderList {d : Elem} :
    ∀ {cs : List Elem}, d ∈ preorderList cs → ∃ c ∈ cs, d.Subtree c
  | [], mem => absurd mem (List.not_mem_nil _)
  | c :: cs, mem => by
    rcases List.mem_append.1 mem with here | later
    · exact ⟨c, List.mem_cons_self _ _, subtree_of_mem_preorder here⟩
    · obtain ⟨c', held, sub⟩ := subtree_of_mem_preorderList later
      exact ⟨c', List.mem_cons_of_mem _ held, sub⟩
end

/-- The pre-order lists exactly the subtrees. -/
theorem mem_preorder {d e : Elem} : d ∈ e.preorder ↔ d.Subtree e := by
  refine ⟨subtree_of_mem_preorder, fun sub => ?_⟩
  induction sub with
  | refl => rw [preorder_eq]; exact List.mem_cons_self _ _
  | child held _ below =>
    rw [preorder_eq, List.mem_cons, mem_preorderList]
    exact .inr ⟨_, held, below⟩

end Elem

section Find

variable (esyms psyms : List (List UInt8)) (pattern : Elem)

mutual
/-- `find_pattern_recursive` returns the first subtree in pre-order that the pattern
matches. -/
theorem findPatternRecursive_eq_find? : ∀ e : Elem,
    findPatternRecursive esyms psyms pattern e =
      e.preorder.find? fun d => elementsMatch esyms psyms d pattern
  | .smallList cs | .largeList _ cs => by
    simp only [findPatternRecursive, Elem.preorder, List.find?_cons]
    split <;> simp only [*, findInChildren_eq_find?]
  | .nil | .smallInt _ | .integer _ | .float _ | .symbolRef _ | .shortString _ | .longString _ => by
    simp only [findPatternRecursive, Elem.preorder, List.find?_cons, List.find?_nil]
    split <;> simp only [*]
theorem findInChildren_eq_find? : ∀ cs : List Elem,
    findInChildren esyms psyms pattern cs =
      (Elem.preorderList cs).find? fun d => elementsMatch esyms psyms d pattern
  | [] => rfl
  | c :: cs => by
    simp only [findInChildren, Elem.preorderList, List.find?_append, findPatternRecursive_eq_find? c,
      findInChildren_eq_find? cs]
    cases (c.preorder.find? fun d => elementsMatch esyms psyms d pattern) <;> rfl
end

end Find

/-- `sexp_find_first` returns `NULL` exactly when no subtree matches the pattern as a value of
its own under the expression's header; otherwise it returns, under that header, the first
subtree in depth-first pre-order, left to right, that matches. -/
theorem sexpFindFirst_first_in_preorder (expr pattern : Sexp) :
    (sexpFindFirst expr pattern = none ↔
      ∀ d, d.Subtree expr.root → sexpMatch ⟨expr.symbols, d⟩ pattern = false) ∧
    ∀ found, sexpFindFirst expr pattern = some found →
      ∃ before d after, expr.root.preorder = before ++ d :: after ∧
        found = ⟨expr.symbols, d⟩ ∧ sexpMatch ⟨expr.symbols, d⟩ pattern = true ∧
        ∀ d' ∈ before, sexpMatch ⟨expr.symbols, d'⟩ pattern = false := by
  have search : sexpFindFirst expr pattern =
      (expr.root.preorder.find? fun d => sexpMatch ⟨expr.symbols, d⟩ pattern).map
        (extractElementFast expr) := by
    rw [sexpFindFirst, findPatternRecursive_eq_find?]
    rfl
  refine ⟨?_, fun found first => ?_⟩
  · rw [search, Option.map_eq_none', List.find?_eq_none]
    simp only [Elem.mem_preorder, Bool.not_eq_true]
  · rw [search, Option.map_eq_some'] at first
    obtain ⟨d, firstMatch, rfl⟩ := first
    obtain ⟨accepted, before, after, split, earlier⟩ := List.find?_eq_some.1 firstMatch
    exact ⟨before, d, after, split, rfl, accepted, fun d' mem => by
      simpa only [Bool.not_eq_true'] using earlier d' mem⟩

end PgSexp
