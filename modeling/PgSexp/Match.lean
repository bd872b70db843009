import PgSexp.Ops
import PgSexp.Hash

/-!
# Pattern matching

A pattern is a value whose symbols `_`, `_*`, `?name` and `??name` are wildcards
(`is_pattern_symbol`).  `elements_match` lets `_` and `?name` match any element, refuses a
rest symbol outside a list, and otherwise compares like equality does, but on tags alone: a
small and a full integer never match.  `match_elements` walks a list pattern, where a rest
symbol in last position matches all remaining elements and anywhere else fails the match.
`sexp_find_first` returns the first subtree, in pre-order, that the pattern matches, under
the expression's header.
-/

namespace PgSexp

/-- `PatternType`, the kinds of special symbol. -/
inductive PatternType where
  | wildcard
  | wildcardRest
  | capture
  | captureRest
  deriving DecidableEq, Repr

/-- `is_pattern_symbol` -/
def isPatternSymbol (sym : List UInt8) : Option PatternType :=
  match sym with
  | [95] => some .wildcard
  | [95, 42] => some .wildcardRest
  | 63 :: 63 :: _ => some .captureRest
  | 63 :: _ => some .capture
  | _ => none

/-- The special symbol a pattern element stands for, if any. -/
def patternTypeOf (psyms : List (List UInt8)) : Elem → Option PatternType
  | .symbolRef i => psyms[i]?.bind isPatternSymbol
  | _ => none

/-- A rest symbol, `_*` or `??name`. -/
def isRestPattern (psyms : List (List UInt8)) (p : Elem) : Bool :=
  match patternTypeOf psyms p with
  | some .wildcardRest | some .captureRest => true
  | _ => false

section Match

variable (esyms psyms : List (List UInt8))

/-- The atom comparison of `elements_match` ("normal element matching"): equal tags, then
the decoded contents; symbols by length and bytes. -/
def atomsMatch : Elem → Elem → Bool
  | .nil, .nil => true
  | .smallInt p, .smallInt q => p == q
  | .integer u, .integer v => u == v
  | .float x, .float y => float8Eq x y
  | .symbolRef i, .symbolRef j =>
      match esyms[i]?, psyms[j]? with
      | some s, some t => s.length == t.length && s == t
      | _, _ => false
  | .shortString s, .shortString t => s.length == t.length && s == t
  | .longString s, .longString t => s.length == t.length && s == t
  | _, _ => false

mutual
/-- `elements_match` -/
def elementsMatch (e : Elem) : Elem → Bool
  | .smallList ps => e.isList && matchElements e.children ps
  | .largeList _ ps => e.isList && matchElements e.children ps
  | p =>
      match patternTypeOf psyms p with
      | some .wildcard | some .capture => true
      | some .wildcardRest | some .captureRest => false
      | none => atomsMatch esyms psyms e p
/-- `match_elements`, over the expression's and the pattern's children. -/
def matchElements (es : List Elem) : List Elem → Bool
  | [] => es.isEmpty
  | p :: ps =>
      if isRestPattern psyms p then ps.isEmpty
      else
        match es with
        | [] => false
        | e :: es' => elementsMatch e p && matchElements es' ps
end

variable (pattern : Elem)

mutual
/-- `find_pattern_recursive`: the first subtree, in pre-order, that the pattern matches. -/
def findPatternRecursive : Elem → Option Elem
  | .smallList cs =>
      if elementsMatch esyms psyms (.smallList cs) pattern then some (.smallList cs)
      else findInChildren cs
  | .largeList h cs =>
      if elementsMatch esyms psyms (.largeList h cs) pattern then some (.largeList h cs)
      else findInChildren cs
  | e => if elementsMatch esyms psyms e pattern then some e else none
/-- The child loop of `find_pattern_recursive`. -/
def findInChildren : List Elem → Option Elem
  | [] => none
  | c :: cs =>
      match findPatternRecursive c with
      | some found => some found
      | none => findInChildren cs
end

end Match

/-- `sexp_match` -/
def sexpMatch (expr pattern : Sexp) : Bool :=
  elementsMatch expr.symbols pattern.symbols expr.root pattern.root

/-- `sexp_find_first`: the subtree found, under the expression's header
(`extract_current_element`). -/
def sexpFindFirst (expr pattern : Sexp) : Option Sexp :=
  (findPatternRecursive expr.symbols pattern.symbols pattern.root expr.root).map
    (extractElementFast expr)

end PgSexp
