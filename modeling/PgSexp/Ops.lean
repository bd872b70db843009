import PgSexp.Format

/-!
# List accessors

`sexp_car` and `sexp_nth` return a child as a value of its own by copying the parent's
whole header, its symbol table included, in front of the child's bytes
(`extract_element_fast`), so the child's symbol indices keep their meaning.  `sexp_cdr`
rebuilds a list of the remaining children under a copy of the decoded symbol table, in the
small format when at most `SEXP_SMALL_LIST_MAX` remain and otherwise in the large format,
whose structural hash it leaves at `0`.
-/

namespace PgSexp

/-- `extract_element_fast`: the parent's header followed by the element. -/
def extractElementFast (parent : Sexp) (elem : Elem) : Sexp := ⟨parent.symbols, elem⟩

/-- `build_nil_sexp`, the NIL singleton: no symbols, a NIL root. -/
def buildNilSexp : Sexp := ⟨[], .nil⟩

/-- `sexp_car` -/
def sexpCar (s : Sexp) : Except SqlError (Option Sexp) :=
  match s.root with
  | .nil => .ok none
  | .smallList cs | .largeList _ cs =>
      match cs with
      | [] => .ok none
      | c :: _ => .ok (some (extractElementFast s c))
  | _ => .error ⟨.datatypeMismatch, "car requires a list"⟩

/-- `sexp_head`, an alias of `sexp_car`. -/
def sexpHead (s : Sexp) : Except SqlError (Option Sexp) := sexpCar s

/-- The list `sexp_cdr` writes for the remaining children: small with its payload size, or
large with an SEntry table and the placeholder hash `dummy_hash = 0`. -/
def cdrList (rest : List Elem) : Elem :=
  if rest.length ≤ sexpSmallListMax then .smallList rest else .largeList 0 rest

/-- `sexp_cdr` -/
def sexpCdr (s : Sexp) : Except SqlError (Option Sexp) :=
  match s.root with
  | .nil => .ok none
  | .smallList cs | .largeList _ cs =>
      if cs.length ≤ 1 then .ok (some buildNilSexp)
      else .ok (some ⟨s.symbols, cdrList cs.tail⟩)
  | _ => .error ⟨.datatypeMismatch, "cdr requires a list"⟩

/-- `sexp_nth`: `NULL` for a negative index, NIL, or an index past the count; an atom is
its own element `0`. -/
def sexpNth (s : Sexp) (n : Int) : Option Sexp :=
  if n < 0 then none
  else
    match s.root with
    | .nil => none
    | .smallList cs | .largeList _ cs => cs[n.toNat]?.map (extractElementFast s)
    | _ => if n = 0 then some s else none

/-- The `int32` a C cast gives a count below `2 ^ 32`. -/
def int32OfCount (count : Nat) : Int :=
  if count % 2 ^ 32 < 2 ^ 31 then count % 2 ^ 32 else (count % 2 ^ 32 : Int) - 2 ^ 32

/-- `sexp_length`: `0` for NIL, `1` for an atom, the stored count for a list. -/
def sexpLength (s : Sexp) : Int :=
  match s.root with
  | .nil => 0
  | .smallList cs | .largeList _ cs => int32OfCount cs.length
  | _ => 1

end PgSexp
