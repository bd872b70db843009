import PgSexp.Format
import PgSexp.Hash

/-!
# Decoded trees

`Datum` is what a stored value stands for, as the spec's data model describes it: NIL,
an integer (small or full, as its int64 bits), a float (its bits), a symbol (its text), a
string (its bytes) or a list of data.  `Elem.decode` resolves an element through its
value's symbol table; a reference outside the table decodes to `danglingSym`.  Encodings
that differ only in their choice of format (small or full integer, short or long string,
small or large list) or in their symbol tables decode to the same datum.

`Datum.ieeeEq` is the equality the readers implement on decoded trees: structural, with
floats compared by C's `==`.
-/

namespace PgSexp

/-- A decoded s-expression. -/
inductive Datum where
  | nil
  | int (value : UInt64)
  | float (bits : UInt64)
  | sym (text : List UInt8)
  | str (bytes : List UInt8)
  | list (children : List Datum)
  | danglingSym (index : Nat)
  deriving Repr

namespace Elem

mutual
/-- The datum an element stands for under the symbol table `syms`. -/
def decode (syms : List (List UInt8)) : Elem → Datum
  | .nil => .nil
  | .smallInt p => .int (smallintValue p)
  | .integer u => .int (zigzagDecode u)
  | .float x => .float x
  | .symbolRef i =>
      match syms[i]? with
      | some s => .sym s
      | none => .danglingSym i
  | .shortString s => .str s
  | .longString s => .str s
  | .smallList cs => .list (decodeList syms cs)
  | .largeList _ cs => .list (decodeList syms cs)
/-- `decode` on each child. -/
def decodeList (syms : List (List UInt8)) : List Elem → List Datum
  | [] => []
  | c :: cs => decode syms c :: decodeList syms cs
end

@[simp]
theorem decodeList_eq_map (syms : List (List UInt8)) (cs : List Elem) :
    decodeList syms cs = cs.map (decode syms) := by
  induction cs with
  | nil => rfl
  | cons c cs inductionHypothesis => simp [decodeList, inductionHypothesis]

end Elem

namespace Datum

mutual
/-- Equality of decoded trees with floats compared by C's `==`. -/
def ieeeEq : Datum → Datum → Bool
  | .nil, .nil => true
  | .int u, .int v => u == v
  | .float x, .float y => float8Eq x y
  | .sym s, .sym t => s == t
  | .str s, .str t => s == t
  | .list cs, .list ds => ieeeEqList cs ds
  | _, _ => false
/-- `ieeeEq` child by child, on lists of the same length. -/
def ieeeEqList : List Datum → List Datum → Bool
  | [], [] => true
  | c :: cs, d :: ds => ieeeEq c d && ieeeEqList cs ds
  | _, _ => false
end

end Datum

end PgSexp
