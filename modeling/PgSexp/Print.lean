import PgSexp.Hash
import PgSexp.Numeric

/-!
# The printer

`output_element` (`sexp_io.c`) writes an element as text: NIL as `()`, integers in
decimal, finite floats with `%.17g` and the others as `nan`, `inf` or `-inf`, a symbol as
its bytes, a string between quotes with `\n`, `\t`, `\r`, `\\` and `\"` escaped, and a list
as its children between parentheses, separated by single spaces.
-/

namespace PgSexp

/-- The text `output_element` writes for one byte of a string. -/
def escapeByte (c : UInt8) : List UInt8 :=
  if c = 10 then [92, 110]
  else if c = 9 then [92, 116]
  else if c = 13 then [92, 114]
  else if c = 92 then [92, 92]
  else if c = 34 then [92, 34]
  else [c]

/-- A string between quotes, escaped. -/
def quoteString (str : List UInt8) : List UInt8 := 34 :: str.flatMap escapeByte ++ [34]

/-- The text of a double: `nan`, `inf`, `-inf`, or `%.17g`. -/
def formatFloat8 (x : UInt64) : List UInt8 :=
  if float8IsNaN x then [110, 97, 110]
  else if float8IsInf x then (if x < 0x8000000000000000 then [] else [45]) ++ [105, 110, 102]
  else formatG17 x

/-- `?invalid-symbol?`, written for a reference outside the symbol table. -/
def invalidSymbolText : List UInt8 :=
  [63, 105, 110, 118, 97, 108, 105, 100, 45, 115, 121, 109, 98, 111, 108, 63]

mutual
/-- `output_element` -/
def outputElement (syms : List (List UInt8)) : Elem → List UInt8
  | .nil => [40, 41]
  | .smallInt p => formatInt ((p.val : Int) - sexpSmallintBias)
  | .integer u => formatInt (int64Value (zigzagDecode u))
  | .float x => formatFloat8 x
  | .symbolRef i =>
    match syms[i]? with
    | some s => s
    | none => invalidSymbolText
  | .shortString s => quoteString s
  | .longString s => quoteString s
  | .smallList cs => 40 :: outputChildren syms 0 cs ++ [41]
  | .largeList _ cs => 40 :: outputChildren syms 0 cs ++ [41]
/-- The child loop of a list, a space before every child but the first. -/
def outputChildren (syms : List (List UInt8)) : Nat → List Elem → List UInt8
  | _, [] => []
  | i, c :: cs => (if 0 < i then [32] else []) ++ outputElement syms c ++ outputChildren syms (i + 1) cs
end

/-- `sexp_to_cstring`, behind `sexp_out`. -/
def sexpToCstring (s : Sexp) : List UInt8 := outputElement s.symbols s.root

end PgSexp
