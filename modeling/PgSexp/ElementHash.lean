import PgSexp.Hash

/-!
# The structural hash

`sexp_element_hash` hashes an element by its content: integers by value whichever their
encoding, floats with `-0.0` folded into `0.0`, symbols by their text, strings alike in both
formats.  A small list is hashed from its count and its children, each rotated by its
position; a large list is not recomputed: its stored hash is returned.
-/

namespace PgSexp

variable (H : HashFns)

mutual
/-- `sexp_element_hash` -/
def sexpElementHash (syms : List (List UInt8)) : Elem → UInt32
  | .nil => 0
  | .smallInt p => integerElemHash H (smallintValue p)
  | .integer u => integerElemHash H (zigzagDecode u)
  | .float x => floatElemHash H x
  | .symbolRef i =>
      match syms[i]? with
      | some s => sexpHashStringWithTag H sexpTagSymbolRef s
      | none => 0
  | .shortString s => sexpHashStringWithTag H sexpTagShortString s
  | .longString s => sexpHashStringWithTag H sexpTagShortString s
  | .smallList cs => hashChildren syms cs 0 (listHashSeed H cs.length)
  | .largeList h _ => h
/-- The child loop of a small-list hash, from position `i` with accumulator `acc`. -/
def hashChildren (syms : List (List UInt8)) : List Elem → Nat → UInt32 → UInt32
  | [], _, acc => acc
  | c :: cs, i, acc => hashChildren syms cs (i + 1) (sexpHashCombine acc (sexpElementHash syms c) i)
end

/-- The hash of a list with these children, computed from them (`parse_list`'s formula). -/
def listHash (syms : List (List UInt8)) (cs : List Elem) : UInt32 :=
  hashChildren H syms cs 0 (listHashSeed H cs.length)

/-- `sexp_compute_hash` -/
def sexpComputeHash (s : Sexp) : UInt32 := sexpElementHash H s.symbols s.root

/-- `sexp_compute_hash_packed` reads the same bytes through `VARDATA_ANY`. -/
def sexpComputeHashPacked (s : Sexp) : UInt32 := sexpComputeHash H s

/-- `sexp_hash`, the support function of the hash operator class (its `int4` result as bits). -/
def sexpHash (s : Sexp) : UInt32 := sexpComputeHashPacked H s

/-- `sexp_hash_extended`: with a nonzero seed, the hash is mixed with the half-swapped seed. -/
def sexpHashExtended (s : Sexp) (seed : UInt64) : UInt64 :=
  let hash := (sexpComputeHashPacked H s).toUInt64
  if seed = 0 then hash
  else
    let mixedSeed := (seed <<< 32) ||| (seed >>> 32)
    let hash := (hash ^^^ mixedSeed) * 0x9e3779b97f4a7c15
    (hash >>> 32) ^^^ hash

end PgSexp
