import PgSexp.Hash

/-!
# Bloom signatures of elements

`sexp_element_bloom` gives an atom the signature of its element hash (NIL the signature of
`sexp_hash_uint32(0)`), and a list the union of its children's signatures with the
signature of its own count and kind.  Unlike the structural hash, a large list's signature
is recomputed from its children.
-/

namespace PgSexp

variable (H : HashFns)

mutual
/-- `sexp_element_bloom` -/
def sexpElementBloom (syms : List (List UInt8)) : Elem → UInt64
  | .nil => bloomComputeSig (sexpHashUint32 H sexpTagNil.toUInt32)
  | .smallInt p => bloomComputeSig (integerElemHash H (smallintValue p))
  | .integer u => bloomComputeSig (integerElemHash H (zigzagDecode u))
  | .float x => bloomComputeSig (floatElemHash H x)
  | .symbolRef i =>
      match syms[i]? with
      | some s => bloomComputeSig (sexpHashStringWithTag H sexpTagSymbolRef s)
      | none => 0
  | .shortString s => bloomComputeSig (sexpHashStringWithTag H sexpTagShortString s)
  | .longString s => bloomComputeSig (sexpHashStringWithTag H sexpTagShortString s)
  | .smallList cs =>
      bloomCombine (bloomChildren syms cs 0) (bloomComputeSig (listHashSeed H cs.length))
  | .largeList _ cs =>
      bloomCombine (bloomChildren syms cs 0) (bloomComputeSig (listHashSeed H cs.length))
/-- The child loop of a list signature, with accumulator `acc`. -/
def bloomChildren (syms : List (List UInt8)) : List Elem → UInt64 → UInt64
  | [], acc => acc
  | c :: cs, acc => bloomChildren syms cs (bloomCombine acc (sexpElementBloom syms c))
end

/-- `sexp_compute_bloom` -/
def sexpComputeBloom (s : Sexp) : UInt64 := sexpElementBloom H s.symbols s.root

end PgSexp
