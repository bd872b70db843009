import PgSexp.GinKeys
import PgSexp.HashConsistency
import PgSexp.Print
import PgSexp.Match
import PgSexp.ContainsKey
import PgSexp.Contains
import Mathlib.Tactic.FinCases

/-!
# Readers of the decoded tree, and readers of the encoding

A tree has several admissible encodings: an integer in `-16 … 15` as a small or a full
integer, a short string as a short or a long string, a list of one to four children in the
small or the large format.  The printer, the Bloom signature, the GIN extractors and, while
stored hashes are the computed ones, the structural hash all read the decoded tree: values
that decode alike give the same text, signature, keys and hash.

The comparisons do not.  `elements_equal_recursive` and `elements_match` refuse two
elements with different tags, and the containment scan refuses a node whose first byte is
not the needle's, so a small `5` and a full `5` are not equal, do not contain each other and
do not match, though they hash alike and `sexp_contains_key`, whose tag tests accept both
integer tags, finds one in the other.
-/

namespace PgSexp

namespace Datum

mutual
/-- The text `output_element` writes for a decoded tree. -/
def output : Datum → List UInt8
  | .nil => [40, 41]
  | .int v => formatInt (int64Value v)
  | .float x => formatFloat8 x
  | .sym s => s
  | .str s => quoteString s
  | .list ds => 40 :: outputList 0 ds ++ [41]
  | .danglingSym _ => invalidSymbolText
/-- The children of a list from position `i`, a space before every child but the first. -/
def outputList : Nat → List Datum → List UInt8
  | _, [] => []
  | i, d :: ds => (if 0 < i then [32] else []) ++ output d ++ outputList (i + 1) ds
end

end Datum

/-- The biased payload of a small integer, read back as an int64, is its value. -/
theorem int64Value_smallintValue (p : Fin 32) :
    int64Value (smallintValue p) = (p.val : Int) - sexpSmallintBias := by
  fin_cases p <;> decide

mutual
theorem outputElement_eq_output_decode (syms : List (List UInt8)) :
    ∀ e : Elem, outputElement syms e = (e.decode syms).output
  | .nil | .integer _ | .float _ | .shortString _ | .longString _ => rfl
  | .smallInt p => by
    simp only [outputElement, Elem.decode, Datum.output, int64Value_smallintValue]
  | .symbolRef i => by
    simp only [outputElement, Elem.decode]
    cases syms[i]? <;> rfl
  | .smallList cs | .largeList _ cs => by
    simp only [outputElement, Elem.decode, Datum.output, Elem.decodeList_eq_map,
      outputChildren_eq_outputList syms 0 cs]
theorem outputChildren_eq_outputList (syms : List (List UInt8)) :
    ∀ (i : Nat) (cs : List Elem),
      outputChildren syms i cs = Datum.outputList i (cs.map (Elem.decode syms))
  | _, [] => rfl
  | i, c :: cs => by
    simp only [outputChildren, List.map_cons, Datum.outputList,
      outputElement_eq_output_decode syms c, outputChildren_eq_outputList syms (i + 1) cs]
end

variable {H : HashFns}

/-- Values that decode to the same tree have the same text, Bloom signature and GIN keys,
and, when their stored hashes are the computed ones, the same structural hash. -/
theorem readers_eq_of_decode_eq {a b : Sexp}
    (decoded : a.root.decode a.symbols = b.root.decode b.symbols)
    (consistentA : a.root.hashConsistent H a.symbols = true)
    (consistentB : b.root.hashConsistent H b.symbols = true) :
    sexpComputeHash H a = sexpComputeHash H b ∧
      sexpComputeBloom H a = sexpComputeBloom H b ∧
      sexpToCstring a = sexpToCstring b ∧
      sexpGinExtractValue H a = sexpGinExtractValue H b ∧
      ∀ strategy, sexpGinExtractQuery H a strategy = sexpGinExtractQuery H b strategy := by
  refine ⟨?_, ?_, ?_, ?_, fun strategy => ?_⟩
  · rw [sexpComputeHash, sexpComputeHash, sexpElementHash_eq_hash_decode H _ _ consistentA,
      sexpElementHash_eq_hash_decode H _ _ consistentB, decoded]
  · rw [sexpComputeBloom, sexpComputeBloom, sexpElementBloom_eq_bloom_decode,
      sexpElementBloom_eq_bloom_decode, decoded]
  · rw [sexpToCstring, sexpToCstring, outputElement_eq_output_decode,
      outputElement_eq_output_decode, decoded]
  · simp only [sexpGinExtractValue, extractKeysRecursive_eq_foldl, decoded]
  · simp only [sexpGinExtractQuery, extractQueryKeysRecursive_eq_foldl, decoded]

/-- `5` as `sexp_parse` writes it, a small integer, and `5` as a full integer, which
`sexp_recv` accepts, decode alike and hash alike, and `sexp_contains_key` finds one in the
other; but they are not `sexp_equal`, neither contains the other, and they do not match. -/
theorem sexpEqual_rejects_full_integer_encoding :
    (sexpIn pgHashFns "5").toOption = some ⟨[], .smallInt 21⟩ ∧
      Elem.decode [] (.smallInt 21) = Elem.decode [] (.integer 10) ∧
      sexpComputeHash pgHashFns ⟨[], .smallInt 21⟩ = sexpComputeHash pgHashFns ⟨[], .integer 10⟩ ∧
      sexpContainsKey pgHashFns ⟨[], .smallInt 21⟩ ⟨[], .integer 10⟩ = true ∧
      sexpEqual pgHashFns ⟨[], .smallInt 21⟩ ⟨[], .integer 10⟩ = false ∧
      sexpContains pgHashFns ⟨[], .smallInt 21⟩ ⟨[], .integer 10⟩ = false ∧
      sexpContains pgHashFns ⟨[], .integer 10⟩ ⟨[], .smallInt 21⟩ = false ∧
      sexpMatch ⟨[], .smallInt 21⟩ ⟨[], .integer 10⟩ = false :=
  ⟨by decide, rfl, by decide, by decide, by decide, by decide, by decide, by decide⟩

end PgSexp
