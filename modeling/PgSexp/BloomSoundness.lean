import PgSexp.Contains
import PgSexp.Refinement
import PgSexp.PgHash

/-!
# The Bloom prefilter of containment

`sexp_contains` returns false at once when the needle's signature has a bit the container's
lacks.  That exit is sound: whenever the scan would find the needle, the needle's bits are
among the container's.  A node the scan accepts has exactly the needle's signature, since
both of its comparisons identify only trees that decode alike up to `-0.0 == 0.0`, which
the signatures fold; and a list's signature covers each child's.  So `sexp_contains` is the
scan alone, for every pair of values and every hash function.
-/

namespace PgSexp

variable {H : HashFns}

section Scan

variable {csyms nsyms : List (List UInt8)} {needle : Elem}

/-- A node the scan accepts has the needle's signature. -/
theorem sexpElementBloom_eq_of_scanMatchesHere {c : Elem}
    (here : scanMatchesHere H csyms nsyms needle needle.tagByte needle.stype c = true) :
    sexpElementBloom H csyms c = sexpElementBloom H nsyms needle := by
  simp only [scanMatchesHere, Bool.and_eq_true] at here
  rw [sexpElementBloom_eq_bloom_decode, sexpElementBloom_eq_bloom_decode]
  split at here
  · rw [decode_eq_of_atomCompareDirect here.2]
  · exact Datum.bloom_eq_of_ieeeEq H _ _ (ieeeEq_decode_of_elementsEqualRecursive c needle here.2)

/-- The child loop only adds bits to its accumulator. -/
theorem bloomSubset_bloomChildren (cs : List Elem) (acc : UInt64) :
    BloomSubset acc (bloomChildren H csyms cs acc) := by
  induction cs generalizing acc with
  | nil => exact .refl acc
  | cons c cs inductionHypothesis =>
    exact (BloomSubset.left_or _ _).trans (inductionHypothesis _)

mutual
/-- Where the scan finds the needle, the needle's signature is inside the node's. -/
theorem bloomSubset_of_containsFastScan :
    ∀ c : Elem, containsFastScan H csyms nsyms needle needle.tagByte needle.stype c = true →
      BloomSubset (sexpElementBloom H nsyms needle) (sexpElementBloom H csyms c)
  | .smallList cs, scan | .largeList _ cs, scan => by
    simp only [containsFastScan, Bool.or_eq_true] at scan
    rcases scan with here | below
    · rw [sexpElementBloom_eq_of_scanMatchesHere here]
      exact .refl _
    · exact (bloomSubset_of_scanChildren cs below 0).trans (BloomSubset.left_or _ _)
  | .nil, scan | .smallInt _, scan | .integer _, scan | .float _, scan | .symbolRef _, scan
  | .shortString _, scan | .longString _, scan => by
    rw [sexpElementBloom_eq_of_scanMatchesHere scan]
    exact .refl _
/-- Where the child loop finds the needle, the needle's signature is inside the loop's
union, whatever it started from. -/
theorem bloomSubset_of_scanChildren :
    ∀ cs : List Elem, scanChildren H csyms nsyms needle needle.tagByte needle.stype cs = true →
      ∀ acc, BloomSubset (sexpElementBloom H nsyms needle) (bloomChildren H csyms cs acc)
  | [], scan, _ => by simp [scanChildren] at scan
  | c :: cs, scan, acc => by
    simp only [scanChildren, Bool.or_eq_true, Bool.and_eq_true] at scan
    rcases scan with ⟨-, found⟩ | later
    · exact (bloomSubset_of_containsFastScan c found).trans
        ((BloomSubset.right_or _ _).trans (bloomSubset_bloomChildren cs _))
    · exact bloomSubset_of_scanChildren cs later _
end

end Scan

/-- `sexp_contains` answers as its scan alone. -/
theorem sexpContains_eq_containsFastScan (C N : Sexp) :
    sexpContains H C N =
      containsFastScan H C.symbols N.symbols N.root N.root.tagByte
        (getSentryTypeFromByte N.root.tagByte) C.root := by
  unfold sexpContains
  cases scan : containsFastScan H C.symbols N.symbols N.root N.root.tagByte
    (getSentryTypeFromByte N.root.tagByte) C.root
  · simp [scan]
  · have passes := (bloomMayContain_iff _ _).2 (bloomSubset_of_containsFastScan C.root scan)
    simp [passes, scan]

theorem containsFastScan_passes_bloom (C N : Sexp)
    (scan : containsFastScan H C.symbols N.symbols N.root N.root.tagByte
      (getSentryTypeFromByte N.root.tagByte) C.root = true) :
    bloomMayContain (sexpElementBloom H C.symbols C.root)
        (sexpElementBloom H N.symbols N.root) = true ∧
      sexpContains H C N = true ∧ sexpContainsPacked H C N = true := by
  have contains : sexpContains H C N = true := (sexpContains_eq_containsFastScan C N).trans scan
  exact ⟨(bloomMayContain_iff _ _).2 (bloomSubset_of_containsFastScan C.root scan), contains,
    contains⟩

/-- `(a (b 17))` contains `(b 17)`, whose one symbol has another index in its own table. -/
theorem containsFastScan_passes_bloom_nested :
    let C : Sexp :=
      ⟨[[97], [98]], .smallList [.symbolRef 0, .smallList [.symbolRef 1, .integer 34]]⟩
    let N : Sexp := ⟨[[98]], .smallList [.symbolRef 0, .integer 34]⟩
    containsFastScan pgHashFns C.symbols N.symbols N.root N.root.tagByte
        (getSentryTypeFromByte N.root.tagByte) C.root = true ∧
      bloomMayContain (sexpElementBloom pgHashFns C.symbols C.root)
        (sexpElementBloom pgHashFns N.symbols N.root) = true ∧
      sexpContains pgHashFns C N = true ∧ sexpContainsPacked pgHashFns C N = true :=
  have scan := show containsFastScan pgHashFns [[97], [98]] [[98]]
      (.smallList [.symbolRef 0, .integer 34]) (Elem.smallList [.symbolRef 0, .integer 34]).tagByte
      (getSentryTypeFromByte (Elem.smallList [.symbolRef 0, .integer 34]).tagByte)
      (.smallList [.symbolRef 0, .smallList [.symbolRef 1, .integer 34]]) = true by decide
  ⟨scan, containsFastScan_passes_bloom _ _ scan⟩

end PgSexp
