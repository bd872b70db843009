import PgSexp.Equal
import PgSexp.Bloom

/-!
# Structural containment

`sexp_contains` rejects through the Bloom signatures first, then runs `contains_fast_scan`
from the container's root.  At each node the scan compares when the node's SEntry type is
the needle's and its tag byte is the needle's first byte: atoms with `atom_compare_direct`,
lists with `elements_equal_recursive`.  It then descends into the children whose SEntry
type is the needle's or `LIST`.  The needle's hash is computed and passed to the scan, which
never reads it.
-/

namespace PgSexp

variable (H : HashFns)

section Scan

variable (csyms nsyms : List (List UInt8)) (needle : Elem) (elemFirstByte : UInt8)
  (elemStype : UInt32)

/-- The comparison `contains_fast_scan` makes at one node. -/
def scanMatchesHere (c : Elem) : Bool :=
  c.stype == elemStype && c.tagByte == elemFirstByte &&
    if elemStype != sentryTypeList then atomCompareDirect H csyms nsyms c needle
    else elementsEqualRecursive H csyms nsyms c needle

/-- The type filter of the descent: the child's SEntry type is the needle's or `LIST`. -/
def scanDescends (child : Elem) : Bool :=
  child.stype == elemStype || child.stype == sentryTypeList

mutual
/-- `contains_fast_scan` -/
def containsFastScan : Elem → Bool
  | .smallList cs =>
      scanMatchesHere H csyms nsyms needle elemFirstByte elemStype (.smallList cs) ||
        scanChildren cs
  | .largeList h cs =>
      scanMatchesHere H csyms nsyms needle elemFirstByte elemStype (.largeList h cs) ||
        scanChildren cs
  | c => scanMatchesHere H csyms nsyms needle elemFirstByte elemStype c
/-- The child loop of `contains_fast_scan`, small and large lists alike. -/
def scanChildren : List Elem → Bool
  | [] => false
  | c :: cs => (scanDescends elemStype c && containsFastScan c) || scanChildren cs
end

end Scan

/-- `sexp_contains` -/
def sexpContains (container element : Sexp) : Bool :=
  let elemFirstByte := element.root.tagByte
  let elemStype := getSentryTypeFromByte elemFirstByte
  let containerBloom := sexpElementBloom H container.symbols container.root
  let elemBloom := sexpElementBloom H element.symbols element.root
  if !bloomMayContain containerBloom elemBloom then false
  else
    containsFastScan H container.symbols element.symbols element.root elemFirstByte elemStype
      container.root

/-- `sexp_contains_packed` reads the same bytes through `VARDATA_ANY`. -/
def sexpContainsPacked (container element : Sexp) : Bool := sexpContains H container element

end PgSexp
