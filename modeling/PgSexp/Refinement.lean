import PgSexp.Datum
import PgSexp.Equal
import PgSexp.Bloom

/-!
# The readers refine the decoded tree

The signature and hash functions are defined on decoded trees, and each reader of the binary
format is shown to compute them through `Elem.decode`.  The equality tests are shown to
imply equality of decoded trees: `atom_compare_direct` exactly, `elements_equal_recursive`
up to C's `==` on floats, which the signatures absorb by folding `-0.0` into `0.0`.
-/

namespace PgSexp

variable (H : HashFns)

/-! ## Equality tests decode to equal trees -/

section Decode

variable {H} {symsA symsB : List (List UInt8)}

theorem decode_eq_of_atomCompareDirect {a b : Elem}
    (equal : atomCompareDirect H symsA symsB a b = true) :
    a.decode symsA = b.decode symsB := by
  cases a <;> cases b <;> first
    | exact absurd equal Bool.false_ne_true
    | rfl
    | simp only [Elem.decode, eq_of_beq equal]
    | simp only [Elem.decode, eq_of_beq (Bool.and_eq_true_iff.1 equal).2]
    | skip
  obtain ⟨s, hA, hB⟩ := (symbolRefsEqual_iff H symsA symsB _ _).1 equal
  simp only [Elem.decode, hA, hB]

mutual
theorem ieeeEq_decode_of_elementsEqualRecursive :
    ∀ a b : Elem, elementsEqualRecursive H symsA symsB a b = true →
      (a.decode symsA).ieeeEq (b.decode symsB) = true
  | .smallList cs, b, equal | .largeList _ cs, b, equal => by
    have list : b.isList = true := by
      cases b <;> first | rfl | exact absurd equal Bool.false_ne_true
    obtain ⟨-, lengths, children⟩ := elementsEqualRecursive_children H equal list
    cases b <;> first
      | exact absurd list Bool.false_ne_true
      | exact ieeeEqList_of_childrenEqual cs _ lengths children
  | .symbolRef i, b, equal => by
    cases b <;> first | exact absurd equal Bool.false_ne_true | skip
    obtain ⟨s, hA, hB⟩ := (symbolRefsEqual_iff H symsA symsB i _).1 equal
    simp only [Elem.decode, hA, hB]
    exact beq_self_eq_true s
  | .nil, b, equal => by
    cases b <;> first | exact absurd equal Bool.false_ne_true | rfl
  | .float _, b, equal => by
    cases b <;> first | exact absurd equal Bool.false_ne_true | exact equal
  | .smallInt _, b, equal | .integer _, b, equal => by
    cases b <;> first
      | exact absurd equal Bool.false_ne_true
      | (rw [eq_of_beq equal]; exact beq_self_eq_true _)
  | .shortString _, b, equal | .longString _, b, equal => by
    cases b <;> first
      | exact absurd equal Bool.false_ne_true
      | exact (Bool.and_eq_true_iff.1 equal).2
theorem ieeeEqList_of_childrenEqual :
    ∀ cs ds : List Elem, cs.length = ds.length → childrenEqual H symsA symsB cs ds = true →
      Datum.ieeeEqList (Elem.decodeList symsA cs) (Elem.decodeList symsB ds) = true
  | [], [], _, _ => rfl
  | c :: cs, d :: ds, lengths, equal =>
    have equal := Bool.and_eq_true_iff.1 equal
    Bool.and_eq_true_iff.2 ⟨ieeeEq_decode_of_elementsEqualRecursive c d equal.1,
      ieeeEqList_of_childrenEqual cs ds (Nat.succ.inj lengths) equal.2⟩
  | [], _ :: _, lengths, _ | _ :: _, [], lengths, _ => absurd lengths (by simp)
end

end Decode

/-! ## Bloom signatures of decoded trees -/

namespace Datum

mutual
/-- The Bloom signature of a decoded tree. -/
def bloom : Datum → UInt64
  | .nil => bloomComputeSig (sexpHashUint32 H sexpTagNil.toUInt32)
  | .int v => bloomComputeSig (integerElemHash H v)
  | .float x => bloomComputeSig (floatElemHash H x)
  | .sym s => bloomComputeSig (sexpHashStringWithTag H sexpTagSymbolRef s)
  | .str s => bloomComputeSig (sexpHashStringWithTag H sexpTagShortString s)
  | .list ds => bloomCombine (bloomList ds 0) (bloomComputeSig (listHashSeed H ds.length))
  | .danglingSym _ => 0
/-- The union of the children's signatures, onto `acc`. -/
def bloomList : List Datum → UInt64 → UInt64
  | [], acc => acc
  | d :: ds, acc => bloomList ds (bloomCombine acc (bloom d))
end

theorem ieeeEqList_length : ∀ {cs ds : List Datum}, ieeeEqList cs ds = true →
    cs.length = ds.length
  | [], [], _ => rfl
  | _ :: _, _ :: _, equal =>
    congrArg (· + 1) (ieeeEqList_length (Bool.and_eq_true_iff.1 equal).2)

mutual
/-- Trees that the readers' equality identifies have the same signature. -/
theorem bloom_eq_of_ieeeEq : ∀ a b : Datum, a.ieeeEq b = true → a.bloom H = b.bloom H
  | .list cs, b, equal => by
    cases b <;> first | exact absurd equal Bool.false_ne_true | skip
    simp only [bloom, bloomList_eq_of_ieeeEqList cs _ equal, ieeeEqList_length equal]
  | .float _, b, equal => by
    cases b <;> first | exact absurd equal Bool.false_ne_true | skip
    simp only [bloom, floatElemHash_eq_of_float8Eq H equal]
  | .nil, b, equal | .int _, b, equal | .sym _, b, equal | .str _, b, equal
  | .danglingSym _, b, equal => by
    cases b <;> first
      | exact absurd equal Bool.false_ne_true
      | simp only [bloom, eq_of_beq equal]
      | rfl
theorem bloomList_eq_of_ieeeEqList : ∀ cs ds : List Datum, ieeeEqList cs ds = true →
    ∀ acc, bloomList H cs acc = bloomList H ds acc
  | [], [], _, _ => rfl
  | c :: cs, d :: ds, equal, acc => by
    have equal := Bool.and_eq_true_iff.1 equal
    simp only [bloomList, bloom_eq_of_ieeeEq c d equal.1, bloomList_eq_of_ieeeEqList cs ds equal.2]
end

end Datum

mutual
theorem sexpElementBloom_eq_bloom_decode (syms : List (List UInt8)) :
    ∀ e : Elem, sexpElementBloom H syms e = (e.decode syms).bloom H
  | .nil | .smallInt _ | .integer _ | .float _ | .shortString _ | .longString _ => rfl
  | .symbolRef i => by
    simp only [sexpElementBloom, Elem.decode]
    cases syms[i]? <;> rfl
  | .smallList cs | .largeList _ cs => by
    simp only [sexpElementBloom, Elem.decode, Datum.bloom, bloomChildren_eq_bloomList syms cs,
      Elem.decodeList_eq_map, List.length_map]
theorem bloomChildren_eq_bloomList (syms : List (List UInt8)) :
    ∀ (cs : List Elem) (acc : UInt64),
      bloomChildren H syms cs acc = Datum.bloomList H (cs.map (Elem.decode syms)) acc
  | [], _ => rfl
  | c :: cs, acc => by
    simp only [bloomChildren, List.map_cons, Datum.bloomList,
      sexpElementBloom_eq_bloom_decode syms c, bloomChildren_eq_bloomList syms cs]
end

end PgSexp
