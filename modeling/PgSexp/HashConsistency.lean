import PgSexp.ElementHash
import PgSexp.Refinement
import PgSexp.Ops
import PgSexp.Parse
import PgSexp.PgHash

/-!
# The hash contract

`sexp_element_hash` returns a large list's stored hash instead of recomputing it, so the
structural hash is a function of the decoded tree only when every stored hash is the one
`parse_list` computes.  `Elem.hashConsistent` names that invariant.  Under it the structural
hash is `Datum.hash` of the decoded tree, which the readers' equality respects, so equal
values hash alike, as the hash operator class requires.  `sexp_car` and `sexp_nth` keep the
invariant.  `sexp_cdr` keeps it only while its result is small: a large result stores the
placeholder `0`.
-/

namespace PgSexp

variable (H : HashFns)

/-! ## The hash of a decoded tree -/

namespace Datum

mutual
/-- The structural hash of a decoded tree, with `parse_list`'s formula for lists. -/
def hash : Datum → UInt32
  | .nil => 0
  | .int v => integerElemHash H v
  | .float x => floatElemHash H x
  | .sym s => sexpHashStringWithTag H sexpTagSymbolRef s
  | .str s => sexpHashStringWithTag H sexpTagShortString s
  | .list ds => parseListHash H (hashes ds)
  | .danglingSym _ => 0
/-- `hash` of each tree. -/
def hashes : List Datum → List UInt32
  | [] => []
  | d :: ds => hash d :: hashes ds
end

mutual
/-- Trees that the readers' equality identifies hash alike. -/
theorem hash_eq_of_ieeeEq : ∀ a b : Datum, a.ieeeEq b = true → a.hash H = b.hash H
  | .list cs, b, equal => by
    cases b <;> first | exact absurd equal Bool.false_ne_true | skip
    simp only [hash, hashes_eq_of_ieeeEqList cs _ equal]
  | .float _, b, equal => by
    cases b <;> first | exact absurd equal Bool.false_ne_true | skip
    exact floatElemHash_eq_of_float8Eq H equal
  | .nil, b, equal | .int _, b, equal | .sym _, b, equal | .str _, b, equal
  | .danglingSym _, b, equal => by
    cases b <;> first
      | exact absurd equal Bool.false_ne_true
      | simp only [hash, eq_of_beq equal]
      | rfl
theorem hashes_eq_of_ieeeEqList : ∀ cs ds : List Datum, ieeeEqList cs ds = true →
    hashes H cs = hashes H ds
  | [], [], _ => rfl
  | c :: cs, d :: ds, equal =>
    have equal := Bool.and_eq_true_iff.1 equal
    congrArg₂ List.cons (hash_eq_of_ieeeEq c d equal.1) (hashes_eq_of_ieeeEqList cs ds equal.2)
  | [], _ :: _, equal | _ :: _, [], equal => absurd equal Bool.false_ne_true
end

end Datum

/-! ## Stored hashes -/

namespace Elem

mutual
/-- Every large list inside the element stores the hash `parse_list` computes from its
children. -/
def hashConsistent (syms : List (List UInt8)) : Elem → Bool
  | .smallList cs => childrenHashConsistent syms cs
  | .largeList h cs => h == listHash H syms cs && childrenHashConsistent syms cs
  | _ => true
/-- `hashConsistent` of each child. -/
def childrenHashConsistent (syms : List (List UInt8)) : List Elem → Bool
  | [] => true
  | c :: cs => hashConsistent syms c && childrenHashConsistent syms cs
end

theorem hashConsistent_of_mem {syms : List (List UInt8)} {c : Elem} :
    ∀ {cs : List Elem}, childrenHashConsistent H syms cs = true → c ∈ cs →
      hashConsistent H syms c = true
  | _ :: _, consistent, .head _ => (Bool.and_eq_true_iff.1 consistent).1
  | _ :: _, consistent, .tail _ mem => hashConsistent_of_mem (Bool.and_eq_true_iff.1 consistent).2 mem

/-- The children of a consistent list are consistent. -/
theorem childrenHashConsistent_of_hashConsistent {syms : List (List UInt8)} {e : Elem}
    (consistent : hashConsistent H syms e = true) :
    childrenHashConsistent H syms e.children = true := by
  cases e <;> first
    | rfl
    | exact consistent
    | exact (Bool.and_eq_true_iff.1 consistent).2

end Elem

theorem hashChildren_eq_combineChildHashes (syms : List (List UInt8)) :
    ∀ (cs : List Elem) (i : Nat) (acc : UInt32),
      hashChildren H syms cs i acc = combineChildHashes acc i (cs.map (sexpElementHash H syms))
  | [], _, _ => rfl
  | _ :: cs, i, _ => hashChildren_eq_combineChildHashes syms cs (i + 1) _

/-- `sexp_element_hash`'s small-list formula is `parse_list`'s, on the children's hashes. -/
theorem listHash_eq_parseListHash (syms : List (List UInt8)) (cs : List Elem) :
    listHash H syms cs = parseListHash H (cs.map (sexpElementHash H syms)) := by
  rw [listHash, hashChildren_eq_combineChildHashes, parseListHash, List.length_map]

mutual
/-- On a consistent element the structural hash is the hash of the decoded tree. -/
theorem sexpElementHash_eq_hash_decode (syms : List (List UInt8)) :
    ∀ e : Elem, e.hashConsistent H syms = true →
      sexpElementHash H syms e = (e.decode syms).hash H
  | .smallList cs, consistent => by
    show listHash H syms cs = _
    rw [listHash_eq_parseListHash, map_sexpElementHash_eq_hashes syms cs consistent]
    rfl
  | .largeList _ cs, consistent => by
    have consistent := Bool.and_eq_true_iff.1 consistent
    show _ = parseListHash H _
    rw [sexpElementHash, eq_of_beq consistent.1, listHash_eq_parseListHash,
      map_sexpElementHash_eq_hashes syms cs consistent.2]
  | .symbolRef i, _ => by
    simp only [sexpElementHash, Elem.decode]
    cases syms[i]? <;> rfl
  | .nil, _ | .smallInt _, _ | .integer _, _ | .float _, _ | .shortString _, _
  | .longString _, _ => rfl
theorem map_sexpElementHash_eq_hashes (syms : List (List UInt8)) :
    ∀ cs : List Elem, Elem.childrenHashConsistent H syms cs = true →
      cs.map (sexpElementHash H syms) = Datum.hashes H (Elem.decodeList syms cs)
  | [], _ => rfl
  | c :: cs, consistent =>
    have consistent := Bool.and_eq_true_iff.1 consistent
    congrArg₂ List.cons (sexpElementHash_eq_hash_decode syms c consistent.1)
      (map_sexpElementHash_eq_hashes syms cs consistent.2)
end

/-! ## The contract -/

/-- Equal values whose stored hashes are consistent have the same structural hash, hence the
same `sexp_hash` and `sexp_hash_extended` under every seed. -/
theorem sexpComputeHash_eq_of_sexpEqual {a b : Sexp}
    (consistentA : a.root.hashConsistent H a.symbols = true)
    (consistentB : b.root.hashConsistent H b.symbols = true)
    (equal : sexpEqual H a b = true) :
    sexpComputeHash H a = sexpComputeHash H b ∧ sexpHash H a = sexpHash H b ∧
      ∀ seed, sexpHashExtended H a seed = sexpHashExtended H b seed := by
  have hashes : sexpComputeHash H a = sexpComputeHash H b := by
    unfold sexpEqual at equal
    split at equal
    · subst a; rfl
    · rw [sexpComputeHash, sexpComputeHash, sexpElementHash_eq_hash_decode H _ _ consistentA,
        sexpElementHash_eq_hash_decode H _ _ consistentB]
      exact Datum.hash_eq_of_ieeeEq H _ _ (ieeeEq_decode_of_elementsEqualRecursive _ _ equal)
  exact ⟨hashes, hashes, fun seed => by simp only [sexpHashExtended, sexpComputeHashPacked, hashes]⟩

/-! ## The list accessors -/

section Accessors

variable {H} {s r : Sexp}

theorem hashConsistent_of_sexpCar (consistent : s.root.hashConsistent H s.symbols = true)
    (car : sexpCar s = .ok (some r)) : r.root.hashConsistent H r.symbols = true := by
  unfold sexpCar at car
  split at car <;> first
    | exact absurd car (by simp)
    | skip
  all_goals
    rename_i cs listRoot
    cases cs with
    | nil => exact absurd car (by simp)
    | cons c _ =>
      simp only [Except.ok.injEq, Option.some.injEq] at car
      subst car
      have children := Elem.childrenHashConsistent_of_hashConsistent H consistent
      rw [listRoot] at children
      exact Elem.hashConsistent_of_mem H children (.head _)

theorem hashConsistent_of_sexpNth {n : Int}
    (consistent : s.root.hashConsistent H s.symbols = true) (nth : sexpNth s n = some r) :
    r.root.hashConsistent H r.symbols = true := by
  have children := Elem.childrenHashConsistent_of_hashConsistent H consistent
  unfold sexpNth at nth
  split at nth
  · exact absurd nth (by simp)
  split at nth
  · exact absurd nth (by simp)
  · rename_i listRoot
    obtain ⟨c, mem, rfl⟩ := Option.map_eq_some'.1 nth
    rw [listRoot] at children
    exact Elem.hashConsistent_of_mem H children (List.getElem?_mem mem)
  · rename_i listRoot
    obtain ⟨c, mem, rfl⟩ := Option.map_eq_some'.1 nth
    rw [listRoot] at children
    exact Elem.hashConsistent_of_mem H children (List.getElem?_mem mem)
  · split at nth
    · cases nth
      exact consistent
    · exact absurd nth (by simp)

end Accessors

/-- A large list `sexp_cdr` returns stores `0`: it keeps the invariant only when the hash of
its children happens to be `0`. -/
theorem sexpCdr_hashConsistent_iff {s r : Sexp} (consistent : s.root.hashConsistent H s.symbols = true)
    (cdr : sexpCdr s = .ok (some r)) :
    r.root.hashConsistent H r.symbols = true ↔
      (sexpSmallListMax < r.root.children.length → listHash H r.symbols r.root.children = 0) := by
  unfold sexpCdr at cdr
  split at cdr
  · exact absurd cdr (by simp)
  all_goals first
    | exact absurd cdr (by simp)
    | skip
  all_goals
    rename_i cs listRoot
    split at cdr
    · simp only [Except.ok.injEq, Option.some.injEq] at cdr
      subst cdr
      simp [buildNilSexp, Elem.hashConsistent, Elem.children]
    · simp only [Except.ok.injEq, Option.some.injEq] at cdr
      subst cdr
      have children := Elem.childrenHashConsistent_of_hashConsistent H consistent
      rw [listRoot] at children
      have tail : Elem.childrenHashConsistent H s.symbols cs.tail = true := by
        cases cs with
        | nil => rfl
        | cons _ _ => exact (Bool.and_eq_true_iff.1 children).2
      unfold cdrList
      split
      · rename_i small
        exact iff_of_true tail fun large => absurd small (Nat.not_le.2 large)
      · rename_i large
        simp only [Elem.hashConsistent, Elem.children, tail, Bool.and_true, beq_iff_eq]
        exact ⟨fun stored _ => stored.symm, fun stored => (stored (Nat.lt_of_not_le large)).symm⟩

/-- `sexp_cdr` of `(nil nil nil nil nil nil)` is a large list of five NILs storing `0`.  It
equals `(nil nil nil nil nil)` parsed from text, which stores its computed hash, so the two
equal values hash differently. -/
theorem sexpCdr_six_nils_hash_mismatch :
    (sexpIn pgHashFns "(nil nil nil nil nil nil)").toOption =
        some ⟨[], .largeList 1149204233 (List.replicate 6 .nil)⟩ ∧
      (sexpCdr ⟨[], .largeList 1149204233 (List.replicate 6 .nil)⟩).toOption =
        some (some ⟨[], .largeList 0 (List.replicate 5 .nil)⟩) ∧
      (sexpIn pgHashFns "(nil nil nil nil nil)").toOption =
        some ⟨[], .largeList 1871333796 (List.replicate 5 .nil)⟩ ∧
      sexpEqual pgHashFns ⟨[], .largeList 0 (List.replicate 5 .nil)⟩
        ⟨[], .largeList 1871333796 (List.replicate 5 .nil)⟩ = true ∧
      sexpComputeHash pgHashFns ⟨[], .largeList 0 (List.replicate 5 .nil)⟩ = 0 ∧
      sexpComputeHash pgHashFns ⟨[], .largeList 1871333796 (List.replicate 5 .nil)⟩ =
        1871333796 := by
  refine ⟨by decide, by decide, by decide, by decide, rfl, rfl⟩

set_option maxRecDepth 4000 in
/-- `(1 2 3 4 5 6)` as `sexp_parse` writes it: its cdr keeps five children, which `sexp_cdr`
writes as a large list storing `0`, while the hash of the children by `parse_list`'s formula
is `2669251191`, the hash `(2 3 4 5 6)` stores when it is parsed from text. -/
theorem sexpCdr_six_integers_stores_zero :
    (sexpParse pgHashFns [40, 49, 32, 50, 32, 51, 32, 52, 32, 53, 32, 54, 41]).toOption =
        some ⟨[], .largeList 2186462369 [.smallInt 17, .smallInt 18, .smallInt 19, .smallInt 20,
          .smallInt 21, .smallInt 22]⟩ ∧
      sexpCdr ⟨[], .largeList 2186462369 [.smallInt 17, .smallInt 18, .smallInt 19, .smallInt 20,
          .smallInt 21, .smallInt 22]⟩ =
        .ok (some ⟨[], .largeList 0 [.smallInt 18, .smallInt 19, .smallInt 20, .smallInt 21,
          .smallInt 22]⟩) ∧
      listHash pgHashFns [] [.smallInt 18, .smallInt 19, .smallInt 20, .smallInt 21, .smallInt 22] =
        2669251191 ∧
      (sexpParse pgHashFns [40, 50, 32, 51, 32, 52, 32, 53, 32, 54, 41]).toOption =
        some ⟨[], .largeList 2669251191 [.smallInt 18, .smallInt 19, .smallInt 20, .smallInt 21,
          .smallInt 22]⟩ :=
  ⟨by decide, rfl, by decide, by decide⟩

end PgSexp
