import PgSexp.Encodings

/-!
# Independence of the symbol table

A value's symbols are indices into its own table, and two values with the same tree can
number their symbols differently: `sexp_car` and `sexp_nth` keep the whole table of the
parent, `sexp_parse` numbers symbols in order of first occurrence.  `Elem.sameUpToSymbols`
relates two encodings that differ only there: each pair of references reads the same entry
of its own table.  Every reader compares symbols by their text, through `syms[i]?`, and
otherwise reads tags, payloads and children, which the relation keeps.  So the readers of
the decoded tree agree on the two values, and each comparison gives the same answer with
either value in either position.
-/

namespace PgSexp

namespace Elem

mutual
/-- The two encodings differ at most in their symbol indices: each pair of references reads
the same entry, or none, of its own table; large lists may store different hashes. -/
def sameUpToSymbols (symsA symsB : List (List UInt8)) : Elem → Elem → Bool
  | .nil, .nil => true
  | .smallInt p, .smallInt q => p == q
  | .integer u, .integer v => u == v
  | .float x, .float y => x == y
  | .symbolRef i, .symbolRef j => symsA[i]? == symsB[j]?
  | .shortString s, .shortString t => s == t
  | .longString s, .longString t => s == t
  | .smallList cs, .smallList ds => sameUpToSymbolsList symsA symsB cs ds
  | .largeList _ cs, .largeList _ ds => sameUpToSymbolsList symsA symsB cs ds
  | _, _ => false
/-- `sameUpToSymbols` child by child. -/
def sameUpToSymbolsList (symsA symsB : List (List UInt8)) : List Elem → List Elem → Bool
  | [], [] => true
  | c :: cs, d :: ds => sameUpToSymbols symsA symsB c d && sameUpToSymbolsList symsA symsB cs ds
  | _, _ => false
end

mutual
theorem sameUpToSymbols_self (syms : List (List UInt8)) :
    ∀ e : Elem, sameUpToSymbols syms syms e e = true
  | .nil => rfl
  | .smallInt p => beq_self_eq_true p
  | .integer u => beq_self_eq_true u
  | .float x => beq_self_eq_true x
  | .symbolRef i => beq_self_eq_true syms[i]?
  | .shortString s => beq_self_eq_true s
  | .longString s => beq_self_eq_true s
  | .smallList cs => sameUpToSymbolsList_self syms cs
  | .largeList _ cs => sameUpToSymbolsList_self syms cs
theorem sameUpToSymbolsList_self (syms : List (List UInt8)) :
    ∀ cs : List Elem, sameUpToSymbolsList syms syms cs cs = true
  | [] => rfl
  | c :: cs =>
    Bool.and_eq_true_iff.2 ⟨sameUpToSymbols_self syms c, sameUpToSymbolsList_self syms cs⟩
end

section Shape

variable {symsA symsB : List (List UInt8)}

theorem length_eq_of_sameUpToSymbolsList : ∀ {cs ds : List Elem},
    sameUpToSymbolsList symsA symsB cs ds = true → cs.length = ds.length
  | [], [], _ => rfl
  | _ :: _, _ :: _, same =>
    congrArg (· + 1) (length_eq_of_sameUpToSymbolsList (Bool.and_eq_true_iff.1 same).2)
  | [], _ :: _, same | _ :: _, [], same => absurd same Bool.false_ne_true

variable {a b : Elem}

/-- What the relation allows: one element on both sides, neither a reference nor a list; two
references that read the same entry of their tables; or two lists of one format whose children
are related one by one. -/
theorem sameUpToSymbols_cases (same : sameUpToSymbols symsA symsB a b = true) :
    (a = b ∧ a.isList = false ∧ ∀ i, a ≠ .symbolRef i) ∨
      (∃ i j, a = .symbolRef i ∧ b = .symbolRef j ∧ symsA[i]? = symsB[j]?) ∨
      (∃ cs ds, a = .smallList cs ∧ b = .smallList ds ∧
        sameUpToSymbolsList symsA symsB cs ds = true) ∨
      ∃ h h' cs ds, a = .largeList h cs ∧ b = .largeList h' ds ∧
        sameUpToSymbolsList symsA symsB cs ds = true := by
  cases a <;> cases b <;> first
    | exact absurd same Bool.false_ne_true
    | exact .inl ⟨rfl, rfl, nofun⟩
    | exact .inl ⟨by rw [eq_of_beq same], rfl, nofun⟩
    | exact .inr (.inl ⟨_, _, rfl, rfl, eq_of_beq same⟩)
    | exact .inr (.inr (.inl ⟨_, _, rfl, rfl, same⟩))
    | exact .inr (.inr (.inr ⟨_, _, _, _, rfl, rfl, same⟩))

theorem tag_eq_of_sameUpToSymbols (same : sameUpToSymbols symsA symsB a b = true) :
    a.tag = b.tag := by
  rcases sameUpToSymbols_cases same with ⟨rfl, -⟩ | ⟨_, _, rfl, rfl, -⟩ | ⟨_, _, rfl, rfl, -⟩ |
    ⟨_, _, _, _, rfl, rfl, -⟩ <;> rfl

theorem tagByte_eq_of_sameUpToSymbols (same : sameUpToSymbols symsA symsB a b = true) :
    a.tagByte = b.tagByte := by
  rcases sameUpToSymbols_cases same with ⟨rfl, -⟩ | ⟨_, _, rfl, rfl, -⟩ |
    ⟨_, _, rfl, rfl, children⟩ | ⟨_, _, _, _, rfl, rfl, -⟩
  · rfl
  · rfl
  · simp only [tagByte, tag, payload, length_eq_of_sameUpToSymbolsList children]
  · rfl

theorem stype_eq_of_sameUpToSymbols (same : sameUpToSymbols symsA symsB a b = true) :
    a.stype = b.stype := by
  rw [stype, stype, tagByte_eq_of_sameUpToSymbols same]

theorem isList_eq_of_sameUpToSymbols (same : sameUpToSymbols symsA symsB a b = true) :
    a.isList = b.isList := by
  rcases sameUpToSymbols_cases same with ⟨rfl, -⟩ | ⟨_, _, rfl, rfl, -⟩ | ⟨_, _, rfl, rfl, -⟩ |
    ⟨_, _, _, _, rfl, rfl, -⟩ <;> rfl

theorem isEmpty_eq_of_sameUpToSymbolsList {cs ds : List Elem}
    (same : sameUpToSymbolsList symsA symsB cs ds = true) : cs.isEmpty = ds.isEmpty := by
  cases cs <;> cases ds <;> first | rfl | exact absurd same Bool.false_ne_true

theorem children_of_sameUpToSymbols (same : sameUpToSymbols symsA symsB a b = true) :
    sameUpToSymbolsList symsA symsB a.children b.children = true := by
  rcases sameUpToSymbols_cases same with ⟨rfl, atom, -⟩ | ⟨_, _, rfl, rfl, -⟩ |
    ⟨_, _, rfl, rfl, children⟩ | ⟨_, _, _, _, rfl, rfl, children⟩
  · cases a <;> first | rfl | exact absurd atom.symm Bool.false_ne_true
  · rfl
  all_goals exact children

end Shape

end Elem

open Elem

variable {H : HashFns}

/-! ## Equality and the containment scan -/

section Compare

variable {symsA symsA' symsB symsB' : List (List UInt8)}

theorem symbolRefsEqual_congr {i i' j j' : Nat} (symA : symsA[i]? = symsA'[i']?)
    (symB : symsB[j]? = symsB'[j']?) :
    symbolRefsEqual H symsA symsB i j = symbolRefsEqual H symsA' symsB' i' j' := by
  simp only [symbolRefsEqual, symA, symB]

/-- The direct comparison reads the tables only when both operands are references. -/
theorem atomCompareDirect_tables {a b : Elem} (notSymbol : ∀ i, a ≠ .symbolRef i) :
    atomCompareDirect H symsA symsB a b = atomCompareDirect H symsA' symsB' a b := by
  cases a <;> first | exact absurd rfl (notSymbol _) | (cases b <;> rfl)

theorem atomCompareDirect_congr {a a' b b' : Elem}
    (sameA : sameUpToSymbols symsA symsA' a a' = true)
    (sameB : sameUpToSymbols symsB symsB' b b' = true) :
    atomCompareDirect H symsA symsB a b = atomCompareDirect H symsA' symsB' a' b' := by
  rcases sameUpToSymbols_cases sameA with ⟨rfl, -, plainA⟩ | ⟨_, _, rfl, rfl, symA⟩ |
    ⟨_, _, rfl, rfl, -⟩ | ⟨_, _, _, _, rfl, rfl, -⟩ <;>
  rcases sameUpToSymbols_cases sameB with ⟨rfl, -, plainB⟩ | ⟨_, _, rfl, rfl, symB⟩ |
    ⟨_, _, rfl, rfl, -⟩ | ⟨_, _, _, _, rfl, rfl, -⟩ <;> first
    | rfl
    | exact atomCompareDirect_tables plainA
    | exact symbolRefsEqual_congr symA symB
    | (cases a <;> first | exact absurd rfl (plainA _) | rfl)
    | (cases b <;> first | exact absurd rfl (plainB _) | rfl)

/-- On two atoms, other than two references, the recursive comparison reads neither table. -/
theorem elementsEqualRecursive_tables {a b : Elem} (atom : a.isList = false)
    (notSymbol : ∀ i, a ≠ .symbolRef i) :
    elementsEqualRecursive H symsA symsB a b = elementsEqualRecursive H symsA' symsB' a b := by
  cases a <;> first
    | exact absurd rfl (notSymbol _)
    | exact absurd atom.symm Bool.false_ne_true
    | (cases b <;> rfl)

theorem elementsEqualRecursive_congr_of_atom {a a' b b' : Elem} (atom : a.isList = false)
    (sameA : sameUpToSymbols symsA symsA' a a' = true)
    (sameB : sameUpToSymbols symsB symsB' b b' = true) :
    elementsEqualRecursive H symsA symsB a b = elementsEqualRecursive H symsA' symsB' a' b' := by
  rcases sameUpToSymbols_cases sameA with ⟨rfl, -, plainA⟩ | ⟨_, _, rfl, rfl, symA⟩ |
    ⟨_, _, rfl, rfl, -⟩ | ⟨_, _, _, _, rfl, rfl, -⟩ <;>
  rcases sameUpToSymbols_cases sameB with ⟨rfl, -, plainB⟩ | ⟨_, _, rfl, rfl, symB⟩ |
    ⟨_, _, rfl, rfl, -⟩ | ⟨_, _, _, _, rfl, rfl, -⟩ <;> first
    | exact absurd atom.symm Bool.false_ne_true
    | rfl
    | exact elementsEqualRecursive_tables atom plainA
    | exact symbolRefsEqual_congr symA symB
    | (cases a <;> first
        | exact absurd rfl (plainA _)
        | exact absurd atom.symm Bool.false_ne_true
        | rfl)
    | (cases b <;> first | exact absurd rfl (plainB _) | rfl)

mutual
theorem elementsEqualRecursive_congr : ∀ a a' b b' : Elem,
    sameUpToSymbols symsA symsA' a a' = true → sameUpToSymbols symsB symsB' b b' = true →
      elementsEqualRecursive H symsA symsB a b = elementsEqualRecursive H symsA' symsB' a' b'
  | .smallList cs, a', b, b', sameA, sameB | .largeList _ cs, a', b, b', sameA, sameB => by
    cases a' <;> first | exact absurd sameA Bool.false_ne_true | skip
    rcases sameUpToSymbols_cases sameB with ⟨rfl, atom, -⟩ | ⟨_, _, rfl, rfl, -⟩ |
      ⟨ds, _, rfl, rfl, sameB⟩ | ⟨_, _, ds, _, rfl, rfl, sameB⟩
    · cases b <;> first | rfl | exact absurd atom.symm Bool.false_ne_true
    · rfl
    all_goals
      exact congrArg₂ (· && ·)
        (congrArg₂ (· == ·) (length_eq_of_sameUpToSymbolsList sameA)
          (length_eq_of_sameUpToSymbolsList sameB))
        (childrenEqual_congr cs _ ds _ sameA sameB)
  | .nil, _, _, _, sameA, sameB | .smallInt _, _, _, _, sameA, sameB
  | .integer _, _, _, _, sameA, sameB | .float _, _, _, _, sameA, sameB
  | .symbolRef _, _, _, _, sameA, sameB | .shortString _, _, _, _, sameA, sameB
  | .longString _, _, _, _, sameA, sameB => elementsEqualRecursive_congr_of_atom rfl sameA sameB
termination_by structural a => a
theorem childrenEqual_congr : ∀ cs cs' ds ds' : List Elem,
    sameUpToSymbolsList symsA symsA' cs cs' = true →
      sameUpToSymbolsList symsB symsB' ds ds' = true →
      childrenEqual H symsA symsB cs ds = childrenEqual H symsA' symsB' cs' ds'
  | [], [], _, _, _, _ => rfl
  | _ :: _, _ :: _, [], [], _, _ => rfl
  | c :: cs, c' :: cs', d :: ds, d' :: ds', sameC, sameD => by
    have sameC := Bool.and_eq_true_iff.1 sameC
    have sameD := Bool.and_eq_true_iff.1 sameD
    exact congrArg₂ (· && ·) (elementsEqualRecursive_congr c c' d d' sameC.1 sameD.1)
      (childrenEqual_congr cs cs' ds ds' sameC.2 sameD.2)
  | [], _ :: _, _, _, sameC, _ | _ :: _, [], _, _, sameC, _ => absurd sameC Bool.false_ne_true
  | _ :: _, _ :: _, [], _ :: _, _, sameD | _ :: _, _ :: _, _ :: _, [], _, sameD =>
    absurd sameD Bool.false_ne_true
termination_by structural cs => cs
end

section Scan

variable {n n' : Elem} (firstByte : UInt8) (stype : UInt32)

theorem scanMatchesHere_congr (sameN : sameUpToSymbols symsB symsB' n n' = true) {c c' : Elem}
    (sameC : sameUpToSymbols symsA symsA' c c' = true) :
    scanMatchesHere H symsA symsB n firstByte stype c =
      scanMatchesHere H symsA' symsB' n' firstByte stype c' := by
  simp only [scanMatchesHere, stype_eq_of_sameUpToSymbols sameC,
    tagByte_eq_of_sameUpToSymbols sameC, atomCompareDirect_congr sameC sameN,
    elementsEqualRecursive_congr c c' n n' sameC sameN]

mutual
theorem containsFastScan_congr (sameN : sameUpToSymbols symsB symsB' n n' = true) :
    ∀ c c' : Elem, sameUpToSymbols symsA symsA' c c' = true →
    containsFastScan H symsA symsB n firstByte stype c =
      containsFastScan H symsA' symsB' n' firstByte stype c'
  | .smallList cs, c', same | .largeList _ cs, c', same => by
    cases c' <;> first | exact absurd same Bool.false_ne_true | skip
    all_goals
      exact congrArg₂ (· || ·) (scanMatchesHere_congr firstByte stype sameN same)
        (scanChildren_congr sameN cs _ same)
  | .nil, c', same | .smallInt _, c', same | .integer _, c', same | .float _, c', same
  | .symbolRef _, c', same | .shortString _, c', same | .longString _, c', same => by
    cases c' <;> first
      | exact absurd same Bool.false_ne_true
      | exact scanMatchesHere_congr firstByte stype sameN same
theorem scanChildren_congr (sameN : sameUpToSymbols symsB symsB' n n' = true) :
    ∀ cs cs' : List Elem,
    sameUpToSymbolsList symsA symsA' cs cs' = true →
      scanChildren H symsA symsB n firstByte stype cs =
        scanChildren H symsA' symsB' n' firstByte stype cs'
  | [], [], _ => rfl
  | c :: cs, c' :: cs', same => by
    have same := Bool.and_eq_true_iff.1 same
    have descends : scanDescends stype c = scanDescends stype c' := by
      rw [scanDescends, scanDescends, stype_eq_of_sameUpToSymbols same.1]
    exact congrArg₂ (· || ·)
      (congrArg₂ (· && ·) descends (containsFastScan_congr sameN c c' same.1))
      (scanChildren_congr sameN cs cs' same.2)
  | [], _ :: _, same | _ :: _, [], same => absurd same Bool.false_ne_true
end

end Scan

end Compare

/-! ## Key containment -/

section KeyContains

variable {symsA symsA' symsB symsB' : List (List UInt8)}

theorem keyTagsCompatible_congr {c c' n n' : Elem}
    (sameC : sameUpToSymbols symsA symsA' c c' = true)
    (sameN : sameUpToSymbols symsB symsB' n n' = true) :
    keyTagsCompatible c n = keyTagsCompatible c' n' := by
  simp only [keyTagsCompatible, tag_eq_of_sameUpToSymbols sameC, tag_eq_of_sameUpToSymbols sameN]

theorem any_congr {cs cs' : List Elem} {f g : Elem → Bool}
    (same : sameUpToSymbolsList symsA symsA' cs cs' = true)
    (each : ∀ c c', sameUpToSymbols symsA symsA' c c' = true → f c = g c') :
    cs.any f = cs'.any g := by
  induction cs generalizing cs' with
  | nil => cases cs' <;> first | rfl | exact absurd same Bool.false_ne_true
  | cons c cs inductionHypothesis =>
    cases cs' with
    | nil => exact absurd same Bool.false_ne_true
    | cons c' cs' =>
      have same := Bool.and_eq_true_iff.1 same
      simp only [List.any_cons, each c c' same.1, inductionHypothesis same.2]

mutual
theorem elementKeyMatches_congr (c c' : Elem) (sameC : sameUpToSymbols symsA symsA' c c' = true) :
    ∀ n n' : Elem, sameUpToSymbols symsB symsB' n n' = true →
      elementKeyMatches H symsA symsB c n = elementKeyMatches H symsA' symsB' c' n'
  | .smallList ns, n', sameN | .largeList _ ns, n', sameN => by
    cases n' <;> first | exact absurd sameN Bool.false_ne_true | skip
    all_goals
      exact congrArg₂ (· && ·) (isList_eq_of_sameUpToSymbols sameC)
        (keyContainsLists_congr c.children c'.children (children_of_sameUpToSymbols sameC)
          ns _ sameN)
  | .nil, n', sameN | .smallInt _, n', sameN | .integer _, n', sameN | .float _, n', sameN
  | .symbolRef _, n', sameN | .shortString _, n', sameN | .longString _, n', sameN => by
    cases n' <;> first
      | exact absurd sameN Bool.false_ne_true
      | exact congrArg₂ (· && ·) (keyTagsCompatible_congr sameC sameN)
          (elementsEqualRecursive_congr c c' _ _ sameC sameN)
termination_by structural n => n
theorem keyContainsLists_congr (cs cs' : List Elem)
    (sameC : sameUpToSymbolsList symsA symsA' cs cs' = true) :
    ∀ ns ns' : List Elem, sameUpToSymbolsList symsB symsB' ns ns' = true →
      keyContainsLists H symsA symsB cs ns = keyContainsLists H symsA' symsB' cs' ns'
  | [], [], _ => rfl
  | nh :: ntail, nh' :: ntail', sameN => by
    have sameN := Bool.and_eq_true_iff.1 sameN
    have tails := length_eq_of_sameUpToSymbolsList sameN.2
    cases cs with
    | nil =>
      cases cs' <;> first
        | exact absurd sameC Bool.false_ne_true
        | simp only [keyContainsLists.eq_def, ite_self]
    | cons ch ctail =>
      cases cs' with
      | nil => exact absurd sameC Bool.false_ne_true
      | cons ch' ctail' =>
        have sameC := Bool.and_eq_true_iff.1 sameC
        simp only [keyContainsLists, List.length_cons, length_eq_of_sameUpToSymbolsList sameC.2,
          tails, isEmpty_eq_of_sameUpToSymbolsList sameN.2,
          elementsEqualRecursive_congr ch ch' nh nh' sameC.1 sameN.1,
          keyTailFound_congr ctail ctail' sameC.2 ntail ntail' sameN.2]
  | [], _ :: _, sameN | _ :: _, [], sameN => absurd sameN Bool.false_ne_true
termination_by structural ns => ns
theorem keyTailFound_congr (ctail ctail' : List Elem)
    (sameC : sameUpToSymbolsList symsA symsA' ctail ctail' = true) :
    ∀ ns ns' : List Elem, sameUpToSymbolsList symsB symsB' ns ns' = true →
      keyTailFound H symsA symsB ctail ns = keyTailFound H symsA' symsB' ctail' ns'
  | [], [], _ => rfl
  | n :: ns, n' :: ns', sameN => by
    have sameN := Bool.and_eq_true_iff.1 sameN
    have found : ctail.any (fun c => (n.isList || keyTagsCompatible c n) &&
          elementKeyMatches H symsA symsB c n) =
        ctail'.any (fun c => (n'.isList || keyTagsCompatible c n') &&
          elementKeyMatches H symsA' symsB' c n') :=
      any_congr sameC fun c c' same => by
        rw [isList_eq_of_sameUpToSymbols sameN.1, keyTagsCompatible_congr same sameN.1,
          elementKeyMatches_congr c c' same n n' sameN.1]
    simp only [keyTailFound, found, keyTailFound_congr ctail ctail' sameC ns ns' sameN.2]
  | [], _ :: _, sameN | _ :: _, [], sameN => absurd sameN Bool.false_ne_true
termination_by structural ns => ns
end

section Search

variable {n n' : Elem} (needleTag : UInt8)

theorem keySearchHere_congr (sameN : sameUpToSymbols symsB symsB' n n' = true) {c c' : Elem}
    (sameC : sameUpToSymbols symsA symsA' c c' = true) :
    keySearchHere H symsA symsB n needleTag c = keySearchHere H symsA' symsB' n' needleTag c' := by
  simp only [keySearchHere, keyContainsRecursive, tag_eq_of_sameUpToSymbols sameC,
    isList_eq_of_sameUpToSymbols sameC, isList_eq_of_sameUpToSymbols sameN,
    atomCompareDirect_congr sameC sameN,
    keyContainsLists_congr c.children c'.children (children_of_sameUpToSymbols sameC)
      n.children n'.children (children_of_sameUpToSymbols sameN)]

mutual
theorem containsKeySearch_congr (sameN : sameUpToSymbols symsB symsB' n n' = true) :
    ∀ c c' : Elem, sameUpToSymbols symsA symsA' c c' = true →
    containsKeySearch H symsA symsB n needleTag c =
      containsKeySearch H symsA' symsB' n' needleTag c'
  | .smallList cs, c', same => by
    cases c' <;> first | exact absurd same Bool.false_ne_true | skip
    exact congrArg₂ (· || ·) (keySearchHere_congr needleTag sameN same)
      (keySearchSmall_congr sameN cs _ same)
  | .largeList _ cs, c', same => by
    cases c' <;> first | exact absurd same Bool.false_ne_true | skip
    exact congrArg₂ (· || ·) (keySearchHere_congr needleTag sameN same)
      (keySearchLarge_congr sameN cs _ same)
  | .nil, c', same | .smallInt _, c', same | .integer _, c', same | .float _, c', same
  | .symbolRef _, c', same | .shortString _, c', same | .longString _, c', same => by
    cases c' <;> first
      | exact absurd same Bool.false_ne_true
      | exact keySearchHere_congr needleTag sameN same
theorem keySearchSmall_congr (sameN : sameUpToSymbols symsB symsB' n n' = true) :
    ∀ cs cs' : List Elem,
    sameUpToSymbolsList symsA symsA' cs cs' = true →
      keySearchSmall H symsA symsB n needleTag cs = keySearchSmall H symsA' symsB' n' needleTag cs'
  | [], [], _ => rfl
  | c :: cs, c' :: cs', same => by
    have same := Bool.and_eq_true_iff.1 same
    have descends : keySearchDescendsSmall needleTag c = keySearchDescendsSmall needleTag c' := by
      rw [keySearchDescendsSmall, keySearchDescendsSmall, tag_eq_of_sameUpToSymbols same.1]
    exact congrArg₂ (· || ·)
      (congrArg₂ (· && ·) descends (containsKeySearch_congr sameN c c' same.1))
      (keySearchSmall_congr sameN cs cs' same.2)
  | [], _ :: _, same | _ :: _, [], same => absurd same Bool.false_ne_true
theorem keySearchLarge_congr (sameN : sameUpToSymbols symsB symsB' n n' = true) :
    ∀ cs cs' : List Elem,
    sameUpToSymbolsList symsA symsA' cs cs' = true →
      keySearchLarge H symsA symsB n needleTag cs = keySearchLarge H symsA' symsB' n' needleTag cs'
  | [], [], _ => rfl
  | c :: cs, c' :: cs', same => by
    have same := Bool.and_eq_true_iff.1 same
    have descends : keySearchDescendsLarge needleTag c = keySearchDescendsLarge needleTag c' := by
      rw [keySearchDescendsLarge, keySearchDescendsLarge, stype_eq_of_sameUpToSymbols same.1]
    exact congrArg₂ (· || ·)
      (congrArg₂ (· && ·) descends (containsKeySearch_congr sameN c c' same.1))
      (keySearchLarge_congr sameN cs cs' same.2)
  | [], _ :: _, same | _ :: _, [], same => absurd same Bool.false_ne_true
end

end Search

end KeyContains

/-! ## Pattern matching -/

section Match

variable {esyms esyms' psyms psyms' : List (List UInt8)}

theorem patternTypeOf_congr {p p' : Elem} (same : sameUpToSymbols psyms psyms' p p' = true) :
    patternTypeOf psyms p = patternTypeOf psyms' p' := by
  rcases sameUpToSymbols_cases same with ⟨rfl, -, plain⟩ | ⟨_, _, rfl, rfl, sym⟩ |
    ⟨_, _, rfl, rfl, -⟩ | ⟨_, _, _, _, rfl, rfl, -⟩
  · cases p <;> first | exact absurd rfl (plain _) | rfl
  · simp only [patternTypeOf.eq_def, sym]
  · rfl
  · rfl

theorem isRestPattern_congr {p p' : Elem} (same : sameUpToSymbols psyms psyms' p p' = true) :
    isRestPattern psyms p = isRestPattern psyms' p' := by
  simp only [isRestPattern, patternTypeOf_congr same]

/-- The atom comparison of the matcher reads the tables only for two references. -/
theorem atomsMatch_tables {e p : Elem} (notSymbol : ∀ i, e ≠ .symbolRef i) :
    atomsMatch esyms psyms e p = atomsMatch esyms' psyms' e p := by
  cases e <;> first | exact absurd rfl (notSymbol _) | (cases p <;> rfl)

theorem atomsMatch_congr {e e' p p' : Elem} (sameE : sameUpToSymbols esyms esyms' e e' = true)
    (sameP : sameUpToSymbols psyms psyms' p p' = true) :
    atomsMatch esyms psyms e p = atomsMatch esyms' psyms' e' p' := by
  rcases sameUpToSymbols_cases sameE with ⟨rfl, -, plainE⟩ | ⟨_, _, rfl, rfl, symE⟩ |
    ⟨_, _, rfl, rfl, -⟩ | ⟨_, _, _, _, rfl, rfl, -⟩ <;>
  rcases sameUpToSymbols_cases sameP with ⟨rfl, -, plainP⟩ | ⟨_, _, rfl, rfl, symP⟩ |
    ⟨_, _, rfl, rfl, -⟩ | ⟨_, _, _, _, rfl, rfl, -⟩ <;> first
    | rfl
    | exact atomsMatch_tables plainE
    | (cases e <;> first | exact absurd rfl (plainE _) | rfl)
    | (cases p <;> first | exact absurd rfl (plainP _) | rfl)
    | simp only [atomsMatch.eq_def, symE, symP]

mutual
theorem elementsMatch_congr (e e' : Elem) (sameE : sameUpToSymbols esyms esyms' e e' = true) :
    ∀ p p' : Elem, sameUpToSymbols psyms psyms' p p' = true →
      elementsMatch esyms psyms e p = elementsMatch esyms' psyms' e' p'
  | .smallList ps, p', sameP | .largeList _ ps, p', sameP => by
    cases p' <;> first | exact absurd sameP Bool.false_ne_true | skip
    all_goals
      exact congrArg₂ (· && ·) (isList_eq_of_sameUpToSymbols sameE)
        (matchElements_congr e.children e'.children (children_of_sameUpToSymbols sameE) ps _ sameP)
  | .nil, p', sameP | .smallInt _, p', sameP | .integer _, p', sameP | .float _, p', sameP
  | .symbolRef _, p', sameP | .shortString _, p', sameP | .longString _, p', sameP => by
    cases p' <;> first
      | exact absurd sameP Bool.false_ne_true
      | simp only [elementsMatch.eq_def, patternTypeOf_congr sameP, atomsMatch_congr sameE sameP]
termination_by structural p => p
theorem matchElements_congr (es es' : List Elem)
    (sameE : sameUpToSymbolsList esyms esyms' es es' = true) :
    ∀ ps ps' : List Elem, sameUpToSymbolsList psyms psyms' ps ps' = true →
      matchElements esyms psyms es ps = matchElements esyms' psyms' es' ps'
  | [], [], _ => isEmpty_eq_of_sameUpToSymbolsList sameE
  | p :: ps, p' :: ps', sameP => by
    have sameP := Bool.and_eq_true_iff.1 sameP
    have rests := isEmpty_eq_of_sameUpToSymbolsList sameP.2
    cases es with
    | nil =>
      cases es' <;> first
        | exact absurd sameE Bool.false_ne_true
        | simp only [matchElements, isRestPattern_congr sameP.1, rests]
    | cons e es =>
      cases es' with
      | nil => exact absurd sameE Bool.false_ne_true
      | cons e' es' =>
        have sameE := Bool.and_eq_true_iff.1 sameE
        simp only [matchElements, isRestPattern_congr sameP.1, rests,
          elementsMatch_congr e e' sameE.1 p p' sameP.1,
          matchElements_congr es es' sameE.2 ps ps' sameP.2]
  | [], _ :: _, sameP | _ :: _, [], sameP => absurd sameP Bool.false_ne_true
termination_by structural ps => ps
end

end Match

/-! ## The operators -/

theorem symbolTable_independent (a a' : Sexp)
    (decoded : a.root.decode a.symbols = a'.root.decode a'.symbols)
    (renamed : a.root.sameUpToSymbols a.symbols a'.symbols a'.root = true)
    (consistent : a.root.hashConsistent H a.symbols = true)
    (consistent' : a'.root.hashConsistent H a'.symbols = true) :
    sexpComputeHash H a = sexpComputeHash H a' ∧
      sexpComputeBloom H a = sexpComputeBloom H a' ∧
      sexpToCstring a = sexpToCstring a' ∧
      sexpGinExtractValue H a = sexpGinExtractValue H a' ∧
      (∀ strategy, sexpGinExtractQuery H a strategy = sexpGinExtractQuery H a' strategy) ∧
      ∀ b : Sexp,
        sexpContains H a b = sexpContains H a' b ∧ sexpContains H b a = sexpContains H b a' ∧
        sexpContainsKey H a b = sexpContainsKey H a' b ∧
        sexpContainsKey H b a = sexpContainsKey H b a' ∧
        sexpMatch a b = sexpMatch a' b ∧ sexpMatch b a = sexpMatch b a' := by
  obtain ⟨hash, bloom, text, valueKeys, queryKeys⟩ :=
    readers_eq_of_decode_eq decoded consistent consistent'
  refine ⟨hash, bloom, text, valueKeys, queryKeys, fun b => ?_⟩
  have selfB := sameUpToSymbols_self b.symbols b.root
  have signature : sexpElementBloom H a.symbols a.root = sexpElementBloom H a'.symbols a'.root :=
    bloom
  refine ⟨?_, ?_, ?_, ?_, elementsMatch_congr _ _ renamed _ _ selfB,
    elementsMatch_congr _ _ selfB _ _ renamed⟩
  · simp only [sexpContains, signature,
      containsFastScan_congr _ _ selfB a.root a'.root renamed]
  · simp only [sexpContains, signature, tagByte_eq_of_sameUpToSymbols renamed,
      containsFastScan_congr _ _ renamed b.root b.root selfB]
  · simp only [sexpContainsKey, signature,
      containsKeySearch_congr _ selfB a.root a'.root renamed]
  · simp only [sexpContainsKey, signature, tag_eq_of_sameUpToSymbols renamed,
      containsKeySearch_congr _ renamed b.root b.root selfB]

/-- `(a b)` as `sexp_parse` numbers its symbols, and the same list read through a table in
another order with an entry no reference uses. -/
theorem symbolTable_independent_reordered :
    let a : Sexp := ⟨[[97], [98]], .smallList [.symbolRef 0, .symbolRef 1]⟩
    let a' : Sexp := ⟨[[98], [97], [99]], .smallList [.symbolRef 1, .symbolRef 0]⟩
    (a.root.decode a.symbols = a'.root.decode a'.symbols ∧
      a.root.sameUpToSymbols a.symbols a'.symbols a'.root = true ∧
      a.root.hashConsistent pgHashFns a.symbols = true ∧
      a'.root.hashConsistent pgHashFns a'.symbols = true) ∧
    sexpComputeHash pgHashFns a = sexpComputeHash pgHashFns a' ∧
      sexpComputeBloom pgHashFns a = sexpComputeBloom pgHashFns a' ∧
      sexpToCstring a = sexpToCstring a' ∧
      sexpGinExtractValue pgHashFns a = sexpGinExtractValue pgHashFns a' ∧
      (∀ strategy, sexpGinExtractQuery pgHashFns a strategy =
        sexpGinExtractQuery pgHashFns a' strategy) ∧
      ∀ b : Sexp,
        sexpContains pgHashFns a b = sexpContains pgHashFns a' b ∧
        sexpContains pgHashFns b a = sexpContains pgHashFns b a' ∧
        sexpContainsKey pgHashFns a b = sexpContainsKey pgHashFns a' b ∧
        sexpContainsKey pgHashFns b a = sexpContainsKey pgHashFns b a' ∧
        sexpMatch a b = sexpMatch a' b ∧ sexpMatch b a = sexpMatch b a' :=
  have decoded : Elem.decode [[97], [98]] (.smallList [.symbolRef 0, .symbolRef 1]) =
      Elem.decode [[98], [97], [99]] (.smallList [.symbolRef 1, .symbolRef 0]) := rfl
  have renamed : Elem.sameUpToSymbols [[97], [98]] [[98], [97], [99]]
      (.smallList [.symbolRef 0, .symbolRef 1]) (.smallList [.symbolRef 1, .symbolRef 0]) =
      true := by decide
  have consistent : Elem.hashConsistent pgHashFns [[97], [98]]
      (.smallList [.symbolRef 0, .symbolRef 1]) = true := by decide
  have consistent' : Elem.hashConsistent pgHashFns [[98], [97], [99]]
      (.smallList [.symbolRef 1, .symbolRef 0]) = true := by decide
  ⟨⟨decoded, renamed, consistent, consistent'⟩,
    symbolTable_independent _ _ decoded renamed consistent consistent'⟩

end PgSexp
