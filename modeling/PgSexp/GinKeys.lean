import PgSexp.Gin
import PgSexp.Refinement

/-!
# GIN keys of decoded trees

Every key the extractors add is computed from the decoded tree: an atom's key from its kind
and the hash of its content, a list's from its head's hash and whether it is a pair.
`Datum.valueKeys` lists the keys `extract_keys_recursive_impl` meets, in order, and
`Datum.queryKeys` those `extract_query_keys_recursive` meets.  Each extractor is the fold of
`add_key` over that list, which drops a repeated key and every key once `MAX_GIN_KEYS` are
stored.

Trees that C's `==` identifies have the same value keys, since the hash of a double folds
`-0.0` into `0.0`.  A tree's query keys are among its own value keys when it has no empty
list: the query side gives an empty list the key `make_atom_key(KEY_TYPE_ATOM, 0)`, which
the value side never adds.
-/

namespace PgSexp

variable (H : HashFns)

namespace Datum

mutual
/-- `get_element_hash` of a decoded tree. -/
def elementHash : Datum → UInt32
  | .nil => sexpHashUint32 H 0
  | .int v => sexpHashInt64 H v
  | .float x => sexpHashFloat64 H x
  | .sym s => sexpHashBytes H s
  | .str s => sexpHashBytes H s
  | .list ds => headHash ds
  | .danglingSym _ => 0
/-- The hash of a list's first child, `sexp_hash_uint32(0)` for none. -/
def headHash : List Datum → UInt32
  | [] => sexpHashUint32 H 0
  | d :: _ => elementHash d
end

/-- The key an atom contributes; none for a list or a dangling symbol. -/
def atomKey : Datum → Option UInt32
  | .nil => some (makeAtomKey keyTypeAtom (sexpHashUint32 H 0))
  | .int v => some (makeAtomKey keyTypeInteger (sexpHashInt64 H v))
  | .float x => some (makeAtomKey keyTypeFloat (sexpHashFloat64 H x))
  | .sym s => some (makeAtomKey keyTypeSymbol (sexpHashBytes H s))
  | .str s => some (makeAtomKey keyTypeString (sexpHashBytes H s))
  | .list _ | .danglingSym _ => none

/-- A symbol, in the table or not: the element had the tag `SEXP_TAG_SYMBOL_REF`. -/
def isSymbol : Datum → Bool
  | .sym _ | .danglingSym _ => true
  | _ => false

/-- `is_pair_list`: two children, the first a symbol. -/
def isPair : List Datum → Bool
  | [h, _] => h.isSymbol
  | _ => false

/-- One child, a symbol. -/
def isSymbolSingleton : List Datum → Bool
  | [h] => h.isSymbol
  | _ => false

/-- The pair key of a list. -/
def pairKey (ds : List Datum) : UInt32 :=
  makeAtomKey keyTypePair
    (hashCombine32 (hashCombine32 keyTypePair (headHash H ds)) (headHash H ds.tail))

/-- The list-head key of a list. -/
def listHeadKey (ds : List Datum) : UInt32 := makeAtomKey keyTypeListHead (headHash H ds)

/-- The key the value side adds for a list: none for an empty list, the pair key for a pair,
the list-head key otherwise. -/
def valueListKeys : List Datum → List UInt32
  | [] => []
  | d :: ds => [if isPair (d :: ds) then pairKey H (d :: ds) else listHeadKey H (d :: ds)]

/-- The keys the query side adds for a list: `make_atom_key(KEY_TYPE_ATOM, 0)` for an empty
list; otherwise the list-head key unless it is a pair, and the pair key of a pair unless
pair keys are skipped. -/
def queryListKeys (skipPairKeys : Bool) : List Datum → List UInt32
  | [] => [makeAtomKey keyTypeAtom 0]
  | d :: ds =>
    (if isPair (d :: ds) then [] else [listHeadKey H (d :: ds)]) ++
      (if !skipPairKeys && isPair (d :: ds) then [pairKey H (d :: ds)] else [])

mutual
/-- The keys the value extractor meets, in order, before `add_key` filters them. -/
def valueKeys : Datum → List UInt32
  | .list ds => valueListKeys H ds ++ valueKeysList ds
  | .nil => (atomKey H .nil).toList
  | .int v => (atomKey H (.int v)).toList
  | .float x => (atomKey H (.float x)).toList
  | .sym s => (atomKey H (.sym s)).toList
  | .str s => (atomKey H (.str s)).toList
  | .danglingSym _ => []
/-- `valueKeys` of each child, in order. -/
def valueKeysList : List Datum → List UInt32
  | [] => []
  | d :: ds => valueKeys d ++ valueKeysList ds
end

section Query

variable (skipPairKeys : Bool)

mutual
/-- The keys the query extractor meets, in order, before `add_key` filters them. -/
def queryKeys : Datum → List UInt32
  | .list ds => queryListKeys H skipPairKeys ds ++ queryKeysList ds
  | .nil => (atomKey H .nil).toList
  | .int v => (atomKey H (.int v)).toList
  | .float x => (atomKey H (.float x)).toList
  | .sym s => (atomKey H (.sym s)).toList
  | .str s => (atomKey H (.str s)).toList
  | .danglingSym _ => []
/-- `queryKeys` of each child, in order. -/
def queryKeysList : List Datum → List UInt32
  | [] => []
  | d :: ds => queryKeys d ++ queryKeysList ds
end

end Query

section AnyList

variable (p : List Datum → Bool)

mutual
/-- Some list of the tree, the tree itself included, satisfies `p`. -/
def anyList : Datum → Bool
  | .list ds => p ds || anyListIn ds
  | _ => false
/-- `anyList` of some child. -/
def anyListIn : List Datum → Bool
  | [] => false
  | d :: ds => anyList d || anyListIn ds
end

end AnyList

/-! ## Trees equal under C's `==` have the same value keys -/

mutual
theorem elementHash_eq_of_ieeeEq : ∀ a b : Datum, a.ieeeEq b = true →
    a.elementHash H = b.elementHash H
  | .list cs, b, equal => by
    cases b <;> first | exact absurd equal Bool.false_ne_true | skip
    exact headHash_eq_of_ieeeEqList cs _ equal
  | .float _, b, equal => by
    cases b <;> first | exact absurd equal Bool.false_ne_true | skip
    exact sexpHashFloat64_eq_of_float8Eq H equal
  | .nil, b, equal | .int _, b, equal | .sym _, b, equal | .str _, b, equal
  | .danglingSym _, b, equal => by
    cases b <;> first
      | exact absurd equal Bool.false_ne_true
      | simp only [elementHash, eq_of_beq equal]
      | rfl
theorem headHash_eq_of_ieeeEqList : ∀ cs ds : List Datum, ieeeEqList cs ds = true →
    headHash H cs = headHash H ds
  | [], [], _ => rfl
  | c :: _, d :: _, equal => elementHash_eq_of_ieeeEq c d (Bool.and_eq_true_iff.1 equal).1
  | [], _ :: _, equal | _ :: _, [], equal => absurd equal Bool.false_ne_true
end

theorem atomKey_eq_of_ieeeEq {a b : Datum} (equal : a.ieeeEq b = true) :
    a.atomKey H = b.atomKey H := by
  cases a <;> cases b <;> first
    | exact absurd equal Bool.false_ne_true
    | rfl
    | simp only [atomKey, eq_of_beq equal]
    | simp only [atomKey, sexpHashFloat64_eq_of_float8Eq H equal]

theorem isSymbol_eq_of_ieeeEq {a b : Datum} (equal : a.ieeeEq b = true) :
    a.isSymbol = b.isSymbol := by
  cases a <;> cases b <;> first | exact absurd equal Bool.false_ne_true | rfl

theorem ieeeEqList_tail : ∀ {cs ds : List Datum}, ieeeEqList cs ds = true →
    ieeeEqList cs.tail ds.tail = true
  | [], [], _ => rfl
  | _ :: _, _ :: _, equal => (Bool.and_eq_true_iff.1 equal).2
  | [], _ :: _, equal | _ :: _, [], equal => absurd equal Bool.false_ne_true

theorem isPair_eq_of_ieeeEqList {cs ds : List Datum} (equal : ieeeEqList cs ds = true) :
    isPair cs = isPair ds := by
  have lengths := ieeeEqList_length equal
  rcases cs with _ | ⟨c, _ | ⟨_, _ | _⟩⟩ <;> rcases ds with _ | ⟨d, _ | ⟨_, _ | _⟩⟩ <;>
    first
    | rfl
    | exact isSymbol_eq_of_ieeeEq (Bool.and_eq_true_iff.1 equal).1
    | simp at lengths

theorem valueListKeys_eq_of_ieeeEqList {cs ds : List Datum} (equal : ieeeEqList cs ds = true) :
    valueListKeys H cs = valueListKeys H ds := by
  cases cs <;> cases ds <;> first | exact absurd equal Bool.false_ne_true | rfl | skip
  simp only [valueListKeys, pairKey, listHeadKey, isPair_eq_of_ieeeEqList equal,
    headHash_eq_of_ieeeEqList H _ _ equal, headHash_eq_of_ieeeEqList H _ _ (ieeeEqList_tail equal)]

mutual
theorem valueKeys_eq_of_ieeeEq : ∀ a b : Datum, a.ieeeEq b = true →
    valueKeys H a = valueKeys H b
  | .list cs, b, equal => by
    cases b <;> first | exact absurd equal Bool.false_ne_true | skip
    exact congrArg₂ (· ++ ·) (valueListKeys_eq_of_ieeeEqList H equal)
      (valueKeysList_eq_of_ieeeEqList cs _ equal)
  | .nil, b, equal | .int _, b, equal | .float _, b, equal | .sym _, b, equal | .str _, b, equal
  | .danglingSym _, b, equal => by
    cases b <;> first
      | exact absurd equal Bool.false_ne_true
      | exact congrArg Option.toList (atomKey_eq_of_ieeeEq H equal)
theorem valueKeysList_eq_of_ieeeEqList : ∀ cs ds : List Datum, ieeeEqList cs ds = true →
    valueKeysList H cs = valueKeysList H ds
  | [], [], _ => rfl
  | c :: cs, d :: ds, equal =>
    have equal := Bool.and_eq_true_iff.1 equal
    congrArg₂ (· ++ ·) (valueKeys_eq_of_ieeeEq c d equal.1) (valueKeysList_eq_of_ieeeEqList cs ds equal.2)
  | [], _ :: _, equal | _ :: _, [], equal => absurd equal Bool.false_ne_true
end

/-! ## Query keys among value keys -/

section Query

variable (skipPairKeys : Bool)

theorem queryListKeys_subset_valueListKeys {ds : List Datum} (nonEmpty : ds.isEmpty = false) :
    queryListKeys H skipPairKeys ds ⊆ valueListKeys H ds := by
  cases ds with
  | nil => exact absurd nonEmpty.symm Bool.false_ne_true
  | cons d ds =>
    cases pair : isPair (d :: ds) <;> cases skipPairKeys <;>
      simp [queryListKeys, valueListKeys, pair]

mutual
/-- A tree's query keys are among its value keys when it has no empty list. -/
theorem queryKeys_subset_valueKeys : ∀ d : Datum, d.anyList List.isEmpty = false →
    queryKeys H skipPairKeys d ⊆ valueKeys H d
  | .list ds, noEmpty => by
    simp only [anyList, Bool.or_eq_false_iff] at noEmpty
    exact List.append_subset.2
      ⟨(queryListKeys_subset_valueListKeys H skipPairKeys noEmpty.1).trans
          (List.subset_append_left _ _),
        (queryKeysList_subset_valueKeysList ds noEmpty.2).trans (List.subset_append_right _ _)⟩
  | .nil, _ | .int _, _ | .float _, _ | .sym _, _ | .str _, _ | .danglingSym _, _ =>
    List.Subset.refl _
theorem queryKeysList_subset_valueKeysList : ∀ ds : List Datum,
    anyListIn List.isEmpty ds = false → queryKeysList H skipPairKeys ds ⊆ valueKeysList H ds
  | [], _ => List.Subset.refl _
  | d :: ds, noEmpty => by
    simp only [anyListIn, Bool.or_eq_false_iff] at noEmpty
    exact List.append_subset.2
      ⟨(queryKeys_subset_valueKeys d noEmpty.1).trans (List.subset_append_left _ _),
        (queryKeysList_subset_valueKeysList ds noEmpty.2).trans (List.subset_append_right _ _)⟩
end

/-- The query keys of a tree are among the value keys of every tree equal to it under C's
`==`, when it has no empty list. -/
theorem queryKeys_subset_valueKeys_of_ieeeEq {c n : Datum} (equal : c.ieeeEq n = true)
    (noEmpty : n.anyList List.isEmpty = false) :
    queryKeys H skipPairKeys n ⊆ valueKeys H c :=
  valueKeys_eq_of_ieeeEq H c n equal ▸ queryKeys_subset_valueKeys H skipPairKeys n noEmpty

/-- A tree equal to another under C's `==` has no dangling symbol, so it has a query key. -/
theorem queryKeys_ne_nil_of_ieeeEq : ∀ c n : Datum, c.ieeeEq n = true →
    queryKeys H skipPairKeys n ≠ []
  | .list cs, .list [], _ => by simp [queryKeys, queryListKeys]
  | .list (c :: _), .list (n :: ns), equal => by
    simp only [queryKeys, queryKeysList, ne_eq, List.append_eq_nil, not_and]
    exact fun _ headNil =>
      absurd headNil (queryKeys_ne_nil_of_ieeeEq c n (Bool.and_eq_true_iff.1 equal).1)
  | .list [], .list (_ :: _), equal => absurd equal Bool.false_ne_true
  | c, .nil, equal | c, .int _, equal | c, .float _, equal | c, .sym _, equal | c, .str _, equal => by
    simp [queryKeys, atomKey]
  | c, .danglingSym _, equal => by
    cases c <;> exact absurd equal Bool.false_ne_true
  | .nil, .list _, equal | .int _, .list _, equal | .float _, .list _, equal
  | .sym _, .list _, equal | .str _, .list _, equal | .danglingSym _, .list _, equal =>
    absurd equal Bool.false_ne_true

end Query

theorem valueKeys_subset_valueKeysList {d : Datum} {ds : List Datum} (mem : d ∈ ds) :
    valueKeys H d ⊆ valueKeysList H ds := by
  induction mem with
  | head => exact List.subset_append_left _ _
  | tail _ _ below => exact below.trans (List.subset_append_right _ _)

/-- A child's value keys are among its list's. -/
theorem valueKeys_subset_of_mem {d : Datum} {ds : List Datum} (mem : d ∈ ds) :
    valueKeys H d ⊆ valueKeys H (.list ds) :=
  (valueKeys_subset_valueKeysList H mem).trans (List.subset_append_right _ _)

end Datum

/-! ## `add_key` folded over a list of keys -/

section AddKey

theorem addKey_of_full {keys : List UInt32} (full : maxGinKeys ≤ keys.length) (key : UInt32) :
    addKey keys key = keys := if_pos full

theorem length_le_addKey (keys : List UInt32) (key : UInt32) :
    keys.length ≤ (addKey keys key).length := by
  unfold addKey
  split_ifs <;> simp

theorem mem_addKey {keys : List UInt32} {key k : UInt32} (mem : k ∈ addKey keys key) :
    k ∈ keys ∨ k = key := by
  unfold addKey at mem
  split_ifs at mem <;> simp_all

theorem mem_addKey_of_mem {keys : List UInt32} {k : UInt32} (mem : k ∈ keys) (key : UInt32) :
    k ∈ addKey keys key := by
  unfold addKey
  split_ifs <;> simp [mem]

theorem self_mem_addKey {keys : List UInt32} (room : keys.length < maxGinKeys) (key : UInt32) :
    key ∈ addKey keys key := by
  unfold addKey
  split_ifs <;> first | omega | simp_all

theorem foldl_addKey_of_full {keys : List UInt32} (full : maxGinKeys ≤ keys.length) :
    ∀ ks : List UInt32, ks.foldl addKey keys = keys
  | [] => rfl
  | k :: ks => by
    rw [List.foldl_cons, addKey_of_full full]
    exact foldl_addKey_of_full full ks

theorem length_le_foldl_addKey : ∀ (ks keys : List UInt32),
    keys.length ≤ (ks.foldl addKey keys).length
  | [], _ => le_rfl
  | k :: ks, keys => (length_le_addKey keys k).trans (length_le_foldl_addKey ks _)

/-- The fold keeps the keys it starts from and adds only keys of the list. -/
theorem mem_foldl_addKey : ∀ {ks keys : List UInt32} {k : UInt32},
    k ∈ ks.foldl addKey keys → k ∈ keys ∨ k ∈ ks
  | [], _, _, mem => .inl mem
  | key :: ks, keys, k, mem => by
    rw [List.foldl_cons] at mem
    rcases mem_foldl_addKey mem with mem | later
    · rcases mem_addKey mem with old | rfl
      · exact .inl old
      · exact .inr (.head _)
    · exact .inr (.tail _ later)

/-- A fold that stays below `MAX_GIN_KEYS` drops no key but repeats. -/
theorem mem_foldl_addKey_of_mem : ∀ {ks keys : List UInt32} {k : UInt32},
    k ∈ keys ∨ k ∈ ks → (ks.foldl addKey keys).length < maxGinKeys →
      k ∈ ks.foldl addKey keys
  | [], _, _, mem, _ => mem.resolve_right (List.not_mem_nil _)
  | key :: ks, keys, k, mem, room => by
    rw [List.foldl_cons] at room ⊢
    apply mem_foldl_addKey_of_mem _ room
    rcases mem with old | new
    · exact .inl (mem_addKey_of_mem old key)
    rcases List.mem_cons.1 new with rfl | later
    · have roomBefore := (length_le_foldl_addKey ks (addKey keys k)).trans_lt room
      exact .inl (self_mem_addKey ((length_le_addKey keys k).trans_lt roomBefore) k)
    · exact .inr later

theorem foldl_addKey_nil_ne_nil : ∀ {ks : List UInt32}, ks ≠ [] → ks.foldl addKey [] ≠ []
  | [], nonEmpty => absurd rfl nonEmpty
  | k :: ks, _ => by
    have single : addKey [] k = [k] := rfl
    rw [List.foldl_cons, single]
    exact List.ne_nil_of_length_pos (length_le_foldl_addKey ks [k])
end AddKey

/-! ## The extractors read the decoded tree -/

section Extract

variable {H} (syms : List (List UInt8))

mutual
theorem getElementHash_eq_elementHash_decode :
    ∀ e : Elem, getElementHash H syms e = (e.decode syms).elementHash H
  | .nil | .smallInt _ | .integer _ | .float _ | .shortString _ | .longString _ => rfl
  | .symbolRef i => by
    simp only [getElementHash, Elem.decode]
    cases syms[i]? <;> rfl
  | .smallList cs | .largeList _ cs => by
    simp only [getElementHash, Elem.decode, Datum.elementHash, Elem.decodeList_eq_map]
    exact headElementHash_eq_headHash cs
theorem headElementHash_eq_headHash :
    ∀ cs : List Elem, headElementHash H syms cs = Datum.headHash H (cs.map (Elem.decode syms))
  | [] => rfl
  | c :: _ => getElementHash_eq_elementHash_decode c
end

theorem isPairList_eq_isPair (cs : List Elem) :
    isPairList cs = Datum.isPair (cs.map (Elem.decode syms)) := by
  rcases cs with _ | ⟨h, _ | ⟨_, _ | _⟩⟩ <;> first | rfl | skip
  cases h <;> first | rfl | skip
  rename_i i
  simp only [isPairList, List.map, Datum.isPair, Elem.decode]
  cases syms[i]? <;> rfl

/-- The key the value extractor adds for a non-empty list. -/
theorem valueListKeys_decode {cs : List Elem} (nonEmpty : cs ≠ []) :
    Datum.valueListKeys H (cs.map (Elem.decode syms)) = [valueListKey H syms cs] := by
  cases cs with
  | nil => exact absurd rfl nonEmpty
  | cons c cs =>
    simp only [List.map_cons, Datum.valueListKeys, valueListKey, pairKey, listHeadKey,
      Datum.pairKey, Datum.listHeadKey, isPairList_eq_isPair syms, headElementHash_eq_headHash,
      List.tail_cons, List.map_cons]

/-- The keys the query extractor adds for a non-empty list. -/
theorem queryListKeys_eq_foldl (skipPairKeys : Bool) {cs : List Elem} (nonEmpty : cs ≠ [])
    (keys : List UInt32) :
    queryListKeys H syms skipPairKeys cs keys =
      (Datum.queryListKeys H skipPairKeys (cs.map (Elem.decode syms))).foldl addKey keys := by
  cases cs with
  | nil => exact absurd rfl nonEmpty
  | cons c cs =>
    simp only [queryListKeys, List.map_cons, Datum.queryListKeys, pairKey, listHeadKey,
      Datum.pairKey, Datum.listHeadKey, isPairList_eq_isPair syms, headElementHash_eq_headHash,
      List.tail_cons, List.map_cons]
    cases Datum.isPair (Elem.decode syms c :: List.map (Elem.decode syms) cs) <;>
      cases skipPairKeys <;> rfl

theorem atomKey_eq_atomKey_decode {e : Elem} (atom : e.isList = false) :
    atomKey H syms e = ((e.decode syms).atomKey H) := by
  cases e <;> first | exact absurd atom.symm Bool.false_ne_true | rfl | skip
  rename_i i
  simp only [atomKey, Elem.decode]
  cases syms[i]? <;> rfl

theorem valueKeys_decode_of_atom {e : Elem} (atom : e.isList = false) :
    (e.decode syms).valueKeys H = (atomKey H syms e).toList := by
  cases e <;> first | exact absurd atom.symm Bool.false_ne_true | rfl | skip
  rename_i i
  simp only [atomKey, Elem.decode]
  cases syms[i]? <;> rfl

theorem queryKeys_decode_of_atom (skipPairKeys : Bool) {e : Elem} (atom : e.isList = false) :
    (e.decode syms).queryKeys H skipPairKeys = (atomKey H syms e).toList := by
  cases e <;> first | exact absurd atom.symm Bool.false_ne_true | rfl | skip
  rename_i i
  simp only [atomKey, Elem.decode]
  cases syms[i]? <;> rfl

/-- An atom's turn in either extractor: nothing once `MAX_GIN_KEYS` are stored, else its key,
if it has one. -/
theorem foldl_addKey_toList (keys : List UInt32) (key : Option UInt32) :
    key.toList.foldl addKey keys =
      if maxGinKeys ≤ keys.length then keys else key.elim keys (addKey keys) := by
  split
  · exact foldl_addKey_of_full ‹_› _
  · cases key <;> rfl

theorem extractKeysRecursive_of_atom {e : Elem} (atom : e.isList = false) (keys : List UInt32) :
    extractKeysRecursive H syms e keys = (atomKey H syms e).toList.foldl addKey keys := by
  rw [foldl_addKey_toList, extractKeysRecursive.eq_3 _ _ _ _ (by rintro _ rfl; cases atom)
    (by rintro _ _ rfl; cases atom)]
  cases atomKey H syms e <;> rfl

mutual
/-- `extract_keys_recursive_impl` folds `add_key` over the value keys of the decoded tree. -/
theorem extractKeysRecursive_eq_foldl : ∀ (e : Elem) (keys : List UInt32),
    extractKeysRecursive H syms e keys = ((e.decode syms).valueKeys H).foldl addKey keys
  | .smallList cs, keys | .largeList _ cs, keys => by
    simp only [extractKeysRecursive, Elem.decode, Elem.decodeList_eq_map, Datum.valueKeys,
      List.foldl_append]
    split
    · rename_i stop
      rcases stop with full | rfl
      · rw [foldl_addKey_of_full full, foldl_addKey_of_full full]
      · rfl
    · rename_i go
      rw [valueListKeys_decode syms (not_or.1 go).2, List.foldl_cons, List.foldl_nil,
        extractChildKeys_eq_foldl cs]
  | .nil, keys | .smallInt _, keys | .integer _, keys | .float _, keys | .symbolRef _, keys
  | .shortString _, keys | .longString _, keys => by
    rw [extractKeysRecursive_of_atom syms (by rfl), valueKeys_decode_of_atom syms (by rfl)]
theorem extractChildKeys_eq_foldl : ∀ (cs : List Elem) (keys : List UInt32),
    extractChildKeys H syms cs keys =
      (Datum.valueKeysList H (cs.map (Elem.decode syms))).foldl addKey keys
  | [], _ => rfl
  | c :: cs, keys => by
    simp only [extractChildKeys, List.map_cons, Datum.valueKeysList, List.foldl_append]
    split
    · rename_i full
      rw [foldl_addKey_of_full full, foldl_addKey_of_full full]
    · rw [extractKeysRecursive_eq_foldl c keys, extractChildKeys_eq_foldl cs]
end

section Query

variable (skipPairKeys : Bool)

theorem extractQueryKeysRecursive_of_atom {e : Elem} (atom : e.isList = false)
    (keys : List UInt32) :
    extractQueryKeysRecursive H syms skipPairKeys e keys =
      (atomKey H syms e).toList.foldl addKey keys := by
  rw [foldl_addKey_toList, extractQueryKeysRecursive.eq_3 _ _ _ _ _ (by rintro _ rfl; cases atom)
    (by rintro _ _ rfl; cases atom)]
  cases atomKey H syms e <;> rfl

mutual
/-- `extract_query_keys_recursive` folds `add_key` over the query keys of the decoded tree. -/
theorem extractQueryKeysRecursive_eq_foldl : ∀ (e : Elem) (keys : List UInt32),
    extractQueryKeysRecursive H syms skipPairKeys e keys =
      ((e.decode syms).queryKeys H skipPairKeys).foldl addKey keys
  | .smallList cs, keys | .largeList _ cs, keys => by
    simp only [extractQueryKeysRecursive, Elem.decode, Elem.decodeList_eq_map, Datum.queryKeys,
      List.foldl_append]
    split
    · rename_i full
      rw [foldl_addKey_of_full full, foldl_addKey_of_full full]
    split
    · rename_i empty
      subst empty
      rfl
    · rename_i nonEmpty
      rw [← queryListKeys_eq_foldl syms skipPairKeys nonEmpty, extractQueryChildKeys_eq_foldl cs]
  | .nil, keys | .smallInt _, keys | .integer _, keys | .float _, keys | .symbolRef _, keys
  | .shortString _, keys | .longString _, keys => by
    rw [extractQueryKeysRecursive_of_atom syms skipPairKeys (by rfl),
      queryKeys_decode_of_atom syms skipPairKeys (by rfl)]
theorem extractQueryChildKeys_eq_foldl : ∀ (cs : List Elem) (keys : List UInt32),
    extractQueryChildKeys H syms skipPairKeys cs keys =
      (Datum.queryKeysList H skipPairKeys (cs.map (Elem.decode syms))).foldl addKey keys
  | [], _ => rfl
  | c :: cs, keys => by
    simp only [extractQueryChildKeys, List.map_cons, Datum.queryKeysList, List.foldl_append]
    split
    · rename_i full
      rw [foldl_addKey_of_full full, foldl_addKey_of_full full]
    · rw [extractQueryKeysRecursive_eq_foldl c keys, extractQueryChildKeys_eq_foldl cs]
end

end Query

end Extract

end PgSexp
