import PgSexp.Hash

/-!
# The GIN operator class

Keys are 32-bit words with the top bit set.  Every atom contributes a key from its kind and
the hash of its content.  A two-element list headed by a symbol contributes a pair key; any
other non-empty list a list-head key; the extractors then descend into the children.
`add_key` drops a key already present (the open-addressed set `KeyHashSet` holds exactly the
keys of the array: keys have their top bit set, unlike the empty-slot sentinel, and at most
`MAX_GIN_KEYS` of its 8192 slots fill) and drops every key once `MAX_GIN_KEYS` are stored.
For a key-based query (strategy 9) the query extractor leaves out pair keys.
`sexp_gin_consistent` asks for every query key and always rechecks;
`sexp_gin_triconsistent` answers `GIN_TRUE`, without recheck, when the query has exactly one
key and it is present.
-/

namespace PgSexp

/-- `SEXP_GIN_CONTAINS_STRATEGY`, `@>` -/
def sexpGinContainsStrategy : Nat := 7
/-- `SEXP_GIN_CONTAINED_STRATEGY`, `<@` -/
def sexpGinContainedStrategy : Nat := 8
/-- `SEXP_GIN_CONTAINS_KEY_STRATEGY`, `@>>` -/
def sexpGinContainsKeyStrategy : Nat := 9

/-- `KEY_TYPE_ATOM` -/
def keyTypeAtom : UInt32 := 0x01000000
/-- `KEY_TYPE_LIST_HEAD` -/
def keyTypeListHead : UInt32 := 0x02000000
/-- `KEY_TYPE_SYMBOL` -/
def keyTypeSymbol : UInt32 := 0x03000000
/-- `KEY_TYPE_STRING` -/
def keyTypeString : UInt32 := 0x04000000
/-- `KEY_TYPE_INTEGER` -/
def keyTypeInteger : UInt32 := 0x05000000
/-- `KEY_TYPE_FLOAT` -/
def keyTypeFloat : UInt32 := 0x06000000
/-- `KEY_TYPE_PAIR` -/
def keyTypePair : UInt32 := 0x07000000

/-- `MAX_GIN_KEYS` -/
def maxGinKeys : Nat := 1024

/-- `hash_combine32`, the mixer of `hash_combine`. -/
def hashCombine32 (seed hash : UInt32) : UInt32 :=
  seed ^^^ (hash + (0x9e3779b9 : UInt32) + (seed <<< 6) + (seed >>> 2))

/-- `make_atom_key`: the kind marker mixed into the hash, top bit forced on. -/
def makeAtomKey (typeMarker valueHash : UInt32) : UInt32 :=
  (typeMarker ^^^ valueHash) ||| 0x80000000

/-- `add_key` -/
def addKey (keys : List UInt32) (key : UInt32) : List UInt32 :=
  if maxGinKeys ≤ keys.length then keys
  else if key ∈ keys then keys
  else keys ++ [key]

variable (H : HashFns) (syms : List (List UInt8))

mutual
/-- `get_element_hash`: the content hash of an atom; for a list, that of its head. -/
def getElementHash : Elem → UInt32
  | .nil => sexpHashUint32 H 0
  | .smallInt p => sexpHashInt64 H (smallintValue p)
  | .integer u => sexpHashInt64 H (zigzagDecode u)
  | .float x => sexpHashFloat64 H x
  | .symbolRef i =>
      match syms[i]? with
      | some s => sexpHashBytes H s
      | none => 0
  | .shortString s => sexpHashBytes H s
  | .longString s => sexpHashBytes H s
  | .smallList cs => headElementHash cs
  | .largeList _ cs => headElementHash cs
/-- `get_element_hash` of a list's first element, `sexp_hash_uint32(0)` for none. -/
def headElementHash : List Elem → UInt32
  | [] => sexpHashUint32 H 0
  | c :: _ => getElementHash c
end

/-- The key an atom contributes; none for a list or a dangling symbol. -/
def atomKey : Elem → Option UInt32
  | .nil => some (makeAtomKey keyTypeAtom (sexpHashUint32 H 0))
  | .smallInt p => some (makeAtomKey keyTypeInteger (sexpHashInt64 H (smallintValue p)))
  | .integer u => some (makeAtomKey keyTypeInteger (sexpHashInt64 H (zigzagDecode u)))
  | .float x => some (makeAtomKey keyTypeFloat (sexpHashFloat64 H x))
  | .symbolRef i => syms[i]?.map fun s => makeAtomKey keyTypeSymbol (sexpHashBytes H s)
  | .shortString s => some (makeAtomKey keyTypeString (sexpHashBytes H s))
  | .longString s => some (makeAtomKey keyTypeString (sexpHashBytes H s))
  | _ => none

/-- A two-element list whose head is a symbol reference (`is_pair_list`). -/
def isPairList (cs : List Elem) : Bool :=
  match cs with
  | [h, _] => h.tag == sexpTagSymbolRef
  | _ => false

/-- The pair key of a two-element list. -/
def pairKey (cs : List Elem) : UInt32 :=
  let headHash := headElementHash H syms cs
  let secondHash := headElementHash H syms cs.tail
  makeAtomKey keyTypePair (hashCombine32 (hashCombine32 keyTypePair headHash) secondHash)

/-- The list-head key of a list. -/
def listHeadKey (cs : List Elem) : UInt32 :=
  makeAtomKey keyTypeListHead (headElementHash H syms cs)

/-- The key a value's non-empty list contributes: the pair key of a pair, else the list-head
key. -/
def valueListKey (cs : List Elem) : UInt32 :=
  if isPairList cs then pairKey H syms cs else listHeadKey H syms cs

mutual
/-- `extract_keys_recursive_impl` (the value side), adding to `keys`.  An empty list adds no
key. -/
def extractKeysRecursive : Elem → List UInt32 → List UInt32
  | .smallList cs, keys =>
      if maxGinKeys ≤ keys.length ∨ cs = [] then keys
      else extractChildKeys cs (addKey keys (valueListKey H syms cs))
  | .largeList _ cs, keys =>
      if maxGinKeys ≤ keys.length ∨ cs = [] then keys
      else extractChildKeys cs (addKey keys (valueListKey H syms cs))
  | e, keys =>
      if maxGinKeys ≤ keys.length then keys
      else
        match atomKey H syms e with
        | some k => addKey keys k
        | none => keys
/-- The child loop of the value side, which stops once `MAX_GIN_KEYS` are stored. -/
def extractChildKeys : List Elem → List UInt32 → List UInt32
  | [], keys => keys
  | c :: cs, keys =>
      if maxGinKeys ≤ keys.length then keys
      else extractChildKeys cs (extractKeysRecursive c keys)
end

variable (skipPairKeys : Bool)

/-- The keys the query side adds for a non-empty list: a list-head key unless the list is a
pair, and a pair key for a pair unless `skip_pair_keys`. -/
def queryListKeys (cs : List Elem) (keys : List UInt32) : List UInt32 :=
  let keys := if isPairList cs then keys else addKey keys (listHeadKey H syms cs)
  if !skipPairKeys && isPairList cs then addKey keys (pairKey H syms cs) else keys

mutual
/-- `extract_query_keys_recursive`, adding to `keys`.  An empty list adds the key
`make_atom_key(KEY_TYPE_ATOM, 0)`. -/
def extractQueryKeysRecursive : Elem → List UInt32 → List UInt32
  | .smallList cs, keys =>
      if maxGinKeys ≤ keys.length then keys
      else if cs = [] then addKey keys (makeAtomKey keyTypeAtom 0)
      else extractQueryChildKeys cs (queryListKeys H syms skipPairKeys cs keys)
  | .largeList _ cs, keys =>
      if maxGinKeys ≤ keys.length then keys
      else if cs = [] then addKey keys (makeAtomKey keyTypeAtom 0)
      else extractQueryChildKeys cs (queryListKeys H syms skipPairKeys cs keys)
  | e, keys =>
      if maxGinKeys ≤ keys.length then keys
      else
        match atomKey H syms e with
        | some k => addKey keys k
        | none => keys
/-- The child loop of the query side. -/
def extractQueryChildKeys : List Elem → List UInt32 → List UInt32
  | [], keys => keys
  | c :: cs, keys =>
      if maxGinKeys ≤ keys.length then keys
      else extractQueryChildKeys cs (extractQueryKeysRecursive c keys)
end

/-- `sexp_gin_extract_value`: one key, `make_atom_key(KEY_TYPE_ATOM, 0)`, stands in for an
empty key set. -/
def sexpGinExtractValue (s : Sexp) : List UInt32 :=
  match extractKeysRecursive H s.symbols s.root [] with
  | [] => [makeAtomKey keyTypeAtom 0]
  | keys => keys

/-- The GIN search modes `extract_query` chooses between. -/
inductive GinSearchMode where
  | searchModeDefault
  | searchModeAll
  deriving DecidableEq, Repr

/-- `sexp_gin_extract_query`: the query keys, without pair keys for `@>>`; no keys and a full
index scan for `<@`. -/
def sexpGinExtractQuery (query : Sexp) (strategy : Nat) :
    Except SqlError (List UInt32 × GinSearchMode) :=
  let extract (skipPairKeys : Bool) :=
    match extractQueryKeysRecursive H query.symbols skipPairKeys query.root [] with
    | [] => [makeAtomKey keyTypeAtom 0]
    | keys => keys
  if strategy = sexpGinContainsStrategy then .ok (extract false, .searchModeDefault)
  else if strategy = sexpGinContainsKeyStrategy then .ok (extract true, .searchModeDefault)
  else if strategy = sexpGinContainedStrategy then .ok ([], .searchModeAll)
  else .error ⟨.internalError, s!"sexp_gin_extract_query: unknown strategy {strategy}"⟩

/-- `sexp_gin_consistent`: whether the row is a candidate, and the recheck flag, always set. -/
def sexpGinConsistent (check : List Bool) (strategy : Nat) : Except SqlError (Bool × Bool) :=
  if strategy = sexpGinContainsStrategy ∨ strategy = sexpGinContainsKeyStrategy then
    .ok (check.all id, true)
  else if strategy = sexpGinContainedStrategy then .ok (true, true)
  else .error ⟨.internalError, s!"sexp_gin_consistent: unknown strategy {strategy}"⟩

/-- `GinTernaryValue` -/
inductive GinTernaryValue where
  | ginFalse
  | ginTrue
  | ginMaybe
  deriving DecidableEq, Repr

/-- `sexp_gin_triconsistent`: `GIN_FALSE` if a key is absent; `GIN_TRUE`, with no recheck, if
the query has exactly one key and it is present; `GIN_MAYBE` otherwise. -/
def sexpGinTriconsistent (check : List GinTernaryValue) (strategy : Nat) :
    Except SqlError GinTernaryValue :=
  let anyFalse := check.contains .ginFalse
  let allTrue := check.all (· == .ginTrue)
  if strategy = sexpGinContainsStrategy ∨ strategy = sexpGinContainsKeyStrategy then
    .ok (if anyFalse then .ginFalse else if allTrue && check.length == 1 then .ginTrue
      else .ginMaybe)
  else if strategy = sexpGinContainedStrategy then .ok .ginMaybe
  else .error ⟨.internalError, s!"sexp_gin_triconsistent: unknown strategy {strategy}"⟩

end PgSexp
