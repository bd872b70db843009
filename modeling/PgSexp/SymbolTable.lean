import PgSexp.Hash

/-!
# The parser's symbol table

`intern_symbol` keeps the symbols in first-occurrence order in parallel arrays, with their
lengths and `hash_bytes` hashes, and finds them through an open-addressing table of
`hash_size` slots (a power of two, `SYMTAB_INITIAL_HASH_SIZE` at first) probed linearly from
`hash & hash_mask`.  Before a new symbol would make the table half full,
`grow_symbol_hash_table` doubles it and reinserts every index from its stored hash.  The
arrays' capacity and their reallocation do not change any result and are left out;
`lengths[i]` is the length of `symbols[i]`.

Each probe loop of the C code runs until it meets an empty slot.  Here it runs at most
`hash_size` steps, and a loop that meets no empty slot in a whole turn is reported as
`none`: the C loop would not end there.
-/

namespace PgSexp

/-- `SYMTAB_HASH_EMPTY` -/
def symtabHashEmpty : Int := -1

/-- `SYMTAB_INITIAL_HASH_SIZE` -/
def symtabInitialHashSize : Nat := 64

/-- `SexpSymbolTable`: the interned symbols with their hashes, and the index table. -/
structure SexpSymbolTable where
  symbols : List (List UInt8)
  hashes : List UInt32
  hashSize : Nat
  hashTable : List Int
  deriving DecidableEq, Repr

namespace SexpSymbolTable

/-- `hash_mask` -/
def hashMask (tab : SexpSymbolTable) : Nat := tab.hashSize - 1

/-- `count` -/
def count (tab : SexpSymbolTable) : Nat := tab.symbols.length

end SexpSymbolTable

/-- `init_symbol_table` -/
def initSymbolTable : SexpSymbolTable :=
  ⟨[], [], symtabInitialHashSize, List.replicate symtabInitialHashSize symtabHashEmpty⟩

/-- The first empty slot from `slot` on, stepping `(slot + 1) & mask`, within `fuel` probes. -/
def probeEmpty (table : List Int) (mask : Nat) : Nat → Nat → Option Nat
  | 0, _ => none
  | fuel + 1, slot =>
    if table.getD slot symtabHashEmpty = symtabHashEmpty then some slot
    else probeEmpty table mask fuel ((slot + 1) &&& mask)

/-- Where the lookup loop of `intern_symbol` stops: at an entry holding the symbol, or at an
empty slot. -/
inductive ProbeResult where
  | found (idx : Nat)
  | empty (slot : Nat)
  deriving DecidableEq, Repr

/-- The lookup loop of `intern_symbol`: an entry matches when its hash, its length and its
bytes are the symbol's. -/
def probeSymbol (tab : SexpSymbolTable) (hash : UInt32) (sym : List UInt8) :
    Nat → Nat → Option ProbeResult
  | 0, _ => none
  | fuel + 1, slot =>
    let idx := tab.hashTable.getD slot symtabHashEmpty
    if idx = symtabHashEmpty then some (.empty slot)
    else
      let stored := tab.symbols.getD idx.toNat []
      if tab.hashes.getD idx.toNat 0 == hash && stored.length == sym.length && stored == sym then
        some (.found idx.toNat)
      else probeSymbol tab hash sym fuel ((slot + 1) &&& tab.hashMask)

/-- The rehash loop of `grow_symbol_hash_table`: index `i` onwards, from its stored hash. -/
def rehashFrom (mask size : Nat) (table : List Int) (i : Nat) : List UInt32 → Option (List Int)
  | [] => some table
  | hash :: hashes =>
    match probeEmpty table mask size (hash.toNat &&& mask) with
    | some slot => rehashFrom mask size (table.set slot i) (i + 1) hashes
    | none => none

/-- `grow_symbol_hash_table` -/
def growSymbolHashTable (tab : SexpSymbolTable) : Option SexpSymbolTable :=
  let newSize := tab.hashSize * 2
  (rehashFrom (newSize - 1) newSize (List.replicate newSize symtabHashEmpty) 0 tab.hashes).map
    fun table => { tab with hashSize := newSize, hashTable := table }

/-- Adding a new symbol at `slot`, after growing the table when it is half full. -/
def insertSymbol (tab : SexpSymbolTable) (hash : UInt32) (sym : List UInt8) (slot : Nat) :
    Option (Nat × SexpSymbolTable) := do
  let (tab, slot) ←
    if tab.hashSize ≤ tab.count * 2 then do
      let tab ← growSymbolHashTable tab
      let slot ← probeEmpty tab.hashTable tab.hashMask tab.hashSize (hash.toNat &&& tab.hashMask)
      pure (tab, slot)
    else pure (tab, slot)
  pure (tab.count,
    { tab with
      symbols := tab.symbols ++ [sym]
      hashes := tab.hashes ++ [hash]
      hashTable := tab.hashTable.set slot tab.count })

/-- `intern_symbol`: the symbol's index, new or found, and the table after it. -/
def internSymbol (H : HashFns) (tab : SexpSymbolTable) (sym : List UInt8) :
    Option (Nat × SexpSymbolTable) :=
  let hash := H.hashBytes sym
  match probeSymbol tab hash sym tab.hashSize (hash.toNat &&& tab.hashMask) with
  | some (.found idx) => some (idx, tab)
  | some (.empty slot) => insertSymbol tab hash sym slot
  | none => none

end PgSexp
