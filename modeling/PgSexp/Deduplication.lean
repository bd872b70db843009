import PgSexp.Parsed
import Mathlib.Data.List.GetD

/-!
# One index per symbol

`intern_symbol` finds a symbol it already holds by probing linearly from the symbol's home
slot `hash & hash_mask`, and stops at the first empty slot.  That finds every held symbol as
long as each index sits after a run of taken slots from its home (`Reachable`): a new index
is placed at the first empty slot of its run, `grow_symbol_hash_table` reinserts the indices
in order into an empty table, and no slot is ever emptied.  `SexpSymbolTable.Interned` adds
this, with stored hashes that are the symbols' `hash_bytes` and no symbol held twice, to
`SexpSymbolTable.WellFormed`, and `intern_symbol` keeps it.

Under it `intern_symbol` computes what the spec asks of a symbol table, `internList`: the
index of a held symbol, or a new index at the end for a new one.  Interning any sequence of
strings from `init_symbol_table` therefore gives each string the position of its first
occurrence among the distinct strings, and `sexp_parse` emits a table without duplicates.
-/

namespace PgSexp

open SexpSymbolTable

/-! ## Runs of taken slots -/

/-- Index `idx`, stored with `hash`, lies `d` slots after its home slot `hash % size`, and
every slot before it on the way is taken. -/
def Reachable (table : List Int) (size : Nat) (hash : UInt32) (idx : Nat) : Prop :=
  ∃ d < size, table.getD ((hash.toNat % size + d) % size) symtabHashEmpty = idx ∧
    ∀ d' < d, table.getD ((hash.toNat % size + d') % size) symtabHashEmpty ≠ symtabHashEmpty

section Runs

variable {table : List Int} {k : Nat}

theorem natCast_ne_symtabHashEmpty (idx : Nat) : (idx : Int) ≠ symtabHashEmpty := by
  simp only [symtabHashEmpty]
  omega

/-- The probe step from a slot taken modulo the size. -/
theorem nextSlot_mod (x : Nat) :
    (x % 2 ^ (k + 1) + 1 &&& 2 ^ (k + 1) - 1) = (x + 1) % 2 ^ (k + 1) := by
  rw [and_hashMask_eq_mod, Nat.mod_add_mod]

/-- The slot `probeEmpty` returns is the first empty one from where it starts. -/
theorem probeEmpty_first : ∀ {fuel slot q : Nat}, slot < 2 ^ (k + 1) →
    probeEmpty table (2 ^ (k + 1) - 1) fuel slot = some q →
    ∃ d < fuel, q = (slot + d) % 2 ^ (k + 1) ∧
      table.getD q symtabHashEmpty = symtabHashEmpty ∧
      ∀ d' < d, table.getD ((slot + d') % 2 ^ (k + 1)) symtabHashEmpty ≠ symtabHashEmpty
  | 0, _, _, _, probe => nomatch probe
  | fuel + 1, slot, q, inRange, probe => by
    rw [probeEmpty] at probe
    split at probe
    · rename_i empty
      cases probe
      exact ⟨0, Nat.succ_pos _, by rw [Nat.add_zero, Nat.mod_eq_of_lt inRange], empty,
        fun _ below => absurd below (Nat.not_lt_zero _)⟩
    · rename_i taken
      obtain ⟨d, within, rfl, empty, before⟩ := probeEmpty_first (and_hashMask_lt _) probe
      refine ⟨d + 1, Nat.succ_lt_succ within, nextSlot_add slot d, empty, fun d' below => ?_⟩
      cases d' with
      | zero => rwa [Nat.add_zero, Nat.mod_eq_of_lt inRange]
      | succ d' =>
        rw [← nextSlot_add]
        exact before d' (Nat.lt_of_succ_lt_succ below)

/-- A slot that is taken is not the empty slot being filled, so filling leaves it as it was. -/
theorem getD_set_of_taken {q x : Nat} (empty : table.getD q symtabHashEmpty = symtabHashEmpty)
    (taken : table.getD x symtabHashEmpty ≠ symtabHashEmpty) (n : Int) :
    (table.set q n).getD x symtabHashEmpty = table.getD x symtabHashEmpty := by
  have different : q ≠ x := fun same => taken (same ▸ empty)
  simp only [List.getD_eq_getElem?_getD, List.getElem?_set_ne different]

/-- Filling an empty slot keeps every index reachable. -/
theorem Reachable.set {size : Nat} {hash : UInt32} {idx q : Nat}
    (reach : Reachable table size hash idx)
    (empty : table.getD q symtabHashEmpty = symtabHashEmpty) (n : Int) :
    Reachable (table.set q n) size hash idx := by
  obtain ⟨d, within, atIdx, before⟩ := reach
  refine ⟨d, within, ?_, fun d' below => ?_⟩
  · rw [getD_set_of_taken empty (atIdx ▸ natCast_ne_symtabHashEmpty idx), atIdx]
  · rw [getD_set_of_taken empty (before d' below)]
    exact before d' below

/-- An index put in the first empty slot of its run is reachable. -/
theorem reachable_set_first {size d : Nat} {hash : UInt32}
    (inTable : (hash.toNat % size + d) % size < table.length) (within : d < size)
    (empty : table.getD ((hash.toNat % size + d) % size) symtabHashEmpty = symtabHashEmpty)
    (before : ∀ d' < d,
      table.getD ((hash.toNat % size + d') % size) symtabHashEmpty ≠ symtabHashEmpty)
    (n : Nat) :
    Reachable (table.set ((hash.toNat % size + d) % size) n) size hash n := by
  refine ⟨d, within, ?_, fun d' below => ?_⟩
  · simp only [List.getD_eq_getElem?_getD, List.getElem?_set_self inTable, Option.getD_some]
  · rw [getD_set_of_taken empty (before d' below)]
    exact before d' below

/-- The rehash loop of `grow_symbol_hash_table` leaves every index it reinserted, and every
index already there, reachable from its stored hash. -/
theorem reachable_rehashFrom : ∀ (hashes pre : List UInt32) (table table' : List Int),
    table.length = 2 ^ (k + 1) →
    rehashFrom (2 ^ (k + 1) - 1) (2 ^ (k + 1)) table pre.length hashes = some table' →
    (∀ j < pre.length, Reachable table (2 ^ (k + 1)) (pre.getD j 0) j) →
    ∀ j < pre.length + hashes.length,
      Reachable table' (2 ^ (k + 1)) ((pre ++ hashes).getD j 0) j
  | [], pre, table, table', _, rehashed, reach => by
    cases rehashed
    simpa only [List.append_nil, List.length_nil, Nat.add_zero] using reach
  | hash :: hashes, pre, table, table', length, rehashed, reach => by
    rw [rehashFrom] at rehashed
    split at rehashed
    · rename_i slot found
      have home := and_hashMask_eq_mod (k := k) hash.toNat
      rw [home] at found
      obtain ⟨d, within, rfl, empty, before⟩ :=
        probeEmpty_first (Nat.mod_lt _ (Nat.two_pow_pos _)) found
      have inTable : (hash.toNat % 2 ^ (k + 1) + d) % 2 ^ (k + 1) < table.length := by
        rw [length]
        exact Nat.mod_lt _ (Nat.two_pow_pos _)
      have next := reachable_rehashFrom hashes (pre ++ [hash])
        (table.set ((hash.toNat % 2 ^ (k + 1) + d) % 2 ^ (k + 1)) pre.length) table'
        (by rw [List.length_set, length]) (by rwa [List.length_append, List.length_singleton])
        fun j below => by
          rw [List.length_append, List.length_singleton] at below
          rcases Nat.lt_succ_iff_lt_or_eq.1 below with old | rfl
          · rw [List.getD_append _ _ _ _ old]
            exact (reach j old).set empty _
          · rw [List.getD_append_right _ _ _ _ (Nat.le_refl _), Nat.sub_self]
            exact reachable_set_first inTable within empty before pre.length
      simpa only [List.append_assoc, List.singleton_append, List.length_append,
        List.length_singleton, List.length_cons, Nat.add_assoc, Nat.add_comm 1,
        List.length_nil, Nat.zero_add] using next
    · cases rehashed

end Runs

/-! ## The invariant -/

/-- What the lookup loop of `intern_symbol` relies on, on top of `WellFormed`: each stored
hash is its symbol's `hash_bytes`, no symbol is held twice, and each index is reachable from
its home slot. -/
structure SexpSymbolTable.Interned (H : HashFns) (tab : SexpSymbolTable) : Prop where
  wellFormed : tab.WellFormed
  hashes : tab.hashes = tab.symbols.map H.hashBytes
  nodup : tab.symbols.Nodup
  reachable : ∀ idx < tab.count, Reachable tab.hashTable tab.hashSize (tab.hashes.getD idx 0) idx

theorem interned_initSymbolTable (H : HashFns) : initSymbolTable.Interned H :=
  ⟨wellFormed_initSymbolTable, rfl, List.nodup_nil, fun _ below => absurd below (Nat.not_lt_zero _)⟩

section Lookup

variable {H : HashFns} {tab : SexpSymbolTable} {k : Nat}

/-- A taken slot of a well-formed table holds the index of a symbol, read through `getD`. -/
theorem SexpSymbolTable.WellFormed.getD_of_taken (wf : tab.WellFormed) {slot : Nat}
    (taken : tab.hashTable.getD slot symtabHashEmpty ≠ symtabHashEmpty) :
    ∃ idx < tab.count, tab.hashTable.getD slot symtabHashEmpty = idx := by
  rw [List.getD_eq_getElem?_getD] at taken ⊢
  cases read : tab.hashTable[slot]? with
  | none => exact absurd (by rw [read]; rfl) taken
  | some entry =>
    obtain ⟨idx, below, rfl⟩ := wf.entry_of_taken read (by rwa [read] at taken)
    exact ⟨idx, below, rfl⟩

/-- The stored hash of a held symbol is its `hash_bytes`. -/
theorem SexpSymbolTable.Interned.getD_hashes (inv : tab.Interned H) {idx : Nat}
    {sym : List UInt8} (held : tab.symbols[idx]? = some sym) :
    tab.hashes.getD idx 0 = H.hashBytes sym := by
  simp only [inv.hashes, List.getD_eq_getElem?_getD, List.getElem?_map, held, Option.map_some',
    Option.getD_some]

/-- The empty slot where the lookup loop stops is the first empty one from where it starts. -/
theorem probeSymbol_empty_first (size : tab.hashSize = 2 ^ (k + 1)) (hash : UInt32)
    (sym : List UInt8) : ∀ {fuel slot q : Nat}, slot < 2 ^ (k + 1) →
    probeSymbol tab hash sym fuel slot = some (.empty q) →
    ∃ d < fuel, q = (slot + d) % 2 ^ (k + 1) ∧
      tab.hashTable.getD q symtabHashEmpty = symtabHashEmpty ∧
      ∀ d' < d, tab.hashTable.getD ((slot + d') % 2 ^ (k + 1)) symtabHashEmpty ≠ symtabHashEmpty
  | 0, _, _, _, probe => nomatch probe
  | fuel + 1, slot, q, inRange, probe => by
    rw [probeSymbol] at probe
    split at probe
    · rename_i empty
      cases probe
      exact ⟨0, Nat.succ_pos _, by rw [Nat.add_zero, Nat.mod_eq_of_lt inRange], empty,
        fun _ below => absurd below (Nat.not_lt_zero _)⟩
    · rename_i taken
      dsimp only at probe
      split at probe
      · cases probe
      · rw [hashMask, size] at probe
        obtain ⟨d, within, rfl, empty, before⟩ :=
          probeSymbol_empty_first size hash sym (and_hashMask_lt _) probe
        refine ⟨d + 1, Nat.succ_lt_succ within, nextSlot_add slot d, empty, fun d' below => ?_⟩
        cases d' with
        | zero => rwa [Nat.add_zero, Nat.mod_eq_of_lt inRange]
        | succ d' =>
          rw [← nextSlot_add]
          exact before d' (Nat.lt_of_succ_lt_succ below)

/-- The lookup loop walks the run of taken slots from a held symbol's home to its index: it
stops there, or earlier at the same index, the only one that holds the symbol. -/
theorem probeSymbol_reaches (inv : tab.Interned H) (size : tab.hashSize = 2 ^ (k + 1))
    {idx d : Nat} {sym : List UInt8} (held : tab.symbols[idx]? = some sym)
    (atIdx : tab.hashTable.getD (((H.hashBytes sym).toNat % 2 ^ (k + 1) + d) % 2 ^ (k + 1))
      symtabHashEmpty = idx)
    (before : ∀ d' < d, tab.hashTable.getD (((H.hashBytes sym).toNat % 2 ^ (k + 1) + d') %
      2 ^ (k + 1)) symtabHashEmpty ≠ symtabHashEmpty) :
    ∀ {fuel t : Nat}, t ≤ d → d < t + fuel →
      probeSymbol tab (H.hashBytes sym) sym fuel
        (((H.hashBytes sym).toNat % 2 ^ (k + 1) + t) % 2 ^ (k + 1)) = some (.found idx)
  | 0, _, _, within => absurd within (Nat.not_lt.2 (by omega))
  | fuel + 1, t, le, within => by
    rw [probeSymbol]
    split
    · rename_i empty
      rcases Nat.lt_or_eq_of_le le with lt | rfl
      · exact absurd empty (before t lt)
      · exact absurd (atIdx ▸ empty) (natCast_ne_symtabHashEmpty idx)
    · rename_i taken
      obtain ⟨idx', below, entry⟩ := inv.wellFormed.getD_of_taken taken
      simp only [entry, Int.toNat_natCast]
      have heldAt : tab.symbols[idx']? = some (tab.symbols.getD idx' []) := by
        rw [List.getD_eq_getElem?_getD, List.getElem?_eq_getElem below, Option.getD_some]
      split
      · rename_i same
        simp only [Bool.and_eq_true, beq_iff_eq] at same
        have sameIdx : idx' = idx := List.getElem?_inj below inv.nodup (by rw [heldAt, same.2, held])
        rw [sameIdx]
      · rename_i differ
        rcases Nat.lt_or_eq_of_le le with lt | rfl
        · rw [hashMask, size, nextSlot_mod, Nat.add_assoc]
          exact probeSymbol_reaches inv size held atIdx before lt (by omega)
        · obtain rfl : idx' = idx := Int.ofNat_inj.1 (entry.symm.trans atIdx)
          rw [held, Option.some_inj] at heldAt
          simp only [← heldAt, inv.getD_hashes held, beq_self_eq_true, Bool.and_self,
            not_true_eq_false] at differ

end Lookup

/-! ## Interning, as the spec states it -/

/-- The position of the first `sym` in `syms`, or `syms.length` when there is none. -/
def symbolIndex (syms : List (List UInt8)) (sym : List UInt8) : Nat :=
  syms.findIdx fun s => decide (s = sym)

/-- What interning does to the distinct symbols in order of first occurrence: a held symbol
keeps its position, a new one is appended. -/
def internList (syms : List (List UInt8)) (sym : List UInt8) : Nat × List (List UInt8) :=
  if sym ∈ syms then (symbolIndex syms sym, syms) else (syms.length, syms ++ [sym])

/-- In a list without duplicates the position of a held symbol is where it is held. -/
theorem symbolIndex_eq_of_nodup {syms : List (List UInt8)} (nodup : syms.Nodup) {idx : Nat}
    {sym : List UInt8} (held : syms[idx]? = some sym) : symbolIndex syms sym = idx := by
  unfold symbolIndex
  obtain ⟨below, atIdx⟩ := List.getElem?_eq_some_iff.1 held
  refine (List.findIdx_eq below).2 ⟨by simp only [atIdx, decide_True], fun j earlier => ?_⟩
  refine decide_eq_false fun same => Nat.ne_of_lt earlier ?_
  exact List.getElem?_inj (earlier.trans below) nodup (by
    rw [List.getElem?_eq_getElem (earlier.trans below), same, held])

section Insert

variable {H : HashFns} {tab : SexpSymbolTable} {k : Nat}

/-- A slot inside the table holds what `getD` reads there. -/
theorem getElem?_of_getD {table : List Int} {slot : Nat} (inTable : slot < table.length) :
    table[slot]? = some (table.getD slot symtabHashEmpty) := by
  rw [List.getD_eq_getElem?_getD, List.getElem?_eq_getElem inTable, Option.getD_some]

/-- A new symbol placed in the first empty slot of its run, in a table with room for it. -/
theorem interned_place (inv : tab.Interned H) (size : tab.hashSize = 2 ^ (k + 1))
    (room : 2 * tab.count < tab.hashSize) {sym : List UInt8} (fresh : sym ∉ tab.symbols)
    {d : Nat} (within : d < 2 ^ (k + 1))
    (empty : tab.hashTable.getD (((H.hashBytes sym).toNat % 2 ^ (k + 1) + d) % 2 ^ (k + 1))
      symtabHashEmpty = symtabHashEmpty)
    (before : ∀ d' < d, tab.hashTable.getD (((H.hashBytes sym).toNat % 2 ^ (k + 1) + d') %
      2 ^ (k + 1)) symtabHashEmpty ≠ symtabHashEmpty) :
    ({ tab with
        symbols := tab.symbols ++ [sym]
        hashes := tab.hashes ++ [H.hashBytes sym]
        hashTable := tab.hashTable.set
          (((H.hashBytes sym).toNat % 2 ^ (k + 1) + d) % 2 ^ (k + 1)) tab.count } :
      SexpSymbolTable).Interned H := by
  have inTable : ((H.hashBytes sym).toNat % 2 ^ (k + 1) + d) % 2 ^ (k + 1) <
      tab.hashTable.length := by
    rw [inv.wellFormed.tableLength, size]
    exact Nat.mod_lt _ (Nat.two_pow_pos _)
  have counted : tab.hashes.length = tab.symbols.length := inv.wellFormed.hashesLength
  refine ⟨wellFormed_place inv.wellFormed room (by rw [getElem?_of_getD inTable, empty]) _ sym,
    by rw [List.map_append, inv.hashes, List.map_singleton],
    inv.nodup.append (List.nodup_singleton sym) (List.disjoint_singleton.2 fresh),
    fun idx below => ?_⟩
  simp only [count, List.length_append, List.length_singleton] at below
  simp only [size]
  rcases Nat.lt_succ_iff_lt_or_eq.1 below with old | rfl
  · rw [List.getD_append _ _ _ _ (counted ▸ old)]
    exact (size ▸ inv.reachable idx old).set empty _
  · rw [List.getD_append_right _ _ _ _ (Nat.le_of_eq counted), counted, Nat.sub_self]
    exact reachable_set_first inTable within empty before _

/-- `grow_symbol_hash_table` keeps the invariant and leaves room for one more symbol. -/
theorem growSymbolHashTable_interned (inv : tab.Interned H) :
    ∃ grown, growSymbolHashTable tab = some grown ∧ grown.Interned H ∧
      grown.symbols = tab.symbols ∧ 2 * grown.count < grown.hashSize := by
  obtain ⟨grown, grew, wf', symbols, room⟩ := growSymbolHashTable_eq_some inv.wellFormed
  obtain ⟨k, size⟩ := inv.wellFormed.sizePow
  have doubled : tab.hashSize * 2 = 2 ^ (k + 1 + 1) := by rw [size, ← Nat.pow_succ]
  have shape := grew
  unfold growSymbolHashTable at shape
  rw [doubled, Option.map_eq_some'] at shape
  obtain ⟨table, rehashed, rfl⟩ := shape
  have reach := reachable_rehashFrom tab.hashes [] _ table (List.length_replicate _ _) rehashed
    fun _ below => absurd below (Nat.not_lt_zero _)
  refine ⟨_, grew, ⟨wf', inv.hashes, inv.nodup, fun idx below => ?_⟩, symbols, room⟩
  have stored : idx < tab.hashes.length := inv.wellFormed.hashesLength ▸ below
  simpa only [List.nil_append] using reach idx (by simpa only [List.length_nil, Nat.zero_add])

/-- From a symbol's home in a table with an empty slot, `probeEmpty` returns the first empty
slot of the symbol's run. -/
theorem probeEmpty_home {table : List Int} (length : table.length = 2 ^ (k + 1))
    (hasEmpty : symtabHashEmpty ∈ table) (hash : UInt32) :
    ∃ d < 2 ^ (k + 1), probeEmpty table (2 ^ (k + 1) - 1) (2 ^ (k + 1))
        (hash.toNat &&& 2 ^ (k + 1) - 1) = some ((hash.toNat % 2 ^ (k + 1) + d) % 2 ^ (k + 1)) ∧
      table.getD ((hash.toNat % 2 ^ (k + 1) + d) % 2 ^ (k + 1)) symtabHashEmpty = symtabHashEmpty ∧
      ∀ d' < d,
        table.getD ((hash.toNat % 2 ^ (k + 1) + d') % 2 ^ (k + 1)) symtabHashEmpty ≠ symtabHashEmpty := by
  obtain ⟨j, within, free⟩ := exists_empty_within length hasEmpty (and_hashMask_lt hash.toNat)
  obtain ⟨slot, found, -⟩ := probeEmpty_eq_some length (and_hashMask_lt _) within free
  rw [and_hashMask_eq_mod] at found
  obtain ⟨d, within, rfl, empty, before⟩ := probeEmpty_first (Nat.mod_lt _ (Nat.two_pow_pos _)) found
  exact ⟨d, within, by rw [and_hashMask_eq_mod]; exact found, empty, before⟩

/-- `intern_symbol` computes `internList` on the symbols it holds, and keeps the invariant. -/
theorem internSymbol_interned (inv : tab.Interned H) (sym : List UInt8) :
    ∃ tab', internSymbol H tab sym = some ((internList tab.symbols sym).1, tab') ∧
      tab'.symbols = (internList tab.symbols sym).2 ∧ tab'.Interned H := by
  obtain ⟨k, size⟩ := inv.wellFormed.sizePow
  have start : (H.hashBytes sym).toNat &&& tab.hashMask = (H.hashBytes sym).toNat % 2 ^ (k + 1) := by
    rw [hashMask, size, and_hashMask_eq_mod]
  by_cases held : sym ∈ tab.symbols
  · obtain ⟨idx, found⟩ := List.mem_iff_getElem?.1 held
    obtain ⟨d, within, atIdx, before⟩ := inv.reachable idx (List.getElem?_eq_some_iff.1 found).1
    rw [inv.getD_hashes found, size] at atIdx before
    have lookup : probeSymbol tab (H.hashBytes sym) sym tab.hashSize
        (((H.hashBytes sym).toNat % 2 ^ (k + 1) + 0) % 2 ^ (k + 1)) = some (.found idx) :=
      probeSymbol_reaches inv size found atIdx before (Nat.zero_le d) (by omega)
    rw [Nat.add_zero, Nat.mod_mod] at lookup
    refine ⟨tab, ?_, by rw [internList, if_pos held], inv⟩
    rw [internList, if_pos held, symbolIndex_eq_of_nodup inv.nodup found]
    simp only [internSymbol, start, lookup]
  · obtain ⟨r, lookup, valid⟩ := probeSymbol_home inv.wellFormed (H.hashBytes sym) sym
    rw [start] at lookup
    cases r with
    | found idx => exact absurd (List.mem_iff_getElem?.2 ⟨idx, valid⟩) held
    | empty slot =>
      obtain ⟨d, within, rfl, empty, before⟩ := probeSymbol_empty_first size (H.hashBytes sym)
        sym (Nat.mod_lt _ (Nat.two_pow_pos _)) lookup
      rw [internList, if_neg held]
      simp only [internSymbol, start, lookup]
      unfold insertSymbol
      split
      · obtain ⟨grown, grew, invGrown, symbols, room⟩ := growSymbolHashTable_interned inv
        obtain ⟨k', sizeGrown⟩ := invGrown.wellFormed.sizePow
        obtain ⟨d', within', found, empty', before'⟩ :=
          probeEmpty_home (invGrown.wellFormed.tableLength.trans sizeGrown)
            invGrown.wellFormed.empty_mem (H.hashBytes sym)
        refine ⟨_, ?_, by rw [symbols], interned_place invGrown sizeGrown room (symbols ▸ held)
          within' empty' before'⟩
        simp only [grew, Option.bind_eq_bind, Option.some_bind, hashMask, sizeGrown, found,
          Option.pure_def, count, symbols]
      · rename_i roomy
        exact ⟨_, rfl, rfl, interned_place inv size (by rw [count] at roomy ⊢; omega) held
          (size ▸ within) empty before⟩

end Insert

/-! ## Sequences of strings -/

/-- `intern_symbol` called on each string in turn, as `sexp_parse` calls it on the symbol
tokens it meets: the indices it returns and the table after the last call. -/
def internSymbols (H : HashFns) (tab : SexpSymbolTable) :
    List (List UInt8) → Option (List Nat × SexpSymbolTable)
  | [] => some ([], tab)
  | sym :: rest => do
    let (idx, tab) ← internSymbol H tab sym
    let (idxs, tab) ← internSymbols H tab rest
    pure (idx :: idxs, tab)

/-- `internList` on each string in turn. -/
def internListAll (syms : List (List UInt8)) : List (List UInt8) → List Nat × List (List UInt8)
  | [] => ([], syms)
  | sym :: rest =>
    ((internList syms sym).1 :: (internListAll (internList syms sym).2 rest).1,
      (internListAll (internList syms sym).2 rest).2)

/-- Interning a sequence of strings computes `internListAll`, and keeps the invariant. -/
theorem internSymbols_interned {H : HashFns} :
    ∀ (ss : List (List UInt8)) {tab : SexpSymbolTable}, tab.Interned H →
      ∃ tab', internSymbols H tab ss = some ((internListAll tab.symbols ss).1, tab') ∧
        tab'.symbols = (internListAll tab.symbols ss).2 ∧ tab'.Interned H
  | [], tab, inv => ⟨tab, rfl, rfl, inv⟩
  | sym :: rest, tab, inv => by
    obtain ⟨tab₁, interned, symbols₁, inv₁⟩ := internSymbol_interned inv sym
    obtain ⟨tab₂, run, symbols₂, inv₂⟩ := internSymbols_interned rest inv₁
    refine ⟨tab₂, ?_, by rw [symbols₂, symbols₁]; rfl, inv₂⟩
    simp only [internSymbols, interned, run, symbols₁, Option.bind_eq_bind, Option.some_bind,
      Option.pure_def]
    rfl

section Abstract

variable {syms : List (List UInt8)} {sym : List UInt8}

theorem internListAll_append (syms : List (List UInt8)) (ss : List (List UInt8))
    (sym : List UInt8) : internListAll syms (ss ++ [sym]) =
      ((internListAll syms ss).1 ++ [(internList (internListAll syms ss).2 sym).1],
        (internList (internListAll syms ss).2 sym).2) := by
  induction ss generalizing syms with
  | nil => rfl
  | cons s ss inductionHypothesis =>
    rw [List.cons_append, internListAll, internListAll, inductionHypothesis]
    rfl

/-- The position of a held symbol does not move when others are appended. -/
theorem symbolIndex_append_of_mem (held : sym ∈ syms) (more : List (List UInt8)) :
    symbolIndex (syms ++ more) sym = symbolIndex syms sym := by
  have inside : symbolIndex syms sym < syms.length :=
    List.findIdx_lt_length_of_exists ⟨sym, held, decide_eq_true rfl⟩
  unfold symbolIndex at inside ⊢
  rw [List.findIdx_append, if_pos inside]

theorem symbolIndex_of_not_mem (fresh : sym ∉ syms) : symbolIndex syms sym = syms.length :=
  List.findIdx_eq_length.2 fun s held => decide_eq_false fun (same : s = sym) => fresh (same ▸ held)

theorem symbolIndex_append_of_not_mem (fresh : sym ∉ syms) :
    symbolIndex (syms ++ [sym]) sym = syms.length := by
  have past : ¬ symbolIndex syms sym < syms.length := by
    rw [symbolIndex_of_not_mem fresh]
    exact Nat.lt_irrefl _
  unfold symbolIndex at past ⊢
  rw [List.findIdx_append, if_neg past]
  simp only [List.findIdx_cons, decide_True, cond_true, List.findIdx_nil, Nat.zero_add]

theorem nodup_internList (nodup : syms.Nodup) (sym : List UInt8) :
    (internList syms sym).2.Nodup := by
  unfold internList
  split
  · exact nodup
  · exact nodup.append (List.nodup_singleton sym) (List.disjoint_singleton.2 ‹_›)

theorem mem_internList (sym s : List UInt8) :
    s ∈ (internList syms sym).2 ↔ s ∈ syms ∨ s = sym := by
  unfold internList
  split
  · exact ⟨.inl, fun | .inl held => held | .inr rfl => ‹_›⟩
  · simp only [List.mem_append, List.mem_singleton]

/-- The index `internList` returns is the position of the symbol in the list it returns. -/
theorem internList_index (syms : List (List UInt8)) (sym : List UInt8) :
    (internList syms sym).1 = symbolIndex (internList syms sym).2 sym := by
  unfold internList
  split
  · rfl
  · exact (symbolIndex_append_of_not_mem ‹_›).symm

/-- What interning a sequence of strings from an empty table gives, as the spec states it:
the distinct strings, each held once, in order of first occurrence, and for each string the
position of its text among them. -/
theorem internListAll_nil (ss : List (List UInt8)) :
    (internListAll [] ss).2.Nodup ∧ (∀ s, s ∈ (internListAll [] ss).2 ↔ s ∈ ss) ∧
      (internListAll [] ss).1 = ss.map (symbolIndex (internListAll [] ss).2) ∧
      ∀ i j (hi : i < (internListAll [] ss).2.length) (hj : j < (internListAll [] ss).2.length),
        i < j → symbolIndex ss (internListAll [] ss).2[i] < symbolIndex ss (internListAll [] ss).2[j] := by
  induction ss using List.reverseRecOn with
  | nil => exact ⟨List.nodup_nil, fun _ => Iff.rfl, rfl, fun _ _ hi => absurd hi (Nat.not_lt_zero _)⟩
  | append_singleton ss sym inductionHypothesis =>
    obtain ⟨nodup, members, indices, ordered⟩ := inductionHypothesis
    rw [internListAll_append]
    generalize (internListAll [] ss) = run at nodup members indices ordered
    obtain ⟨idxs, final⟩ := run
    dsimp only at nodup members indices ordered ⊢
    have inSs : ∀ t ∈ final, symbolIndex (ss ++ [sym]) t = symbolIndex ss t := fun t held =>
      symbolIndex_append_of_mem ((members t).1 held) [sym]
    refine ⟨nodup_internList nodup sym, fun s => ?_, ?_, ?_⟩
    · rw [mem_internList, members, List.mem_append, List.mem_singleton]
    · rw [indices, List.map_append, List.map_singleton, ← internList_index]
      congr 1
      refine List.map_inj_left.2 fun t held => ?_
      unfold internList
      split
      · rfl
      · exact (symbolIndex_append_of_mem ((members t).2 held) [sym]).symm
    · unfold internList
      split
      · intro i j hi hj earlier
        rw [inSs _ (List.getElem_mem _), inSs _ (List.getElem_mem _)]
        exact ordered i j hi hj earlier
      · rename_i fresh
        intro i j hi hj earlier
        simp only [List.length_append, List.length_singleton] at hi hj
        rw [List.getElem_append_left (by omega), inSs _ (List.getElem_mem _)]
        rcases Nat.lt_succ_iff_lt_or_eq.1 hj with old | rfl
        · rw [List.getElem_append_left old, inSs _ (List.getElem_mem _)]
          exact ordered i j _ old earlier
        · have notInSs : sym ∉ ss := fun inSs => fresh ((members sym).2 inSs)
          rw [List.getElem_append_right (Nat.le_refl _)]
          simp only [Nat.sub_self, List.getElem_singleton]
          rw [symbolIndex_append_of_not_mem notInSs]
          exact List.findIdx_lt_length_of_exists
            ⟨_, (members _).1 (List.getElem_mem _), decide_eq_true rfl⟩

end Abstract

/-! ## The symbol tokens of a text

The tokens are read as the parser's own scanners read them: `skip_whitespace` between them,
the loop of `parse_string` over a string, and the bytes up to one that ends a token.  Each
parse function that succeeds has interned the symbol tokens of the text it read, in order,
and written the indices `intern_symbol` returned, so the symbol references of a parsed value,
in pre-order, are the interned symbol tokens of its text. -/

section Tokens

variable (H : HashFns)

mutual
theorem skipWhitespace_head : ∀ {r rest : List UInt8} {c : UInt8},
    skipWhitespace r = c :: rest → isSpace c = false ∧ c ≠ 59
  | [], _, _, skipped => nomatch skipped
  | b :: r, rest, c, skipped => by
    simp only [skipWhitespace] at skipped
    split_ifs at skipped with space comment
    · exact skipWhitespace_head skipped
    · exact skipComment_head skipped
    · obtain ⟨rfl, rfl⟩ := List.cons.inj skipped
      exact ⟨Bool.eq_false_iff.2 space, fun same => comment (beq_iff_eq.2 same)⟩
theorem skipComment_head : ∀ {r rest : List UInt8} {c : UInt8},
    skipComment r = c :: rest → isSpace c = false ∧ c ≠ 59
  | [], _, _, skipped => nomatch skipped
  | b :: r, rest, c, skipped => by
    simp only [skipComment] at skipped
    split_ifs at skipped
    · exact skipWhitespace_head skipped
    · exact skipComment_head skipped
end

theorem skipWhitespace_skipWhitespace (r : List UInt8) :
    skipWhitespace (skipWhitespace r) = skipWhitespace r := by
  cases skipped : skipWhitespace r with
  | nil => rfl
  | cons c rest =>
    obtain ⟨space, comment⟩ := skipWhitespace_head skipped
    exact skipWhitespace_cons space comment rest

/-- The symbol tokens of a text that starts at a byte that is not whitespace. -/
def symbolTokensFrom : List UInt8 → List (List UInt8)
  | [] => []
  | c :: rest =>
    if c = 40 ∨ c = 41 then symbolTokensFrom (skipWhitespace rest)
    else if c = 34 then
      match _body : parseStringBody [] rest with
      | .ok (_, after) => symbolTokensFrom (skipWhitespace after)
      | .error _ => []
    else
      let token := c :: rest.takeWhile fun b => !endsToken b
      (if isSymbolToken H token then [token] else []) ++
        symbolTokensFrom (skipWhitespace (rest.dropWhile fun b => !endsToken b))
termination_by r => r.length
decreasing_by
  all_goals simp only [List.length_cons]
  · exact Nat.lt_succ_of_le (length_skipWhitespace_le rest)
  · exact Nat.lt_succ_of_le ((length_skipWhitespace_le after).trans
      (Nat.le_of_lt (length_lt_of_parseStringBody _body)))
  · exact Nat.lt_succ_of_le ((length_skipWhitespace_le _).trans
      (List.dropWhile_suffix (fun b => !endsToken b)).length_le)

/-- The texts of the symbol tokens of a text, in order: the tokens `parse_number_or_symbol`
reads outside strings and comments, less `nil` and the numbers. -/
def symbolTokens (input : List UInt8) : List (List UInt8) :=
  symbolTokensFrom H (skipWhitespace input)

variable {H}

theorem symbolTokens_skipWhitespace (r : List UInt8) :
    symbolTokens H (skipWhitespace r) = symbolTokens H r := by
  rw [symbolTokens, symbolTokens, skipWhitespace_skipWhitespace]

theorem symbolTokens_of_nil {r : List UInt8} (skipped : skipWhitespace r = []) :
    symbolTokens H r = [] := by
  rw [symbolTokens, skipped, symbolTokensFrom]

theorem symbolTokens_of_paren {r rest : List UInt8} {c : UInt8} (skipped : skipWhitespace r = c :: rest)
    (paren : c = 40 ∨ c = 41) : symbolTokens H r = symbolTokens H rest := by
  rw [symbolTokens, skipped, symbolTokensFrom, if_pos paren, symbolTokens]

theorem symbolTokens_of_string {r rest str after : List UInt8}
    (skipped : skipWhitespace r = 34 :: rest) (body : parseStringBody [] rest = .ok (str, after)) :
    symbolTokens H r = symbolTokens H after := by
  rw [symbolTokens, skipped, symbolTokensFrom, if_neg (by decide), if_pos rfl]
  split
  · rename_i body'
    rw [body] at body'
    cases body'
    rfl
  · rename_i body'
    rw [body] at body'
    cases body'

/-- A token is read by the span `parse_number_or_symbol` reads. -/
theorem symbolTokens_of_span {r rest token after : List UInt8} (skipped : skipWhitespace r = rest)
    (split : rest.span (fun c => !endsToken c) = (token, after)) (nonempty : token ≠ []) :
    symbolTokens H r = (if isSymbolToken H token then [token] else []) ++ symbolTokens H after := by
  rw [List.span_eq_take_drop, Prod.mk.injEq] at split
  obtain ⟨rfl, rfl⟩ := split
  cases rest with
  | nil => exact absurd rfl nonempty
  | cons c rest =>
    have inside : endsToken c = false := Bool.eq_false_iff.2 fun ends => nonempty (by
      rw [List.takeWhile_cons_of_neg (by rw [ends]; decide)])
    obtain ⟨-, notOpen, notClose, notQuote, -⟩ := not_endsToken inside
    rw [List.takeWhile_cons_of_pos (by rw [inside]; rfl),
      List.dropWhile_cons_of_pos (by rw [inside]; rfl), symbolTokens, skipped, symbolTokensFrom,
      if_neg (not_or.2 ⟨notOpen, notClose⟩), if_neg notQuote]
    rfl

end Tokens

mutual
/-- The symbol indices an element references, in pre-order. -/
def Elem.symbolRefs : Elem → List Nat
  | .symbolRef i => [i]
  | .smallList cs | .largeList _ cs => Elem.symbolRefsList cs
  | _ => []
/-- The symbol indices a list of elements references, in order. -/
def Elem.symbolRefsList : List Elem → List Nat
  | [] => []
  | c :: cs => c.symbolRefs ++ Elem.symbolRefsList cs
end

theorem Elem.symbolRefs_listElement (cs : List Elem) (hash : UInt32) :
    (listElement cs hash).symbolRefs = Elem.symbolRefsList cs := by
  unfold listElement
  split <;> rfl

theorem Elem.symbolRefs_stringElement (str : List UInt8) : (stringElement str).symbolRefs = [] := by
  unfold stringElement
  split <;> rfl

theorem Elem.symbolRefs_of_parseNumber {H : HashFns} {token : List UInt8} {flags : TokenFlags}
    {e : Elem} {hash : UInt32} (number : parseNumber H token flags = some (e, hash)) :
    e.symbolRefs = [] := by
  rcases parseNumber_eq_some number with ⟨x, rfl, -⟩ | ⟨v, -, rfl, -⟩
  · rfl
  · unfold integerElement
    split <;> rfl

/-! ## What `sexp_parse` interns -/

section Parse

variable {H : HashFns}

theorem internSymbols_cons (tab : SexpSymbolTable) (t : List UInt8) (ts : List (List UInt8)) :
    internSymbols H tab (t :: ts) = (internSymbol H tab t).bind fun p =>
      (internSymbols H p.2 ts).bind fun q => some (p.1 :: q.1, q.2) :=
  rfl

/-- Interning two sequences one after the other interns the two together. -/
theorem internSymbols_append : ∀ {tab tab₁ tab₂ : SexpSymbolTable} (ts : List (List UInt8))
    {us : List (List UInt8)} {is js : List Nat}, internSymbols H tab ts = some (is, tab₁) →
      internSymbols H tab₁ us = some (js, tab₂) → internSymbols H tab (ts ++ us) = some (is ++ js, tab₂)
  | _, _, _, [], _, _, _, first, second => by
    cases first
    exact second
  | tab, _, _, t :: ts, _, _, _, first, second => by
    rw [internSymbols_cons] at first
    obtain ⟨⟨idx, tab'⟩, interned, rest⟩ := Option.bind_eq_some.1 first
    obtain ⟨⟨idxs, tab''⟩, run, same⟩ := Option.bind_eq_some.1 rest
    cases same
    rw [List.cons_append, internSymbols_cons, interned, Option.some_bind,
      internSymbols_append ts run second]
    rfl

variable (H)

/-- What a parse function did between two parse states: the text it read holds the symbol
tokens `tokens`, it interned them in order, and `refs` are the indices `intern_symbol`
returned. -/
def InternsTokens (st st' : SexpParseState) (refs : List Nat) : Prop :=
  ∃ tokens, symbolTokens H st.rest = tokens ++ symbolTokens H st'.rest ∧
    internSymbols H st.symtab tokens = some (refs, st'.symtab)

variable {H}

theorem InternsTokens.trans {st st₁ st₂ : SexpParseState} {refs refs' : List Nat}
    (first : InternsTokens H st st₁ refs) (next : InternsTokens H st₁ st₂ refs') :
    InternsTokens H st st₂ (refs ++ refs') := by
  obtain ⟨ts, texts, interned⟩ := first
  obtain ⟨us, texts', interned'⟩ := next
  exact ⟨ts ++ us, by rw [texts, texts', List.append_assoc], internSymbols_append ts interned interned'⟩

theorem internsTokens_of_same {st st' : SexpParseState}
    (texts : symbolTokens H st.rest = symbolTokens H st'.rest) (same : st'.symtab = st.symtab) :
    InternsTokens H st st' [] :=
  ⟨[], texts, by rw [same]; rfl⟩

mutual
/-- `sexp_parse_value_with_hash` interns the symbol tokens of the text of the value it reads,
in order, and writes the indices `intern_symbol` returns. -/
theorem parseValue_internsTokens : ∀ {fuel depth : Nat} {st st' : SexpParseState} {e : Elem}
    {hash : UInt32}, parseValue H fuel depth st = .ok (e, hash, st') →
      InternsTokens H st st' e.symbolRefs
  | 0, _, _, _, _, _, parsed => nomatch parsed
  | fuel + 1, depth, st, st', e, hash, parsed => by
    obtain ⟨rest, ⟨opening, list⟩ | ⟨quoting, string⟩ | ⟨same, -, -, token⟩⟩ :=
      parseValue_eq_ok parsed
    · obtain ⟨tokens, texts, interned⟩ := parseList_internsTokens list
      exact ⟨tokens, (symbolTokens_of_paren opening (.inl rfl)).trans texts, interned⟩
    · obtain ⟨str, rfl, -, symtab, body⟩ := parseString_eq_ok string
      rw [Elem.symbolRefs_stringElement]
      exact internsTokens_of_same (symbolTokens_of_string quoting body) symtab
    · obtain ⟨word, split, nonempty, ⟨rfl, -, symtab, notSymbol⟩ | ⟨number, symtab, notSymbol⟩ |
        ⟨idx, symbol, interned, rfl, -⟩⟩ := parseNumberOrSymbol_eq_ok token
      all_goals have texts := symbolTokens_of_span (H := H) same split nonempty
      · rw [notSymbol, if_neg Bool.false_ne_true, List.nil_append] at texts
        exact internsTokens_of_same texts symtab
      · rw [notSymbol, if_neg Bool.false_ne_true, List.nil_append] at texts
        rw [Elem.symbolRefs_of_parseNumber number]
        exact internsTokens_of_same texts symtab
      · rw [symbol, if_pos rfl] at texts
        exact ⟨[word], texts, by rw [internSymbols_cons, interned]; rfl⟩
termination_by structural fuel => fuel
/-- `parse_list` interns the symbol tokens of the list's text. -/
theorem parseList_internsTokens : ∀ {fuel depth : Nat} {st st' : SexpParseState} {e : Elem}
    {hash : UInt32}, parseList H fuel depth st = .ok (e, hash, st') →
      InternsTokens H st st' e.symbolRefs
  | 0, _, _, _, _, _, parsed => nomatch parsed
  | fuel + 1, depth, st, st', e, hash, parsed => by
    obtain ⟨-, ⟨⟨text, closing, rest⟩, rfl, -, symtab⟩ | ⟨children, -, loop, rfl, -⟩⟩ :=
      parseList_eq_ok parsed
    · exact internsTokens_of_same (by rw [symbolTokens_of_paren closing (.inr rfl), rest]) symtab
    · obtain ⟨new, rfl, tokens, texts, interned⟩ := parseElements_internsTokens loop
      rw [Elem.symbolRefs_listElement]
      exact ⟨tokens, (symbolTokens_skipWhitespace st.rest).symm.trans texts, interned⟩
termination_by structural fuel => fuel
/-- The child loop of `parse_list` interns the symbol tokens of the children it reads. -/
theorem parseElements_internsTokens : ∀ {fuel depth : Nat} {st st' : SexpParseState}
    {acc children : List (Elem × UInt32)}, parseElements H fuel depth st acc = .ok (children, st') →
      ∃ new, children = acc.reverse ++ new ∧
        InternsTokens H st st' (Elem.symbolRefsList (new.map (·.1)))
  | 0, _, _, _, _, _, parsed => nomatch parsed
  | fuel + 1, depth, st, st', acc, children, parsed => by
    rcases parseElements_eq_ok parsed with ⟨rest, closing, rfl, symtab, rest'⟩ |
      ⟨e, hash, st₁, -, value, loop⟩
    · refine ⟨[], (List.append_nil _).symm, internsTokens_of_same ?_ symtab⟩
      rw [closing, rest', symbolTokens_of_paren (skipWhitespace_cons (by decide) (by decide) rest)
        (.inr rfl)]
    · obtain ⟨new, rfl, next⟩ := parseElements_internsTokens loop
      refine ⟨(e, hash) :: new, by rw [List.reverse_cons, List.append_assoc, List.singleton_append], ?_⟩
      have skip : InternsTokens H st₁ { st₁ with rest := skipWhitespace st₁.rest } [] :=
        internsTokens_of_same (symbolTokens_skipWhitespace st₁.rest).symm rfl
      exact (parseValue_internsTokens value).trans (skip.trans next)
termination_by structural fuel => fuel
end

/-- The symbol references of a value `sexp_parse` returns, in pre-order, are the indices
`intern_symbol` returns for the symbol tokens of its text, interned in order into a table
from `init_symbol_table`, and the value's table is the table they leave. -/
theorem sexpParse_internSymbols {input : List UInt8} {w : Sexp} (parsed : sexpParse H input = .ok w) :
    ∃ tab, internSymbols H initSymbolTable (symbolTokens H input) = some (w.root.symbolRefs, tab) ∧
      w.symbols = tab.symbols := by
  unfold sexpParse at parsed
  split at parsed
  · rename_i empty
    cases parsed
    exact ⟨initSymbolTable, by rw [symbolTokens_of_nil empty]; rfl, rfl⟩
  · obtain ⟨⟨root, hash, st⟩, value, checked⟩ := bind_eq_ok parsed
    dsimp only at checked
    split at checked
    · rename_i trailing
      cases checked
      obtain ⟨tokens, texts, interned⟩ := parseValue_internsTokens value
      rw [symbolTokens_skipWhitespace, symbolTokens_of_nil trailing, List.append_nil] at texts
      exact ⟨st.symtab, by rw [texts]; exact interned, rfl⟩
    · cases checked

/-- `sexp_parse_value_with_hash` on a symbol token writes the index `internList` gives its
text. -/
theorem parseValue_symbol_interned {s rest : List UInt8} (token : isSymbolToken H s = true)
    (ends : endsAtom rest = true) {tab : SexpSymbolTable} (inv : tab.Interned H)
    (fuel depth : Nat) :
    ∃ tab', parseValue H (fuel + 1) depth ⟨s ++ rest, tab⟩ =
        .ok (.symbolRef (internList tab.symbols s).1, sexpHashStringWithTag H sexpTagSymbolRef s,
          ⟨rest, tab'⟩) ∧
      tab'.symbols = (internList tab.symbols s).2 ∧ tab'.Interned H := by
  obtain ⟨nonempty, inside, notNil, notNumber⟩ := (isSymbolToken_iff H).1 token
  obtain ⟨tab', interned, symbols, inv'⟩ := internSymbol_interned inv s
  refine ⟨tab', ?_, symbols, inv'⟩
  obtain ⟨c, t, rfl⟩ := List.exists_cons_of_ne_nil nonempty
  rw [List.cons_append, parseValue_token H (inside c (List.mem_cons_self c t)),
    ← List.cons_append]
  simp only [parseNumberOrSymbol, span_token inside ends, nonempty, notNil, if_false,
    notNumber, interned]

/-- `sexp_parse` on a text that starts with its value and has only whitespace after it. -/
theorem sexpParse_eq_ok {c : UInt8} {text : List UInt8} (space : isSpace c = false)
    (comment : c ≠ 59) {root : Elem} {hash : UInt32} {rest : List UInt8} {tab : SexpSymbolTable}
    (value : parseValue H (parseFuel (c :: text)) 0 ⟨c :: text, initSymbolTable⟩ =
      .ok (root, hash, ⟨rest, tab⟩))
    (trailing : skipWhitespace rest = []) : sexpParse H (c :: text) = .ok ⟨tab.symbols, root⟩ := by
  simp only [sexpParse, skipWhitespace_cons space comment, value, bind, Except.bind, trailing,
    if_true, pure, Except.pure]

end Parse

/-- Interning a sequence of strings into a table from `init_symbol_table` returns, through
every rehash, with each string's index the position of its text in the table it leaves. -/
theorem internSymbols_initSymbolTable_eq (H : HashFns) (ss : List (List UInt8)) :
    ∃ tab, internSymbols H initSymbolTable ss = some (ss.map (symbolIndex tab.symbols), tab) ∧
      tab.Interned H ∧ (∀ s, s ∈ tab.symbols ↔ s ∈ ss) ∧
      (∀ s ∈ ss, tab.symbols[symbolIndex tab.symbols s]? = some s) ∧
      ∀ i j (hi : i < tab.symbols.length) (hj : j < tab.symbols.length), i < j →
        symbolIndex ss tab.symbols[i] < symbolIndex ss tab.symbols[j] := by
  obtain ⟨tab, run, symbols, inv⟩ := internSymbols_interned ss (interned_initSymbolTable H)
  obtain ⟨nodup, members, indices, ordered⟩ := internListAll_nil ss
  rw [show initSymbolTable.symbols = [] from rfl] at run symbols
  rw [← symbols] at nodup members indices ordered
  refine ⟨tab, by rw [run, indices], inv, members, fun s held => ?_, ordered⟩
  have inside : symbolIndex tab.symbols s < tab.symbols.length :=
    List.findIdx_lt_length_of_exists ⟨s, (members s).2 held, decide_eq_true rfl⟩
  unfold symbolIndex at inside ⊢
  rw [List.getElem?_eq_getElem inside, of_decide_eq_true (List.findIdx_getElem (w := inside))]

/-- Interning any sequence of strings into a table from `init_symbol_table` returns, through
every rehash, and gives each string the position of its text in the final table.  The table
holds the distinct strings once each, in order of first occurrence, so two strings get the
same index exactly when they have the same bytes.  The table `sexp_parse` emits has no
duplicates, and each symbol reference of its value, in pre-order, reads the text of the
symbol token it was written for. -/
theorem internSymbols_initSymbolTable (H : HashFns) (ss : List (List UInt8)) :
    ∃ tab, internSymbols H initSymbolTable ss = some (ss.map (symbolIndex tab.symbols), tab) ∧
      tab.WellFormed ∧ tab.symbols.Nodup ∧ (∀ s, s ∈ tab.symbols ↔ s ∈ ss) ∧
      (∀ s ∈ ss, tab.symbols[symbolIndex tab.symbols s]? = some s) ∧
      (∀ s ∈ ss, ∀ t ∈ ss, symbolIndex tab.symbols s = symbolIndex tab.symbols t ↔ s = t) ∧
      (∀ i j (hi : i < tab.symbols.length) (hj : j < tab.symbols.length), i < j →
        symbolIndex ss tab.symbols[i] < symbolIndex ss tab.symbols[j]) ∧
      ∀ input w, sexpParse H input = .ok w → w.symbols.Nodup ∧
        w.root.symbolRefs.map (fun i => w.symbols[i]?) = (symbolTokens H input).map some := by
  obtain ⟨tab, run, inv, members, found, ordered⟩ := internSymbols_initSymbolTable_eq H ss
  refine ⟨tab, run, inv.wellFormed, inv.nodup, members, found,
    fun s held t held' => ⟨fun same => ?_, fun same => same ▸ rfl⟩, ordered, fun input w parsed => ?_⟩
  · rw [← Option.some_inj, ← found s held, ← found t held', same]
  · obtain ⟨emitted, interned, symbols⟩ := sexpParse_internSymbols parsed
    obtain ⟨tab', run', inv', -, found', -⟩ := internSymbols_initSymbolTable_eq H (symbolTokens H input)
    rw [run', Option.some_inj, Prod.mk.injEq] at interned
    obtain ⟨refs, rfl⟩ := interned
    rw [symbols, ← refs, List.map_map]
    exact ⟨inv'.nodup, List.map_congr_left fun s held => found' s held⟩

end PgSexp
