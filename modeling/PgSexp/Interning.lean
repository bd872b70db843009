import PgSexp.SymbolTable

/-!
# What `intern_symbol` keeps

The index table of the parser's symbol table is probed linearly from `hash & hash_mask`, its
size is a power of two, and it is doubled before a new symbol would make it half full.
`SexpSymbolTable.WellFormed` names what every table the parser builds satisfies: at most
`count` slots are taken, a taken slot holds the index of a symbol, and the hashes are stored
one per symbol.  Under it the step `(slot + 1) & hash_mask` goes round every slot, so each
probe loop meets an empty slot before its fuel runs out: `intern_symbol` always returns, with
an index whose entry is the symbol, and keeps every symbol it had.
-/

namespace PgSexp

namespace SexpSymbolTable

/-- The invariant of the symbol tables the parser builds. -/
structure WellFormed (tab : SexpSymbolTable) : Prop where
  sizePow : ∃ k, tab.hashSize = 2 ^ (k + 1)
  tableLength : tab.hashTable.length = tab.hashSize
  hashesLength : tab.hashes.length = tab.count
  halfFull : 2 * tab.count ≤ tab.hashSize
  occupied : tab.hashSize ≤ tab.count + tab.hashTable.count symtabHashEmpty
  entries : ∀ entry ∈ tab.hashTable, entry = symtabHashEmpty ∨ ∃ idx < tab.count, entry = idx

end SexpSymbolTable

open SexpSymbolTable

theorem wellFormed_initSymbolTable : initSymbolTable.WellFormed where
  sizePow := ⟨5, rfl⟩
  tableLength := List.length_replicate _ _
  hashesLength := rfl
  halfFull := Nat.zero_le _
  occupied := by simp [initSymbolTable, count]
  entries := fun _ mem => .inl (List.eq_of_mem_replicate mem)

/-- A well-formed table has an empty slot: at most half of its slots are taken. -/
theorem SexpSymbolTable.WellFormed.empty_mem {tab : SexpSymbolTable} (wf : tab.WellFormed) :
    symtabHashEmpty ∈ tab.hashTable := by
  obtain ⟨k, size⟩ := wf.sizePow
  have occupied := wf.occupied
  have half := wf.halfFull
  rw [size, Nat.pow_succ] at occupied half
  exact List.count_pos_iff.1 (by have := Nat.two_pow_pos k; omega)

/-! ## Probing -/

section Probe

variable {table : List Int} {k : Nat}

/-- A slot the probe reads inside the table holds what `getD` reads there. -/
theorem getD_eq_of_getElem? {slot : Nat} {entry : Int} (read : table[slot]? = some entry) :
    table.getD slot symtabHashEmpty = entry := by
  simp only [List.getD_eq_getElem?_getD, read, Option.getD_some]

/-- `& hash_mask` on a table of `2 ^ (k + 1)` slots is the remainder by its size. -/
theorem and_hashMask_eq_mod (x : Nat) : x &&& (2 ^ (k + 1) - 1) = x % 2 ^ (k + 1) :=
  Nat.and_pow_two_sub_one_eq_mod _ _

theorem and_hashMask_lt (x : Nat) : x &&& (2 ^ (k + 1) - 1) < 2 ^ (k + 1) := by
  rw [and_hashMask_eq_mod]
  exact Nat.mod_lt _ (Nat.two_pow_pos _)

/-- The slot `j` steps after the next one is `j + 1` steps after `slot`. -/
theorem nextSlot_add (slot j : Nat) :
    ((slot + 1 &&& 2 ^ (k + 1) - 1) + j) % 2 ^ (k + 1) = (slot + (j + 1)) % 2 ^ (k + 1) := by
  rw [and_hashMask_eq_mod, Nat.mod_add_mod, Nat.add_right_comm, Nat.add_assoc]

/-- `probeEmpty` from `slot` finds an empty slot when one lies fewer than `fuel` steps on. -/
theorem probeEmpty_eq_some (length : table.length = 2 ^ (k + 1)) :
    ∀ {fuel slot j : Nat}, slot < 2 ^ (k + 1) → j < fuel →
      table[(slot + j) % 2 ^ (k + 1)]? = some symtabHashEmpty →
      ∃ q, probeEmpty table (2 ^ (k + 1) - 1) fuel slot = some q ∧
        table[q]? = some symtabHashEmpty
  | 0, _, _, _, within, _ => absurd within (Nat.not_lt_zero _)
  | fuel + 1, slot, j, inRange, within, empty => by
    have here : table[slot]? = some (table.getD slot symtabHashEmpty) := by
      simp only [List.getD_eq_getElem?_getD, List.getElem?_eq_getElem (length ▸ inRange),
        Option.getD_some]
    rw [probeEmpty]
    split
    · rename_i hit
      exact ⟨slot, rfl, hit ▸ here⟩
    · rename_i taken
      cases j with
      | zero =>
        rw [Nat.add_zero, Nat.mod_eq_of_lt inRange] at empty
        exact absurd (getD_eq_of_getElem? empty) taken
      | succ j =>
        exact probeEmpty_eq_some length (and_hashMask_lt _) (Nat.lt_of_succ_lt_succ within)
          (by rwa [nextSlot_add])

/-- A table of `2 ^ (k + 1)` slots with an empty one: from any slot, the empty slot lies
fewer than `2 ^ (k + 1)` steps on. -/
theorem exists_empty_within (length : table.length = 2 ^ (k + 1))
    (hasEmpty : symtabHashEmpty ∈ table) {slot : Nat} (inRange : slot < 2 ^ (k + 1)) :
    ∃ j < 2 ^ (k + 1), table[(slot + j) % 2 ^ (k + 1)]? = some symtabHashEmpty := by
  obtain ⟨q, inTable, read⟩ := List.getElem_of_mem hasEmpty
  refine ⟨(q + 2 ^ (k + 1) - slot) % 2 ^ (k + 1), Nat.mod_lt _ (Nat.two_pow_pos _), ?_⟩
  have wraps : (slot + (q + 2 ^ (k + 1) - slot)) % 2 ^ (k + 1) = q := by
    rw [Nat.add_sub_cancel' (by omega), Nat.add_mod_right, Nat.mod_eq_of_lt (length ▸ inTable)]
  rw [Nat.add_mod_mod, wraps, List.getElem?_eq_getElem inTable, read]

end Probe

/-! ## The lookup loop -/

/-- What a stop of the lookup loop of `intern_symbol` says: the index of an entry holding the
symbol, or an empty slot. -/
def ProbeResult.Valid (tab : SexpSymbolTable) (sym : List UInt8) : ProbeResult → Prop
  | .found idx => tab.symbols[idx]? = some sym
  | .empty slot => tab.hashTable[slot]? = some symtabHashEmpty

section Lookup

variable {tab : SexpSymbolTable} {k : Nat}

/-- A taken slot of a well-formed table holds the index of a symbol. -/
theorem SexpSymbolTable.WellFormed.entry_of_taken (wf : tab.WellFormed) {slot : Nat} {entry : Int}
    (read : tab.hashTable[slot]? = some entry) (taken : entry ≠ symtabHashEmpty) :
    ∃ idx < tab.count, entry = idx :=
  (wf.entries entry (List.mem_iff_getElem?.2 ⟨slot, read⟩)).resolve_left taken

/-- The lookup loop from `slot` stops at the symbol or at an empty slot when an empty slot
lies fewer than `fuel` steps on. -/
theorem probeSymbol_eq_some (wf : tab.WellFormed) (size : tab.hashSize = 2 ^ (k + 1))
    (hash : UInt32) (sym : List UInt8) :
    ∀ {fuel slot j : Nat}, slot < 2 ^ (k + 1) → j < fuel →
      tab.hashTable[(slot + j) % 2 ^ (k + 1)]? = some symtabHashEmpty →
      ∃ r, probeSymbol tab hash sym fuel slot = some r ∧ r.Valid tab sym
  | 0, _, _, _, within, _ => absurd within (Nat.not_lt_zero _)
  | fuel + 1, slot, j, inRange, within, empty => by
    have here : tab.hashTable[slot]? = some (tab.hashTable.getD slot symtabHashEmpty) := by
      simp only [List.getD_eq_getElem?_getD,
        List.getElem?_eq_getElem (wf.tableLength ▸ size ▸ inRange), Option.getD_some]
    rw [probeSymbol]
    split
    · rename_i hit
      exact ⟨_, rfl, show tab.hashTable[slot]? = _ from hit ▸ here⟩
    · rename_i taken
      obtain ⟨idx, below, entry⟩ := wf.entry_of_taken here taken
      simp only [entry, Int.toNat_natCast]
      split
      · rename_i same
        refine ⟨_, rfl, ?_⟩
        simp only [Bool.and_eq_true, beq_iff_eq] at same
        rw [ProbeResult.Valid, ← same.2, List.getD_eq_getElem?_getD,
          List.getElem?_eq_getElem (by exact below), Option.getD_some]
      · cases j with
        | zero =>
          rw [Nat.add_zero, Nat.mod_eq_of_lt inRange] at empty
          exact absurd (getD_eq_of_getElem? empty) taken
        | succ j =>
          rw [hashMask, size]
          exact probeSymbol_eq_some wf size hash sym (and_hashMask_lt _)
            (Nat.lt_of_succ_lt_succ within) (by rwa [nextSlot_add])

/-- From the home slot of any hash, with the table's size as fuel, the lookup loop stops at the
symbol or at an empty slot. -/
theorem probeSymbol_home (wf : tab.WellFormed) (hash : UInt32) (sym : List UInt8) :
    ∃ r, probeSymbol tab hash sym tab.hashSize (hash.toNat &&& tab.hashMask) = some r ∧
      r.Valid tab sym := by
  obtain ⟨k, size⟩ := wf.sizePow
  obtain ⟨j, within, free⟩ :=
    exists_empty_within (wf.tableLength.trans size) wf.empty_mem (and_hashMask_lt hash.toNat)
  rw [hashMask, size]
  exact probeSymbol_eq_some wf size hash sym (and_hashMask_lt _) within free

end Lookup

/-! ## Taking an empty slot -/

section Place

variable {table : List Int} {slot : Nat}

theorem count_set_empty (empty : table[slot]? = some symtabHashEmpty) (idx : Nat) :
    (table.set slot idx).count symtabHashEmpty + 1 = table.count symtabHashEmpty := by
  obtain ⟨inTable, read⟩ := List.getElem?_eq_some_iff.1 empty
  have present : 0 < table.count symtabHashEmpty :=
    List.count_pos_iff.2 (List.mem_iff_getElem?.2 ⟨slot, empty⟩)
  have fresh : ((idx : Int) == symtabHashEmpty) = false := by
    simp only [symtabHashEmpty, beq_eq_false_iff_ne]
    omega
  rw [List.count_set _ _ _ _ inTable, read, beq_self_eq_true, fresh]
  simp only [if_true, Bool.false_eq_true, if_false]
  omega

theorem entries_set {bound : Nat}
    (entries : ∀ entry ∈ table, entry = symtabHashEmpty ∨ ∃ idx < bound, entry = idx) :
    ∀ entry ∈ table.set slot bound,
      entry = symtabHashEmpty ∨ ∃ idx < bound + 1, entry = idx := by
  intro entry mem
  rcases List.mem_or_eq_of_mem_set mem with old | rfl
  · rcases entries entry old with empty | ⟨idx, below, rfl⟩
    · exact .inl empty
    · exact .inr ⟨idx, Nat.lt_succ_of_lt below, rfl⟩
  · exact .inr ⟨bound, Nat.lt_succ_self _, rfl⟩

end Place

/-! ## Growing and inserting -/

/-- The rehash loop of `grow_symbol_hash_table` puts each stored hash's index in an empty slot
of the new table, which has room for all of them. -/
theorem rehashFrom_eq_some (k : Nat) : ∀ (hashes : List UInt32) (table : List Int) (i : Nat),
    table.length = 2 ^ (k + 1) → i + hashes.length < 2 ^ (k + 1) →
    2 ^ (k + 1) ≤ i + table.count symtabHashEmpty →
    (∀ entry ∈ table, entry = symtabHashEmpty ∨ ∃ idx < i, entry = idx) →
    ∃ table', rehashFrom (2 ^ (k + 1) - 1) (2 ^ (k + 1)) table i hashes = some table' ∧
      table'.length = 2 ^ (k + 1) ∧
      2 ^ (k + 1) ≤ i + hashes.length + table'.count symtabHashEmpty ∧
      ∀ entry ∈ table', entry = symtabHashEmpty ∨ ∃ idx < i + hashes.length, entry = idx
  | [], table, _, length, _, occupied, entries => ⟨table, rfl, length, occupied, entries⟩
  | hash :: hashes, table, i, length, room, occupied, entries => by
    rw [List.length_cons] at room
    have hasEmpty : symtabHashEmpty ∈ table := List.count_pos_iff.1 (by omega)
    obtain ⟨j, within, empty⟩ := exists_empty_within length hasEmpty (and_hashMask_lt hash.toNat)
    obtain ⟨slot, found, free⟩ := probeEmpty_eq_some length (and_hashMask_lt _) within empty
    have placed := count_set_empty free i
    obtain ⟨table', rest, length', occupied', entries'⟩ :=
      rehashFrom_eq_some k hashes (table.set slot i) (i + 1) (by rw [List.length_set, length])
        (by omega) (by omega) (entries_set entries)
    refine ⟨table', ?_, length', ?_, ?_⟩
    · rw [rehashFrom, found]
      exact rest
    · rw [List.length_cons]
      omega
    · rwa [List.length_cons, ← Nat.add_assoc, Nat.add_right_comm i]

/-- `grow_symbol_hash_table` doubles a well-formed table and keeps it well formed, with room
for one more symbol. -/
theorem growSymbolHashTable_eq_some {tab : SexpSymbolTable} (wf : tab.WellFormed) :
    ∃ grown, growSymbolHashTable tab = some grown ∧ grown.WellFormed ∧
      grown.symbols = tab.symbols ∧ 2 * grown.count < grown.hashSize := by
  obtain ⟨k, size⟩ := wf.sizePow
  have doubled : tab.hashSize * 2 = 2 ^ (k + 1 + 1) := by rw [size, ← Nat.pow_succ]
  have half : 2 * tab.symbols.length ≤ 2 ^ k * 2 := by
    have := wf.halfFull
    rwa [size, Nat.pow_succ] at this
  have hashes : tab.hashes.length = tab.symbols.length := wf.hashesLength
  have positive := Nat.two_pow_pos k
  obtain ⟨table, rehashed, length, occupied, entries⟩ :=
    rehashFrom_eq_some (k + 1) tab.hashes (List.replicate (2 ^ (k + 1 + 1)) symtabHashEmpty) 0
      (List.length_replicate _ _) (by rw [hashes, Nat.pow_succ, Nat.pow_succ]; omega)
      (by rw [List.count_replicate_self]; omega) (fun _ mem => .inl (List.eq_of_mem_replicate mem))
  rw [Nat.zero_add, hashes] at occupied entries
  have room : 2 * tab.symbols.length < tab.hashSize * 2 := by rw [size, Nat.pow_succ]; omega
  exact ⟨{ tab with hashSize := tab.hashSize * 2, hashTable := table },
    by rw [growSymbolHashTable, doubled, rehashed]; rfl, ⟨⟨k + 1, doubled⟩, length.trans doubled.symm,
      wf.hashesLength, Nat.le_of_lt room, doubled ▸ occupied, entries⟩, rfl, room⟩

/-- A new symbol taking the empty `slot` of a well-formed table with room for it. -/
theorem wellFormed_place {tab : SexpSymbolTable} (wf : tab.WellFormed)
    (room : 2 * tab.count < tab.hashSize) {slot : Nat}
    (empty : tab.hashTable[slot]? = some symtabHashEmpty) (hash : UInt32) (sym : List UInt8) :
    ({ tab with
        symbols := tab.symbols ++ [sym]
        hashes := tab.hashes ++ [hash]
        hashTable := tab.hashTable.set slot tab.count } : SexpSymbolTable).WellFormed := by
  obtain ⟨k, size⟩ := wf.sizePow
  have placed := count_set_empty empty tab.count
  have occupied := wf.occupied
  have hashes : tab.hashes.length = tab.symbols.length := wf.hashesLength
  simp only [count, size, Nat.pow_succ] at room occupied placed
  refine ⟨⟨k, size⟩, by rw [List.length_set, wf.tableLength], ?_, ?_, ?_, ?_⟩
  · simp only [count, List.length_append, List.length_singleton, hashes]
  · simp only [count, List.length_append, List.length_singleton, size, Nat.pow_succ]
    omega
  · simp only [count, List.length_append, List.length_singleton, size, Nat.pow_succ]
    omega
  · simpa only [count, List.length_append, List.length_singleton] using entries_set wf.entries

/-- Adding a symbol at an empty slot of a well-formed table, after growing it when it is half
full: the new table is well formed and holds the symbol at the old count. -/
theorem insertSymbol_eq_some {tab : SexpSymbolTable} (wf : tab.WellFormed) {slot : Nat}
    (empty : tab.hashTable[slot]? = some symtabHashEmpty) (hash : UInt32) (sym : List UInt8) :
    ∃ tab', insertSymbol tab hash sym slot = some (tab.count, tab') ∧ tab'.WellFormed ∧
      tab'.symbols = tab.symbols ++ [sym] := by
  unfold insertSymbol
  split
  · obtain ⟨grown, grew, wfGrown, symbols, room⟩ := growSymbolHashTable_eq_some wf
    obtain ⟨k, size⟩ := wfGrown.sizePow
    have length := wfGrown.tableLength.trans size
    obtain ⟨j, within, free⟩ :=
      exists_empty_within length wfGrown.empty_mem (and_hashMask_lt hash.toNat)
    obtain ⟨slot', found, free'⟩ := probeEmpty_eq_some length (and_hashMask_lt _) within free
    refine ⟨_, ?_, wellFormed_place wfGrown room free' hash sym, by rw [symbols]⟩
    simp only [grew, Option.bind_eq_bind, Option.some_bind, hashMask, size, found, Option.pure_def,
      count, symbols]
  · exact ⟨_, rfl, wellFormed_place wf (by omega) empty hash sym, rfl⟩

/-! ## Interning -/

/-- `intern_symbol` on a well-formed table returns: an index whose entry is the symbol, found
or new, and a well-formed table that keeps every symbol it had. -/
theorem internSymbol_eq_some (H : HashFns) {tab : SexpSymbolTable} (wf : tab.WellFormed)
    (sym : List UInt8) :
    ∃ idx tab', internSymbol H tab sym = some (idx, tab') ∧ tab'.WellFormed ∧
      tab'.symbols[idx]? = some sym ∧ tab.symbols <+: tab'.symbols := by
  obtain ⟨r, lookup, valid⟩ := probeSymbol_home wf (H.hashBytes sym) sym
  cases r with
  | found idx => exact ⟨idx, tab, by simp only [internSymbol, lookup], wf, valid, List.prefix_refl _⟩
  | empty slot =>
    obtain ⟨tab', inserted, wf', symbols⟩ := insertSymbol_eq_some wf valid (H.hashBytes sym) sym
    refine ⟨tab.count, tab', by simp only [internSymbol, lookup, inserted], wf', ?_, ?_⟩
    · rw [symbols]
      exact List.getElem?_concat_length _ _
    · rw [symbols]
      exact List.prefix_append _ _

end PgSexp
