import PgSexp.Layout

/-!
# Binary input

`sexp_recv` copies the bytes of the message after its cursor into the value as they are, and
checks nothing.  The readers trust what they find: `init_read_state_internal` checks only the
version byte, casts the symbol count to `int`, and records each symbol where its length says
it is, without comparing the length with what is left of the buffer.  The three bytes
`[6, 1, 100]` are accepted by both, although they are the bytes of no value `sexp_parse` or an
accessor writes, and the symbol they declare spans bytes 3 to 102 of a buffer of three.
-/

namespace PgSexp

/-- `sexp_recv`: the bytes of the message from its cursor on. -/
def sexpRecv (buf : List UInt8) (cursor : Nat) : List UInt8 := buf.drop cursor

/-- `SEXP_CHECK_VERSION`: a version above `SEXP_FORMAT_VERSION` is data corruption. -/
def sexpCheckVersion (version : UInt8) : Except SqlError Unit :=
  if sexpFormatVersion < version then
    .error ⟨.dataCorrupted,
      s!"sexp format version {version} not supported (max {sexpFormatVersion})"⟩
  else .ok ()

/-- The C cast `(int)` of a `uint64`: its low 32 bits, as two's complement. -/
def int32OfUInt64 (v : UInt64) : Int :=
  let low : Nat := v.toNat % 2 ^ 32
  if low < 2 ^ 31 then (low : Int) else (low : Int) - 2 ^ 32

/-- The symbol loop of `init_read_state_internal` from position `p`: each symbol's length, read
as a varint, and the position of its first byte; then the position after the last symbol. -/
def readSymbols (buf : List UInt8) (stop : Nat) : Nat → Nat → List (Nat × Int) × Nat
  | 0, p => ([], p)
  | count + 1, p =>
    let slen := decodeVarint buf stop p
    let later := readSymbols buf stop count (slen.2 + slen.1.toNat)
    ((slen.2, int32OfUInt64 slen.1) :: later.1, later.2)

/-- What `init_read_state_internal` leaves in a `SexpReadState`. -/
structure ReadState where
  /-- `end`: the length of the data. -/
  stop : Nat
  /-- `ptr`: where the root element is read from. -/
  ptr : Nat
  /-- `sym_count` -/
  symCount : Int
  /-- `symbols[i]` and `sym_lengths[i]`: where each symbol starts and its length. -/
  symbols : List (Nat × Int)
  deriving DecidableEq, Repr

/-- `init_read_state_internal` on the bytes of a value. -/
def initReadStateInternal (data : List UInt8) : Except SqlError ReadState := do
  sexpCheckVersion (data.getD 0 0)
  let symCount := decodeVarint data data.length 1
  let count := int32OfUInt64 symCount.1
  let table := if 0 < count then readSymbols data data.length count.toNat symCount.2
    else ([], symCount.2)
  pure ⟨data.length, table.2, count, table.1⟩

/-- Every value takes at least three bytes more than it has symbols: its version, its
symbol count, a byte at least for each symbol's length, and its root element. -/
theorem Sexp.symbols_add_three_le (v : Sexp) : v.symbols.length + 3 ≤ v.bytes.length := by
  have symbolBytes : ∀ syms : List (List UInt8), syms.length ≤
      (syms.flatMap fun s => encodeVarint (UInt64.ofNat s.length) ++ s).length := by
    intro syms
    induction syms with
    | nil => exact Nat.le_refl 0
    | cons s syms more =>
      rw [List.flatMap_cons, List.length_append, List.length_append, List.length_cons]
      have := length_encodeVarint_pos (UInt64.ofNat s.length)
      omega
  have count := length_encodeVarint_pos (UInt64.ofNat v.symbols.length)
  have root := v.root.length_encode_pos
  have symbols := symbolBytes v.symbols
  simp only [Sexp.bytes, List.length_cons, List.length_append]
  omega

/-- `[6, 1, 100]` sent to `sexp_recv`: it is stored with no error, `init_read_state_internal`
reads it with no error and puts its one symbol at bytes 3 to 102 of the three, and no value
has these bytes. -/
theorem sexpRecv_accepts_symbol_past_end :
    sexpRecv [6, 1, 100] 0 = [6, 1, 100] ∧
      initReadStateInternal [6, 1, 100] = .ok ⟨3, 103, 1, [(3, 100)]⟩ ∧
      ∀ v : Sexp, v.bytes ≠ [6, 1, 100] := by
  refine ⟨rfl, rfl, fun v written => ?_⟩
  have fits := v.symbols_add_three_le
  rw [written] at fits
  obtain ⟨symbols, root⟩ := v
  cases symbols with
  | nil => exact absurd (congrArg (·.getD 1 0) written : (0 : UInt8) = 1) (by decide)
  | cons _ _ =>
    simp only [List.length_cons, List.length_nil] at fits
    omega

end PgSexp
