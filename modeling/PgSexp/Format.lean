import Mathlib.Data.Fintype.Basic
import Mathlib.Data.List.Basic

/-!
# The binary layout of an s-expression

A stored `sexp` is `[version] [symbol_count] [symbol_0 … symbol_{n-1}] [root_element]`, and
every element starts with a tag byte whose top three bits are its kind and whose bottom five
bits are a payload (`pg_sexp.h`).  `Elem` is the element layout with one constructor per
kind.  It keeps every field a reader decodes: the payload of a small integer, the zig-zag
word of an integer, the bits of a float, the symbol index, the bytes of a string, and for a
list its children, in the small format or in the large format with its stored structural
hash.  Varint widths, `payload_size` and SEntry offsets are functions of the children; the
SEntry type of a child is read off the child's tag byte, as `parse_list` and `sexp_cdr`
write it.
-/

namespace PgSexp

/-! ## Tags and SEntry types -/

/-- `SEXP_TAG_NIL` -/
def sexpTagNil : UInt8 := 0x00
/-- `SEXP_TAG_SMALLINT` -/
def sexpTagSmallint : UInt8 := 0x20
/-- `SEXP_TAG_INTEGER` -/
def sexpTagInteger : UInt8 := 0x40
/-- `SEXP_TAG_FLOAT` -/
def sexpTagFloat : UInt8 := 0x60
/-- `SEXP_TAG_SYMBOL_REF` -/
def sexpTagSymbolRef : UInt8 := 0x80
/-- `SEXP_TAG_SHORT_STRING` -/
def sexpTagShortString : UInt8 := 0xA0
/-- `SEXP_TAG_LONG_STRING` -/
def sexpTagLongString : UInt8 := 0xC0
/-- `SEXP_TAG_LIST` -/
def sexpTagList : UInt8 := 0xE0
/-- `SEXP_TAG_MASK`: the kind bits of a tag byte. -/
def sexpTagMask : UInt8 := 0xE0

/-- `SEXP_SMALL_LIST_MAX`: lists up to this count use the small format. -/
def sexpSmallListMax : Nat := 4
/-- `SEXP_SHORT_STRING_MAX` -/
def sexpShortStringMax : Nat := 31

/-- `SENTRY_TYPE_NIL` -/
def sentryTypeNil : UInt32 := (0 : UInt32) <<< 29
/-- `SENTRY_TYPE_INTEGER`, shared by small and full integers. -/
def sentryTypeInteger : UInt32 := (1 : UInt32) <<< 29
/-- `SENTRY_TYPE_FLOAT` -/
def sentryTypeFloat : UInt32 := (2 : UInt32) <<< 29
/-- `SENTRY_TYPE_SYMBOL` -/
def sentryTypeSymbol : UInt32 := (3 : UInt32) <<< 29
/-- `SENTRY_TYPE_STRING`, shared by short and long strings. -/
def sentryTypeString : UInt32 := (4 : UInt32) <<< 29
/-- `SENTRY_TYPE_LIST` -/
def sentryTypeList : UInt32 := (5 : UInt32) <<< 29

/-- `get_sentry_type_from_byte`: the SEntry type code of a tag byte. -/
def getSentryTypeFromByte (byte : UInt8) : UInt32 :=
  let tag := byte &&& sexpTagMask
  if tag = sexpTagNil then sentryTypeNil
  else if tag = sexpTagSmallint ∨ tag = sexpTagInteger then sentryTypeInteger
  else if tag = sexpTagFloat then sentryTypeFloat
  else if tag = sexpTagSymbolRef then sentryTypeSymbol
  else if tag = sexpTagShortString ∨ tag = sexpTagLongString then sentryTypeString
  else if tag = sexpTagList then sentryTypeList
  else sentryTypeNil

/-! ## Integer payloads -/

/-- `SEXP_SMALLINT_BIAS` -/
def sexpSmallintBias : Nat := 16

/-- The int64 a small integer stands for, `(int)(byte & SEXP_DATA_MASK) - SEXP_SMALLINT_BIAS`,
as two's-complement bits. -/
def smallintValue (p : Fin 32) : UInt64 := UInt64.ofNat p.val - UInt64.ofNat sexpSmallintBias

/-- `zigzag_decode`, on the two's-complement bits of the int64. -/
def zigzagDecode (v : UInt64) : UInt64 := (v >>> 1) ^^^ (0 - (v &&& 1))

/-- `zigzag_encode`: `(n << 1) ^ (n >> 63)` with an arithmetic right shift. -/
def zigzagEncode (n : UInt64) : UInt64 :=
  (n <<< 1) ^^^ (if n >>> 63 = 1 then ~~~0 else 0)

/-! ## Elements -/

/-- One element of the binary format, by its tag. -/
inductive Elem where
  /-- `SEXP_TAG_NIL`: the empty list. -/
  | nil
  /-- `SEXP_TAG_SMALLINT`: the value plus `SEXP_SMALLINT_BIAS` in the payload bits. -/
  | smallInt (payload : Fin 32)
  /-- `SEXP_TAG_INTEGER`: the zig-zag encoded 64-bit value, written as a varint. -/
  | integer (zigzag : UInt64)
  /-- `SEXP_TAG_FLOAT`: the eight bytes of an IEEE-754 binary64. -/
  | float (bits : UInt64)
  /-- `SEXP_TAG_SYMBOL_REF`: an index into the value's own symbol table. -/
  | symbolRef (index : Nat)
  /-- `SEXP_TAG_SHORT_STRING`: the length is the payload. -/
  | shortString (bytes : List UInt8)
  /-- `SEXP_TAG_LONG_STRING`: a varint length, then the bytes. -/
  | longString (bytes : List UInt8)
  /-- A small list: `[tag|count] [payload_size] [element_0 …]`. -/
  | smallList (children : List Elem)
  /-- A large list: `[tag] [count:u32] [structural_hash:u32] [SEntry × count] [element_0 …]`. -/
  | largeList (hash : UInt32) (children : List Elem)
  deriving Repr

namespace Elem

mutual
/-- Structural equality of elements (byte equality of their encodings). -/
def beq : Elem → Elem → Bool
  | .nil, .nil => true
  | .smallInt p, .smallInt q => p == q
  | .integer u, .integer v => u == v
  | .float x, .float y => x == y
  | .symbolRef i, .symbolRef j => i == j
  | .shortString s, .shortString t => s == t
  | .longString s, .longString t => s == t
  | .smallList cs, .smallList ds => beqList cs ds
  | .largeList h cs, .largeList g ds => h == g && beqList cs ds
  | _, _ => false
/-- `beq` on lists of children. -/
def beqList : List Elem → List Elem → Bool
  | [], [] => true
  | c :: cs, d :: ds => beq c d && beqList cs ds
  | _, _ => false
end

mutual
theorem beq_self : ∀ a : Elem, a.beq a = true
  | .nil => rfl
  | .smallInt p => beq_self_eq_true p
  | .integer u => beq_self_eq_true u
  | .float x => beq_self_eq_true x
  | .symbolRef i => beq_self_eq_true i
  | .shortString s => beq_self_eq_true s
  | .longString s => beq_self_eq_true s
  | .smallList cs => beqList_self cs
  | .largeList h cs => Bool.and_eq_true_iff.2 ⟨beq_self_eq_true h, beqList_self cs⟩
theorem beqList_self : ∀ as : List Elem, beqList as as = true
  | [] => rfl
  | a :: as => Bool.and_eq_true_iff.2 ⟨beq_self a, beqList_self as⟩
end

mutual
theorem eq_of_beq_true : ∀ a b : Elem, a.beq b = true → a = b
  | .smallList cs, b, equal => by
    cases b <;> first
      | exact absurd equal Bool.false_ne_true
      | exact congrArg smallList (eq_of_beqList_true cs _ equal)
  | .largeList _ cs, b, equal => by
    cases b <;> first
      | exact absurd equal Bool.false_ne_true
      | (have equal := Bool.and_eq_true_iff.1 equal
         rw [eq_of_beq equal.1, eq_of_beqList_true cs _ equal.2])
  | .nil, b, equal | .smallInt _, b, equal | .integer _, b, equal | .float _, b, equal
  | .symbolRef _, b, equal | .shortString _, b, equal | .longString _, b, equal => by
    cases b <;> first
      | exact absurd equal Bool.false_ne_true
      | rfl
      | exact congrArg _ (eq_of_beq equal)
theorem eq_of_beqList_true : ∀ as bs : List Elem, beqList as bs = true → as = bs
  | [], [], _ => rfl
  | a :: as, b :: bs, equal =>
    have equal := Bool.and_eq_true_iff.1 equal
    congrArg₂ List.cons (eq_of_beq_true a b equal.1) (eq_of_beqList_true as bs equal.2)
  | [], _ :: _, equal | _ :: _, [], equal => absurd equal Bool.false_ne_true
end

theorem beq_iff (a b : Elem) : a.beq b = true ↔ a = b :=
  ⟨eq_of_beq_true a b, fun equal => equal ▸ beq_self a⟩

instance : DecidableEq Elem := fun a b => decidable_of_iff _ (beq_iff a b)

/-- The kind bits of the tag byte (`byte & SEXP_TAG_MASK`). -/
def tag : Elem → UInt8
  | .nil => sexpTagNil
  | .smallInt _ => sexpTagSmallint
  | .integer _ => sexpTagInteger
  | .float _ => sexpTagFloat
  | .symbolRef _ => sexpTagSymbolRef
  | .shortString _ => sexpTagShortString
  | .longString _ => sexpTagLongString
  | .smallList _ => sexpTagList
  | .largeList _ _ => sexpTagList

/-- The payload bits of the tag byte: the biased small integer, the short-string length
or the small-list count; zero for the other kinds. -/
def payload : Elem → Fin 32
  | .smallInt p => p
  | .shortString s => ⟨s.length % 32, Nat.mod_lt _ (by decide)⟩
  | .smallList cs => ⟨cs.length % 32, Nat.mod_lt _ (by decide)⟩
  | _ => 0

/-- The tag byte the element starts with. -/
def tagByte (e : Elem) : UInt8 := e.tag ||| UInt8.ofNat e.payload.val

/-- The SEntry type a list entry records for this element. -/
def stype (e : Elem) : UInt32 := getSentryTypeFromByte e.tagByte

/-- Whether the element is a list, in either format. -/
def isList : Elem → Bool
  | .smallList _ => true
  | .largeList _ _ => true
  | _ => false

/-- The children of a list, in either format; none for an atom. -/
def children : Elem → List Elem
  | .smallList cs => cs
  | .largeList _ cs => cs
  | _ => []

end Elem

/-- A stored value: its symbol table and its root element.  The version byte, which every
value the extension builds sets to `SEXP_FORMAT_VERSION`, is not kept. -/
structure Sexp where
  symbols : List (List UInt8)
  root : Elem
  deriving DecidableEq, Repr

/-- The SQLSTATEs the extension raises. -/
inductive ErrCode where
  | datatypeMismatch
  | invalidTextRepresentation
  | programLimitExceeded
  | dataCorrupted
  /-- `elog(ERROR, …)` -/
  | internalError
  deriving DecidableEq, Repr

/-- An `ereport(ERROR, …)`: its SQLSTATE and its message. -/
structure SqlError where
  code : ErrCode
  message : String
  deriving DecidableEq, Repr

/-! ## Tag bytes

The readers test the kind with `byte & SEXP_TAG_MASK` and sometimes compare whole tag
bytes; both are functions of `Elem.tag` and `Elem.payload`. -/

namespace Elem

@[simp]
theorem tagByte_and_tagMask (e : Elem) : e.tagByte &&& sexpTagMask = e.tag := by
  unfold tagByte
  generalize e.payload = p
  cases e <;> simp only [tag] <;> revert p <;> decide

theorem tag_eq_of_tagByte_eq {a b : Elem} (equal : a.tagByte = b.tagByte) : a.tag = b.tag := by
  rw [← tagByte_and_tagMask a, equal, tagByte_and_tagMask]

/-- The SEntry type depends on the kind bits only. -/
theorem stype_eq_getSentryTypeFromByte_tag (e : Elem) : e.stype = getSentryTypeFromByte e.tag := by
  have maskTwice : e.tagByte &&& sexpTagMask &&& sexpTagMask = e.tagByte &&& sexpTagMask := by
    apply UInt8.eq_of_toBitVec_eq
    change e.tagByte.toBitVec &&& sexpTagMask.toBitVec &&& sexpTagMask.toBitVec =
      e.tagByte.toBitVec &&& sexpTagMask.toBitVec
    rw [BitVec.and_assoc, BitVec.and_self]
  simp only [stype, getSentryTypeFromByte, ← tagByte_and_tagMask, maskTwice]

theorem tag_eq_sexpTagList_iff (e : Elem) : e.tag = sexpTagList ↔ e.isList = true := by
  cases e <;> simp only [tag, isList] <;> decide

theorem stype_eq_sentryTypeList_iff (e : Elem) : e.stype = sentryTypeList ↔ e.isList = true := by
  rw [stype_eq_getSentryTypeFromByte_tag]
  cases e <;> simp only [tag, isList] <;> decide

end Elem

end PgSexp
