import PgSexp.Patterns

/-!
# Reachable values and `sexp_equal`

The values a session can hold are those `sexp_parse` returns and those `sexp_car`,
`sexp_cdr`, `sexp_nth` and `sexp_find_first` return from values it can hold
(`Sexp.Reachable`).  Each of them is in the form the parser writes, at some nesting
(`Elem.canonical`), and holds no NaN: `strtod` rounds a decimal to at most the bits of the
infinity, and the accessors only take subtrees or rebuild a list of children.

On such values `sexp_equal` and `sexp_equal_packed` decide equality of the decoded trees with
doubles compared by C's `==`.  Its byte fast path agrees because a value without NaN or
dangling reference decodes to a tree equal to itself, and its lockstep walk agrees because
the parser's form gives each integer and each string one encoding.
-/

namespace PgSexp

/-! ## `strtod` gives no NaN -/

section Doubles

/-- A binary64 whose bits, without the sign, are at most those of the infinity is no NaN. -/
theorem float8IsNaN_eq_false {x : UInt64} (bounded : x.toNat % 2 ^ 63 ≤ 2047 * 2 ^ 52) :
    float8IsNaN x = false := by
  have exponent : ((x >>> 52) &&& 0x7FF).toNat = x.toNat / 2 ^ 52 % 2 ^ 11 := by
    change (x.toBitVec >>> 52 &&& 0x7FF#64).toNat = _
    rw [BitVec.toNat_and, BitVec.toNat_ushiftRight, Nat.shiftRight_eq_div_pow]
    exact Nat.and_pow_two_sub_one_eq_mod _ 11
  have fraction : (x &&& 0xFFFFFFFFFFFFF).toNat = x.toNat % 2 ^ 52 := by
    change (x.toBitVec &&& 0xFFFFFFFFFFFFF#64).toNat = _
    rw [BitVec.toNat_and]
    exact Nat.and_pow_two_sub_one_eq_mod _ 52
  have notNaN : ¬ (x.toNat / 2 ^ 52 % 2 ^ 11 = 2047 ∧ x.toNat % 2 ^ 52 ≠ 0) := by omega
  simp only [float8IsNaN, Bool.and_eq_false_iff, beq_eq_false_iff_ne, bne_eq_false_iff_eq]
  by_contra nan
  push_neg at nan
  refine notNaN ⟨?_, fun zero => nan.2 (UInt64.toNat.inj ?_)⟩
  · rw [← exponent]
    exact congrArg UInt64.toNat nan.1
  · rw [fraction, zero, UInt64.toNat_zero]

theorem bitLengthAux_bounds : ∀ (fuel n : Nat), 0 < n → n ≤ fuel →
    ∃ k, bitLengthAux fuel n = k + 1 ∧ 2 ^ k ≤ n ∧ n < 2 ^ (k + 1)
  | 0, _, pos, le => by omega
  | fuel + 1, n, pos, le => by
    rw [bitLengthAux, if_neg (by omega)]
    rcases Nat.eq_zero_or_pos (n / 2) with half | half
    · have none : bitLengthAux fuel (n / 2) = 0 := by rw [half]; cases fuel <;> rfl
      exact ⟨0, by rw [none], by omega, by omega⟩
    · obtain ⟨k, length, lower, upper⟩ := bitLengthAux_bounds fuel (n / 2) half (by omega)
      refine ⟨k + 1, by rw [length], ?_, ?_⟩ <;> rw [pow_succ] <;> omega

/-- A positive `n` lies between the powers of two its bit length names. -/
theorem bitLength_bounds {n : Nat} (pos : 0 < n) :
    ∃ k, bitLength n = k + 1 ∧ 2 ^ k ≤ n ∧ n < 2 ^ (k + 1) :=
  bitLengthAux_bounds n n pos (Nat.le_refl n)

/-- `num / den < 2 ^ (binaryExponent num den + 1)`, scaled to natural numbers. -/
theorem mul_two_pow_lt_of_binaryExponent {num den : Nat} (numPos : 0 < num) (denPos : 0 < den)
    (p q : Nat) (exponent : (p : Int) + binaryExponent num den + 1 ≤ q) :
    num * 2 ^ p < den * 2 ^ q := by
  obtain ⟨a, numLength, -, numUpper⟩ := bitLength_bounds numPos
  obtain ⟨b, denLength, denLower, -⟩ := bitLength_bounds denPos
  have raise : ∀ {m n : Nat}, m ≤ n → den * 2 ^ m ≤ den * 2 ^ n := fun le =>
    Nat.mul_le_mul_left _ (Nat.pow_le_pow_right (by decide) le)
  have fromLengths : (p : Int) + ((a + 1 : Nat) - (b + 1 : Nat) : Int) + 1 ≤ q →
      num * 2 ^ p < den * 2 ^ q := fun exponent =>
    calc num * 2 ^ p < 2 ^ (a + 1) * 2 ^ p := Nat.mul_lt_mul_of_pos_right numUpper (Nat.two_pow_pos p)
      _ ≤ 2 ^ b * 2 ^ q := by
        rw [← pow_add, ← pow_add]
        exact Nat.pow_le_pow_right (by decide) (by omega)
      _ ≤ den * 2 ^ q := Nat.mul_le_mul_right _ denLower
  unfold binaryExponent at exponent
  rw [numLength, denLength] at exponent
  dsimp only at exponent
  split_ifs at exponent with sign below below
  · calc num * 2 ^ p < den * 2 ^ (↑(a + 1) - ↑(b + 1) : Int).toNat * 2 ^ p :=
          Nat.mul_lt_mul_of_pos_right below (Nat.two_pow_pos p)
      _ ≤ den * 2 ^ q := by rw [mul_assoc, ← pow_add]; exact raise (by omega)
  · exact fromLengths exponent
  · calc num * 2 ^ p ≤ num * 2 ^ (-(↑(a + 1) - ↑(b + 1)) : Int).toNat * 2 ^ q := by
          rw [mul_assoc, ← pow_add]
          exact Nat.mul_le_mul_left _ (Nat.pow_le_pow_right (by decide) (by omega))
      _ < den * 2 ^ q := Nat.mul_lt_mul_of_pos_right below (Nat.two_pow_pos q)
  · exact fromLengths exponent

theorem divRoundHalfEven_le {n d k : Nat} (below : n < d * k) : divRoundHalfEven n d ≤ k := by
  have quotient : n / d < k := Nat.div_lt_of_lt_mul below
  unfold divRoundHalfEven
  split <;> omega

/-- The nearest binary64 has at most the bits of the infinity: a normal significand rounds
up to `2 ^ 53` at most, and a subnormal one to `2 ^ 52`. -/
theorem nearestDoubleBits_le (num : Nat) {den : Nat} (denPos : 0 < den) :
    nearestDoubleBits num den ≤ 2047 * 2 ^ 52 := by
  unfold nearestDoubleBits
  dsimp only
  split_ifs with zero huge normal
  · exact Nat.zero_le _
  · decide
  · have rounded : scaledRound num den (52 - binaryExponent num den) ≤ 2 ^ 53 := by
      unfold scaledRound
      split_ifs
      · exact divRoundHalfEven_le
          (mul_two_pow_lt_of_binaryExponent (Nat.pos_of_ne_zero zero) denPos _ 53 (by omega))
      · have scaled := mul_two_pow_lt_of_binaryExponent (Nat.pos_of_ne_zero zero) denPos 0
          ((-(52 - binaryExponent num den)).toNat + 53) (by omega)
        rw [pow_zero, Nat.mul_one, pow_add, ← mul_assoc] at scaled
        exact divRoundHalfEven_le scaled
    omega
  · have rounded : scaledRound num den 1074 ≤ 2 ^ 52 := by
      unfold scaledRound
      rw [if_pos (by decide)]
      exact divRoundHalfEven_le
        (mul_two_pow_lt_of_binaryExponent (Nat.pos_of_ne_zero zero) denPos 1074 52 (by omega))
    omega

theorem float8IsNaN_roundToDouble (negative : Bool) (num : Nat) {den : Nat} (denPos : 0 < den) :
    float8IsNaN (roundToDouble negative num den) = false := by
  have bound := nearestDoubleBits_le num denPos
  have fits : (if negative then 2 ^ 63 else 0) + nearestDoubleBits num den < UInt64.size := by
    unfold UInt64.size
    split <;> omega
  apply float8IsNaN_eq_false
  rw [roundToDouble, UInt64.toNat_ofNat_of_lt fits]
  split <;> omega

/-- `strtod` on the tokens the parser passes it never gives a NaN. -/
theorem float8IsNaN_strtod (s : List UInt8) : float8IsNaN (strtod s).1 = false := by
  have zero : float8IsNaN 0 = false := rfl
  unfold strtod
  split
  split
  split
  · split
    split_ifs
    · exact zero
    · exact float8IsNaN_roundToDouble _ _ (Nat.pos_pow_of_pos _ (by decide))
  · split_ifs
    · exact zero
    · exact float8IsNaN_roundToDouble _ _ Nat.one_pos

end Doubles

/-! ## Elements without NaN -/

namespace Elem

mutual
/-- No double in the element is a NaN. -/
def nanFree : Elem → Bool
  | .float x => !float8IsNaN x
  | .smallList cs | .largeList _ cs => nanFreeList cs
  | _ => true
/-- `nanFree` of each child. -/
def nanFreeList : List Elem → Bool
  | [] => true
  | c :: cs => nanFree c && nanFreeList cs
end

theorem nanFreeList_iff {cs : List Elem} : nanFreeList cs = true ↔ ∀ c ∈ cs, c.nanFree = true := by
  induction cs with
  | nil => simp only [nanFreeList, List.not_mem_nil, false_implies, implies_true]
  | cons c cs inductionHypothesis =>
    simp only [nanFreeList, Bool.and_eq_true, inductionHypothesis, List.mem_cons, forall_eq_or_imp]

theorem nanFree_of_mem {e c : Elem} (free : e.nanFree = true) (mem : c ∈ e.children) :
    c.nanFree = true := by
  cases e <;> first
    | exact absurd mem (List.not_mem_nil _)
    | exact nanFreeList_iff.1 free c mem

end Elem

section Parse

variable {H : HashFns}

theorem parseNumber_nanFree {token : List UInt8} {flags : TokenFlags} {e : Elem} {hash : UInt32}
    (number : parseNumber H token flags = some (e, hash)) : e.nanFree = true := by
  simp only [parseNumber] at number
  split_ifs at number <;> cases number
  · simp only [Elem.nanFree, float8IsNaN_strtod, Bool.not_false]
  · unfold integerElement
    split <;> rfl

mutual
/-- The parser writes no NaN. -/
theorem parseValue_nanFree : ∀ (fuel depth : Nat) (st : SexpParseState) (e : Elem) (hash : UInt32)
    (st' : SexpParseState), parseValue H fuel depth st = .ok (e, hash, st') → e.nanFree = true
  | 0, _, _, _, _, _, parsed => nomatch parsed
  | fuel + 1, depth, st, e, hash, st', parsed => by
    obtain ⟨rest, ⟨-, list⟩ | ⟨-, string⟩ | ⟨-, -, -, token⟩⟩ := parseValue_eq_ok parsed
    · exact parseList_nanFree fuel depth _ e hash st' list
    · obtain ⟨str, rfl, -, -⟩ := parseString_eq_ok string
      unfold stringElement
      split <;> rfl
    · obtain ⟨_, -, -, ⟨rfl, -⟩ | ⟨number, -⟩ | ⟨_, -, -, rfl, -⟩⟩ :=
        parseNumberOrSymbol_eq_ok token
      · rfl
      · exact parseNumber_nanFree number
      · rfl
termination_by structural fuel => fuel
theorem parseList_nanFree : ∀ (fuel depth : Nat) (st : SexpParseState) (e : Elem) (hash : UInt32)
    (st' : SexpParseState), parseList H fuel depth st = .ok (e, hash, st') → e.nanFree = true
  | 0, _, _, _, _, _, parsed => nomatch parsed
  | fuel + 1, depth, st, e, hash, st', parsed => by
    obtain ⟨-, ⟨-, rfl, -, -⟩ | ⟨children, -, loop, rfl, -⟩⟩ := parseList_eq_ok parsed
    · rfl
    · have free := parseElements_nanFree fuel (depth + 1) _ [] children st' loop
        fun _ mem => absurd mem (List.not_mem_nil _)
      have list : Elem.nanFreeList (children.map (·.1)) = true :=
        Elem.nanFreeList_iff.2 fun c mem => by
          obtain ⟨p, held, rfl⟩ := List.mem_map.1 mem
          exact free p held
      unfold listElement
      split <;> exact list
termination_by structural fuel => fuel
theorem parseElements_nanFree : ∀ (fuel depth : Nat) (st : SexpParseState)
    (acc children : List (Elem × UInt32)) (st' : SexpParseState),
    parseElements H fuel depth st acc = .ok (children, st') → (∀ p ∈ acc, p.1.nanFree = true) →
      ∀ p ∈ children, p.1.nanFree = true
  | 0, _, _, _, _, _, parsed, _ => nomatch parsed
  | fuel + 1, depth, st, acc, children, st', parsed, accFree => by
    rcases parseElements_eq_ok parsed with ⟨-, -, rfl, -⟩ | ⟨e, hash, st₁, -, value, loop⟩
    · exact fun p mem => accFree p (List.mem_reverse.1 mem)
    · refine parseElements_nanFree fuel depth _ _ children st' loop fun p mem => ?_
      rcases List.mem_cons.1 mem with rfl | earlier
      · exact parseValue_nanFree fuel depth st e hash st₁ value
      · exact accFree p earlier
termination_by structural fuel => fuel
end

theorem sexpParse_nanFree {input : List UInt8} {w : Sexp} (parsed : sexpParse H input = .ok w) :
    w.root.nanFree = true := by
  unfold sexpParse at parsed
  split at parsed
  · cases parsed
    rfl
  · obtain ⟨⟨root, hash, st⟩, value, checked⟩ := bind_eq_ok parsed
    dsimp only at checked
    split at checked
    · cases checked
      exact parseValue_nanFree _ 0 _ root hash st value
    · cases checked

end Parse

/-! ## The accessors -/

section Accessors

variable {v w : Sexp}

/-- `sexp_car` returns the first child of a list under the parent's table. -/
theorem sexpCar_eq_some (car : sexpCar v = .ok (some w)) :
    ∃ c rest, v.root.children = c :: rest ∧ w = ⟨v.symbols, c⟩ := by
  unfold sexpCar at car
  split at car <;> first | exact absurd car (by simp) | skip
  all_goals
    rename_i cs listRoot
    cases cs with
    | nil => exact absurd car (by simp)
    | cons c rest =>
      simp only [Except.ok.injEq, Option.some.injEq] at car
      exact ⟨c, rest, by rw [listRoot]; rfl, car.symm⟩

/-- `sexp_nth` returns a child of a list under the parent's table, or an atom itself. -/
theorem sexpNth_eq_some {n : Int} (nth : sexpNth v n = some w) :
    w = v ∨ ∃ c ∈ v.root.children, w = ⟨v.symbols, c⟩ := by
  unfold sexpNth at nth
  split at nth
  · cases nth
  split at nth
  · cases nth
  all_goals first
    | (split at nth
       · exact .inl (Option.some.inj nth).symm
       · cases nth)
    | (rename_i listRoot
       obtain ⟨c, mem, rfl⟩ := Option.map_eq_some'.1 nth
       exact .inr ⟨c, by rw [listRoot]; exact List.getElem?_mem mem, rfl⟩)

/-- `sexp_cdr` returns NIL for a list of one child, and otherwise the list of the others in
the format their count asks for, under the parent's table. -/
theorem sexpCdr_eq_some (cdr : sexpCdr v = .ok (some w)) :
    w = buildNilSexp ∨ (2 ≤ v.root.children.length ∧ v.root.isList = true ∧
      w = ⟨v.symbols, cdrList v.root.children.tail⟩) := by
  unfold sexpCdr at cdr
  split at cdr <;> first | exact absurd cdr (by simp) | skip
  all_goals
    rename_i cs listRoot
    rw [listRoot]
    split at cdr <;> simp only [Except.ok.injEq, Option.some.injEq] at cdr
    · exact .inl cdr.symm
    · exact .inr ⟨by simp only [Elem.children]; omega, rfl, cdr.symm⟩

/-- `sexp_find_first` returns a subtree under the parent's table. -/
theorem sexpFindFirst_eq_some {pattern : Sexp} (found : sexpFindFirst v pattern = some w) :
    ∃ d, d.Subtree v.root ∧ w = ⟨v.symbols, d⟩ := by
  rw [sexpFindFirst, findPatternRecursive_eq_find?, Option.map_eq_some'] at found
  obtain ⟨d, first, rfl⟩ := found
  exact ⟨d, Elem.mem_preorder.1 (List.mem_of_find?_eq_some first), rfl⟩

end Accessors

/-! ## Reachable values -/

namespace Sexp

/-- The values the spec calls reachable: those `sexp_parse` returns, and those `sexp_car`,
`sexp_cdr`, `sexp_nth` and `sexp_find_first` return from reachable values. -/
inductive Reachable (H : HashFns) : Sexp → Prop
  | parse {input : List UInt8} {v : Sexp} : sexpParse H input = .ok v → Reachable H v
  | car {v w : Sexp} : Reachable H v → sexpCar v = .ok (some w) → Reachable H w
  | cdr {v w : Sexp} : Reachable H v → sexpCdr v = .ok (some w) → Reachable H w
  | nth {v w : Sexp} {n : Int} : Reachable H v → sexpNth v n = some w → Reachable H w
  | findFirst {v pattern w : Sexp} : Reachable H v → sexpFindFirst v pattern = some w →
      Reachable H w

/-- What the readers of a reachable value rely on: its root is in the form the parser
writes, at some nesting, and holds no NaN. -/
structure Settled (H : HashFns) (v : Sexp) : Prop where
  canonical : ∃ depth, v.root.canonical H v.symbols depth = true
  nanFree : v.root.nanFree = true

variable {H : HashFns} {v w : Sexp}

theorem Settled.subtree {syms : List (List UInt8)} {d e : Elem} (settled : Settled H ⟨syms, e⟩)
    (sub : d.Subtree e) : Settled H ⟨syms, d⟩ := by
  obtain ⟨⟨depth, canonical⟩, free⟩ := settled
  induction sub generalizing depth with
  | refl => exact ⟨⟨depth, canonical⟩, free⟩
  | child mem _ below =>
    exact below (Elem.nanFree_of_mem free mem) (depth + 1)
      (Elem.canonicalList_iff.1 (Elem.canonicalList_children canonical) _ mem)

theorem settled_of_sexpParse {input : List UInt8} (parsed : sexpParse H input = .ok v) :
    v.Settled H :=
  ⟨⟨0, (sexpParse_written H parsed).1⟩, sexpParse_nanFree parsed⟩

/-- The list `sexp_cdr` rebuilds is in the parser's form at its parent's nesting. -/
theorem Settled.cdr (settled : v.Settled H) (cdr : sexpCdr v = .ok (some w)) : w.Settled H := by
  rcases sexpCdr_eq_some cdr with rfl | ⟨long, list, rfl⟩
  · exact ⟨⟨0, rfl⟩, rfl⟩
  obtain ⟨⟨depth, canonical⟩, free⟩ := settled
  have shallow : depth < sexpMaxDepth := by
    cases root : v.root <;> rw [root] at canonical list <;> first
      | exact absurd list Bool.false_ne_true
      | exact (Elem.canonical_smallList.1 canonical).1
      | exact (Elem.canonical_largeList.1 canonical).1
  have children : ∀ c ∈ v.root.children.tail, c.canonical H v.symbols (depth + 1) = true ∧
      c.nanFree = true := fun c mem =>
    ⟨Elem.canonicalList_iff.1 (Elem.canonicalList_children canonical) c (List.mem_of_mem_tail mem),
      Elem.nanFree_of_mem free (List.mem_of_mem_tail mem)⟩
  have tailLength : v.root.children.tail.length = v.root.children.length - 1 := List.length_tail _
  refine ⟨⟨depth, ?_⟩, ?_⟩ <;> unfold cdrList <;> split
  · exact Elem.canonical_smallList.2 ⟨shallow, List.ne_nil_of_length_pos (by omega), by assumption,
      Elem.canonicalList_iff.2 fun c mem => (children c mem).1⟩
  · exact Elem.canonical_largeList.2 ⟨shallow, by omega,
      Elem.canonicalList_iff.2 fun c mem => (children c mem).1⟩
  all_goals exact Elem.nanFreeList_iff.2 fun c mem => (children c mem).2

/-- Every reachable value is settled. -/
theorem Reachable.settled (reachable : v.Reachable H) : v.Settled H := by
  induction reachable with
  | parse parsed => exact settled_of_sexpParse parsed
  | car _ car settled =>
    obtain ⟨c, rest, children, rfl⟩ := sexpCar_eq_some car
    exact settled.subtree (.child (children ▸ List.mem_cons_self c rest) .refl)
  | cdr _ cdr settled => exact settled.cdr cdr
  | nth _ nth settled =>
    rcases sexpNth_eq_some nth with rfl | ⟨c, mem, rfl⟩
    · exact settled
    · exact settled.subtree (.child mem .refl)
  | findFirst _ found settled =>
    obtain ⟨d, sub, rfl⟩ := sexpFindFirst_eq_some found
    exact settled.subtree sub

end Sexp

/-! ## Equality of decoded trees -/

namespace Datum

/-- The constructor of a datum, a symbol and a dangling reference alike. -/
def kind : Datum → Nat
  | .nil => 0
  | .int _ => 1
  | .float _ => 2
  | .sym _ | .danglingSym _ => 3
  | .str _ => 4
  | .list _ => 5

theorem kind_eq_of_ieeeEq {x y : Datum} (equal : x.ieeeEq y = true) : x.kind = y.kind := by
  cases x <;> cases y <;> first | rfl | exact absurd equal Bool.false_ne_true

theorem float8Eq_comm (x y : UInt64) : float8Eq x y = float8Eq y x := by
  unfold float8Eq
  rw [Bool.beq_comm]
  cases float8IsNaN x <;> cases float8IsNaN y <;> cases float8IsZero x <;> cases float8IsZero y <;> rfl

theorem float8Eq_trans {x y z : UInt64} (xy : float8Eq x y = true) (yz : float8Eq y z = true) :
    float8Eq x z = true := by
  simp only [float8Eq, Bool.and_eq_true, Bool.not_eq_true', Bool.or_eq_true, beq_iff_eq] at *
  obtain ⟨⟨xNum, -⟩, rfl | ⟨xZero, yZero⟩⟩ := xy
  · exact yz
  · obtain ⟨⟨-, zNum⟩, rfl | ⟨-, zZero⟩⟩ := yz
    · exact ⟨⟨xNum, zNum⟩, .inr ⟨xZero, yZero⟩⟩
    · exact ⟨⟨xNum, zNum⟩, .inr ⟨xZero, zZero⟩⟩

mutual
theorem ieeeEq_comm : ∀ x y : Datum, x.ieeeEq y = y.ieeeEq x
  | x, y => by
    cases x <;> cases y <;>
      first | rfl | exact Bool.beq_comm | exact float8Eq_comm _ _ | exact ieeeEqList_comm _ _
theorem ieeeEqList_comm : ∀ cs ds : List Datum, ieeeEqList cs ds = ieeeEqList ds cs
  | [], [] | [], _ :: _ | _ :: _, [] => rfl
  | c :: cs, d :: ds => congrArg₂ (· && ·) (ieeeEq_comm c d) (ieeeEqList_comm cs ds)
end

mutual
theorem ieeeEq_trans : ∀ x y z : Datum, x.ieeeEq y = true → y.ieeeEq z = true → x.ieeeEq z = true
  | x, y, z, xy, yz => by
    cases x <;> cases y <;> (first | exact absurd xy Bool.false_ne_true | skip) <;> cases z <;>
      (first | exact absurd yz Bool.false_ne_true | skip)
    all_goals first
      | rfl
      | exact beq_iff_eq.2 ((beq_iff_eq.1 xy).trans (beq_iff_eq.1 yz))
      | exact float8Eq_trans xy yz
      | exact ieeeEqList_trans _ _ _ xy yz
theorem ieeeEqList_trans : ∀ cs ds es : List Datum, ieeeEqList cs ds = true →
    ieeeEqList ds es = true → ieeeEqList cs es = true
  | [], [], [], _, _ => rfl
  | c :: cs, d :: ds, e :: es, first, second =>
    have first := Bool.and_eq_true_iff.1 first
    have second := Bool.and_eq_true_iff.1 second
    Bool.and_eq_true_iff.2 ⟨ieeeEq_trans c d e first.1 second.1, ieeeEqList_trans cs ds es first.2 second.2⟩
  | [], _ :: _, _, first, _ | _ :: _, [], _, first, _ => absurd first Bool.false_ne_true
  | [], [], _ :: _, _, second | _ :: _, _ :: _, [], _, second => absurd second Bool.false_ne_true
end

end Datum

namespace Elem

/-- The datum constructor an element decodes to. -/
def kind : Elem → Nat
  | .nil => 0
  | .smallInt _ | .integer _ => 1
  | .float _ => 2
  | .symbolRef _ => 3
  | .shortString _ | .longString _ => 4
  | .smallList _ | .largeList _ _ => 5

theorem kind_decode (syms : List (List UInt8)) (e : Elem) : (e.decode syms).kind = e.kind := by
  cases e <;> try rfl
  simp only [decode]
  split <;> rfl

end Elem

section Equal

variable {H : HashFns} {symsA symsB : List (List UInt8)}

theorem smallintValue_injective {p q : Fin 32} (same : smallintValue p = smallintValue q) : p = q := by
  have values := congrArg int64Value same
  rw [int64Value_smallintValue, int64Value_smallintValue] at values
  exact Fin.ext (by omega)

/-- A full integer in the parser's form is outside the small range. -/
theorem smallintValue_ne_zigzagDecode {p : Fin 32} {u : UInt64} {depth : Nat}
    (canonical : (Elem.integer u).canonical H symsB depth = true) :
    smallintValue p ≠ zigzagDecode u := by
  intro same
  have value := int64Value_smallintValue p
  rw [same] at value
  simp only [Elem.canonical, value, Bool.not_eq_true', decide_eq_false_iff_not] at canonical
  exact canonical (by unfold sexpSmallintBias; omega)

theorem zigzagDecode_injective {u v : UInt64} (same : zigzagDecode u = zigzagDecode v) : u = v := by
  rw [← zigzagEncode_zigzagDecode u, same, zigzagEncode_zigzagDecode]

theorem decode_symbolRef {syms : List (List UInt8)} {i : Nat} {s : List UInt8}
    (found : syms[i]? = some s) : (Elem.symbolRef i).decode syms = .sym s := by
  simp only [Elem.decode, found]

mutual
/-- In the parser's form, elements whose decoded trees are equal are equal for
`elements_equal_recursive`: each integer and each string has one encoding. -/
theorem elementsEqualRecursive_of_ieeeEq : ∀ (a b : Elem) (da db : Nat),
    a.canonical H symsA da = true → b.canonical H symsB db = true →
      (a.decode symsA).ieeeEq (b.decode symsB) = true →
        elementsEqualRecursive H symsA symsB a b = true
  | a, b, da, db, ca, cb, equal => by
    have kinds := Datum.kind_eq_of_ieeeEq equal
    rw [Elem.kind_decode, Elem.kind_decode] at kinds
    cases a <;> cases b <;> cases kinds
    case nil.nil => rfl
    case smallInt.smallInt => exact beq_iff_eq.2 (smallintValue_injective (beq_iff_eq.1 equal))
    case smallInt.integer => exact absurd (beq_iff_eq.1 equal) (smallintValue_ne_zigzagDecode cb)
    case integer.smallInt => exact absurd (beq_iff_eq.1 equal).symm (smallintValue_ne_zigzagDecode ca)
    case integer.integer => exact beq_iff_eq.2 (zigzagDecode_injective (beq_iff_eq.1 equal))
    case float.float => exact equal
    case symbolRef.symbolRef i j =>
      obtain ⟨s, foundA, -⟩ := Elem.canonical_symbolRef.1 ca
      obtain ⟨t, foundB, -⟩ := Elem.canonical_symbolRef.1 cb
      rw [decode_symbolRef foundA, decode_symbolRef foundB] at equal
      exact (symbolRefsEqual_iff H symsA symsB i j).2 ⟨s, foundA, (beq_iff_eq.1 equal) ▸ foundB⟩
    case shortString.shortString | longString.longString =>
      rw [beq_iff_eq.1 equal]
      exact Bool.and_eq_true_iff.2 ⟨beq_self_eq_true _, beq_self_eq_true _⟩
    case shortString.longString | longString.shortString =>
      have same := beq_iff_eq.1 equal
      subst same
      simp only [Elem.canonical, decide_eq_true_eq] at ca cb
      omega
    all_goals
      obtain ⟨lengths, children⟩ := childrenEqual_of_ieeeEqList _ _ (da + 1) (db + 1)
        (Elem.canonicalList_children ca) (Elem.canonicalList_children cb) equal
      exact Bool.and_eq_true_iff.2 ⟨beq_iff_eq.2 lengths, children⟩
/-- `elementsEqualRecursive_of_ieeeEq` child by child. -/
theorem childrenEqual_of_ieeeEqList : ∀ (cs ds : List Elem) (da db : Nat),
    Elem.canonicalList H symsA da cs = true → Elem.canonicalList H symsB db ds = true →
      Datum.ieeeEqList (Elem.decodeList symsA cs) (Elem.decodeList symsB ds) = true →
        cs.length = ds.length ∧ childrenEqual H symsA symsB cs ds = true
  | [], [], _, _, _, _, _ => ⟨rfl, rfl⟩
  | c :: cs, d :: ds, da, db, ca, cb, equal => by
    have ca := Bool.and_eq_true_iff.1 ca
    have cb := Bool.and_eq_true_iff.1 cb
    have equal := Bool.and_eq_true_iff.1 equal
    have rest := childrenEqual_of_ieeeEqList cs ds da db ca.2 cb.2 equal.2
    exact ⟨congrArg (· + 1) rest.1, Bool.and_eq_true_iff.2
      ⟨elementsEqualRecursive_of_ieeeEq c d da db ca.1 cb.1 equal.1, rest.2⟩⟩
  | [], _ :: _, _, _, _, _, equal | _ :: _, [], _, _, _, _, equal => absurd equal Bool.false_ne_true
end

mutual
/-- An element in the parser's form without NaN decodes to a tree equal to itself: its
references are inside the table. -/
theorem ieeeEq_decode_self : ∀ (e : Elem) (depth : Nat), e.canonical H symsA depth = true →
    e.nanFree = true → (e.decode symsA).ieeeEq (e.decode symsA) = true
  | .nil, _, _, _ => rfl
  | .smallInt _, _, _, _ | .integer _, _, _, _ => beq_self_eq_true _
  | .float x, _, _, free => by
    simp only [Elem.nanFree, Bool.not_eq_true'] at free
    show float8Eq x x = true
    simp only [float8Eq, free, beq_self_eq_true, Bool.not_false, Bool.true_or, Bool.and_self]
  | .symbolRef i, _, canonical, _ => by
    obtain ⟨s, found, -⟩ := Elem.canonical_symbolRef.1 canonical
    rw [decode_symbolRef found]
    exact beq_self_eq_true s
  | .shortString _, _, _, _ | .longString _, _, _, _ => beq_self_eq_true _
  | .smallList cs, depth, canonical, free | .largeList _ cs, depth, canonical, free =>
    ieeeEqList_decodeList_self cs (depth + 1) (Elem.canonicalList_children canonical) free
/-- `ieeeEq_decode_self` child by child. -/
theorem ieeeEqList_decodeList_self : ∀ (cs : List Elem) (depth : Nat),
    Elem.canonicalList H symsA depth cs = true → Elem.nanFreeList cs = true →
      Datum.ieeeEqList (Elem.decodeList symsA cs) (Elem.decodeList symsA cs) = true
  | [], _, _, _ => rfl
  | c :: cs, depth, canonical, free =>
    have canonical := Bool.and_eq_true_iff.1 canonical
    have free := Bool.and_eq_true_iff.1 free
    Bool.and_eq_true_iff.2 ⟨ieeeEq_decode_self c depth canonical.1 free.1,
      ieeeEqList_decodeList_self cs depth canonical.2 free.2⟩
end

/-- On settled values `sexp_equal` is equality of the decoded trees. -/
theorem sexpEqual_eq_ieeeEq {a b : Sexp} (settledA : a.Settled H) (settledB : b.Settled H) :
    sexpEqual H a b = (a.root.decode a.symbols).ieeeEq (b.root.decode b.symbols) := by
  obtain ⟨⟨da, canonicalA⟩, freeA⟩ := settledA
  obtain ⟨⟨db, canonicalB⟩, -⟩ := settledB
  unfold sexpEqual
  split
  · subst b
    exact (ieeeEq_decode_self a.root da canonicalA freeA).symm
  · exact Bool.eq_iff_iff.2 ⟨ieeeEq_decode_of_elementsEqualRecursive _ _,
      elementsEqualRecursive_of_ieeeEq _ _ da db canonicalA canonicalB⟩

end Equal

variable {H : HashFns}

/-- On reachable values `sexp_equal` and `sexp_equal_packed` decide equality of the decoded
trees, doubles compared by C's `==`.  So `sexp_equal` is reflexive, symmetric and transitive
there, and a child or subtree `sexp_car`, `sexp_nth` or `sexp_find_first` returns keeps its
parent's table and equals every parse of a text with the same decoded tree. -/
theorem sexpEqual_reachable_iff_ieeeEq {a b : Sexp} (reachableA : a.Reachable H)
    (reachableB : b.Reachable H) :
    sexpEqual H a b = (a.root.decode a.symbols).ieeeEq (b.root.decode b.symbols) ∧
      sexpEqualPacked H a b = sexpEqual H a b ∧
      sexpEqual H a a = true ∧ sexpEqual H b a = sexpEqual H a b ∧
      (∀ c, c.Reachable H → sexpEqual H a b = true → sexpEqual H b c = true →
        sexpEqual H a c = true) ∧
      ∀ w, (sexpCar a = .ok (some w) ∨ (∃ n, sexpNth a n = some w) ∨
          ∃ pattern, sexpFindFirst a pattern = some w) →
        w.symbols = a.symbols ∧ ∀ input fresh, sexpParse H input = .ok fresh →
          fresh.root.decode fresh.symbols = w.root.decode w.symbols → sexpEqual H w fresh = true := by
  have decides : ∀ {x y : Sexp}, x.Reachable H → y.Reachable H →
      sexpEqual H x y = (x.root.decode x.symbols).ieeeEq (y.root.decode y.symbols) :=
    fun reachableX reachableY => sexpEqual_eq_ieeeEq reachableX.settled reachableY.settled
  have reflexive : ∀ {x : Sexp}, x.Reachable H → sexpEqual H x x = true := fun reachable => by
    obtain ⟨⟨depth, canonical⟩, free⟩ := reachable.settled
    rw [decides reachable reachable]
    exact ieeeEq_decode_self _ depth canonical free
  refine ⟨decides reachableA reachableB, rfl, reflexive reachableA, ?_, fun c reachableC ab bc => ?_,
    fun w accessed => ?_⟩
  · rw [decides reachableB reachableA, decides reachableA reachableB, Datum.ieeeEq_comm]
  · rw [decides reachableA reachableB] at ab
    rw [decides reachableB reachableC] at bc
    rw [decides reachableA reachableC]
    exact Datum.ieeeEq_trans _ _ _ ab bc
  · obtain ⟨reachableW, symbols⟩ : w.Reachable H ∧ w.symbols = a.symbols := by
      rcases accessed with car | ⟨n, nth⟩ | ⟨pattern, found⟩
      · obtain ⟨c, rest, -, rfl⟩ := sexpCar_eq_some car
        exact ⟨.car reachableA car, rfl⟩
      · refine ⟨.nth reachableA nth, ?_⟩
        rcases sexpNth_eq_some nth with rfl | ⟨c, -, rfl⟩ <;> rfl
      · obtain ⟨d, -, rfl⟩ := sexpFindFirst_eq_some found
        exact ⟨.findFirst reachableA found, rfl⟩
    refine ⟨symbols, fun input fresh parsed same => ?_⟩
    rw [decides reachableW (.parse parsed), same, ← decides reachableW reachableW]
    exact reflexive reachableW

/-- `1` parsed twice, with PostgreSQL's hash functions. -/
theorem sexpEqual_reachable_iff_ieeeEq_one :
    sexpEqual pgHashFns ⟨[], .smallInt 17⟩ ⟨[], .smallInt 17⟩ =
        (Elem.decode [] (.smallInt 17)).ieeeEq (Elem.decode [] (.smallInt 17)) ∧
      sexpEqualPacked pgHashFns ⟨[], .smallInt 17⟩ ⟨[], .smallInt 17⟩ =
        sexpEqual pgHashFns ⟨[], .smallInt 17⟩ ⟨[], .smallInt 17⟩ ∧
      sexpEqual pgHashFns ⟨[], .smallInt 17⟩ ⟨[], .smallInt 17⟩ = true ∧
      sexpEqual pgHashFns ⟨[], .smallInt 17⟩ ⟨[], .smallInt 17⟩ =
        sexpEqual pgHashFns ⟨[], .smallInt 17⟩ ⟨[], .smallInt 17⟩ ∧
      (∀ c, c.Reachable pgHashFns → sexpEqual pgHashFns ⟨[], .smallInt 17⟩ ⟨[], .smallInt 17⟩ = true →
        sexpEqual pgHashFns ⟨[], .smallInt 17⟩ c = true →
          sexpEqual pgHashFns ⟨[], .smallInt 17⟩ c = true) ∧
      ∀ w, (sexpCar ⟨[], .smallInt 17⟩ = .ok (some w) ∨ (∃ n, sexpNth ⟨[], .smallInt 17⟩ n = some w) ∨
          ∃ pattern, sexpFindFirst ⟨[], .smallInt 17⟩ pattern = some w) →
        w.symbols = [] ∧ ∀ input fresh, sexpParse pgHashFns input = .ok fresh →
          fresh.root.decode fresh.symbols = w.root.decode w.symbols →
            sexpEqual pgHashFns w fresh = true :=
  have one : sexpParse pgHashFns [49] = .ok ⟨[], .smallInt 17⟩ := rfl
  sexpEqual_reachable_iff_ieeeEq (.parse one) (.parse one)

end PgSexp
