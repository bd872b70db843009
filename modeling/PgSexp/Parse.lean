import PgSexp.Numeric
import PgSexp.SymbolTable

/-!
# The parser

`sexp_parse` (`sexp_parser.c`) reads one value, surrounded by whitespace and `;` comments,
and writes its symbol table and its root element.  Every parse function returns the
structural hash of what it wrote, which `parse_list` combines into the hash a large list
stores.  A list nested `SEXP_MAX_DEPTH` deep is refused; a token is NIL, an integer, a
float or a symbol by the flags `parse_number_or_symbol` collects while scanning it.

The C functions recurse on the input pointer.  Here they take a `fuel` argument that every
call spends, and `sexp_parse` gives three units per input byte, more than any input needs.
-/

namespace PgSexp

variable (H : HashFns)

/-- `SEXP_MAX_DEPTH` -/
def sexpMaxDepth : Nat := 1000

/-- `SexpParseState` without its output buffer: the unread input, `ptr` to `end`, and the
symbol table. -/
structure SexpParseState where
  rest : List UInt8
  symtab : SexpSymbolTable

/-- A syntax error, `ERRCODE_INVALID_TEXT_REPRESENTATION`. -/
def invalidText (message : String) : SqlError := ⟨.invalidTextRepresentation, message⟩

/-- The call depth ran past the fuel, which no input of the given length reaches. -/
def parseFuelExhausted : SqlError := ⟨.internalError, "parser fuel exhausted"⟩

/-- An `intern_symbol` probe loop met no empty slot, where the C loop would not end. -/
def internDiverges : SqlError := ⟨.internalError, "intern_symbol does not terminate"⟩

/-! ## Whitespace and comments -/

mutual
/-- `skip_whitespace`: spaces and `;` comments. -/
def skipWhitespace : List UInt8 → List UInt8
  | [] => []
  | c :: rest =>
    if isSpace c then skipWhitespace rest
    else if c == 59 then skipComment rest
    else c :: rest
/-- The comment loop of `skip_whitespace`, to the newline, which the outer loop then skips
as whitespace. -/
def skipComment : List UInt8 → List UInt8
  | [] => []
  | c :: rest => if c == 10 then skipWhitespace rest else skipComment rest
end

/-! ## Strings -/

/-- The byte an escape `\c` stands for in `parse_string`. -/
def unescapeByte (c : UInt8) : UInt8 :=
  if c = 110 then 10 else if c = 116 then 9 else if c = 114 then 13 else c

/-- The loop of `parse_string` after the opening quote, collecting the bytes in reverse:
the string and the input after the closing quote. -/
def parseStringBody (acc : List UInt8) : List UInt8 → Except SqlError (List UInt8 × List UInt8)
  | [] => .error (invalidText "unterminated string")
  | 34 :: rest => .ok (acc.reverse, rest)
  | [92] => .error (invalidText "unterminated string escape")
  | 92 :: c :: rest => parseStringBody (unescapeByte c :: acc) rest
  | c :: rest => parseStringBody (c :: acc) rest

/-- The element `parse_string` writes: short up to `SEXP_SHORT_STRING_MAX` bytes. -/
def stringElement (str : List UInt8) : Elem :=
  if str.length ≤ sexpShortStringMax then .shortString str else .longString str

/-- `parse_string`, after the opening quote. -/
def parseString (st : SexpParseState) : Except SqlError (Elem × UInt32 × SexpParseState) := do
  let (str, rest) ← parseStringBody [] st.rest
  pure (stringElement str, sexpHashStringWithTag H sexpTagShortString str, { st with rest })

/-! ## Numbers and symbols -/

/-- A byte that ends a token: whitespace, `(`, `)`, `"` or `;`. -/
def endsToken (c : UInt8) : Bool := isSpace c || c == 40 || c == 41 || c == 34 || c == 59

/-- The flags `parse_number_or_symbol` sets while it scans a token. -/
structure TokenFlags where
  isNumber : Bool
  hasDot : Bool
  hasDigit : Bool
  deriving DecidableEq, Repr

/-- The scan loop of `parse_number_or_symbol`: a sign only at the start, at most one dot,
digits, and nothing else, for a number. -/
def scanTokenFlags (atStart : Bool) (flags : TokenFlags) : List UInt8 → TokenFlags
  | [] => flags
  | c :: rest =>
    scanTokenFlags false
      (if c == 45 || c == 43 then
        if atStart then flags else { flags with isNumber := false }
      else if c == 46 then
        { flags with isNumber := flags.isNumber && !flags.hasDot, hasDot := true }
      else if isDigit c then { flags with hasDigit := true }
      else { flags with isNumber := false }) rest

/-- The element of an int64: `SMALLINT` from `SEXP_SMALLINT_MIN` to `SEXP_SMALLINT_MAX`,
otherwise the zig-zag varint of `INTEGER`. -/
def integerElement (val : Int) : Elem :=
  if -16 ≤ val ∧ val ≤ 15 then .smallInt ⟨(val + 16).toNat % 32, Nat.mod_lt _ (by decide)⟩
  else .integer (zigzagEncode (int64Bits val))

/-- The number a token stands for, if `strtod` or `strtoll` reads all of it, with its hash. -/
def parseNumber (token : List UInt8) (flags : TokenFlags) : Option (Elem × UInt32) :=
  if !(flags.isNumber && flags.hasDigit) then none
  else if flags.hasDot then
    let (val, endptr) := strtod token
    if endptr = [] then some (.float val, floatElemHash H val) else none
  else
    let (val, endptr) := strtoll token
    if endptr = [] then some (integerElement val, integerElemHash H (int64Bits val)) else none

/-- `parse_number_or_symbol` -/
def parseNumberOrSymbol (st : SexpParseState) :
    Except SqlError (Elem × UInt32 × SexpParseState) :=
  let (token, rest) := st.rest.span fun c => !endsToken c
  if token = [] then .error (invalidText "empty atom")
  else if token = [110, 105, 108] then .ok (.nil, 0, { st with rest })
  else
    match parseNumber H token (scanTokenFlags true ⟨true, false, false⟩ token) with
    | some (elem, hash) => .ok (elem, hash, { st with rest })
    | none =>
      match internSymbol H st.symtab token with
      | some (idx, symtab) =>
        .ok (.symbolRef idx, sexpHashStringWithTag H sexpTagSymbolRef token, ⟨rest, symtab⟩)
      | none => .error internDiverges

/-! ## Values and lists -/

/-- The element `parse_list` writes for its children: the small format up to
`SEXP_SMALL_LIST_MAX` children, else the large format with the structural hash. -/
def listElement (children : List Elem) (hash : UInt32) : Elem :=
  if children.length ≤ sexpSmallListMax then .smallList children else .largeList hash children

mutual
/-- `sexp_parse_value_with_hash` at nesting `depth`. -/
def parseValue : Nat → Nat → SexpParseState → Except SqlError (Elem × UInt32 × SexpParseState)
  | 0, _, _ => .error parseFuelExhausted
  | fuel + 1, depth, st =>
    match skipWhitespace st.rest with
    | [] => .error (invalidText "unexpected end of input")
    | 40 :: rest => parseList fuel depth { st with rest }
    | 34 :: rest => parseString H { st with rest }
    | rest => parseNumberOrSymbol H { st with rest }
/-- `parse_list`, after the opening parenthesis: the depth check, `()` as NIL, then the
children up to the closing parenthesis. -/
def parseList : Nat → Nat → SexpParseState → Except SqlError (Elem × UInt32 × SexpParseState)
  | 0, _, _ => .error parseFuelExhausted
  | fuel + 1, depth, st =>
    if sexpMaxDepth ≤ depth then
      .error ⟨.programLimitExceeded,
        s!"sexp nesting depth exceeded: {depth} (max {sexpMaxDepth})"⟩
    else
      match skipWhitespace st.rest with
      | 41 :: rest => .ok (.nil, 0, { st with rest })
      | rest => do
        let (children, st) ← parseElements fuel (depth + 1) { st with rest } []
        let hash := parseListHash H (children.map (·.2))
        pure (listElement (children.map (·.1)) hash, hash, st)
/-- The element loop of `parse_list`, collecting each child and its hash in reverse. -/
def parseElements : Nat → Nat → SexpParseState → List (Elem × UInt32) →
    Except SqlError (List (Elem × UInt32) × SexpParseState)
  | 0, _, _, _ => .error parseFuelExhausted
  | fuel + 1, depth, st, acc =>
    match st.rest with
    | [] => .error (invalidText "unterminated list")
    | 41 :: rest => .ok (acc.reverse, { st with rest })
    | _ => do
      let (elem, hash, st) ← parseValue fuel depth st
      parseElements fuel depth { st with rest := skipWhitespace st.rest } ((elem, hash) :: acc)
end

/-- The fuel `sexp_parse` gives: three calls per input byte. -/
def parseFuel (input : List UInt8) : Nat := 3 * input.length + 3

/-- `sexp_parse`: empty input is NIL; anything after the value but whitespace is refused. -/
def sexpParse (input : List UInt8) : Except SqlError Sexp :=
  match skipWhitespace input with
  | [] => .ok ⟨[], .nil⟩
  | rest => do
    let (root, _, st) ← parseValue H (parseFuel input) 0 ⟨rest, initSymbolTable⟩
    if skipWhitespace st.rest = [] then pure ⟨st.symtab.symbols, root⟩
    else .error (invalidText "unexpected characters after s-expression")

/-- `sexp_in`: the text's UTF-8 bytes up to the terminating NUL that `strlen` stops at. -/
def sexpIn (input : String) : Except SqlError Sexp :=
  sexpParse H ((input.toList.flatMap String.utf8EncodeChar).takeWhile (· != 0))

end PgSexp
