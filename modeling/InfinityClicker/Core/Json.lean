import InfinityClicker.Core.Binary64
import InfinityClicker.Core.Clock
import Mathlib.Data.List.DropRight

namespace InfinityClicker

namespace Json

/-!
# JSON values, the parser and the printer

Texts are byte strings; a finite `double` is the rational it stands for.

* `Value` — the tree, objects in insertion order, with the lenient accessors;
* `parseValue` — the recursive-descent parser on the bytes still to be read, an error with the
  bytes left where it is raised;
* `write` — the printer, pretty or compact;
* `parse` / `stringify` — the two entry points.
-/

/-! ### Bytes -/

/-- A `std::string` of any bytes. -/
abbrev Bytes := List UInt8

/-- The byte of an ASCII character of the source. -/
abbrev ch (c : Char) : UInt8 := c.toUInt8

/-- The bytes of an ASCII literal of the source. -/
def bytes (s : String) : Bytes := s.toList.map Char.toUInt8

/-! ### Values -/

/-- A JSON value; an object keeps its members in their order. -/
inductive Value where
  | null
  | bool (b : Bool)
  | number (n : ℚ)
  | string (s : Bytes)
  | array (a : List Value)
  | object (o : List (Bytes × Value))

namespace Value

/-- Induction over the tree: an array or an object after all that is in it. -/
theorem induction {P : Value → Prop} (null : P .null) (bool : ∀ b, P (.bool b))
    (number : ∀ n, P (.number n)) (string : ∀ s, P (.string s))
    (array : ∀ a : List Value, (∀ v ∈ a, P v) → P (.array a))
    (object : ∀ o : List (Bytes × Value), (∀ m ∈ o, P m.2) → P (.object o)) (v : Value) : P v := by
  refine Value.rec (motive_1 := P) (motive_2 := fun a => ∀ v ∈ a, P v)
    (motive_3 := fun o => ∀ m ∈ o, P m.2) (motive_4 := fun m => P m.2)
    null bool number string array object ?_ ?_ ?_ ?_ ?_ v
  · simp
  · intro v a hv ha
    exact List.forall_mem_cons.mpr ⟨hv, ha⟩
  · simp
  · intro m o hm ho
    exact List.forall_mem_cons.mpr ⟨hm, ho⟩
  · exact fun _ _ h => h

mutual

/-- The depth of the innermost value, the root's being 0. -/
def depth : Value → ℕ
  | .array a => depthItems a
  | .object o => depthMembers o
  | _ => 0

/-- The depth of an array's items. -/
def depthItems : List Value → ℕ
  | [] => 0
  | v :: a => max (v.depth + 1) (depthItems a)

/-- The depth of an object's members. -/
def depthMembers : List (Bytes × Value) → ℕ
  | [] => 0
  | (_, v) :: o => max (v.depth + 1) (depthMembers o)

end

/-- An item lies less deep than its array. -/
theorem depth_item {a : List Value} {v : Value} (hv : v ∈ a) : v.depth < (array a).depth := by
  show v.depth < depthItems a
  induction a with
  | nil => simp at hv
  | cons w a ih =>
    rw [depthItems]
    rcases List.mem_cons.mp hv with rfl | hmem
    · omega
    · have htail := ih hmem
      omega

/-- A member lies less deep than its object. -/
theorem depth_member {o : List (Bytes × Value)} {m : Bytes × Value} (hm : m ∈ o) :
    m.2.depth < (object o).depth := by
  show m.2.depth < depthMembers o
  induction o with
  | nil => simp at hm
  | cons n o ih =>
    rw [depthMembers]
    rcases List.mem_cons.mp hm with rfl | hmem
    · omega
    · have htail := ih hmem
      omega

/-- All numbers of the tree are such. -/
inductive AllNumbers (p : ℚ → Prop) : Value → Prop
  | null : AllNumbers p .null
  | bool (b : Bool) : AllNumbers p (.bool b)
  | number {n : ℚ} : p n → AllNumbers p (.number n)
  | string (s : Bytes) : AllNumbers p (.string s)
  | array {a : List Value} : (∀ v ∈ a, AllNumbers p v) → AllNumbers p (.array a)
  | object {o : List (Bytes × Value)} : (∀ m ∈ o, AllNumbers p m.2) → AllNumbers p (.object o)

/-- `Value(int64_t)` and its kin: the integer as a `double`. -/
def ofInt (z : ℤ) : Value := .number (Binary64.nearest z)

/-- The value is an array. -/
def isArray : Value → Bool
  | .array _ => true
  | _ => false

/-- The value is an object. -/
def isObject : Value → Bool
  | .object _ => true
  | _ => false

/-- `asBool`: the default for a value of any other type. -/
def asBool (dflt : Bool) : Value → Bool
  | .bool b => b
  | _ => dflt

/-- `asNumber`. -/
def asNumber (dflt : ℚ) : Value → ℚ
  | .number n => n
  | _ => dflt

/-- The conversion to `int64_t` of a number out of its range is `INT64_MIN`, as on x64. -/
def asInt (dflt : ℤ) : Value → ℤ
  | .number n => if -2 ^ 63 ≤ toInt64 n ∧ toInt64 n < 2 ^ 63 then toInt64 n else -2 ^ 63
  | _ => dflt

/-- `asString`. -/
def asString (dflt : Bytes) : Value → Bytes
  | .string s => s
  | _ => dflt

/-- The items of an array, of any other value none. -/
def items : Value → List Value
  | .array a => a
  | _ => []

/-- The members of an object, of any other value none. -/
def members : Value → List (Bytes × Value)
  | .object o => o
  | _ => []

/-- `find`: the first member of that name. -/
def find (v : Value) (key : Bytes) : Option Value := v.members.lookup key

/-- `operator[]`: null where the member is missing. -/
def get (v : Value) (key : Bytes) : Value := (v.find key).getD .null

/-- The members with one inserted at the end or replaced where it is. -/
def setMember (key : Bytes) (v : Value) : List (Bytes × Value) → List (Bytes × Value)
  | [] => [(key, v)]
  | (k, existing) :: o => if k = key then (k, v) :: o else (k, existing) :: setMember key v o

/-- `set`: the member of that name is replaced, or added at the end. -/
def set (obj : Value) (key : Bytes) (v : Value) : Value := .object (setMember key v obj.members)

/-- `push`. -/
def push (arr v : Value) : Value := .array (arr.items ++ [v])

/-- `getBool`: the default where the member is missing or no bool. -/
def getBool (v : Value) (k : Bytes) (dflt : Bool) : Bool :=
  ((v.find k).map (asBool dflt)).getD dflt

/-- `getNumber`. -/
def getNumber (v : Value) (k : Bytes) (dflt : ℚ) : ℚ :=
  ((v.find k).map (asNumber dflt)).getD dflt

/-- `getInt`. -/
def getInt (v : Value) (k : Bytes) (dflt : ℤ) : ℤ :=
  ((v.find k).map (asInt dflt)).getD dflt

/-- `getString`. -/
def getString (v : Value) (k : Bytes) (dflt : Bytes) : Bytes :=
  ((v.find k).map (asString dflt)).getD dflt

end Value

/-! ### The parser -/

/-- An error's message and the bytes left where it is raised. -/
structure ParseError where
  msg : String
  rest : Bytes
deriving DecidableEq, Repr

/-- What a part of the parser returns; a result comes with the bytes after it. -/
abbrev Parsed := Except ParseError

/-- A parser that gives up, with what is left of the text. -/
def fail {α : Type} (msg : String) (rest : Bytes) : Parsed α := .error ⟨msg, rest⟩

/-- White space as the parser has it. -/
def isSpace (c : UInt8) : Bool := c == ch ' ' || c == ch '\t' || c == ch '\n' || c == ch '\r'

/-- Skips white space, and comments from `//` to the end of the line. -/
def skipWs : (inComment : Bool) → Bytes → Bytes
  | _, [] => []
  | true, c :: s => skipWs (c != ch '\n') s
  | false, c :: s =>
    if isSpace c then skipWs false s
    else if c = ch '/' ∧ s.head? = some (ch '/') then skipWs true s
    else c :: s

/-- A word that stands for a value. -/
def literal (word : String) (v : Value) (s : Bytes) : Parsed (Value × Bytes) :=
  if s.take word.length = bytes word then .ok (v, s.drop word.length)
  else fail "invalid literal" s

/-! ### Numbers -/

/-- A decimal digit. -/
def isDigit (c : UInt8) : Bool := ch '0' ≤ c && c ≤ ch '9'

/-- Whether a number token goes on with `c`, after `prev` inside the token: a sign only after an
    exponent's letter. -/
def tokenByte (prev : Option UInt8) (c : UInt8) : Bool :=
  isDigit c || c == ch '.' || c == ch 'e' || c == ch 'E' ||
    ((c == ch '-' || c == ch '+') && (prev == some (ch 'e') || prev == some (ch 'E')))

/-- The rest of a number token, and the bytes after it. -/
def tokenTail (prev : Option UInt8) : Bytes → Bytes × Bytes
  | [] => ([], [])
  | c :: s =>
    if tokenByte prev c then
      let (token, rest) := tokenTail (some c) s
      (c :: token, rest)
    else ([], c :: s)

/-- A number token: a leading sign is taken in any case. -/
def numberToken : Bytes → Bytes × Bytes
  | [] => ([], [])
  | c :: s =>
    if c = ch '-' ∨ c = ch '+' then
      let (token, rest) := tokenTail (some c) s
      (c :: token, rest)
    else tokenTail none (c :: s)

/-- The number a string of digits stands for. -/
def digitsValue (ds : Bytes) : ℕ := ds.foldl (fun v c => 10 * v + (c.toNat - 48)) 0

/-- A sign, if there is one: whether it is a minus, and the bytes after it. -/
def takeSign : Bytes → Bool × Bytes
  | [] => (false, [])
  | c :: s =>
    if c = ch '-' then (true, s) else if c = ch '+' then (false, s) else (false, c :: s)

/-- The exponent at the end of a number: 0 unless the letter is followed by digits. -/
def takeExponent : Bytes → ℤ
  | [] => 0
  | c :: s =>
    if c = ch 'e' ∨ c = ch 'E' then
      let (neg, s) := takeSign s
      let e : ℤ := digitsValue (s.takeWhile isDigit)
      if neg then -e else e
    else 0

/-- The value `strtod` reads before it rounds: that of the longest decimal number the token
    starts with. -/
def decimalValue (token : Bytes) : Option ℚ :=
  let (neg, s) := takeSign token
  let whole := s.takeWhile isDigit
  let s := s.dropWhile isDigit
  let (frac, s) :=
    if s.head? = some (ch '.') then (s.tail.takeWhile isDigit, s.tail.dropWhile isDigit)
    else ([], s)
  if whole = [] ∧ frac = [] then none
  else
    let q : ℚ := digitsValue (whole ++ frac) * 10 ^ (takeExponent s - frac.length)
    some (if neg then -q else q)

/-- `strtod`: nothing when no number is read or when it overflows. -/
def strtod (token : Bytes) : Option ℚ :=
  match decimalValue token with
  | none => none
  | some q => if Binary64.IsFinite q then some (Binary64.nearest q) else none

/-- A number: the bytes a token may have, as `strtod` reads them. -/
def parseNumber (s : Bytes) : Parsed (Value × Bytes) :=
  let (token, rest) := numberToken s
  if token.any isDigit then
    match strtod token with
    | some n => .ok (.number n, rest)
    | none => fail "invalid number" rest
  else fail "invalid number" rest

/-! ### Strings -/

/-- The UTF-8 encoding of a code point. -/
def appendUtf8 (cp : ℕ) : Bytes :=
  if cp < 0x80 then [cp.toUInt8]
  else if cp < 0x800 then [(0xC0 ||| cp >>> 6).toUInt8, (0x80 ||| cp &&& 0x3F).toUInt8]
  else if cp < 0x10000 then
    [(0xE0 ||| cp >>> 12).toUInt8, (0x80 ||| cp >>> 6 &&& 0x3F).toUInt8,
      (0x80 ||| cp &&& 0x3F).toUInt8]
  else
    [(0xF0 ||| cp >>> 18).toUInt8, (0x80 ||| cp >>> 12 &&& 0x3F).toUInt8,
      (0x80 ||| cp >>> 6 &&& 0x3F).toUInt8, (0x80 ||| cp &&& 0x3F).toUInt8]

/-- The value of a hexadecimal digit. -/
def hexDigit (c : UInt8) : Option ℕ :=
  if ch '0' ≤ c ∧ c ≤ ch '9' then some (c.toNat - 48)
  else if ch 'a' ≤ c ∧ c ≤ ch 'f' then some (c.toNat - 97 + 10)
  else if ch 'A' ≤ c ∧ c ≤ ch 'F' then some (c.toNat - 65 + 10)
  else none

/-- The loop of `hex4` over its digits, with the bytes after them. -/
def hexLoop (v : ℕ) (rest : Bytes) : Bytes → Parsed ℕ
  | [] => .ok v
  | c :: cs =>
    match hexDigit c with
    | some d => hexLoop (v * 16 + d) rest cs
    | none => .error ⟨"bad hex digit", cs ++ rest⟩

/-- The byte of an escape other than `\u`. -/
def escapeByte (e : UInt8) : Option UInt8 :=
  if e = ch '"' then some (ch '"')
  else if e = ch '\\' then some (ch '\\')
  else if e = ch '/' then some (ch '/')
  else if e = ch 'b' then some 8
  else if e = ch 'f' then some 12
  else if e = ch 'n' then some 10
  else if e = ch 'r' then some 13
  else if e = ch 't' then some 9
  else none

/-- More bytes in front of a parsed string. -/
def prepend (s : Bytes) (r : Parsed (Bytes × Bytes)) : Parsed (Bytes × Bytes) :=
  r.map fun (out, rest) => (s ++ out, rest)

/-- The first half of a surrogate pair. -/
def isHighSurrogate (cp : ℕ) : Bool := 0xD800 ≤ cp && cp ≤ 0xDBFF

/-- The second half. -/
def isLowSurrogate (cp : ℕ) : Bool := 0xDC00 ≤ cp && cp ≤ 0xDFFF

/-- The code point of a high surrogate and the escape read after it, which counts only when it is
    a low one. -/
def pairCodePoint (cp lo : ℕ) : ℕ :=
  if isLowSurrogate lo then 0x10000 + (cp - 0xD800) <<< 10 + (lo - 0xDC00) else cp

/-- A string from after its opening quote. -/
def parseChars : Bytes → Parsed (Bytes × Bytes)
  | [] => fail "unterminated string" []
  | c :: s =>
    if c = ch '"' then .ok ([], s)
    else if c = ch '\\' then
      match s with
      | [] => fail "unterminated string" []
      | e :: s =>
        if e = ch 'u' then
          match s with
          | a :: b :: c :: d :: s =>
            match hexLoop 0 s [a, b, c, d] with
            | .error err => .error err
            | .ok cp =>
              match s with
              | x :: y :: a :: b :: c :: d :: s =>
                if isHighSurrogate cp ∧ x = ch '\\' ∧ y = ch 'u' then
                  match hexLoop 0 s [a, b, c, d] with
                  | .error err => .error err
                  | .ok lo => prepend (appendUtf8 (pairCodePoint cp lo)) (parseChars s)
                else prepend (appendUtf8 cp) (parseChars (x :: y :: a :: b :: c :: d :: s))
              | s => prepend (appendUtf8 cp) (parseChars s)
          | s => fail "bad \\u escape" s
        else
          match escapeByte e with
          | some b => prepend [b] (parseChars s)
          | none => fail "bad escape" s
    else prepend [c] (parseChars s)

/-! ### Arrays and objects -/

/-- The loop of `parseArray` and `parseObject`: elements with commas between them up to the closing
    bracket, a comma before it tolerated.  Each round reads at least a byte. -/
def parseElems {α : Type} (elem : Bytes → Parsed (α × Bytes)) (close : UInt8)
    (unterminated expected : String) : (rounds : ℕ) → Bytes → Parsed (List α × Bytes)
  | 0, s => fail unterminated s
  | rounds + 1, s => do
    let (x, s) ← elem (skipWs false s)
    match skipWs false s with
    | [] => fail unterminated []
    | c :: s =>
      if c = ch ',' then
        let s := skipWs false s
        if s.head? = some close then return ([x], s.tail)
        else
          let (xs, s) ← parseElems elem close unterminated expected rounds s
          return (x :: xs, s)
      else if c = close then return ([x], s)
      else fail expected (c :: s)

/-- The elements from after the opening bracket. -/
def parseList {α : Type} (elem : Bytes → Parsed (α × Bytes)) (close : UInt8)
    (unterminated expected : String) (s : Bytes) : Parsed (List α × Bytes) :=
  let s := skipWs false s
  if s.head? = some close then .ok ([], s.tail)
  else parseElems elem close unterminated expected (s.length + 1) s

/-- An array, after its bracket. -/
def parseArray (item : Bytes → Parsed (Value × Bytes)) (s : Bytes) : Parsed (Value × Bytes) := do
  let (a, s) ← parseList item (ch ']') "unterminated array" "expected , or ]" s
  return (.array a, s)

/-- A key with its value. -/
def parseMember (item : Bytes → Parsed (Value × Bytes)) (s : Bytes) :
    Parsed ((Bytes × Value) × Bytes) :=
  if s.head? ≠ some (ch '"') then fail "expected key" s
  else do
    let (key, s) ← parseChars s.tail
    let s := skipWs false s
    if s.head? ≠ some (ch ':') then fail "expected :" s
    else
      let (v, s) ← item (skipWs false s.tail)
      return ((key, v), s)

/-- An object, after its brace. -/
def parseObject (item : Bytes → Parsed (Value × Bytes)) (s : Bytes) : Parsed (Value × Bytes) := do
  let (o, s) ← parseList (parseMember item) (ch '}') "unterminated object" "expected , or \x7d" s
  return (.object o, s)

/-- A value at one of the depths still allowed: the source's `depth` is `65 - left`. -/
def parseValue : (left : ℕ) → Bytes → Parsed (Value × Bytes)
  | 0, s => fail "nesting too deep" s
  | _ + 1, [] => fail "unexpected end" []
  | left + 1, c :: s =>
    if c = ch '{' then parseObject (parseValue left) s
    else if c = ch '[' then parseArray (parseValue left) s
    else if c = ch '"' then do
      let (str, s) ← parseChars s
      return (.string str, s)
    else if c = ch 't' then literal "true" (.bool true) (c :: s)
    else if c = ch 'f' then literal "false" (.bool false) (c :: s)
    else if c = ch 'n' then literal "null" .null (c :: s)
    else parseNumber (c :: s)

/-- What `parse` returns. -/
structure ParseResult where
  ok : Bool := false
  value : Value := .null
  error : Bytes := []
  errorOffset : ℕ := 0

/-- `Parser(text).run()`. -/
def run (t : Bytes) : ParseResult :=
  match parseValue 65 (skipWs false t) with
  | .error e =>
    { error := bytes (if e.msg = "" then "syntax error" else e.msg)
      errorOffset := t.length - e.rest.length }
  | .ok (v, s) =>
    let s := skipWs false s
    if s ≠ [] then
      { value := v, error := bytes "trailing characters", errorOffset := t.length - s.length }
    else { ok := true, value := v }

/-- `parse`: a UTF-8 byte order mark is skipped. -/
def parse (text : Bytes) : ParseResult :=
  if text.take 3 = [0xEF, 0xBB, 0xBF] then run (text.drop 3) else run text

/-! ### The printer -/

/-- `%d` of a number that is not negative. -/
def decimal (n : ℕ) : Bytes := (Nat.toDigits 10 n).map Char.toUInt8

/-- `%lld`. -/
def writeInt (z : ℤ) : Bytes := (if z < 0 then [ch '-'] else []) ++ decimal z.natAbs

/-- Digits after the point without the zeros at their end, and no point without digits. -/
def fraction (ds : Bytes) : Bytes :=
  let ds := ds.rdropWhile (· == ch '0')
  if ds = [] then [] else ch '.' :: ds

/-- `%.10g`: ten significant digits, in exponent form below `1e-4` and from `1e+10` on. -/
def writeGeneral (n : ℚ) : Bytes :=
  let x := Int.log 10 |n|
  let m := Binary64.roundEven (|n| / 10 ^ (x - 9))
  -- The rounded digits may carry into an eleventh.
  let (m, x) := if m = 10 ^ 10 then ((10 : ℤ) ^ 9, x + 1) else (m, x)
  let ds := decimal m.toNat
  (if n < 0 then [ch '-'] else []) ++
    if x < -4 ∨ 10 ≤ x then
      ds.take 1 ++ fraction (ds.drop 1) ++ [ch 'e', if x < 0 then ch '-' else ch '+'] ++
        (if x.natAbs < 10 then [ch '0'] else []) ++ decimal x.natAbs
    else if x < 0 then ch '0' :: fraction (List.replicate (x.natAbs - 1) (ch '0') ++ ds)
    else ds.take (x.toNat + 1) ++ fraction (ds.drop (x.toNat + 1))

/-- A number: as an integer where it is one, and otherwise with ten digits. -/
def writeNumber (n : ℚ) : Bytes :=
  if (⌊n⌋ : ℚ) = n ∧ |n| < 2 ^ 53 then writeInt (toInt64 n) else writeGeneral n

/-- A lower-case hexadecimal digit. -/
def hexChar (d : ℕ) : UInt8 := (if d < 10 then 48 + d else 87 + d).toUInt8

/-- A byte of a string, escaped where it has to be. -/
def writeByte (c : UInt8) : Bytes :=
  if c = ch '"' then bytes "\\\""
  else if c = ch '\\' then bytes "\\\\"
  else if c = 10 then bytes "\\n"
  else if c = 13 then bytes "\\r"
  else if c = 9 then bytes "\\t"
  else if c = 8 then bytes "\\b"
  else if c = 12 then bytes "\\f"
  else if c < 0x20 then bytes "\\u00" ++ [hexChar (c.toNat / 16), hexChar (c.toNat % 16)]
  else [c]

/-- A string in its quotes. -/
def writeString (s : Bytes) : Bytes := ch '"' :: s.flatMap writeByte ++ [ch '"']

/-- A line break with the indent after it; nothing in compact output. -/
def newline (pretty : Bool) (indent : ℕ) : Bytes :=
  if pretty then ch '\n' :: List.replicate (indent * 2) (ch ' ') else []

/-- Elements after one another, each with `lead` before it and all but the first with `sep`. -/
def joinElems (sep lead : Bytes) : List Bytes → Bytes
  | [] => []
  | [t] => lead ++ t
  | t :: ts => lead ++ t ++ sep ++ joinElems sep lead ts

/-- Short arrays of scalars stay on one line. -/
def isFlat (a : List Value) : Bool := a.length ≤ 16 && a.all fun e => !e.isArray && !e.isObject

mutual

/-- `write`: a value's text, at an indent. -/
def write (pretty : Bool) (indent : ℕ) : Value → Bytes
  | .null => bytes "null"
  | .bool b => bytes (if b then "true" else "false")
  | .number n => writeNumber n
  | .string s => writeString s
  | .array a =>
    if a.isEmpty then bytes "[]"
    else
      let flat := isFlat a
      ch '[' ::
        joinElems (if flat && pretty then bytes ", " else bytes ",")
          (if flat then [] else newline pretty (indent + 1)) (writeItems pretty (indent + 1) a) ++
        (if flat then [] else newline pretty indent) ++ [ch ']']
  | .object m =>
    if m.isEmpty then bytes "\x7b\x7d"
    else
      ch '{' ::
        joinElems (bytes ",") (newline pretty (indent + 1)) (writeMembers pretty (indent + 1) m) ++
        newline pretty indent ++ [ch '}']

/-- The texts of an array's items. -/
def writeItems (pretty : Bool) (indent : ℕ) : List Value → List Bytes
  | [] => []
  | v :: a => write pretty indent v :: writeItems pretty indent a

/-- The texts of an object's members. -/
def writeMembers (pretty : Bool) (indent : ℕ) : List (Bytes × Value) → List Bytes
  | [] => []
  | (k, v) :: m =>
    (writeString k ++ bytes (if pretty then ": " else ":") ++ write pretty indent v) ::
      writeMembers pretty indent m

end

/-- `stringify(v, pretty)`. -/
def stringify (v : Value) (pretty : Bool := true) : Bytes :=
  write pretty 0 v ++ if pretty then [ch '\n'] else []

end Json

end InfinityClicker
