import NanoChrono.Json.Scan

/-! # Navigation in a validated document

The accessors of `Value` and `Str` scan the text again on every call. As in the validator, a position
is held as the bytes from there on. The iterators stop where the source's set their `done`. -/

namespace NanoChrono.Json

/-- What a value is. -/
inductive Kind where
  | object | array | string | number | bool | null
  deriving DecidableEq, Repr

/-! ## Skipping -/

/-- What follows a string, from inside it. -/
@[grind =] def skipRest : Bytes → Bytes
  | [] => []
  | [_] => []
  | c :: d :: r =>
    if c = backslash then skipRest r
    else if c = quote then d :: r
    else skipRest (d :: r)

/-- What follows the string that starts here. -/
def skipString (t : Bytes) : Bytes := skipRest (t.drop 1)

/-- What follows the container that starts here, inside `depth` brackets; each byte and each string
takes fuel. -/
@[grind =] def scan : Nat → Nat → Bytes → Bytes
  | 0, _, _ => []
  | _ + 1, _, [] => []
  | fuel + 1, depth, c :: r =>
    if c = quote then scan fuel depth (skipString (c :: r))
    else if c = openBrace ∨ c = openBracket then scan fuel (depth + 1) r
    else if c = closeBrace ∨ c = closeBracket then
      if depth - 1 = 0 then r else scan fuel (depth - 1) r
    else scan fuel depth r

/-- The bytes of numbers and words. -/
def isScalar (c : UInt8) : Bool :=
  isDigit c || c == minus || c == plus || c == point || c == letterE || c == 0x45 ||
    (0x61 ≤ c && c ≤ 0x7A)

/-- What follows the value that starts here. Exact on validated text. -/
def skipValue (t : Bytes) : Bytes :=
  match t with
  | [] => []
  | c :: _ =>
    if c = quote then skipString t
    else if c = openBrace ∨ c = openBracket then scan (t.length + 1) 0 t
    else t.dropWhile isScalar

/-! ## Strings -/

/-- A string as it stands in the text, escapes not yet decoded. -/
structure Str where
  raw : Bytes
  deriving DecidableEq, Repr

/-- The character of a code point, or the replacement character. -/
def fromU32 (v : Nat) : Char := if v.isValidChar then Char.ofNat v else '\uFFFD'

/-- The value of a hexadecimal digit. -/
def toDigit (c : Char) : Option Nat := if c.toNat < 128 then hexDigit (UInt8.ofNat c.toNat) else none

/-- `k` hexadecimal digits, and what follows the characters read. -/
@[grind =] def hexChars : Nat → Nat → List Char → Option Nat × List Char
  | 0, v, cs => (some v, cs)
  | _ + 1, _, [] => (none, [])
  | k + 1, v, c :: cs =>
    match toDigit c with
    | none => (none, cs)
    | some d => hexChars k (v * 16 + d) cs

/-- The character of a two-character escape. -/
def unescape (e : Char) : Char :=
  if e = '"' then '"'
  else if e = '\\' then '\\'
  else if e = '/' then '/'
  else if e = 'b' then '\x08'
  else if e = 'f' then '\x0c'
  else if e = 'n' then '\n'
  else if e = 'r' then '\r'
  else if e = 't' then '\t'
  else '\uFFFD'

/-- The character of a pair whose high half is `hi`, behind the low half's `\u`. -/
def lowHalf (hi : Nat) (cs : List Char) : Char × List Char :=
  let lo := (hexChars 4 0 cs).1.getD 0
  (if isLow lo then fromU32 (0x10000 + (hi - 0xD800) * 2 ^ 10 + (lo - 0xDC00)) else '\uFFFD',
    (hexChars 4 0 cs).2)

/-- The character behind a `\u`. -/
def unicodeChar (cs : List Char) : Char × List Char :=
  let hi := (hexChars 4 0 cs).1.getD 0xFFFD
  let rest := (hexChars 4 0 cs).2
  if isHigh hi then
    if rest.take 2 = ['\\', 'u'] then lowHalf hi (rest.drop 2) else ('\uFFFD', rest)
  else (fromU32 hi, rest)

/-- The next character of a string. -/
def nextChar (cs : List Char) : Option (Char × List Char) :=
  match cs with
  | [] => none
  | c :: cs =>
    if c ≠ '\\' then some (c, cs)
    else
      match cs with
      | [] => none
      | e :: cs => if e = 'u' then some (unicodeChar cs) else some (unescape e, cs)

/-- The characters, `fuel` at most. -/
@[grind =] def collectChars : Nat → List Char → List Char
  | 0, _ => []
  | fuel + 1, cs =>
    match nextChar cs with
    | none => []
    | some (c, cs) => c :: collectChars fuel cs

namespace Str

variable (s : Str)

/-- No escapes: the raw bytes are the string. -/
def isPlain : Bool := !s.raw.contains backslash

/-- The string itself, when it holds no escapes. -/
def asPlain : Option (List Char) := if s.isPlain then Utf8.chars? s.raw else none

/-- The decoded characters. -/
def chars : List Char := collectChars (s.raw.length + 1) ((Utf8.chars? s.raw).getD [])

/-- Whether the decoded string equals `cs`. -/
def eqStr (cs : List Char) : Bool :=
  if s.isPlain then s.raw == Utf8.encode cs else s.chars == cs

/-- The decoded length in UTF-8 bytes. -/
def decodedLen : Nat :=
  if s.isPlain then s.raw.length else (s.chars.map Char.utf8Size).sum

/-- The number of characters once decoded. -/
def charCount : Nat := s.chars.length

/-- The decoded string. -/
def toString : List Char := s.asPlain.getD s.chars

end Str

/-! ## Values -/

/-- A `u64`, if it fits. -/
def checkedU64 (x : Nat) : Option Nat := if x < 2 ^ 64 then some x else none

/-- An `i64`, if it fits. -/
def checkedI64 (x : Int) : Option Int := if -2 ^ 63 ≤ x ∧ x < 2 ^ 63 then some x else none

/-- One more decimal digit of a `u64`. -/
def pushU64 (v : Nat) (d : UInt8) : Option Nat := do
  checkedU64 ((← checkedU64 (v * 10)) + (d.toNat - 0x30))

/-- One more decimal digit of an `i64`. -/
def pushI64 (neg : Bool) (v : Int) (d : UInt8) : Option Int := do
  let v ← checkedI64 (v * 10)
  if neg then checkedI64 (v - (d.toNat - 0x30 : Nat)) else checkedI64 (v + (d.toNat - 0x30 : Nat))

namespace Value

variable (v : Value)

def kind : Kind :=
  match v.text.head? with
  | some c =>
    if c = openBrace then .object
    else if c = openBracket then .array
    else if c = quote then .string
    else if c = letterT ∨ c = letterF then .bool
    else if c = letterN then .null
    else .number
  | none => .number

/-- The value's exact bytes in the document. -/
def raw : Bytes := if v.e - v.s ≤ v.text.length then v.text.take (v.e - v.s) else []

def asStr : Option Str :=
  if v.kind ≠ .string ∨ v.e < v.s + 2 then none
  else if v.e - 1 - v.s ≤ v.text.length then some ⟨(v.text.drop 1).take (v.e - v.s - 2)⟩
  else none

def asBool : Option Bool :=
  if v.raw = [0x74, 0x72, 0x75, 0x65] then some true
  else if v.raw = [0x66, 0x61, 0x6C, 0x73, 0x65] then some false
  else none

def isNull : Bool := v.raw == [0x6E, 0x75, 0x6C, 0x6C]

/-- A non-negative integer written without a fraction or an exponent. -/
def asU64 : Option Nat :=
  if v.raw = [] ∨ v.raw.all isDigit = false then none else v.raw.foldlM pushU64 0

/-- An integer, possibly negative, without a fraction or an exponent. -/
def asI64 : Option Int :=
  let neg := v.raw.head? == some minus
  let digits := if neg then v.raw.tail else v.raw
  if digits = [] ∨ digits.all isDigit = false then none else digits.foldlM (pushI64 neg) 0

end Value

/-- The text from the next item of a container on. -/
def itemStart (t : Bytes) : Bytes :=
  match skipWs t with
  | [] => []
  | c :: r => if c = comma then skipWs r else c :: r

/-- An object's members: the text from the position on, the position, where the object ends. -/
structure Members where
  text : Bytes
  i : Nat
  stop : Nat
  done : Bool
  deriving DecidableEq, Repr

/-- The value that starts where `t` does, unless it ends past the container or is empty. -/
def valueAt (text : Bytes) (i stop : Nat) (t : Bytes) : Option Value :=
  let s := i + (text.length - t.length)
  let e := i + (text.length - (skipValue t).length)
  if stop < e ∨ e ≤ s then none else some ⟨s, e, t⟩

/-- The next member. -/
def Members.next (it : Members) : Option ((Str × Value) × Members) :=
  if it.done then none
  else
    let k := itemStart it.text
    if k.head? ≠ some quote then none
    else
      let key : Str := ⟨(k.drop 1).take (k.length - (skipString k).length - 2)⟩
      let r := skipWs (skipString k)
      if r.head? ≠ some colon then none
      else
        match valueAt it.text it.i it.stop (skipWs (r.drop 1)) with
        | none => none
        | some v => some ((key, v), ⟨skipValue v.text, v.e, it.stop, false⟩)

/-- The members, `fuel` at most. -/
@[grind =] def Members.collect : Nat → Members → List (Str × Value)
  | 0, _ => []
  | fuel + 1, it =>
    match it.next with
    | none => []
    | some (x, it) => x :: collect fuel it

/-- An array's elements. -/
structure Elements where
  text : Bytes
  i : Nat
  stop : Nat
  done : Bool
  deriving DecidableEq, Repr

/-- The next element. -/
def Elements.next (it : Elements) : Option (Value × Elements) :=
  if it.done then none
  else
    let t := itemStart it.text
    if t.head? = none ∨ t.head? = some closeBracket then none
    else
      match valueAt it.text it.i it.stop t with
      | none => none
      | some v => some (v, ⟨skipValue v.text, v.e, it.stop, false⟩)

/-- The elements, `fuel` at most. -/
@[grind =] def Elements.collect : Nat → Elements → List Value
  | 0, _ => []
  | fuel + 1, it =>
    match it.next with
    | none => []
    | some (x, it) => x :: collect fuel it

namespace Value

variable (v : Value)

/-- An object's members in document order; empty for anything else. A member takes a byte. -/
def members : List (Str × Value) :=
  Members.collect v.text.length ⟨v.text.drop 1, v.s + 1, v.e, v.kind != .object⟩

/-- An array's elements in document order; empty for anything else. -/
def elements : List Value :=
  Elements.collect v.text.length ⟨v.text.drop 1, v.s + 1, v.e, v.kind != .array⟩

/-- The first member named `key`. -/
def get (key : List Char) : Option Value := (v.members.find? (·.1.eqStr key)).map (·.2)

/-- Members of an object, or elements of an array; zero otherwise. -/
def len : Nat :=
  match v.kind with
  | .object => v.members.length
  | .array => v.elements.length
  | _ => 0

end Value

end NanoChrono.Json
