import NanoChrono.Json.Utf8

/-! # The JSON validator

`parse` checks a whole text once, with a state machine that keeps one bit for each open container.
A position in the text is held as the bytes from there on; `n`, the length of the text, turns it
back into the offset an error reports. -/

namespace NanoChrono.Json

/-- Limits on a document. -/
structure Limits where
  /-- The whole text, in bytes. -/
  maxLen : Nat
  /-- Nesting of objects and arrays. At most 64. -/
  maxDepth : Nat
  /-- One string's raw length, in bytes. -/
  maxString : Nat
  deriving DecidableEq, Repr

/-- A package manifest's limits. -/
def Limits.MANIFEST : Limits := ⟨2 * 2 ^ 20, 16, 96 * 1024⟩

/-- The package database's. -/
def Limits.DATABASE : Limits := ⟨64 * 2 ^ 20, 16, 4096⟩

/-- What went wrong. -/
inductive ErrorKind where
  | empty | tooLong | tooDeep | badUtf8 | syntaxError | badString | badEscape | badNumber | stringTooLong
  | trailing
  deriving DecidableEq, Repr

/-- A parse error: its kind and the byte offset it was found at. -/
structure Error where
  kind : ErrorKind
  at_ : Nat
  deriving DecidableEq, Repr

/-- What the machine expects. -/
inductive State where
  | value
  /-- Just after `[`: a value or `]`. -/
  | arrayFirst
  /-- Just after `{`: a key or `}`. -/
  | objectFirst
  /-- After a comma in an object. -/
  | key
  | colon
  /-- After a value inside a container: `,` or the closing bracket. -/
  | next
  deriving DecidableEq, Repr

/-- Skips white space. -/
def skipWs (t : Bytes) : Bytes := t.dropWhile isWs

/-- Skips digits. -/
def digits (t : Bytes) : Bytes := t.dropWhile isDigit

section Scanner

variable (n : Nat) (limits : Limits)

/-- The offset of what `t` starts with. -/
def offset (t : Bytes) : Nat := n - t.length

/-- A word. -/
def literal (word t : Bytes) : Except Error Bytes :=
  if t.take word.length = word then .ok (t.drop word.length) else .error ⟨.syntaxError, offset n t⟩

/-- The integer part of a number. -/
def integer (t : Bytes) : Option Bytes :=
  match t with
  | [] => none
  | c :: r => if c = zero then some r else if isDigit c then some (digits r) else none

/-- One digit at least. -/
def someDigits (t : Bytes) : Option Bytes :=
  if (digits t).length < t.length then some (digits t) else none

/-- The fraction of a number, if it has one. -/
def fraction (t : Bytes) : Option Bytes :=
  match t with
  | [] => some []
  | c :: r => if c = point then someDigits r else some t

/-- A sign, if there is one. -/
def sign (t : Bytes) : Bytes :=
  match t with
  | [] => []
  | c :: r => if c = plus ∨ c = minus then r else t

/-- The exponent of a number, if it has one. -/
def exponent (t : Bytes) : Option Bytes :=
  match t with
  | [] => some []
  | c :: r => if c = letterE ∨ c = 0x45 then someDigits (sign r) else some t

/-- A number's sign. -/
def negative (t : Bytes) : Bytes :=
  match t with
  | [] => []
  | c :: r => if c = minus then r else t

/-- A number, of 64 characters at most. -/
def number (t : Bytes) : Except Error Bytes :=
  match integer (negative t) >>= fraction >>= exponent with
  | some r => if 64 < t.length - r.length then .error ⟨.badNumber, offset n t⟩ else .ok r
  | none => .error ⟨.badNumber, offset n t⟩

/-- A `\u` escape behind its `\u`: its code unit. -/
def codeUnit (t : Bytes) : Except Error Nat :=
  match t with
  | d₀ :: d₁ :: d₂ :: d₃ :: _ =>
    match hex4 d₀ d₁ d₂ d₃ with
    | some v => .ok v
    | none => .error ⟨.badEscape, offset n t⟩
  | _ => .error ⟨.badEscape, offset n t⟩

/-- The length of the escape `t` starts with. -/
def escape (t : Bytes) : Except Error Nat :=
  match t.drop 1 with
  | [] => .error ⟨.badEscape, offset n t⟩
  | e :: r =>
    if isShort e then .ok 2
    else if e = letterU then
      match codeUnit n r with
      | .error e => .error e
      | .ok v =>
        if isHigh v then
          -- A high surrogate must be followed at once by an escaped low one.
          if (r.drop 4).take 2 = [backslash, letterU] then
            match codeUnit n (r.drop 6) with
            | .error e => .error e
            | .ok w => if isLow w then .ok 12 else .error ⟨.badEscape, offset n t⟩
          else .error ⟨.badEscape, offset n t⟩
        else if isLow v then .error ⟨.badEscape, offset n t⟩
        else .ok 6
    else .error ⟨.badEscape, offset n t⟩

/-- How far to advance in a string that starts at `start`, `used` bytes of which are behind; not at
all at its closing quote. -/
def stringStep (start used : Nat) (t : Bytes) : Except Error Nat :=
  if limits.maxString < used then .error ⟨.stringTooLong, start⟩
  else
    match t with
    | [] => .error ⟨.badString, start⟩
    | c :: _ =>
      if c = quote then .ok 0
      else if c = backslash then escape n t
      else if c < 0x20 then .error ⟨.badString, offset n t⟩
      -- No byte of a multi-byte sequence is a quote, a backslash or a control character.
      else .ok 1

/-- Advances to the closing quote, `fuel` times at most, and over it. -/
@[grind =] def stringFrom (start : Nat) : Nat → Nat → Bytes → Except Error Bytes
  | 0, _, _ => .error ⟨.badString, start⟩
  | fuel + 1, used, t =>
    match stringStep n limits start used t with
    | .error e => .error e
    | .ok 0 => .ok (t.drop 1)
    | .ok (k + 1) => stringFrom start fuel (used + (k + 1)) (t.drop (k + 1))

/-- A string; `t` starts with its opening quote. -/
def string (t : Bytes) : Except Error Bytes :=
  stringFrom n limits (offset n t) t.length 0 (t.drop 1)

/-- The machine: what is left of the text, the open containers (a bit each, 1 for an object) and
their number, and what it expects. -/
structure Machine where
  rest : Bytes
  stack : Nat
  depth : Nat
  state : State
  deriving DecidableEq, Repr

/-- Where a step leads. -/
inductive Progress where
  | more (m : Machine)
  /-- The top-level value ended here. -/
  | over (rest : Bytes)
  deriving DecidableEq, Repr

/-- A value, scalar or closed container, just ended. -/
def ended (stack depth : Nat) (rest : Bytes) : Progress :=
  if depth = 0 then .over rest else .more ⟨rest, stack, depth, .next⟩

/-- The innermost container ends. -/
def closed (m : Machine) (rest : Bytes) : Progress := ended (m.stack / 2) (m.depth - 1) rest

/-- A container opens: its bit goes on the 64-bit stack. -/
def opened (m : Machine) (object : Bool) (rest : Bytes) : Progress :=
  .more ⟨rest, (m.stack * 2 + object.toNat) % 2 ^ 64, m.depth + 1,
    if object then .objectFirst else .arrayFirst⟩

/-- A value; `t` starts with `c`. -/
def value (maxDepth : Nat) (m : Machine) (c : UInt8) (t : Bytes) : Except Error Progress :=
  if c = openBrace ∨ c = openBracket then
    if maxDepth ≤ m.depth then .error ⟨.tooDeep, offset n t⟩
    else .ok (opened m (c == openBrace) t.tail)
  else if c = quote then (ended m.stack m.depth ·) <$> string n limits t
  else if c = minus ∨ isDigit c then (ended m.stack m.depth ·) <$> number n t
  else if c = letterT then (ended m.stack m.depth ·) <$> literal n [0x74, 0x72, 0x75, 0x65] t
  else if c = letterF then (ended m.stack m.depth ·) <$> literal n [0x66, 0x61, 0x6C, 0x73, 0x65] t
  else if c = letterN then (ended m.stack m.depth ·) <$> literal n [0x6E, 0x75, 0x6C, 0x6C] t
  else .error ⟨.syntaxError, offset n t⟩

/-- A key; `t` starts with `c`. -/
def key (m : Machine) (c : UInt8) (t : Bytes) : Except Error Progress :=
  if c = quote then (fun r => .more { m with rest := r, state := .colon }) <$> string n limits t
  else .error ⟨.syntaxError, offset n t⟩

/-- One token. -/
def step (maxDepth : Nat) (m : Machine) : Except Error Progress :=
  match skipWs m.rest with
  | [] => .error ⟨.syntaxError, offset n []⟩
  | c :: r =>
    match m.state with
    | .value => value n limits maxDepth m c (c :: r)
    | .arrayFirst =>
      if c = closeBracket then .ok (closed m r) else value n limits maxDepth m c (c :: r)
    | .objectFirst => if c = closeBrace then .ok (closed m r) else key n limits m c (c :: r)
    | .key => key n limits m c (c :: r)
    | .colon =>
      if c = colon then .ok (.more { m with rest := r, state := .value })
      else .error ⟨.syntaxError, offset n (c :: r)⟩
    | .next =>
      if m.stack % 2 = 1 then
        if c = comma then .ok (.more { m with rest := r, state := .key })
        else if c = closeBrace then .ok (closed m r)
        else .error ⟨.syntaxError, offset n (c :: r)⟩
      else
        if c = comma then .ok (.more { m with rest := r, state := .value })
        else if c = closeBracket then .ok (closed m r)
        else .error ⟨.syntaxError, offset n (c :: r)⟩

/-- Steps until the top-level value ends, `fuel` at most: a step takes a byte of the text. -/
@[grind =] def loop (maxDepth : Nat) : Nat → Machine → Except Error Bytes
  | 0, m => .error ⟨.syntaxError, offset n m.rest⟩
  | fuel + 1, m =>
    match step n limits maxDepth m with
    | .error e => .error e
    | .ok (.over r) => .ok r
    | .ok (.more m') => loop maxDepth fuel m'

/-- One complete value: where it ends. -/
def document (maxDepth : Nat) (t : Bytes) : Except Error Bytes :=
  loop n limits maxDepth (t.length + 1) ⟨t, 0, 0, .value⟩

end Scanner

/-- A value inside a document: its span, and the document's bytes from its start on. -/
structure Value where
  s : Nat
  e : Nat
  text : Bytes
  deriving DecidableEq, Repr

/-- Validates a text; its top-level value. -/
def parse (text : Bytes) (limits : Limits) : Except Error Value :=
  if limits.maxLen < text.length then .error ⟨.tooLong, limits.maxLen⟩
  else if (Utf8.chars? text).isNone then .error ⟨.badUtf8, Utf8.validUpTo text⟩
  else
    let n := text.length
    let start := skipWs text
    if start = [] then .error ⟨.empty, n⟩
    else
      match document n limits (min limits.maxDepth 64) start with
      | .error e => .error e
      | .ok r =>
        if skipWs r = [] then .ok ⟨offset n start, offset n r, start⟩
        else .error ⟨.trailing, offset n (skipWs r)⟩

end NanoChrono.Json
