import NanoChrono.Json.Utf8

/-! # The grammar of JSON

RFC 8259 over the UTF-8 encodings of its characters: `Derives a b` says that the bytes `b` are a
value with the syntax tree `a`, `IsText` adds the white space around it. Strings keep the items they
are spelled with, numbers their text; `decode` says which characters a string stands for. -/

namespace NanoChrono.Json

/-- One item of a string as it is spelled. -/
inductive Item where
  /-- A character as it is. -/
  | plain (c : Char)
  /-- A two-character escape. -/
  | short (letter : UInt8)
  /-- A `\u` escape. -/
  | unicode (d₀ d₁ d₂ d₃ : UInt8)
  deriving DecidableEq, Repr

namespace Item

/-- The items the grammar has. -/
def Ok : Item → Prop
  | plain c => 0x20 ≤ c.toNat ∧ c ≠ '"' ∧ c ≠ '\\'
  | short l => isShort l = true
  | unicode d₀ d₁ d₂ d₃ => (hex4 d₀ d₁ d₂ d₃).isSome = true

/-- How an item is written. -/
def bytes : Item → Bytes
  | plain c => String.utf8EncodeChar c
  | short l => [backslash, l]
  | unicode d₀ d₁ d₂ d₃ => [backslash, letterU, d₀, d₁, d₂, d₃]

/-- The code unit of a `\u` escape. -/
def unit : Item → Option Nat
  | unicode d₀ d₁ d₂ d₃ => hex4 d₀ d₁ d₂ d₃
  | _ => none

/-- The character an item that is no surrogate stands for. -/
def char : Item → Char
  | plain c => c
  | short l =>
    if l = letterB then '\x08' else if l = letterF then '\x0c' else if l = letterN then '\n'
    else if l = letterR then '\r' else if l = letterT then '\t' else Char.ofNat l.toNat
  | unicode d₀ d₁ d₂ d₃ => Char.ofNat ((hex4 d₀ d₁ d₂ d₃).getD 0xFFFD)

end Item

/-- A string's spelling, without its quotes. -/
def spell (s : List Item) : Bytes := s.flatMap Item.bytes

/-- A high surrogate, escaped. -/
def Item.isHigh (x : Item) : Bool := x.unit.any Json.isHigh

/-- A low surrogate, escaped. -/
def Item.isLow (x : Item) : Bool := x.unit.any Json.isLow

/-- Every escaped surrogate is half of a pair. -/
@[grind =] def Paired : List Item → Prop
  | [] => True
  | [x] => x.isHigh = false ∧ x.isLow = false
  | x :: y :: s =>
    if x.isHigh then y.isLow = true ∧ Paired s else x.isLow = false ∧ Paired (y :: s)

/-- The character a pair of surrogates stands for. -/
def pairChar (x y : Item) : Char :=
  Char.ofNat (0x10000 + (x.unit.getD 0 - 0xD800) * 0x400 + (y.unit.getD 0 - 0xDC00))

/-- The characters a string stands for, if its surrogates are paired. -/
@[grind =] def decode : List Item → List Char
  | [] => []
  | [x] => [x.char]
  | x :: y :: s => if x.isHigh then pairChar x y :: decode s else x.char :: decode (y :: s)

/-- A syntax tree. -/
inductive Ast where
  | null
  | bool (b : Bool)
  | number (text : Bytes)
  | string (s : List Item)
  | array (xs : List Ast)
  | object (ms : List (List Item × Ast))

/-- White space. -/
def IsWs (w : Bytes) : Prop := ∀ c ∈ w, isWs c = true

/-- Digits. -/
def IsDigits (b : Bytes) : Prop := ∀ c ∈ b, isDigit c = true

/-- The parts of a number. -/
structure NumberParts where
  minus : Bytes
  integer : Bytes
  fraction : Bytes
  exponent : Bytes

/-- The parts as the grammar has them. -/
structure NumberParts.Ok (p : NumberParts) : Prop where
  minus : p.minus = [] ∨ p.minus = [Json.minus]
  integer : p.integer = [zero] ∨
    ∃ d ds, p.integer = d :: ds ∧ isDigit d = true ∧ d ≠ zero ∧ IsDigits ds
  fraction : p.fraction = [] ∨ ∃ ds, p.fraction = point :: ds ∧ ds ≠ [] ∧ IsDigits ds
  exponent : p.exponent = [] ∨ ∃ e sign ds, p.exponent = e :: (sign ++ ds) ∧
    (e = letterE ∨ e = 0x45) ∧ (sign = [] ∨ sign = [plus] ∨ sign = [Json.minus]) ∧
    ds ≠ [] ∧ IsDigits ds

/-- A number. -/
def IsNumber (b : Bytes) : Prop :=
  ∃ p : NumberParts, p.Ok ∧ b = p.minus ++ (p.integer ++ (p.fraction ++ p.exponent))

/-- An element of an array, and the white space around it. -/
structure Element where
  before : Bytes
  ast : Ast
  bytes : Bytes
  after : Bytes

def Element.text (e : Element) : Bytes := e.before ++ (e.bytes ++ e.after)

/-- A member of an object, and the white space in it. -/
structure Member where
  before : Bytes
  key : List Item
  colonBefore : Bytes
  colonAfter : Bytes
  ast : Ast
  bytes : Bytes
  after : Bytes

def Member.text (m : Member) : Bytes :=
  m.before ++ (quote :: (spell m.key ++ (quote ::
    (m.colonBefore ++ (colon :: (m.colonAfter ++ (m.bytes ++ m.after)))))))

/-- The bytes of a list's members from the second on. -/
def others (texts : List Bytes) : Bytes := texts.flatMap (comma :: ·)

/-- The bytes `b` are a value with the syntax tree `a`. -/
inductive Derives : Ast → Bytes → Prop
  | null : Derives .null [0x6E, 0x75, 0x6C, 0x6C]
  | true_ : Derives (.bool true) [0x74, 0x72, 0x75, 0x65]
  | false_ : Derives (.bool false) [0x66, 0x61, 0x6C, 0x73, 0x65]
  | number {b : Bytes} : IsNumber b → Derives (.number b) b
  | string {s : List Item} : (∀ x ∈ s, x.Ok) → Derives (.string s) (quote :: (spell s ++ [quote]))
  | emptyArray {w : Bytes} : IsWs w → Derives (.array []) (openBracket :: (w ++ [closeBracket]))
  | array {e : Element} {es : List Element} :
      (∀ x ∈ e :: es, IsWs x.before ∧ IsWs x.after) → (∀ x ∈ e :: es, Derives x.ast x.bytes) →
      Derives (.array ((e :: es).map Element.ast))
        (openBracket :: (e.text ++ (others (es.map Element.text) ++ [closeBracket])))
  | emptyObject {w : Bytes} : IsWs w → Derives (.object []) (openBrace :: (w ++ [closeBrace]))
  | object {m : Member} {ms : List Member} :
      (∀ x ∈ m :: ms, IsWs x.before ∧ IsWs x.colonBefore ∧ IsWs x.colonAfter ∧ IsWs x.after) →
      (∀ x ∈ m :: ms, ∀ i ∈ x.key, i.Ok) → (∀ x ∈ m :: ms, Derives x.ast x.bytes) →
      Derives (.object ((m :: ms).map fun x => (x.key, x.ast)))
        (openBrace :: (m.text ++ (others (ms.map Member.text) ++ [closeBrace])))

/-- The text `t` has the syntax tree `a`. -/
def IsText (a : Ast) (t : Bytes) : Prop :=
  ∃ w b w', IsWs w ∧ IsWs w' ∧ t = w ++ (b ++ w') ∧ Derives a b

/-- At most `d` levels are nested, every string satisfies `S` and every number `N`. -/
inductive Within (S : List Item → Prop) (N : Bytes → Prop) : Nat → Ast → Prop
  | null {d : Nat} : Within S N d .null
  | bool {d : Nat} (b : Bool) : Within S N d (.bool b)
  | number {d : Nat} {b : Bytes} : N b → Within S N d (.number b)
  | string {d : Nat} {s : List Item} : S s → Within S N d (.string s)
  | array {d : Nat} {xs : List Ast} : (∀ x ∈ xs, Within S N d x) → Within S N (d + 1) (.array xs)
  | object {d : Nat} {ms : List (List Item × Ast)} : (∀ m ∈ ms, S m.1) →
      (∀ m ∈ ms, Within S N d m.2) → Within S N (d + 1) (.object ms)

end NanoChrono.Json
