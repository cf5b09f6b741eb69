import Mathlib.Tactic

/-! # Semantic versions and requirements

`Version.parse` and `Version.precedence` are SemVer 2.0.0; `Req.parse` and `Req.accepts` the
comparator syntax packages state their requirements in. Texts are taken character by character.
The identifiers of a version are kept as the text between its dots, as the source borrows them. -/

namespace NanoChrono.Ncpkg

/-- The longest version or requirement text accepted, in bytes. -/
def maxVersionLen : Nat := 128

/-- The most comparators in one requirement. -/
def maxComparators : Nat := 8

/-- A version: its numbers, its pre-release and its build identifiers (empty when absent). -/
structure Version where
  major : Nat
  minor : Nat
  patch : Nat
  pre : List Char
  build : List Char
  deriving DecidableEq, Repr

/-- `u64`'s bound, which `checked_mul` and `checked_add` refuse to pass. -/
def u64Bound : Nat := 2 ^ 64

/-- A numeric component: digits, no leading zero unless it is `0`, within 64 bits. -/
def number (s : List Char) : Option Nat :=
  if s.isEmpty || (s.length > 1 && s.head? == some '0') || !s.all Char.isDigit then none
  else s.foldlM (fun v b =>
    let v' := v * 10 + (b.toNat - '0'.toNat)
    if v' < u64Bound then some v' else none) 0

/-- Dot-separated identifiers of `[0-9A-Za-z-]`; numeric ones without a leading zero when
`strictNumeric`. -/
def identifiers (s : List Char) (strictNumeric : Bool) : Bool :=
  !s.isEmpty && (s.splitOn '.').all fun id =>
    !id.isEmpty && id.all (fun b => b.isAlphanum || b == '-') &&
      !(strictNumeric && id.length > 1 && id.head? == some '0' && id.all Char.isDigit)

/-- Texts in the order of their bytes. -/
@[grind =] def cmpText : List Char → List Char → Ordering
  | [], [] => .eq
  | [], _ :: _ => .lt
  | _ :: _, [] => .gt
  | a :: s, b :: t => (compare a.toNat b.toNat).then (cmpText s t)

/-- Two numeric identifiers of any length, without converting them. -/
def cmpNumeric (a b : List Char) : Ordering :=
  (compare a.length b.length).then (cmpText a b)

/-- Two pre-release identifiers: numbers before texts. -/
def cmpIdentifier (p q : List Char) : Ordering :=
  match p.all Char.isDigit, q.all Char.isDigit with
  | true, true => cmpNumeric p q
  | true, false => .lt
  | false, true => .gt
  | false, false => cmpText p q

/-- Lists of identifiers: the first difference decides, then the length. -/
def cmpIdentifiers : List (List Char) → List (List Char) → Ordering
  | [], [] => .eq
  | [], _ :: _ => .lt
  | _ :: _, [] => .gt
  | p :: x, q :: y => (cmpIdentifier p q).then (cmpIdentifiers x y)

/-- Two pre-releases: a release outranks its own. -/
def cmpPre (a b : List Char) : Ordering :=
  match a.isEmpty, b.isEmpty with
  | true, true => .eq
  | true, false => .gt
  | false, true => .lt
  | false, false => cmpIdentifiers (a.splitOn '.') (b.splitOn '.')

/-- The text before the first `c` and, if there is one, the text after it. -/
def splitOnce (c : Char) (s : List Char) : List Char × Option (List Char) :=
  match s.span (· != c) with
  | (l, []) => (l, none)
  | (l, _ :: r) => (l, some r)

/-- The optional identifiers after a mark, `none` when they are malformed. -/
def suffix (strictNumeric : Bool) : Option (List Char) → Option (List Char)
  | none => some []
  | some s => if identifiers s strictNumeric then some s else none

namespace Version

/-- Reads a version's text. -/
def parse (text : String) : Option Version := do
  let t := text.toList
  if t.isEmpty || maxVersionLen < text.utf8ByteSize then none else
  let (rest, b) := splitOnce '+' t
  let build ← suffix false b
  let (core, p) := splitOnce '-' rest
  let pre ← suffix true p
  match core.splitOn '.' with
  | [x, y, z] => return ⟨← number x, ← number y, ← number z, pre, build⟩
  | _ => none

/-- SemVer precedence: build metadata does not count. -/
def precedence (v w : Version) : Ordering :=
  (compare v.major w.major).then <| (compare v.minor w.minor).then <|
    (compare v.patch w.patch).then (cmpPre v.pre w.pre)

/-- Whether a version is a pre-release. -/
def isPrerelease (v : Version) : Bool :=
  !v.pre.isEmpty

end Version

/-- A comparison operator. -/
inductive CmpOp where
  | exact | greater | greaterEq | less | lessEq | tilde | caret
  /-- `1.*`, `1.2.*`. -/
  | wildcard
  /-- `*`: every release. -/
  | any
  deriving DecidableEq, Repr

/-- One comparator: an operator and a possibly partial version. -/
structure Comparator where
  op : CmpOp
  major : Nat
  minor : Option Nat
  patch : Option Nat
  pre : List Char
  deriving DecidableEq, Repr

/-- `1.*` turns `^1`, `~1` or `=1` into a wildcard; with `<` or `>` it is refused. -/
def wildcardOp : CmpOp → Option CmpOp
  | .caret | .tilde | .exact | .wildcard => some .wildcard
  | _ => none

/-- Unicode's white space, which trimming removes. -/
def isSpace (c : Char) : Bool :=
  let n := c.toNat
  (9 ≤ n && n ≤ 13) || n == 0x20 || n == 0x85 || n == 0xA0 || n == 0x1680 ||
    (0x2000 ≤ n && n ≤ 0x200A) || n == 0x2028 || n == 0x2029 || n == 0x202F || n == 0x205F ||
    n == 0x3000

/-- A text without the white space it starts with. -/
def trimStart (s : List Char) : List Char :=
  s.dropWhile isSpace

/-- A text without the white space around it. -/
def trim (s : List Char) : List Char :=
  (trimStart (trimStart s).reverse).reverse

namespace Comparator

/-- The operator a text starts with, and the rest. -/
def splitOp : List Char → CmpOp × List Char
  | '>' :: '=' :: r => (.greaterEq, r)
  | '<' :: '=' :: r => (.lessEq, r)
  | '>' :: r => (.greater, r)
  | '<' :: r => (.less, r)
  | '=' :: r => (.exact, r)
  | '~' :: r => (.tilde, r)
  | '^' :: r => (.caret, r)
  | r => (.caret, r)

/-- A component that stands for every number. -/
def wild (s : List Char) : Bool :=
  s == ['*'] || s == ['x'] || s == ['X']

/-- An optional component: absent, wild (which changes the operator) or a number. -/
def part (op : CmpOp) : Option (List Char) → Option (CmpOp × Option Nat)
  | none => some (op, none)
  | some s => if wild s then (wildcardOp op).map (·, none) else (number s).map (op, some ·)

/-- Reads one comparator. -/
def parse (text : List Char) : Option Comparator := do
  let text := trim text
  if text == ['*'] then return ⟨.any, 0, none, none, []⟩
  let (op, rest) := splitOp text
  let rest := trimStart rest
  if rest.contains '+' || rest.isEmpty then none else
  let (core, p) := splitOnce '-' rest
  let pre ← suffix true p
  match core.splitOn '.' with
  | x :: parts =>
    if 2 < parts.length then none else
    let major ← number x
    let (op, minor) ← part op parts[0]?
    if minor.isNone && parts[1]?.isSome then none else
    let (op, patch) ← part op parts[1]?
    -- A pre-release needs the full version it qualifies.
    if !pre.isEmpty && patch.isNone then none else
    return ⟨op, major, minor, patch, pre⟩
  | [] => none

/-- The full version a comparator names, if it names one. -/
def full (c : Comparator) : Option Version :=
  match c.minor, c.patch with
  | some m, some p => some ⟨c.major, m, p, c.pre, []⟩
  | _, _ => none

/-- Whether `v` passes one comparator. -/
def accepts (c : Comparator) (v : Version) : Bool :=
  match c.op, c.minor, c.full with
  | .any, _, _ => true
  | .wildcard, none, _ => v.major == c.major
  | .wildcard, some m, _ => v.major == c.major && v.minor == m
  | .exact, _, some full => v.precedence full == .eq
  | .exact, some m, none => v.major == c.major && v.minor == m
  | .exact, none, none => v.major == c.major
  | .greater, _, some full => v.precedence full == .gt
  | .greater, some m, none => c.major < v.major || (v.major == c.major && m < v.minor)
  | .greater, none, none => c.major < v.major
  | .greaterEq, _, some full => v.precedence full != .lt
  | .greaterEq, some m, none => c.major < v.major || (v.major == c.major && m ≤ v.minor)
  | .greaterEq, none, none => c.major ≤ v.major
  | .less, _, some full => v.precedence full == .lt
  | .less, some m, none => v.major < c.major || (v.major == c.major && v.minor < m)
  | .less, none, none => v.major < c.major
  | .lessEq, _, some full => v.precedence full != .gt
  | .lessEq, some m, none => v.major < c.major || (v.major == c.major && v.minor ≤ m)
  | .lessEq, none, none => v.major ≤ c.major
  | .tilde, some m, some full => v.precedence full != .lt && v.major == c.major && v.minor == m
  | .tilde, some m, none => v.major == c.major && v.minor == m
  | .tilde, none, _ => v.major == c.major
  | .caret, some m, some full =>
    v.precedence full != .lt &&
      if 0 < c.major then v.major == c.major
      else if 0 < m then v.major == 0 && v.minor == m
      else v.major == 0 && v.minor == 0 && v.patch == full.patch
  | .caret, some m, none =>
    if 0 < c.major then v.major == c.major && m ≤ v.minor else v.major == 0 && v.minor == m
  | .caret, none, _ => v.major == c.major

end Comparator

/-- A requirement: comparators, all of which must hold. -/
structure Req where
  comparators : List Comparator
  deriving DecidableEq, Repr

namespace Req

/-- Reads a requirement's text. -/
def parse (text : String) : Option Req := do
  let t := text.toList
  if (trim t).isEmpty || maxVersionLen < text.utf8ByteSize then none else
  let parts := t.splitOn ','
  if maxComparators < parts.length then none else
  return ⟨← parts.mapM Comparator.parse⟩

/-- Whether `v` passes every comparator; a pre-release passes only if one of them names a
pre-release of the same numbers. -/
def accepts (r : Req) (v : Version) : Bool :=
  r.comparators.all (·.accepts v) &&
    (!v.isPrerelease || r.comparators.any fun c =>
      !c.pre.isEmpty && c.major == v.major && c.minor == some v.minor && c.patch == some v.patch)

end Req

/-- Whether `version` satisfies `requirement`, both as text; `none` if either does not parse. -/
def satisfies (version requirement : String) : Option Bool := do
  return (← Req.parse requirement).accepts (← Version.parse version)

example : satisfies "1.4.2" "^1.2.0" = some true := by decide

example : satisfies "2.0.0-rc.1" ">=1.0.0, <3" = some false := by decide

end NanoChrono.Ncpkg
