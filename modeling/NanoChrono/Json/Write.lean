import NanoChrono.Json.Navigate

/-! # Owned values and the writer

`Owned` (the source's `Json`) is a value outside any text: the writer lays it out compact or indented, its
members in insertion order or sorted by key; `Value.toJson` reads one back out of a document. -/

namespace NanoChrono.Json

/-- An owned value. Numbers are integers. -/
inductive Owned where
  | null
  | bool (b : Bool)
  | int (v : Int64)
  | str (s : List Char)
  | arr (items : List Owned)
  /-- Members in insertion order. -/
  | obj (members : List (List Char × Owned))

/-- How a document is laid out. -/
structure Style where
  /-- Members sorted by key, in byte order. -/
  sortKeys : Bool
  /-- Two-space indentation and a newline after each member. -/
  pretty : Bool
  deriving DecidableEq, Repr

namespace Style

/-- Sorted and compact: one spelling per document. -/
def CANONICAL : Style := ⟨true, false⟩

/-- Insertion order, indented: for files people read. -/
def PRETTY : Style := ⟨false, true⟩

end Style

/-! ## Writing -/

/-- A hexadecimal digit in lower case. -/
def hexLower (d : Nat) : UInt8 := UInt8.ofNat (if d < 10 then 0x30 + d else 0x61 + (d - 10))

/-- Four hexadecimal digits, zeros in front. -/
def hexPadded (n : Nat) : Bytes :=
  [hexLower (n / 16 ^ 3 % 16), hexLower (n / 16 ^ 2 % 16), hexLower (n / 16 % 16), hexLower (n % 16)]

/-- A character in a string: quotes, backslashes and control characters escaped. -/
def escaped (c : Char) : Bytes :=
  if c = '"' then [backslash, quote]
  else if c = '\\' then [backslash, backslash]
  else if c = '\n' then [backslash, letterN]
  else if c = '\r' then [backslash, letterR]
  else if c = '\t' then [backslash, letterT]
  else if c = '\x08' then [backslash, letterB]
  else if c = '\x0c' then [backslash, letterF]
  else if c.toNat < 0x20 then backslash :: letterU :: hexPadded c.toNat
  else String.utf8EncodeChar c

/-- A string in JSON's spelling. -/
def writeString (s : List Char) : Bytes := quote :: (s.flatMap escaped ++ [quote])

/-- An integer in decimal. -/
def writeInt (v : Int64) : Bytes :=
  (if v.toInt < 0 then [minus] else []) ++
    (Nat.toDigits 10 v.toInt.natAbs).map fun c => UInt8.ofNat c.toNat

/-- A line's end and the next one's indentation, unless the style is compact. -/
def newline (style : Style) (indent : Nat) : Bytes :=
  if style.pretty then 0x0A :: (List.replicate indent [0x20, 0x20]).flatten else []

/-- Texts with commas in between. -/
def joined : List Bytes → Bytes
  | [] => []
  | x :: texts => x ++ texts.flatMap (comma :: ·)

/-- Members sorted by key, those of one key as they were. -/
def sortMembers (members : List (List Char × Owned)) : List (List Char × Owned) :=
  members.mergeSort fun a b => (compare (Utf8.encode a.1) (Utf8.encode b.1)).isLE

/-- Members in the order they are written. -/
def order (style : Style) (members : List (List Char × Owned)) : List (List Char × Owned) :=
  if style.sortKeys then sortMembers members else members

theorem sortMembers_perm (members : List (List Char × Owned)) : (sortMembers members).Perm members :=
  List.mergeSort_perm members _

/-- Keys come in byte order. -/
theorem sortMembers_sorted (members : List (List Char × Owned)) : (sortMembers members).Pairwise
    fun a b => (compare (Utf8.encode a.1) (Utf8.encode b.1)).isLE = true := by
  refine List.pairwise_mergeSort (fun a b c hab hbc => ?_) (fun a b => ?_) members
  · exact Std.TransCmp.isLE_trans hab hbc
  · have hswap : compare (Utf8.encode b.1) (Utf8.encode a.1) =
        (compare (Utf8.encode a.1) (Utf8.encode b.1)).swap := Std.OrientedCmp.eq_swap
    rw [hswap]
    cases compare (Utf8.encode a.1) (Utf8.encode b.1) <;> rfl

theorem mem_order {style : Style} {members : List (List Char × Owned)} {m : List Char × Owned} :
    m ∈ order style members ↔ m ∈ members := by
  rw [order]
  split
  · exact (sortMembers_perm members).mem_iff
  · rfl

namespace Owned

/-- Appends the document in `style`, `indent` levels deep. -/
def writeInto (style : Style) (indent : Nat) : Owned → Bytes
  | null => [0x6E, 0x75, 0x6C, 0x6C]
  | bool b => if b then [0x74, 0x72, 0x75, 0x65] else [0x66, 0x61, 0x6C, 0x73, 0x65]
  | int v => writeInt v
  | str s => writeString s
  | arr items =>
    openBracket :: (joined (items.attach.map fun item =>
        newline style (indent + 1) ++ writeInto style (indent + 1) item.1) ++
      ((if items = [] then [] else newline style indent) ++ [closeBracket]))
  | obj members =>
    openBrace :: (joined ((order style members).attach.map fun m =>
        newline style (indent + 1) ++ (writeString m.1.1 ++ (colon ::
          ((if style.pretty then [0x20] else []) ++ writeInto style (indent + 1) m.1.2)))) ++
      ((if members = [] then [] else newline style indent) ++ [closeBrace]))
termination_by j => sizeOf j
decreasing_by
  · have := List.sizeOf_lt_of_mem item.2
    simp only [arr.sizeOf_spec]
    omega
  · have := List.sizeOf_lt_of_mem (mem_order.1 m.2)
    have : sizeOf m.1 = 1 + sizeOf m.1.1 + sizeOf m.1.2 := rfl
    simp only [obj.sizeOf_spec]
    omega

/-- The document as text in `style`. -/
def write (style : Style) (j : Owned) : Bytes :=
  j.writeInto style 0 ++ (if style.pretty then [0x0A] else [])

end Owned

/-! ## Reading back -/

/-- A value found in a container lies in it. -/
theorem valueAt_within {text t : Bytes} {i stop : Nat} {v : Value} (h : valueAt text i stop t = some v) :
    i ≤ v.s ∧ v.s < v.e ∧ v.e ≤ stop := by
  rw [valueAt] at h
  split at h
  · cases h
  next hin =>
    cases h
    dsimp only
    omega

theorem Elements.next_within {it it' : Elements} {v : Value} (h : it.next = some (v, it')) :
    (it.i ≤ v.s ∧ v.s < v.e ∧ v.e ≤ it.stop) ∧ it'.i = v.e ∧ it'.stop = it.stop := by
  rw [Elements.next] at h
  split at h
  · cases h
  dsimp only at h
  split at h
  · cases h
  split at h
  · cases h
  next hv =>
    cases h
    exact ⟨valueAt_within hv, rfl, rfl⟩

theorem Elements.collect_within {fuel : Nat} {it : Elements} {v : Value} (h : v ∈ collect fuel it) :
    it.i ≤ v.s ∧ v.s < v.e ∧ v.e ≤ it.stop := by
  induction fuel generalizing it with
  | zero => cases h
  | succ fuel ih =>
    rw [collect] at h
    split at h
    · cases h
    next x it' hnext =>
      obtain ⟨hx, hi, hstop⟩ := Elements.next_within hnext
      rcases List.mem_cons.1 h with rfl | h
      · exact hx
      · have hrest := ih h
        omega

theorem Members.next_within {it it' : Members} {p : Str × Value} (h : it.next = some (p, it')) :
    (it.i ≤ p.2.s ∧ p.2.s < p.2.e ∧ p.2.e ≤ it.stop) ∧ it'.i = p.2.e ∧ it'.stop = it.stop := by
  rw [Members.next] at h
  split at h
  · cases h
  dsimp only at h
  split at h
  · cases h
  split at h
  · cases h
  split at h
  · cases h
  next hv =>
    cases h
    exact ⟨valueAt_within hv, rfl, rfl⟩

theorem Members.collect_within {fuel : Nat} {it : Members} {p : Str × Value} (h : p ∈ collect fuel it) :
    it.i ≤ p.2.s ∧ p.2.s < p.2.e ∧ p.2.e ≤ it.stop := by
  induction fuel generalizing it with
  | zero => cases h
  | succ fuel ih =>
    rw [collect] at h
    split at h
    · cases h
    next x it' hnext =>
      obtain ⟨hx, hi, hstop⟩ := Members.next_within hnext
      rcases List.mem_cons.1 h with rfl | h
      · exact hx
      · have hrest := ih h
        omega

namespace Value

theorem elements_within {v w : Value} (h : w ∈ v.elements) : v.s < w.s ∧ w.s < w.e ∧ w.e ≤ v.e :=
  Elements.collect_within h

theorem members_within {v : Value} {p : Str × Value} (h : p ∈ v.members) :
    v.s < p.2.s ∧ p.2.s < p.2.e ∧ p.2.e ≤ v.e :=
  Members.collect_within h

/-- The value as an owned one; `none` if it holds a number that is not an `i64`. -/
def toJson (v : Value) : Option Owned :=
  match v.kind with
  | .null => some .null
  | .bool => v.asBool.map .bool
  | .number => v.asI64.map fun i => .int (Int64.ofInt i)
  | .string => v.asStr.map fun s => .str s.toString
  | .array => (v.elements.attach.mapM fun w => toJson w.1).map .arr
  | .object => (v.members.attach.mapM fun m => (toJson m.1.2).map fun j => (m.1.1.toString, j)).map .obj
termination_by v.e - v.s
decreasing_by
  · have := elements_within w.2
    omega
  · have := members_within m.2
    omega

end Value

end NanoChrono.Json
