import Mathlib.Tactic
import NanoChrono.Memory.Spans

/-! # The physical frame table

`Frames N` is the kernel's allocator of physical memory: a sorted table of at most `N` free
page-aligned ranges. RAM is added first, then ranges are reserved, handed out from the top and given
back. A step that would need a slot the table lacks drops the smaller of two ranges and counts the
bytes it drops.

Addresses, lengths and the counter are unsigned 64-bit integers, natural numbers here with the
checked, saturating and wrapping operations written out. The array of `N` ranges with its length is
a list; the end of a range is its `stop`. -/

namespace NanoChrono.Memory

/-- The page size every range is aligned to. -/
def PAGE : Nat := 4096

/-- The largest unsigned 64-bit integer. -/
def U64_MAX : Nat := 2 ^ 64 - 1

/-- One free run, page-aligned. -/
abbrev Range := Span

/-! ## Arithmetic -/

def saturatingAdd (x y : Nat) : Nat := min (x + y) U64_MAX

def checkedAdd (x y : Nat) : Option Nat := if x + y ≤ U64_MAX then some (x + y) else none

/-- `x` rounded down to a multiple of `align`, a power of two: `x & !(align - 1)`. -/
def alignDown (x align : Nat) : Nat := x &&& (U64_MAX - (align - 1))

/-- `x` rounded up to a multiple of `align`, or `none` past the top of the address space. -/
def alignUp (x align : Nat) : Option Nat := (checkedAdd x (align - 1)).map (alignDown · align)

/-! ## The table -/

/-- The free ranges, at most `N` of them, the bytes lost to a full table, and whether RAM can no
longer be added. -/
structure Frames (N : Nat) where
  ranges : List Range
  dropped : Nat
  closed : Bool
deriving DecidableEq, Repr

/-- Swallows every range that overlaps or touches the new one: the ranges left, and the new one
widened by those it swallowed. -/
@[grind =] def swallow : List Range → Range → List Range × Range
  | [], new => ([], new)
  | r :: rs, new =>
    if r.stop ≥ new.base ∧ r.base ≤ new.stop then swallow rs (new.join r)
    else ((r :: (swallow rs new).1), (swallow rs new).2)

/-- The first of the smallest ranges, its index and its length. -/
@[grind =] def smallest : List Range → Nat × Nat
  | [] => (0, 0)
  | [r] => (0, r.len)
  | r :: r' :: rs =>
    let (i, len) := smallest (r' :: rs)
    if r.len ≤ len then (0, r.len) else (i + 1, len)

/-- The table with a range inserted, and the bytes dropped for it: in a full table the larger of the
new range and the smallest one held is kept. -/
def inserted (N : Nat) (ranges : List Range) (r : Range) : List Range × Nat :=
  if r.stop ≤ r.base then (ranges, 0)
  else
    let (kept, new) := swallow ranges r
    if kept.length = N then
      let (small, smallLen) := smallest kept
      if N = 0 ∨ smallLen ≥ new.len then (kept, new.len)
      else (placeSpan (kept.eraseIdx small) new, smallLen)
    else (placeSpan kept new, 0)

/-- The table with `[lo, hi)` removed, and the bytes dropped for it. `before` ranges of the table
lie below those listed: a split needs a slot that a table of `N` may lack, and keeps the larger half
then. -/
@[grind =] def removed (N lo hi : Nat) : Nat → List Range → List Range × Nat
  | _, [] => ([], 0)
  | before, r :: rs =>
    if r.stop ≤ lo ∨ r.base ≥ hi then
      let (rs', lost) := removed N lo hi (before + 1) rs
      (r :: rs', lost)
    else
      let left : Range := ⟨r.base, max lo r.base⟩
      let right : Range := ⟨min hi r.stop, r.stop⟩
      match left.isEmpty, right.isEmpty with
      | true, true => removed N lo hi before rs
      | false, true =>
        let (rs', lost) := removed N lo hi (before + 1) rs
        (left :: rs', lost)
      | true, false =>
        let (rs', lost) := removed N lo hi (before + 1) rs
        (right :: rs', lost)
      | false, false =>
        if before + 1 + rs.length = N then
          let (rs', lost) := removed N lo hi (before + 1) rs
          if left.len ≥ right.len then (left :: rs', right.len + lost)
          else (right :: rs', left.len + lost)
        else
          let (rs', lost) := removed N lo hi (before + 2) rs
          (left :: right :: rs', lost)

namespace Frames

variable {N : Nat}

/-- No memory at all. -/
def new (N : Nat) : Frames N := ⟨[], 0, false⟩

/-- The counter takes the bytes dropped: the plain addition of a release build, which wraps. -/
def update (f : Frames N) (change : List Range × Nat) : Frames N :=
  { f with ranges := change.1, dropped := (f.dropped + change.2) % 2 ^ 64 }

def close (f : Frames N) : Frames N := { f with closed := true }

def insert (f : Frames N) (r : Range) : Frames N := f.update (inserted N f.ranges r)

def remove (f : Frames N) (r : Range) : Frames N := f.update (removed N r.base r.stop 0 f.ranges)

/-- The whole pages inside `[base, base + len)`. -/
def inward (base len : Nat) : Option Range :=
  match alignUp base PAGE with
  | none => none
  | some lo =>
    let hi := alignDown (saturatingAdd base len) PAGE
    if hi > lo then some ⟨lo, hi⟩ else none

/-- Adds RAM the firmware reported, shrunk inward to whole pages. Refused once anything has been
reserved, allocated or freed. -/
def add (f : Frames N) (base len : Nat) : Frames N × Bool :=
  if f.closed then (f, false)
  else
    match inward base len with
    | none => (f, true)
    | some r => (f.insert r, true)

/-- The whole pages around `[base, base + len)`. -/
def outward (base len : Nat) : Range :=
  ⟨alignDown base PAGE,
    match alignUp (saturatingAdd base len) PAGE with
    | some h => h
    | none => U64_MAX - (PAGE - 1)⟩

/-- Takes `[base, base + len)` out of the free ranges, widened outward to whole pages. -/
def reserve (f : Frames N) (base len : Nat) : Frames N :=
  if len = 0 then f.close else f.close.remove (outward base len)

/-- The first range of the list, the highest first, that holds an aligned run below `ceiling`: where
that run starts. -/
@[grind =] def findRun (len align ceiling : Nat) : List Range → Option Nat
  | [] => none
  | r :: rs =>
    let top := min r.stop ceiling
    if top ≤ r.base ∨ top - r.base < len then findRun len align ceiling rs
    else
      let start := alignDown (top - len) align
      if start ≥ r.base then some start else findRun len align ceiling rs

/-- The run an allocation takes. -/
def allocRun (f : Frames N) (len align ceiling : Nat) : Option Range :=
  if len = 0 ∨ ¬ align.isPowerOfTwo then none
  else
    match alignUp len PAGE with
    | none => none
    | some len =>
      (findRun len (max align PAGE) (alignDown ceiling PAGE) f.ranges.reverse).map
        fun start => ⟨start, start + len⟩

/-- `len` bytes, rounded up to whole pages, aligned to `align`, lying entirely below `ceiling`. -/
def alloc (f : Frames N) (len align ceiling : Nat) : Frames N × Option Nat :=
  match f.allocRun len align ceiling with
  | none => (f.close, none)
  | some r => (f.close.remove r, some r.base)

/-- The run given back, unless it is refused. -/
def freeRun (f : Frames N) (base len : Nat) : Option Range :=
  if base % PAGE ≠ 0 ∨ len = 0 then none
  else
    match alignUp len PAGE with
    | none => none
    | some len =>
      match checkedAdd base len with
      | none => none
      | some stop =>
        if f.ranges.any fun r => decide (r.base < stop ∧ base < r.stop) then none
        else some ⟨base, stop⟩

/-- Gives back a run. Refused when it is not page-aligned or overlaps memory that is already free. -/
def free (f : Frames N) (base len : Nat) : Frames N × Bool :=
  match f.freeRun base len with
  | none => (f.close, false)
  | some r => (f.close.insert r, true)

end Frames

/-! ## Calls -/

/-- A call of the table's interface, with its 64-bit arguments. -/
inductive Call where
  | add (base len : UInt64)
  | reserve (base len : UInt64)
  | alloc (len align ceiling : UInt64)
  | free (base len : UInt64)
deriving DecidableEq, Repr

/-- What a call answers. -/
inductive Answer where
  | done (ok : Bool)
  | run (start : Option Nat)
deriving DecidableEq, Repr

namespace Frames

variable {N : Nat}

/-- One call. -/
def step (f : Frames N) : Call → Frames N × Answer
  | .add base len =>
    let (f, ok) := f.add base.toNat len.toNat
    (f, .done ok)
  | .reserve base len => (f.reserve base.toNat len.toNat, .done true)
  | .alloc len align ceiling =>
    let (f, start) := f.alloc len.toNat align.toNat ceiling.toNat
    (f, .run start)
  | .free base len =>
    let (f, ok) := f.free base.toNat len.toNat
    (f, .done ok)

/-- The bytes a call drops for want of a slot. -/
def loss (f : Frames N) : Call → Nat
  | .add base len =>
    if f.closed then 0
    else ((inward base.toNat len.toNat).map fun r => (inserted N f.ranges r).2).getD 0
  | .reserve base len =>
    if len = 0 then 0
    else
      let r := outward base.toNat len.toNat
      (removed N r.base r.stop 0 f.ranges).2
  | .alloc len align ceiling =>
    ((f.allocRun len.toNat align.toNat ceiling.toNat).map
      fun r => (removed N r.base r.stop 0 f.ranges).2).getD 0
  | .free base len =>
    ((f.freeRun base.toNat len.toNat).map fun r => (inserted N f.ranges r).2).getD 0

end Frames

end NanoChrono.Memory
