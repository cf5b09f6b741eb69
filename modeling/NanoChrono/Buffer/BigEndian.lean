import NanoChrono.Buffer.Fields

/-! # Checked reads and big-endian words

A read that names its range is made only if the buffer has all of it (`slice?`), and a word is read
from four bytes, the highest first. What was laid out in front of other bytes is read back from
where it begins (`slice?_middle`, `be32_middle`). -/

namespace NanoChrono.Buffer

section Ranges

variable {α : Type*}

/-- The `n` cells from `pos` on, if there are so many. -/
def slice? (b : List α) (pos n : Nat) : Option (List α) :=
  if pos + n ≤ b.length then some (slice b pos n) else none

theorem slice?_eq_some {b s : List α} {pos n : Nat} :
    slice? b pos n = some s ↔ pos + n ≤ b.length ∧ slice b pos n = s := by
  rw [slice?]
  split
  next h => exact ⟨fun heq => ⟨h, Option.some.inj heq⟩, fun heq => congrArg some heq.2⟩
  next h => exact ⟨fun heq => (by cases heq), fun heq => absurd heq.1 h⟩

/-- The middle of a concatenation. -/
theorem slice?_middle {s m t : List α} {pos n : Nat} (hpos : pos = s.length) (hn : n = m.length) :
    slice? (s ++ (m ++ t)) pos n = some m := by
  refine slice?_eq_some.mpr ⟨?_, slice_middle hpos hn⟩
  rw [List.length_append, List.length_append]
  omega

/-- What a read gives is part of the buffer. -/
theorem infix_of_slice? {b s : List α} {pos n : Nat} (h : slice? b pos n = some s) : s <:+: b := by
  obtain ⟨-, rfl⟩ := slice?_eq_some.mp h
  exact (List.take_prefix n _).isInfix.trans (List.drop_suffix pos b).isInfix

end Ranges

/-! ## Words -/

/-- The value of bytes, the highest first. -/
def beValue (b : List UInt8) : Nat := leValue b.reverse

/-- The four bytes of a word, the highest first. -/
def beBytes (v : Nat) : List UInt8 := (leBytes 4 v).reverse

/-- A word of a buffer. -/
def be32 (b : List UInt8) (pos : Nat) : Option Nat := (slice? b pos 4).map beValue

@[simp] theorem length_beBytes (v : Nat) : (beBytes v).length = 4 := by
  rw [beBytes, List.length_reverse, length_leBytes]

theorem beValue_beBytes {v : Nat} (h : v < 2 ^ 32) : beValue (beBytes v) = v := by
  rw [beValue, beBytes, List.reverse_reverse, leValue_leBytes_of_lt (by omega)]

theorem be32_within {b : List UInt8} {pos v : Nat} (h : be32 b pos = some v) : pos + 4 ≤ b.length := by
  obtain ⟨s, hs, -⟩ := Option.map_eq_some_iff.mp h
  exact (slice?_eq_some.mp hs).1

/-- A word is read from its bytes, whatever is before and behind them. -/
theorem be32_middle {s t : List UInt8} {pos v : Nat} (hpos : pos = s.length) (hv : v < 2 ^ 32) :
    be32 (s ++ (beBytes v ++ t)) pos = some v := by
  rw [be32, slice?_middle hpos (length_beBytes v).symm, Option.map_some, beValue_beBytes hv]

end NanoChrono.Buffer
