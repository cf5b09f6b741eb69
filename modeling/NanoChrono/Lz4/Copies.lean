import Mathlib.Tactic
import NanoChrono.Buffer.Fields

/-! # Texts of literals and copies

What the blocks of dictionary compressors stand for, over any alphabet: sequences, each literals and then
a copy of what was written `distance` places before, which may reach into what it is itself writing. A
copy at a place where the text already repeats itself continues the text (`copy_take`). In a buffer, the first part of which is the text, a decoder makes a copy at
once or byte by byte (`take_copyMatch`). -/

namespace NanoChrono.Lz

variable {α : Type}

/-- A text continued by `k` places, each the one `d` before it. -/
@[grind =] def copy (d : Nat) : Nat → List α → List α
  | 0, out => out
  | k + 1, out => copy d k (out ++ out[out.length - d]?.toList)

/-- Literals, then a match: how far back it is and how long. -/
structure Sequence (α : Type) where
  literals : List α
  distance : Nat
  length : Nat
  deriving Repr

/-- A text continued by a sequence. -/
def Sequence.expand (out : List α) (s : Sequence α) : List α :=
  copy s.distance s.length (out ++ s.literals)

/-- A text continued by sequences. -/
def expand (out : List α) (seqs : List (Sequence α)) : List α :=
  seqs.foldl Sequence.expand out

@[simp] theorem copy_zero (d : Nat) (out : List α) : copy d 0 out = out := rfl

theorem copy_succ (d k : Nat) (out : List α) :
    copy d (k + 1) out = copy d k (out ++ out[out.length - d]?.toList) := rfl

@[simp] theorem expand_nil (out : List α) : expand out [] = out := rfl

@[simp] theorem expand_cons (out : List α) (s : Sequence α) (seqs : List (Sequence α)) :
    expand out (s :: seqs) = expand (s.expand out) seqs := rfl

@[simp] theorem expand_append (out : List α) (seqs seqs' : List (Sequence α)) :
    expand out (seqs ++ seqs') = expand (expand out seqs) seqs' :=
  List.foldl_append

theorem toList_getElem? {l : List α} {i : Nat} (h : i < l.length) : l[i]?.toList = [l[i]] := by
  rw [List.getElem?_eq_getElem h]
  rfl

/-- A copy that reaches inside the text has its length. -/
theorem length_copy {d k : Nat} {out : List α} (hd : 0 < d) (h : d ≤ out.length) :
    (copy d k out).length = out.length + k := by
  induction k generalizing out with
  | zero => rfl
  | succ k ih =>
    have hlen : (out ++ out[out.length - d]?.toList).length = out.length + 1 := by
      rw [toList_getElem? (by omega), List.length_append, List.length_singleton]
    rw [copy_succ, ih (by omega), hlen]
    omega

/-- Where a text repeats what is `d` places before, a copy of what is before continues it. -/
theorem copy_take {d i k : Nat} {text : List α} (hd : 0 < d) (hdi : d ≤ i) (hk : i + k ≤ text.length)
    (h : ∀ j < k, text[i + j]? = text[i + j - d]?) : copy d k (text.take i) = text.take (i + k) := by
  induction k generalizing i with
  | zero => rfl
  | succ k ih =>
    have hlen : (text.take i).length = i := List.length_take_of_le (by omega)
    have hsrc : (text.take i)[i - d]? = text[i]? := by
      rw [List.getElem?_take_of_lt (by omega)]
      exact (h 0 (Nat.succ_pos k)).symm
    have hnext : text.take i ++ text[i]?.toList = text.take (i + 1) := List.take_add_one.symm
    rw [copy_succ, hlen, hsrc, hnext, ih (by omega) (by omega), Nat.add_right_comm, Nat.add_assoc]
    intro j hj
    have hj' := h (j + 1) (Nat.succ_lt_succ hj)
    rwa [show i + (j + 1) = i + 1 + j by omega] at hj'

/-- A copy of no more than its distance is a piece of the text. -/
theorem copy_eq_append {d k : Nat} {out : List α} (hk : k ≤ d) (hd : d ≤ out.length) :
    copy d k out = out ++ (out.drop (out.length - d)).take k := by
  rcases Nat.eq_zero_or_pos k with rfl | hpos
  · simp
  set text := out ++ (out.drop (out.length - d)).take k with htext
  have hlen : text.length = out.length + k := by
    rw [htext, List.length_append, List.length_take_of_le (by rw [List.length_drop]; omega)]
  have hcopy : copy d k (text.take out.length) = text.take (out.length + k) := by
    refine copy_take (by omega) hd hlen.ge fun j hj => ?_
    rw [htext, List.getElem?_append_right (by omega), List.getElem?_append_left (by omega),
      List.getElem?_take_of_lt (by omega), List.getElem?_drop]
    congr 1
    omega
  rwa [htext, List.take_left, ← htext, List.take_of_length_le hlen.le] at hcopy

/-! ## In a buffer -/

open Buffer

/-- A match that overlaps what it writes, byte by byte. -/
@[grind =] def repeatFrom (distance : Nat) : Nat → Nat → List UInt8 → List UInt8
  | _, 0, out => out
  | i, k + 1, out => repeatFrom distance (i + 1) k (out.set i (out.getD (i - distance) 0))

/-- A match at `op`: at once where it does not reach into itself, else byte by byte. -/
def copyMatch (distance op ml : Nat) (out : List UInt8) : List UInt8 :=
  if ml ≤ distance then splice out op (slice out (op - distance) ml)
  else repeatFrom distance op ml out

theorem take_splice {b src : List UInt8} {pos : Nat} (h : pos + src.length ≤ b.length) :
    (splice b pos src).take (pos + src.length) = b.take pos ++ src := by
  rw [splice, ← List.append_assoc, List.take_left']
  rw [List.length_append, List.length_take_of_le (by omega)]

theorem length_repeatFrom (d i k : Nat) (out : List UInt8) :
    (repeatFrom d i k out).length = out.length := by
  induction k generalizing i out with
  | zero => rfl
  | succ k ih => rw [repeatFrom, ih, List.length_set]

/-- The byte-by-byte match is the copy. -/
theorem take_repeatFrom {d i k : Nat} {out : List UInt8} (hd : 0 < d) (hdi : d ≤ i)
    (hk : i + k ≤ out.length) : (repeatFrom d i k out).take (i + k) = copy d k (out.take i) := by
  induction k generalizing i out with
  | zero => rfl
  | succ k ih =>
    have hsrc : (out.take i)[(out.take i).length - d]?.toList = [out.getD (i - d) 0] := by
      rw [List.length_take_of_le (by omega), List.getElem?_take_of_lt (by omega),
        List.getD_eq_getElem?_getD, List.getElem?_eq_getElem (by omega)]
      rfl
    have hset : (out.set i (out.getD (i - d) 0)).take (i + 1) = out.take i ++ [out.getD (i - d) 0] := by
      rw [List.set_eq_take_append_cons_drop, if_pos (by omega), List.take_append,
        List.length_take_of_le (by omega), Nat.add_sub_cancel_left, List.take_take,
        Nat.min_eq_right (by omega)]
      rfl
    have hpos : i + (k + 1) = i + 1 + k := by omega
    rw [repeatFrom, hpos, ih (by omega) (by rw [List.length_set]; omega), hset, copy_succ, hsrc]

/-- Either way of writing a match is the copy. -/
theorem take_copyMatch {d op ml : Nat} {out : List UInt8} (hd : 0 < d) (hop : d ≤ op)
    (h : op + ml ≤ out.length) : (copyMatch d op ml out).length = out.length ∧
      (copyMatch d op ml out).take (op + ml) = copy d ml (out.take op) := by
  rw [copyMatch]
  split
  next hle =>
    have hslice : (slice out (op - d) ml).length = ml := by
      rw [length_slice]
      omega
    have htake := @take_splice out (slice out (op - d) ml) op (by omega)
    rw [hslice] at htake
    refine ⟨length_splice (by omega), ?_⟩
    rw [htake, copy_eq_append hle (by rw [List.length_take_of_le (by omega)]; omega),
      List.length_take_of_le (by omega), slice, List.drop_take, List.take_take,
      Nat.min_eq_left (by omega)]
  next => exact ⟨length_repeatFrom _ _ _ _, take_repeatFrom hd hop h⟩

end NanoChrono.Lz
