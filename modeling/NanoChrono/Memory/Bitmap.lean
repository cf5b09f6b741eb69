import Mathlib.Data.BitVec
import Mathlib.Data.List.Basic

/-! # Bitmaps, and the first run of clear bits

A bitmap in words of so many bits, and the scan for so many clear bits in a row: one pass, with a count of the clear bits
that it has just passed. The scan ends at a run exactly if there is one (`runEnd_eq_none`). -/

namespace NanoChrono.Memory

/-! ## Bits -/

/-- The bits of `n` words of `w` bits. -/
abbrev Bitmap (w n : Nat) := Vector (BitVec w) n

namespace Bitmap

variable {w n : Nat}

/-- The bit of an index in its word. -/
def bit (w i : Nat) : BitVec w := 1#w <<< (i % w)

def test (map : Bitmap w n) (i : Nat) : Bool := (map[i / w]?.getD 0 &&& bit w i) != 0

/-- Sets a bit, or clears it. -/
def put (map : Bitmap w n) (i : Nat) (on : Bool) : Bitmap w n :=
  let word := map[i / w]?.getD 0
  map.setIfInBounds (i / w) (if on then word ||| bit w i else word &&& ~~~bit w i)

/-- Sets all of some bits, or clears them. -/
def putAll (map : Bitmap w n) (bits : List Nat) (on : Bool) : Bitmap w n :=
  bits.foldl (fun map i => map.put i on) map

theorem getLsbD_bit (hw : 0 < w) (i j : Nat) : (bit w i).getLsbD j = decide (j = i % w) := by
  have hlt : i % w < w := Nat.mod_lt i hw
  rw [bit, BitVec.getLsbD_shiftLeft, BitVec.getLsbD_one]
  by_cases hj : j = i % w
  · simp [hj, hlt, hw]
  · have hne : ¬j - i % w = 0 ∨ j < i % w := by omega
    rcases hne with hne | hne
    · simp [hj, hne]
    · simp [hj, hne]

/-- A bit is read off its word. -/
theorem test_eq (hw : 0 < w) (map : Bitmap w n) (i : Nat) :
    map.test i = (map[i / w]?.getD 0).getLsbD (i % w) := by
  rw [test]
  generalize map[i / w]?.getD 0 = word
  cases hbit : word.getLsbD (i % w) with
  | false =>
    have hzero : word &&& bit w i = 0#w := by
      apply BitVec.eq_of_getLsbD_eq
      intro j hj
      rw [BitVec.getLsbD_and, getLsbD_bit hw, BitVec.getLsbD_zero]
      by_cases hji : j = i % w
      · rw [hji, hbit, Bool.false_and]
      · rw [decide_eq_false hji, Bool.and_false]
    rw [hzero]
    exact bne_self_eq_false _
  | true =>
    have hne : word &&& bit w i ≠ 0#w := by
      intro hzero
      have hset := congrArg (fun word => BitVec.getLsbD word (i % w)) hzero
      rw [BitVec.getLsbD_and, getLsbD_bit hw, hbit, decide_eq_true rfl, BitVec.getLsbD_zero] at hset
      cases hset
    exact bne_iff_ne.2 hne

/-- A bit that is put is as it was put, and the others are as they were. -/
theorem test_put (map : Bitmap w n) {i : Nat} (on : Bool) (hi : i < w * n) (j : Nat) :
    (map.put i on).test j = if j = i then on else map.test j := by
  have hw : 0 < w := Nat.pos_of_mul_pos_right (Nat.lt_of_le_of_lt (Nat.zero_le i) hi)
  have hword : i / w < n := Nat.div_lt_of_lt_mul hi
  have hlt : j % w < w := Nat.mod_lt j hw
  rw [test_eq hw, test_eq hw, put]
  by_cases hsame : i / w = j / w
  · rw [← hsame, Vector.getElem?_setIfInBounds_self_of_lt hword, Option.getD_some]
    by_cases hji : j = i
    · rw [if_pos hji, hji]
      have hilt : i % w < w := Nat.mod_lt i hw
      cases on with
      | true => rw [if_pos rfl, BitVec.getLsbD_or, getLsbD_bit hw, decide_eq_true rfl, Bool.or_true]
      | false =>
        rw [if_neg Bool.false_ne_true, BitVec.getLsbD_and, BitVec.getLsbD_not, getLsbD_bit hw, decide_eq_true rfl]
        simp
    · have hbit : ¬j % w = i % w := by
        intro hmod
        have hj := Nat.div_add_mod j w
        rw [hmod, ← hsame, Nat.div_add_mod] at hj
        exact hji hj.symm
      rw [if_neg hji]
      cases on with
      | true => rw [if_pos rfl, BitVec.getLsbD_or, getLsbD_bit hw, decide_eq_false hbit, Bool.or_false]
      | false =>
        rw [if_neg Bool.false_ne_true, BitVec.getLsbD_and, BitVec.getLsbD_not, getLsbD_bit hw, decide_eq_false hbit,
          decide_eq_true hlt]
        simp
  · rw [Vector.getElem?_setIfInBounds_ne hsame, if_neg (fun hji => hsame (by rw [hji]))]

theorem test_putAll (map : Bitmap w n) (on : Bool) {bits : List Nat} (h : ∀ i ∈ bits, i < w * n) (j : Nat) :
    (map.putAll bits on).test j = if j ∈ bits then on else map.test j := by
  induction bits generalizing map with
  | nil => rw [if_neg List.not_mem_nil]; rfl
  | cons i bits ih =>
    rw [putAll, List.foldl_cons]
    refine (ih (map.put i on) fun k hk => h k (List.mem_cons_of_mem i hk)).trans ?_
    rw [test_put map on (h i List.mem_cons_self)]
    by_cases hj : j ∈ bits
    · rw [if_pos hj, if_pos (List.mem_cons_of_mem i hj)]
    · rw [if_neg hj]
      by_cases hji : j = i
      · rw [if_pos hji, if_pos (hji ▸ List.mem_cons_self)]
      · rw [if_neg hji, if_neg (List.not_mem_cons_of_ne_of_not_mem hji hj)]

/-- In a cleared map no bit is set. -/
theorem test_clear (hw : 0 < w) (i : Nat) : test (Vector.replicate n 0#w) i = false := by
  rw [test_eq hw, Vector.getElem?_replicate]
  split
  · rw [Option.getD_some, BitVec.getLsbD_zero]
  · exact BitVec.getLsbD_zero

end Bitmap

/-! ## Runs -/

/-- The scan for `need` free cells in a row, after `run` free ones: the last cell of the first such run. -/
@[grind =] def runEnd (busy : Nat → Bool) (need : Nat) : List Nat → (run : Nat) → Option Nat
  | [], _ => none
  | cell :: cells, run =>
    let run := if busy cell then 0 else run + 1
    if run = need then some cell else runEnd busy need cells run

/-- A run of free cells. -/
def FreeRun (busy : Nat → Bool) (first need : Nat) : Prop := ∀ cell, first ≤ cell → cell < first + need → busy cell = false

variable {busy : Nat → Bool} {need : Nat}

/-- What the scan ends at is the end of a run of free cells. -/
theorem runEnd_eq_some {start count run last : Nat} (hle : run ≤ start) (hlt : run < need)
    (hfree : FreeRun busy (start - run) run) (h : runEnd busy need (List.range' start count) run = some last) :
    last < start + count ∧ need ≤ last + 1 ∧ FreeRun busy (last + 1 - need) need := by
  induction count generalizing start run with
  | zero => cases h
  | succ count ih =>
    rw [List.range'_succ, runEnd] at h
    have hnext : FreeRun busy (start + 1 - (if busy start then 0 else run + 1)) (if busy start then 0 else run + 1) := by
      intro cell hfirst hlast
      cases hbusy : busy start with
      | true =>
        rw [hbusy, if_pos rfl] at hfirst hlast
        omega
      | false =>
        rw [hbusy, if_neg Bool.false_ne_true] at hfirst hlast
        by_cases hcell : cell = start
        · rw [hcell, hbusy]
        · exact hfree cell (by omega) (by omega)
    have hbound : (if busy start then 0 else run + 1) ≤ need ∧ (if busy start then 0 else run + 1) ≤ start + 1 := by
      split
      · exact ⟨Nat.zero_le need, Nat.zero_le _⟩
      · exact ⟨hlt, Nat.succ_le_succ hle⟩
    generalize (if busy start then 0 else run + 1) = next at h hnext hbound
    by_cases hend : next = need
    · rw [if_pos hend] at h
      obtain rfl := Option.some.inj h
      rw [hend] at hnext
      exact ⟨by omega, by omega, hnext⟩
    · rw [if_neg hend] at h
      obtain ⟨hlast, hneed, hrun⟩ := ih hbound.2 (by omega) hnext h
      exact ⟨by omega, hneed, hrun⟩

/-- The scan ends at nothing exactly if there is no such run among the cells and the free ones before them. -/
theorem runEnd_eq_none {start count run : Nat} (hle : run ≤ start) (hlt : run < need)
    (hfree : FreeRun busy (start - run) run) (hmost : run < start → busy (start - run - 1) = true) :
    runEnd busy need (List.range' start count) run = none ↔
      ¬∃ first, start - run ≤ first ∧ first + need ≤ start + count ∧ FreeRun busy first need := by
  induction count generalizing start run with
  | zero =>
    refine iff_of_true rfl ?_
    rintro ⟨first, hfirst, hlast, -⟩
    omega
  | succ count ih =>
    rw [List.range'_succ, runEnd]
    cases hbusy : busy start with
    | true =>
      have hzero : ¬(0 = need) := by omega
      rw [if_pos rfl, if_neg hzero, ih (Nat.zero_le _) (by omega) (fun cell h₁ h₂ => absurd h₂ (by omega))
        (fun _ => by rw [Nat.sub_zero, Nat.add_sub_cancel, hbusy])]
      -- A run that begins before this cell would take it in.
      refine not_congr (exists_congr fun first => ?_)
      constructor
      · rintro ⟨hfirst, hlast, hrun⟩
        exact ⟨by omega, by omega, hrun⟩
      · rintro ⟨hfirst, hlast, hrun⟩
        refine ⟨?_, by omega, hrun⟩
        by_contra hbefore
        have hclash := hrun start (by omega) (by omega)
        rw [hbusy] at hclash
        cases hclash
    | false =>
      have hnext : FreeRun busy (start + 1 - (run + 1)) (run + 1) := by
        intro cell hfirst hlast
        by_cases hcell : cell = start
        · rw [hcell, hbusy]
        · exact hfree cell (by omega) (by omega)
      rw [if_neg Bool.false_ne_true]
      by_cases hend : run + 1 = need
      · rw [if_pos hend]
        refine iff_of_false (Option.some_ne_none _) (not_not_intro ⟨start + 1 - (run + 1), by omega, by omega, ?_⟩)
        rw [← hend]
        exact hnext
      · rw [if_neg hend, ih (by omega) (by omega) hnext fun h => by
          rw [show start + 1 - (run + 1) - 1 = start - run - 1 by omega]
          exact hmost (by omega)]
        refine not_congr (exists_congr fun first => and_congr ?_ (and_congr ?_ Iff.rfl))
        · omega
        · omega

/-- From the first cell on: a run of free cells, or none if there is none. -/
theorem runEnd_range {count : Nat} (hneed : 0 < need) :
    (∀ last, runEnd busy need (List.range' 0 count) 0 = some last →
      last < count ∧ need ≤ last + 1 ∧ FreeRun busy (last + 1 - need) need) ∧
    (runEnd busy need (List.range' 0 count) 0 = none ↔ ¬∃ first, first + need ≤ count ∧ FreeRun busy first need) := by
  have hnone : FreeRun busy (0 - 0) 0 := fun cell h₁ h₂ => absurd h₂ (by omega)
  constructor
  · intro last h
    have hend := runEnd_eq_some (Nat.le_refl 0) hneed hnone h
    rwa [Nat.zero_add] at hend
  · rw [runEnd_eq_none (Nat.le_refl 0) hneed hnone fun h => absurd h (Nat.lt_irrefl 0)]
    simp

end NanoChrono.Memory
