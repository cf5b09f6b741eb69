import Mathlib.Data.BitVec
import Mathlib.Data.Finset.Card
import Mathlib.Data.Fintype.Basic

/-! # The weight of a word

The weight of a word is the number of its set bits; the distance of two words is the weight of
their difference. Words of weight one are single bits and words of weight two are pairs of bits
(`eq_bit_of_weight`, `eq_bits_of_weight`), and the parity of the weight is additive over exclusive
or (`weight_xor_mod`). -/

namespace NanoChrono.Ecc

variable {w : Nat}

/-- The positions of the set bits. -/
def support (x : BitVec w) : Finset (Fin w) := Finset.univ.filter fun i => x.getLsbD i = true

/-- The number of set bits. -/
def weight (x : BitVec w) : Nat := (support x).card

/-- The word with just the bit `i`. -/
def bit (w i : Nat) : BitVec w := 1#w <<< i

@[simp] theorem mem_support {x : BitVec w} {i : Fin w} : i ∈ support x ↔ x.getLsbD i = true := by
  simp [support]

/-- A word is its set bits. -/
theorem support_injective : Function.Injective (support : BitVec w → Finset (Fin w)) := by
  intro x y h
  apply BitVec.eq_of_getLsbD_eq
  intro i hi
  have := Finset.ext_iff.1 h ⟨i, hi⟩
  simp only [mem_support] at this
  exact Bool.eq_iff_iff.2 this

theorem getLsbD_bit {i j : Nat} : (bit w i).getLsbD j = (decide (j < w) && decide (j = i)) := by
  rw [bit, BitVec.getLsbD_shiftLeft, BitVec.getLsbD_one]
  by_cases hj : j < w
  · by_cases hji : j = i
    · subst hji
      simp [hj]
      omega
    · have : ¬ (i ≤ j ∧ j - i = 0) := by omega
      simp only [hj, hji, decide_true, decide_false, Bool.and_false, Bool.true_and]
      by_cases hij : j < i
      · simp [hij]
      · have : j - i ≠ 0 := by omega
        simp [this]
  · simp [hj]

@[simp] theorem support_zero : support (0#w) = ∅ := by
  ext i
  simp

theorem support_bit (i : Fin w) : support (bit w i) = {i} := by
  ext j
  rw [mem_support, getLsbD_bit]
  simp [Fin.ext_iff]

theorem support_xor (x y : BitVec w) :
    support (x ^^^ y) = support x \ support y ∪ support y \ support x := by
  ext i
  simp only [mem_support, BitVec.getLsbD_xor, Finset.mem_union, Finset.mem_sdiff]
  cases x.getLsbD i <;> cases y.getLsbD i <;> simp

/-! ## Small weights -/

@[simp] theorem weight_zero : weight (0#w) = 0 := by
  rw [weight, support_zero, Finset.card_empty]

theorem eq_zero_of_weight {x : BitVec w} (h : weight x = 0) : x = 0#w := by
  apply support_injective
  rw [support_zero]
  exact Finset.card_eq_zero.1 h

theorem weight_bit {i : Nat} (hi : i < w) : weight (bit w i) = 1 := by
  rw [weight, support_bit ⟨i, hi⟩, Finset.card_singleton]

/-- A word of weight one is a single bit. -/
theorem eq_bit_of_weight {x : BitVec w} (h : weight x = 1) : ∃ i < w, x = bit w i := by
  obtain ⟨i, hi⟩ := Finset.card_eq_one.1 h
  exact ⟨i, i.isLt, support_injective (hi.trans (support_bit i).symm)⟩

/-- A word of weight two is a pair of bits. -/
theorem eq_bits_of_weight {x : BitVec w} (h : weight x = 2) :
    ∃ i < w, ∃ j < w, i ≠ j ∧ x = bit w i ^^^ bit w j := by
  obtain ⟨i, j, hij, hx⟩ := Finset.card_eq_two.1 h
  refine ⟨i, i.isLt, j, j.isLt, fun heq => hij (Fin.ext heq), support_injective ?_⟩
  rw [hx, support_xor, support_bit, support_bit]
  ext k
  simp only [Finset.mem_insert, Finset.mem_singleton, Finset.mem_union, Finset.mem_sdiff]
  constructor
  · rintro (rfl | rfl)
    · exact .inl ⟨rfl, hij⟩
    · exact .inr ⟨rfl, fun heq => hij heq.symm⟩
  · rintro (⟨rfl, -⟩ | ⟨rfl, -⟩)
    · exact .inl rfl
    · exact .inr rfl

/-! ## Exclusive or -/

theorem weight_xor (x y : BitVec w) :
    weight (x ^^^ y) + 2 * (support x ∩ support y).card = weight x + weight y := by
  have hx := Finset.card_sdiff_add_card_inter (support x) (support y)
  have hy := Finset.card_sdiff_add_card_inter (support y) (support x)
  have hdisjoint : Disjoint (support x \ support y) (support y \ support x) :=
    disjoint_sdiff_sdiff
  rw [Finset.inter_comm] at hy
  rw [weight, support_xor, Finset.card_union_of_disjoint hdisjoint, weight, weight]
  omega

/-- The parity of the weight is additive. -/
theorem weight_xor_mod (x y : BitVec w) : weight (x ^^^ y) % 2 = (weight x + weight y) % 2 := by
  have := weight_xor x y
  omega

/-- Whether the number of set bits is odd. -/
def odd (x : BitVec w) : Bool := decide (weight x % 2 = 1)

@[simp] theorem odd_xor (x y : BitVec w) : odd (x ^^^ y) = (odd x ^^ odd y) := by
  rw [odd, odd, odd, weight_xor_mod, Nat.add_mod]
  rcases Nat.mod_two_eq_zero_or_one (weight x) with hx | hx <;>
    rcases Nat.mod_two_eq_zero_or_one (weight y) with hy | hy <;> simp [hx, hy]

theorem odd_bit {i : Nat} (hi : i < w) : odd (bit w i) = true := by
  rw [odd, weight_bit hi]
  rfl

/-- Masking distributes over exclusive or. -/
theorem xor_and (x y m : BitVec w) : (x ^^^ y) &&& m = (x &&& m) ^^^ (y &&& m) := by
  apply BitVec.eq_of_getLsbD_eq
  intro i _
  simp only [BitVec.getLsbD_and, BitVec.getLsbD_xor]
  cases x.getLsbD i <;> cases y.getLsbD i <;> simp

end NanoChrono.Ecc
