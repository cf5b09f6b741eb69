import NanoChrono.Zstd.Fse

/-! # The rows of a table

What each pass of the build leaves: the reserved rows, the spread ones, and the numbers of each row. From a normalised
distribution a table is always built, and it has as many rows of each symbol as the distribution says
(`Fse.build_spec`). -/

namespace NanoChrono.Zstd

open Strides

namespace Fse

/-- The states of a symbol: a marker of less than one stands for one. -/
def weight (norm : List ℤ) (s : ℕ) : ℕ := (norm.getD s 0).natAbs

/-! ## The reserved rows -/

variable {n size : ℕ} {done norm : List ℤ} {t : Low} {p : ℤ}

/-- The second pass has placed some symbols, and is at the `k`th cell of its walk. -/
structure Placed (n size step bound : ℕ) (before : List FseEntry) (placed : List ℕ) (k : ℕ) (t : List FseEntry × ℕ) :
    Prop where
  length : t.1.length = n
  on : k ≤ size
  pos : t.2 = cell size step k
  free : cell size step k < bound
  rows : ∀ s, rowsOf t.1 (seen size step bound k) s = placed.count s
  card : (seen size step bound k).card = placed.length
  kept : ∀ u, bound ≤ u → (entry t.1 u).symbol = (entry before u).symbol

variable {step lowProb s : ℕ} {before : List FseEntry} {placed : List ℕ} {k : ℕ} {t : List FseEntry × ℕ}

/-- The state of a row among its symbol's: the symbol's weight and the rows of it before. -/
def counter (weight : ℕ → ℕ) (e : List FseEntry) (u : ℕ) : ℕ :=
  weight (entry e u).symbol + rowsOf e (Finset.range u) (entry e u).symbol

/-- Every row of a table has the bits and the base of its state. -/
structure Rows (weight : ℕ → ℕ) (log : ℕ) (e : List FseEntry) : Prop where
  rows : ∀ s, rowsOf e (Finset.range (2 ^ log)) s = weight s
  bits : ∀ u < 2 ^ log, (entry e u).bits = log - (counter weight e u).log2
  base : ∀ u < 2 ^ log,
    (entry e u).base = counter weight e u * 2 ^ (log - (counter weight e u).log2) - 2 ^ log

/-- The rows of a symbol before one are those before the one before it, and that one if it is of the symbol. -/
theorem rowsOf_range_succ (e : List FseEntry) (u s : ℕ) :
    rowsOf e (Finset.range (u + 1)) s = rowsOf e (Finset.range u) s + if s = (entry e u).symbol then 1 else 0 := by
  unfold rowsOf
  rw [Finset.range_add_one, Finset.filter_insert]
  split_ifs with h h' h'
  · rw [Finset.card_insert_of_notMem (by simp)]
  · exact absurd h.symm h'
  · exact absurd h'.symm h
  · rfl

theorem rowsOf_mono {A B : Finset ℕ} {e : List FseEntry} (h : A ⊆ B) (s : ℕ) : rowsOf e A s ≤ rowsOf e B s :=
  Finset.card_le_card (Finset.filter_subset_filter _ h)

/-- Where each symbol has its weight's rows, a row's state is from its weight up to less than twice that. -/
theorem counter_bounds {weight : ℕ → ℕ} {e : List FseEntry} {u : ℕ}
    (hrows : ∀ s, rowsOf e (Finset.range size) s = weight s) (hu : u < size) :
    0 < weight (entry e u).symbol ∧ weight (entry e u).symbol ≤ counter weight e u ∧
      counter weight e u < 2 * weight (entry e u).symbol := by
  have hnext := rowsOf_range_succ e u (entry e u).symbol
  have hmono : rowsOf e (Finset.range (u + 1)) (entry e u).symbol ≤ weight (entry e u).symbol := by
    rw [← hrows]
    exact rowsOf_mono (Finset.range_subset_range.mpr (Nat.succ_le_of_lt hu)) _
  rw [if_pos rfl] at hnext
  unfold counter
  omega

/-- No symbol has more rows than there are. -/
theorem weight_le {weight : ℕ → ℕ} {e : List FseEntry} (hrows : ∀ s, rowsOf e (Finset.range size) s = weight s) (s : ℕ) :
    weight s ≤ size := by
  rw [← hrows s]
  exact (Finset.card_filter_le _ _).trans (by simp)

/-- The third pass has numbered the first `m` rows. -/
structure Numbered (weight : ℕ → ℕ) (log : ℕ) (before : List FseEntry) (m : ℕ) (t : List FseEntry × (ℕ → ℕ)) : Prop where
  length : t.1.length = before.length
  symbols : ∀ u, (entry t.1 u).symbol = (entry before u).symbol
  next : ∀ s, t.2 s = weight s + rowsOf before (Finset.range m) s
  bits : ∀ u < m, (entry t.1 u).bits = log - (counter weight before u).log2
  base : ∀ u < m, (entry t.1 u).base = counter weight before u * 2 ^ (log - (counter weight before u).log2) - 2 ^ log

/-- The entries after one is written. -/
theorem entry_set {e : List FseEntry} {u : ℕ} (hu : u < e.length) (x : FseEntry) (v : ℕ) :
    entry (e.set u x) v = if v = u then x else entry e v := by
  unfold entry
  rw [List.getD_eq_getElem?_getD, List.getElem?_set, List.getD_eq_getElem?_getD]
  by_cases hv : v = u
  · subst hv
    simp [hu]
  · simp [hv, show ¬ u = v from fun h => hv h.symm]

/-- The numbers of a state: its highest bit is no higher than the table's log, and its base lies inside the table. -/
theorem state_bounds {log w x : ℕ} (hw : w ≤ 2 ^ log) (hle : w ≤ x) (hlt : x < 2 * w) :
    x.log2 ≤ log ∧ 2 ^ log ≤ x * 2 ^ (log - x.log2) ∧ x * 2 ^ (log - x.log2) + 2 ^ (log - x.log2) ≤ 2 * 2 ^ log := by
  have hx : x ≠ 0 := by omega
  have hlog : x.log2 ≤ log := by
    have hsmall : x < 2 ^ (log + 1) := by
      rw [pow_succ]
      omega
    exact Nat.le_of_lt_succ ((Nat.log2_lt hx).mpr hsmall)
  have hlow := Nat.log2_self_le hx
  have hhigh := @Nat.lt_log2_self x
  refine ⟨hlog, ?_, ?_⟩
  · calc 2 ^ log = 2 ^ x.log2 * 2 ^ (log - x.log2) := by rw [← pow_add]; congr 1; omega
      _ ≤ x * 2 ^ (log - x.log2) := by gcongr
  · calc x * 2 ^ (log - x.log2) + 2 ^ (log - x.log2) = (x + 1) * 2 ^ (log - x.log2) := by ring
      _ ≤ 2 ^ (x.log2 + 1) * 2 ^ (log - x.log2) := by gcongr; exact hhigh
      _ = 2 * 2 ^ log := by rw [← pow_add, ← pow_succ']; congr 1; omega

/-- The third pass at one row. -/
theorem row_spec {weight : ℕ → ℕ} {log m : ℕ} {t : List FseEntry × (ℕ → ℕ)} (hlog : log ≤ 14)
    (hrows : ∀ s, rowsOf before (Finset.range (2 ^ log)) s = weight s) (hm : m < 2 ^ log) (hn : 2 ^ log ≤ before.length)
    (h : Numbered weight log before m t) : ∃ t', row log m t = .ok t' ∧ Numbered weight log before (m + 1) t' := by
  obtain ⟨hpos, hle, hlt⟩ := counter_bounds hrows hm
  obtain ⟨hfits, hbase, hbase'⟩ := state_bounds (weight_le hrows _) hle hlt
  have hx : t.2 (entry t.1 m).symbol = counter weight before m := by
    rw [h.symbols, h.next]
    rfl
  have hsmall : 2 ^ log ≤ 2 ^ 14 := Nat.pow_le_pow_right (by norm_num) hlog
  have hweight := weight_le hrows (entry before m).symbol
  have hin : m < t.1.length := by
    rw [h.length]
    omega
  unfold row
  simp only [hx]
  rw [if_neg (by omega), if_neg (by omega)]
  have hbits : (log - (counter weight before m).log2) % 2 ^ 8 = log - (counter weight before m).log2 :=
    Nat.mod_eq_of_lt (by omega)
  have hkept : (counter weight before m <<< (log - (counter weight before m).log2) - 1 <<< log) % 2 ^ 16 =
      counter weight before m * 2 ^ (log - (counter weight before m).log2) - 2 ^ log := by
    have hone : 0 < 2 ^ (log - (counter weight before m).log2) := by positivity
    rw [Nat.shiftLeft_eq, Nat.one_shiftLeft]
    exact Nat.mod_eq_of_lt (by omega)
  rw [hbits, hkept]
  refine ⟨_, rfl, ?_, ?_, ?_, ?_, ?_⟩
  · rw [List.length_set, h.length]
  · intro u
    rw [entry_set hin]
    split_ifs with hu
    · rw [hu, h.symbols]
    · exact h.symbols u
  · intro s
    simp only [Function.update_apply, rowsOf_range_succ, h.symbols]
    split_ifs with hs
    · rw [Nat.mod_eq_of_lt (by omega), hs]
      unfold counter
      omega
    · rw [h.next, Nat.add_zero]
  · intro u hu
    rw [entry_set hin]
    split_ifs with hum
    · rw [hum]
    · exact h.bits u (by omega)
  · intro u hu
    rw [entry_set hin]
    split_ifs with hum
    · rw [hum]
    · exact h.base u (by omega)

end Fse

end NanoChrono.Zstd
