import Mathlib.Tactic.Ring
import Mathlib.Data.List.Basic

/-! # Sweeps over a rectangle

A memory holds a picture row by row, `width` cells a row. A sweep runs through a rectangle of it
and changes each cell by what it finds there; a move copies a rectangle onto another, row by row,
in the order that reads every row before it is overwritten. -/

namespace NanoChrono.Sweep

variable {α : Type*}

/-! ## Cells -/

/-- Two cells of a picture are one where their rows and their columns are. -/
theorem cell_inj {width px py qx qy : ℕ} (hp : px < width) (hq : qx < width) :
    py * width + px = qy * width + qx ↔ py = qy ∧ px = qx := by
  constructor
  · intro h
    have hx : px = qx := by
      have hmod := congrArg (· % width) h
      simp only [Nat.mul_comm _ width, Nat.mul_add_mod, Nat.mod_eq_of_lt hp,
        Nat.mod_eq_of_lt hq] at hmod
      exact hmod
    subst hx
    have hy : py * width = qy * width := Nat.add_right_cancel h
    exact ⟨Nat.eq_of_mul_eq_mul_right (by omega) hy, rfl⟩
  · rintro ⟨rfl, rfl⟩
    rfl

/-- A cell of the picture is inside its memory. -/
theorem cell_lt {width height px py : ℕ} (hx : px < width) (hy : py < height) :
    py * width + px < width * height := by
  have hrow : (py + 1) * width ≤ height * width := Nat.mul_le_mul_right width hy
  have hexpand : (py + 1) * width = py * width + width := by ring
  rw [Nat.mul_comm width height]
  omega

/-! ## Changing -/

/-- `for col in 0..w`. -/
def row (w : ℕ) (body : ℕ → (ℕ → α) → Option (ℕ → α)) (m : ℕ → α) : Option (ℕ → α) :=
  (List.range w).foldlM (fun m col => body col m) m

/-- `for row in 0..h`, and in it `for col in 0..w`. -/
def sweep (h w : ℕ) (body : ℕ → ℕ → (ℕ → α) → Option (ℕ → α)) (m : ℕ → α) : Option (ℕ → α) :=
  (List.range h).foldlM (fun m r => row w (body r) m) m

/-- A row of changes changes its cells, each by what was there, and no other. -/
theorem row_spec {w start : ℕ} {body : ℕ → (ℕ → α) → Option (ℕ → α)} {f : ℕ → α → α}
    (hbody : ∀ c < w, ∀ m, body c m = some (Function.update m (start + c) (f c (m (start + c)))))
    (m : ℕ → α) :
    ∃ m', row w body m = some m' ∧ (∀ c < w, m' (start + c) = f c (m (start + c))) ∧
      ∀ i, i < start ∨ start + w ≤ i → m' i = m i := by
  induction w with
  | zero => exact ⟨m, rfl, by simp, fun _ _ => rfl⟩
  | succ w ih =>
    obtain ⟨m', hm', hin, hout⟩ := ih fun c hc => hbody c (Nat.lt_succ_of_lt hc)
    refine ⟨Function.update m' (start + w) (f w (m' (start + w))), ?_, fun c hc => ?_, fun i hi => ?_⟩
    · rw [row, List.range_succ, List.foldlM_append]
      rw [row] at hm'
      rw [hm']
      simpa using hbody w (Nat.lt_succ_self w) m'
    · by_cases hcw : c = w
      · subst hcw
        rw [Function.update_self, hout _ (.inr le_rfl)]
      · rw [Function.update_of_ne (by omega), hin c (by omega)]
    · rw [Function.update_of_ne (by omega), hout i (by omega)]

/-- **A sweep** changes the cells of its rectangle, each by what was there, and no other. -/
theorem sweep_spec (width x y h w : ℕ) (f : ℕ → ℕ → α → α)
    (body : ℕ → ℕ → (ℕ → α) → Option (ℕ → α)) (hw : x + w ≤ width)
    (hbody : ∀ r < h, ∀ c < w, ∀ m, body r c m =
      some (Function.update m ((y + r) * width + x + c) (f r c (m ((y + r) * width + x + c)))))
    (m : ℕ → α) :
    ∃ m', sweep h w body m = some m' ∧ ∀ px < width, ∀ py,
      m' (py * width + px) =
        if (y ≤ py ∧ py < y + h) ∧ x ≤ px ∧ px < x + w then
          f (py - y) (px - x) (m (py * width + px))
        else m (py * width + px) := by
  induction h with
  | zero => exact ⟨m, rfl, fun px _ py => by rw [if_neg (by omega)]⟩
  | succ h ih =>
    obtain ⟨m', hm', hcells⟩ := ih fun r hr => hbody r (Nat.lt_succ_of_lt hr)
    obtain ⟨m'', hm'', hin, hout⟩ := row_spec (hbody h (Nat.lt_succ_self h)) m'
    refine ⟨m'', ?_, fun px hpx py => ?_⟩
    · rw [sweep, List.range_succ, List.foldlM_append]
      rw [sweep] at hm'
      rw [hm']
      simpa using hm''
    · by_cases hrow : py = y + h ∧ x ≤ px ∧ px < x + w
      · -- a cell of the new row
        obtain ⟨rfl, hx, hlt⟩ := hrow
        have hcell : (y + h) * width + px = (y + h) * width + x + (px - x) := by omega
        rw [if_pos (by omega), hcell, hin (px - x) (by omega), ← hcell, hcells px hpx,
          if_neg (by omega), Nat.add_sub_cancel_left]
      · have hother : m'' (py * width + px) = m' (py * width + px) := by
          refine hout _ ?_
          by_contra hboth
          have hoff : py * width + px = (y + h) * width + (px + py * width - (y + h) * width) := by
            omega
          have hcol : px + py * width - (y + h) * width < width := by omega
          obtain ⟨hy, hx⟩ := (cell_inj hpx hcol).mp hoff
          omega
        rw [hother, hcells px hpx]
        by_cases hold : (y ≤ py ∧ py < y + h) ∧ x ≤ px ∧ px < x + w
        · rw [if_pos hold, if_pos (by omega)]
        · rw [if_neg hold, if_neg (by omega)]

/-! ## Moving -/

/-- `core::ptr::copy`: `n` cells, which may overlap. -/
def move (src dst n : ℕ) (m : ℕ → α) : ℕ → α :=
  fun i => if dst ≤ i ∧ i < dst + n then m (src + (i - dst)) else m i

/-- Rows moved one after the other, downwards from the top. -/
def moves (width sx sy dx dy w : ℕ) (rows : List ℕ) (m : ℕ → α) : ℕ → α :=
  rows.foldl (fun m r => move ((sy + r) * width + sx) ((dy + r) * width + dx) w m) m

/-- One row moved. -/
theorem move_cell {width sx dx w : ℕ} (hd : dx + w ≤ width) (sy dy : ℕ)
    (m : ℕ → α) {px : ℕ} (hpx : px < width) (py : ℕ) :
    move (sy * width + sx) (dy * width + dx) w m (py * width + px) =
      if py = dy ∧ dx ≤ px ∧ px < dx + w then m (sy * width + (px - dx + sx)) else m (py * width + px) := by
  rw [move]
  by_cases hrow : py = dy ∧ dx ≤ px ∧ px < dx + w
  · obtain ⟨rfl, hx, hlt⟩ := hrow
    rw [if_pos (by omega), if_pos (by omega)]
    congr 1
    omega
  · rw [if_neg hrow, if_neg]
    intro hboth
    have hoff : py * width + px = dy * width + (px + py * width - dy * width) := by omega
    have hcol : px + py * width - dy * width < width := by omega
    obtain ⟨hy, hx⟩ := (cell_inj hpx hcol).mp hoff
    omega

/-- **Rows moved** in an order in which no row that is still to be read has been written: each
cell of the target has what its source had at first. -/
theorem moves_spec {width sx sy dx dy w : ℕ} (hs : sx + w ≤ width) (hd : dx + w ≤ width)
    (rows : List ℕ) (horder : rows.Pairwise fun r r' => dy + r ≠ sy + r') (m : ℕ → α)
    {px : ℕ} (hpx : px < width) (py : ℕ) :
    moves width sx sy dx dy w rows m (py * width + px) =
      if (dy ≤ py ∧ py - dy ∈ rows) ∧ dx ≤ px ∧ px < dx + w then
        m ((sy + (py - dy)) * width + (px - dx + sx))
      else m (py * width + px) := by
  induction rows generalizing m with
  | nil => simp [moves]
  | cons r rows ih =>
    rw [List.pairwise_cons] at horder
    rw [moves, List.foldl_cons]
    refine (ih horder.2 _).trans ?_
    by_cases hlater : (dy ≤ py ∧ py - dy ∈ rows) ∧ dx ≤ px ∧ px < dx + w
    · -- the row it is read from has not been written
      rw [if_pos hlater, if_pos ⟨⟨hlater.1.1, List.mem_cons_of_mem r hlater.1.2⟩, hlater.2⟩,
        move_cell hd _ _ _ (by omega), if_neg fun h => horder.1 _ hlater.1.2 h.1.symm]
    · rw [if_neg hlater, move_cell hd _ _ _ hpx]
      by_cases hnow : py = dy + r ∧ dx ≤ px ∧ px < dx + w
      · rw [if_pos hnow, if_pos]
        · rw [hnow.1, Nat.add_sub_cancel_left]
        · refine ⟨⟨by omega, ?_⟩, hnow.2⟩
          rw [hnow.1, Nat.add_sub_cancel_left]
          exact List.mem_cons_self
      · rw [if_neg hnow, if_neg]
        rintro ⟨⟨hdy, hmem⟩, hx⟩
        rcases List.mem_cons.mp hmem with heq | hmem
        · exact hnow ⟨by omega, hx⟩
        · exact hlater ⟨⟨hdy, hmem⟩, hx⟩

/-! ## Writing out -/

section Writes

variable {ι κ σ β : Type*} (read : κ → σ → β) (On : κ → Prop) (v : κ → β) (K : ι → κ → Prop)
  (body : σ → ι → Option σ)

/-- **A loop of writes**, each of which gives its keys their values and leaves the others: it
gives the keys of all of them their values and leaves the others. -/
theorem foldlM_writes (L : List ι)
    (hbody : ∀ i ∈ L, ∀ s, ∃ s', body s i = some s' ∧
      ∀ k, On k → (K i k → read k s' = v k) ∧ (¬K i k → read k s' = read k s)) (s : σ) :
    ∃ s', L.foldlM body s = some s' ∧ ∀ k, On k →
      ((∃ i ∈ L, K i k) → read k s' = v k) ∧ ((¬∃ i ∈ L, K i k) → read k s' = read k s) := by
  induction L generalizing s with
  | nil => exact ⟨s, rfl, fun k _ => ⟨by simp, fun _ => rfl⟩⟩
  | cons i L ih =>
    obtain ⟨s₁, h₁, hfirst⟩ := hbody i List.mem_cons_self s
    obtain ⟨s₂, h₂, hrest⟩ := ih (fun j hj => hbody j (List.mem_cons_of_mem i hj)) s₁
    refine ⟨s₂, ?_, fun k hk => ⟨fun hin => ?_, fun hout => ?_⟩⟩
    · rw [List.foldlM_cons, h₁]
      exact h₂
    · by_cases hlater : ∃ j ∈ L, K j k
      · exact (hrest k hk).1 hlater
      · -- only the first writes it, and the rest leave it
        rw [(hrest k hk).2 hlater]
        obtain ⟨j, hj, hkey⟩ := hin
        rcases List.mem_cons.mp hj with rfl | hj
        · exact (hfirst k hk).1 hkey
        · exact absurd ⟨j, hj, hkey⟩ hlater
    · have hlater : ¬∃ j ∈ L, K j k := fun ⟨j, hj, hkey⟩ =>
        hout ⟨j, List.mem_cons_of_mem i hj, hkey⟩
      have hnow : ¬K i k := fun hkey => hout ⟨i, List.mem_cons_self, hkey⟩
      rw [(hrest k hk).2 hlater, (hfirst k hk).2 hnow]

end Writes

end NanoChrono.Sweep
