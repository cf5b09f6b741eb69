import NanoChrono.Terminal.Grid

/-! # What a resize keeps

The rows of a grid are moved inside one slice, from the top down. Where the new rows are wider, a row can be written
over before it is read. What the moves leave is followed row by row (`laid`); it is the old rows exactly when each
cell that was written over early held what is now in its place (`resize_keeps_iff`). -/

namespace NanoChrono.Terminal

open Buffer

/-! ## The rows moved so far -/

section

variable (cells : Cells Cell) (firstOld oldCols cols : Nat)

/-- The cells once `k` rows have been moved. -/
@[grind =] def laid : Nat → Cells Cell
  | 0 => cells
  | k + 1 => (laid k).written (k * cols) cols fun c =>
      if c < oldCols then (laid k).cell ((firstOld + k) * oldCols + c) else BLANK

/-- The old cell that belongs in a place of the new grid. -/
def wanted (r c : Nat) : Cell := if c < oldCols then cells.cell ((firstOld + r) * oldCols + c) else BLANK

end

section

variable {cells : Cells Cell} {firstOld oldCols cols : Nat}

theorem laid_len (k : Nat) : (laid cells firstOld oldCols cols k).len = cells.len := by
  induction k with
  | zero => rfl
  | succ k ih => rw [laid, Cells.written_len, ih]

/-- Cells below the rows that were moved are as they were. -/
theorem laid_below {k i : Nat} (h : k * cols ≤ i) :
    (laid cells firstOld oldCols cols k).cell i = cells.cell i := by
  induction k with
  | zero => rfl
  | succ k ih =>
    rw [Nat.add_mul, Nat.one_mul] at h
    rw [laid, Cells.written]
    dsimp only
    rw [if_neg (by omega), ih (by omega)]

/-- A row that has been moved holds what was read for it. -/
theorem laid_row {k r c : Nat} (hr : r < k) (hc : c < cols) :
    (laid cells firstOld oldCols cols k).cell (r * cols + c) =
      if c < oldCols then (laid cells firstOld oldCols cols r).cell ((firstOld + r) * oldCols + c) else BLANK := by
  induction k with
  | zero => omega
  | succ k ih =>
    rw [laid, Cells.written]
    dsimp only
    rcases Nat.lt_or_eq_of_le (Nat.le_of_lt_succ hr) with hlt | rfl
    · -- A later row does not reach it.
      have hle := Nat.mul_le_mul_right cols (show r + 1 ≤ k by omega)
      rw [Nat.add_mul, Nat.one_mul] at hle
      rw [if_neg (by omega), ih hlt]
    · rw [if_pos (by omega), Nat.add_sub_cancel_left]

/-- A place is one of a row. -/
theorem place_eq (cols p : Nat) : p / cols * cols + p % cols = p := by
  rw [Nat.mul_comm]
  exact Nat.div_add_mod p cols

/-- The moves are right exactly when each cell that is read after it was written over held what is wanted in its
place. -/
theorem laid_iff (hcols : 0 < cols) (keep : Nat) :
    (∀ r < keep, ∀ c < cols, (laid cells firstOld oldCols cols keep).cell (r * cols + c) =
      wanted cells firstOld oldCols r c) ↔
    ∀ r < keep, ∀ c < min oldCols cols, (firstOld + r) * oldCols + c < r * cols →
      cells.cell ((firstOld + r) * oldCols + c) =
        wanted cells firstOld oldCols (((firstOld + r) * oldCols + c) / cols)
          (((firstOld + r) * oldCols + c) % cols) := by
  -- A cell read early is the new grid's, in a row above.
  have hearly : ∀ {r p : Nat}, r < keep → p < r * cols → p / cols < r ∧
      (laid cells firstOld oldCols cols r).cell p = (laid cells firstOld oldCols cols keep).cell p := by
    intro r p hr hp
    have hrow : p / cols < r := (Nat.div_lt_iff_lt_mul hcols).mpr hp
    have hmod : p % cols < cols := Nat.mod_lt p hcols
    refine ⟨hrow, ?_⟩
    rw [← place_eq cols p, laid_row hrow hmod, laid_row (hrow.trans hr) hmod]
  constructor
  · intro hright r hr c hc hp
    have hrc := hright r hr c (by omega)
    obtain ⟨hrow, hcell⟩ := hearly hr hp
    have hplace := hright _ (hrow.trans hr) _ (Nat.mod_lt ((firstOld + r) * oldCols + c) hcols)
    rw [laid_row hr (by omega), if_pos (by omega), hcell, wanted, if_pos (by omega)] at hrc
    rw [place_eq] at hplace
    rw [← hrc, hplace]
  · intro hheld r
    induction r using Nat.strong_induction_on with
    | _ r ih =>
      intro hr c hc
      rw [laid_row hr hc, wanted]
      split
      next hold =>
        rcases Nat.lt_or_ge ((firstOld + r) * oldCols + c) (r * cols) with hp | hp
        · obtain ⟨hrow, hcell⟩ := hearly hr hp
          have hplace := ih _ hrow (hrow.trans hr) _ (Nat.mod_lt ((firstOld + r) * oldCols + c) hcols)
          rw [place_eq] at hplace
          rw [hcell, hplace, ← hheld r hr c (by omega) hp]
        · exact laid_below hp
      next => rfl

/-- The source's loop moves the rows. -/
theorem copyRows_ends {oldRows rows : Nat} (hold : oldCols * oldRows ≤ cells.len) (hnew : cols * rows ≤ cells.len)
    (keep : Nat) (hfrom : firstOld + keep ≤ oldRows) (hto : keep ≤ rows) :
    Ends (Between (oldCols * oldRows) (cols * rows)) (· = laid cells firstOld oldCols cols keep)
      ((List.range keep).foldlM (fun cells r => Term.copyRow cells firstOld oldCols cols r) cells) := by
  have hloop := @Ends.foldlM_range' _ (Between (oldCols * oldRows) (cols * rows))
    (fun k moved => moved = laid cells firstOld oldCols cols k)
    (fun cells r => Term.copyRow cells firstOld oldCols cols r) keep 0 cells rfl ?_
  · rwa [Nat.zero_add, ← List.range_eq_range'] at hloop
  · rintro k moved - hk rfl
    exact copyRow_ends (by rw [laid_len]; exact hold) (by rw [laid_len]; exact hnew) (by omega) (by omega) rfl

end

/-! ## The grid after a resize -/

/-- A resize has kept what fits: the bottom rows of the old grid, up to the new width, then blanks, and the cursor on
its row of text. -/
def Kept (t u : Term) : Prop :=
  let keep := min t.rows u.rows
  let firstOld := t.rows - keep
  (∀ row < u.rows, ∀ col < u.cols,
    u.cell col row = if row < keep ∧ col < t.cols then t.cell col (firstOld + row) else BLANK) ∧
  (firstOld ≤ t.cy → u.cy = t.cy - firstOld)

/-- No kept cell is lost to a row written over it: where the old place of a kept cell lies above its new row, it
holds what belongs there in the new grid. -/
def Undisturbed (t : Term) (cols rows : Nat) : Prop :=
  let keep := min t.rows rows
  let firstOld := t.rows - keep
  ∀ r < keep, ∀ c < min t.cols cols,
    let place := (firstOld + r) * t.cols + c
    place < r * cols → t.cells.cell place = wanted t.cells firstOld t.cols (place / cols) (place % cols)

/-- A new grid whose last kept row begins no further than the old grid's last row loses nothing. -/
theorem undisturbed_of_le {t : Term} {cols rows : Nat} (h : (min t.rows rows - 1) * cols ≤ (t.rows - 1) * t.cols) :
    Undisturbed t cols rows := by
  intro r hr c _ place hplace
  have hplace : (t.rows - min t.rows rows + r) * t.cols + c < r * cols := hplace
  -- Rows above the last one have still more room.
  generalize hfirst : t.rows - min t.rows rows = firstOld at hplace
  generalize hkept : min t.rows rows = keep at h hr hfirst
  have hrow : r * cols ≤ (firstOld + r) * t.cols := by
    rcases Nat.le_total cols t.cols with hle | hge
    · exact Nat.mul_le_mul (Nat.le_add_left r firstOld) hle
    · have hsplit : keep - 1 = r + (keep - 1 - r) := by omega
      have hsplit' : t.rows - 1 = (firstOld + r) + (keep - 1 - r) := by omega
      have hmore := Nat.mul_le_mul_left (keep - 1 - r) hge
      rw [hsplit, hsplit', Nat.add_mul, Nat.add_mul] at h
      omega
  exact absurd hplace (Nat.not_lt.mpr (hrow.trans (Nat.le_add_right _ c)))

/-- What is kept is seen in the grid and the cursor's row. -/
theorem kept_congr {t u v : Term} (hcells : v.cells = u.cells) (hcols : v.cols = u.cols) (hrows : v.rows = u.rows)
    (hcy : v.cy = u.cy) : Kept t v ↔ Kept t u := by
  have hcell : v.cell = u.cell := by
    funext col row
    rw [Term.cell, Term.cell, hcells, hcols]
  rw [Kept, Kept, hcell, hcols, hrows, hcy]

/-- A resize to the same size keeps everything. -/
theorem kept_same (t : Term) : Kept t t := by
  constructor
  · intro row hrow col hcol
    rw [Nat.min_self, Nat.sub_self, Nat.zero_add, if_pos ⟨hrow, hcol⟩]
  · intro _
    rw [Nat.min_self, Nat.sub_self, Nat.sub_zero]

/-- A grid that holds the moved rows, then blanks, with the cursor on its row, is right exactly when nothing was lost
on the way. -/
theorem kept_iff {t u : Term} (h : InGrid t) {cols rows : Nat} (hcols : 0 < cols)
    (hfits : cols * rows ≤ t.cells.len) (hucols : u.cols = cols) (hurows : u.rows = rows)
    (hcells : u.cells = (laid t.cells (t.rows - min t.rows rows) t.cols cols (min t.rows rows)).filled
      (min t.rows rows * cols) (rows * cols) BLANK)
    (hcy : t.rows - min t.rows rows ≤ t.cy → u.cy = t.cy - (t.rows - min t.rows rows)) :
    Kept t u ↔ Undisturbed t cols rows := by
  have hfirst : t.rows - min t.rows rows + min t.rows rows = t.rows := by omega
  rw [Kept, Undisturbed, hurows]
  generalize hkeep : min t.rows rows = keep at hcells hcy hfirst ⊢
  generalize hfirstOld : t.rows - keep = firstOld at hcells hcy hfirst ⊢
  dsimp only
  rw [and_iff_left hcy, ← laid_iff hcols keep]
  have hkept : keep ≤ rows := by omega
  -- What the new grid shows of a row that was kept.
  have hshown : ∀ row < keep, ∀ col < cols,
      u.cell col row = (laid t.cells firstOld t.cols cols keep).cell (row * cols + col) := by
    intro row hrow col hcol
    obtain ⟨hlt, hle⟩ := cell_lt hcol (show row < rows by omega)
    have hbefore := (cell_lt hcol hrow).1
    have hend := (cell_lt hcol hrow).2
    rw [Nat.mul_comm cols] at hend
    rw [Term.cell, hucols, hcells, if_pos (by rw [Cells.filled_len, laid_len]; omega), Cells.filled]
    dsimp only
    rw [if_neg (by omega)]
  have hblank : ∀ row, keep ≤ row → row < rows → ∀ col < cols, u.cell col row = BLANK := by
    intro row hrow hrows col hcol
    obtain ⟨hlt, hle⟩ := cell_lt hcol hrows
    have hstart := Nat.mul_le_mul_right cols hrow
    rw [Nat.mul_comm cols] at hle
    rw [Nat.mul_comm cols] at hfits
    rw [Term.cell, hucols, hcells, if_pos (by rw [Cells.filled_len, laid_len]; omega), Cells.filled]
    dsimp only
    rw [if_pos (by omega)]
  -- What the old grid had there.
  have hwanted : ∀ row < keep, ∀ col,
      (if row < keep ∧ col < t.cols then t.cell col (firstOld + row) else BLANK) =
        wanted t.cells firstOld t.cols row col := by
    intro row hrow col
    rw [wanted]
    by_cases hcol : col < t.cols
    · obtain ⟨hlt, hle⟩ := cell_lt hcol (show firstOld + row < t.rows by omega)
      have hold := h.fits
      rw [if_pos ⟨hrow, hcol⟩, if_pos hcol, Term.cell, if_pos (by omega)]
    · rw [if_neg (fun hboth => hcol hboth.2), if_neg hcol]
  rw [hucols]
  constructor
  · intro hright row hrow col hcol
    rw [← hshown row hrow col hcol, hright row (by omega) col hcol, hwanted row hrow col]
  · intro hright row hrow col hcol
    rcases Nat.lt_or_ge row keep with hlt | hge
    · rw [hshown row hlt col hcol, hright row hlt col hcol, hwanted row hlt col]
    · rw [hblank row hge hrow col hcol, if_neg (fun hboth => absurd hboth.1 (Nat.not_lt.mpr hge))]

/-- The grid that `relayout` leaves holds what it should exactly when nothing was lost on the way. -/
theorem relayout_iff {t : Term} (h : InGrid t) {cols rows : Nat} (hcols : 0 < cols) (hrows : 0 < rows)
    (hfits : cols * rows ≤ t.cells.len) :
    Ends (Between (t.cols * t.rows) (cols * rows)) (fun u => u.cols = cols ∧ u.rows = rows ∧ u.cy < rows ∧
      (Kept t u ↔ Undisturbed t cols rows)) (t.relayout cols rows) := by
  have hcy := h.cy
  rw [Term.relayout]
  split
  next =>
    dsimp only
    have hkeep : min t.rows rows * cols ≤ rows * cols := Nat.mul_le_mul_right _ (Nat.min_le_right _ _)
    have hgrid : rows * cols = cols * rows := Nat.mul_comm _ _
    refine Ends.bind (copyRows_ends h.fits hfits (min t.rows rows) (by omega) (Nat.min_le_right _ _)) ?_
    rintro _ rfl
    refine Ends.bind (p := (· = (laid t.cells (t.rows - min t.rows rows) t.cols cols (min t.rows rows)).filled
      (min t.rows rows * cols) (rows * cols) BLANK))
      (Cells.ends_fillSlice hkeep (by rw [laid_len]; omega) (fun i _ hi => show i < _ by omega) rfl) ?_
    rintro _ rfl
    refine Ends.pure ⟨rfl, rfl, by dsimp only; omega, kept_iff h hcols hfits rfl rfl rfl ?_⟩
    dsimp only
    omega
  next hsame =>
    obtain ⟨rfl, rfl⟩ : cols = t.cols ∧ rows = t.rows := by omega
    refine Ends.pure ⟨rfl, rfl, hcy, fun _ => ?_, fun _ => kept_same t⟩
    exact undisturbed_of_le (by rw [Nat.min_self])

/-- A resize, for every grid and every size with room in its slice: the bottom rows that fit are kept with the
cursor on its row, and the rest is blank, exactly when no kept cell is lost to a row written over it. -/
theorem resize_keeps_iff {t : Term} (h : InGrid t) {cols rows : Nat} (hroom : Term.clampCols cols ≤ t.cells.len) :
    ∃ u used, (t.resize cols rows).run = some (u, used) ∧ u.cols = Term.clampCols cols ∧
      u.rows = Term.clampRows t.cells.len (Term.clampCols cols) rows ∧
      (Kept t u ↔ Undisturbed t u.cols u.rows) := by
  obtain ⟨hcols, hrows, hfits⟩ := @clamp_spec t.cells.len cols rows hroom
  have hends : Ends (Between (t.cols * t.rows) (Term.clampCols cols *
      Term.clampRows t.cells.len (Term.clampCols cols) rows)) (fun u => u.cols = Term.clampCols cols ∧
      u.rows = Term.clampRows t.cells.len (Term.clampCols cols) rows ∧ (Kept t u ↔ Undisturbed t u.cols u.rows))
      (t.resize cols rows) := by
    rw [Term.resize]
    refine Ends.bind (relayout_iff h hcols.1 hrows.1 hfits) ?_
    rintro u ⟨hucols, hurows, hucy, hiff⟩
    refine Ends.pure ⟨hucols, hurows, ?_⟩
    rw [hucols, hurows, ← hiff]
    -- The cursor is in the grid as it is, so the last clamp changes nothing.
    exact kept_congr rfl hucols.symm hurows.symm (Nat.min_eq_left (by omega))
  obtain ⟨u, used, hrun, -, hpost⟩ := hends
  exact ⟨u, used, hrun, hpost⟩

/-- Two rows of two letters, in a slice of eight cells. -/
def letters : Term :=
  { cells := ⟨8, fun i => if i < 4 then ⟨Char.ofNat (97 + i), DEFAULT, DEFAULT, 0⟩ else BLANK⟩
    cols := 2, rows := 2, cx := 0, cy := 1, fg := DEFAULT, bg := DEFAULT, flags := 0, saved := (0, 0)
    state := .ground, params := Vector.replicate 16 0, nparams := noParams, priv := false
    wrapPending := false, cursorVisible := true, dirty := BitVec.allOnes 128, scrolled := 0, drawnCursor := none
    utf8 := Vector.replicate 4 0, utf8Len := noBytes }

theorem letters_inGrid : InGrid letters :=
  ⟨by decide, by decide, by decide, by decide, by decide⟩

/-- Widened to four columns, the first row's blanks have taken the second row. -/
theorem widened_lost : ¬ ∀ (t : Term) (cols rows : Nat), InGrid t → Term.clampCols cols ≤ t.cells.len →
    ∃ u used, (t.resize cols rows).run = some (u, used) ∧ Kept t u := by
  intro hclaim
  obtain ⟨u, used, hrun, hkept, -⟩ := hclaim letters 4 2 letters_inGrid (by decide)
  have hsize : (letters.resize 4 2).run.map (fun x => (x.1.rows, x.1.cols, x.1.cell 0 1)) = some (2, 4, BLANK) := by
    decide
  rw [hrun] at hsize
  obtain ⟨hrows, hrest⟩ := Prod.mk.inj (Option.some.inj hsize)
  obtain ⟨hcols, hcell⟩ := Prod.mk.inj hrest
  dsimp only at hrows hcols hcell
  have hsecond := hkept 1 (by omega) 0 (by omega)
  rw [hcell, hrows] at hsecond
  exact absurd hsecond (by decide)

/-- One column of both rows. -/
theorem resize_keeps_iff_letters : ∃ u used, (letters.resize 1 2).run = some (u, used) ∧ u.cols = 1 ∧ u.rows = 2 ∧
    (Kept letters u ↔ Undisturbed letters u.cols u.rows) :=
  @resize_keeps_iff letters letters_inGrid 1 2 (by decide)

end NanoChrono.Terminal
