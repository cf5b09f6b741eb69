import NanoChrono.Terminal.Screen

/-! # The cursor stays in the grid

Each function of the terminal is followed once: from a cursor inside the grid it ends, uses only cells of the grid,
and leaves the cursor inside (`feed_ends`, `resize_ends`). The one exception is a saved cursor that a later resize
has left outside: restoring it is the only step of any run that leaves the grid (`run_inGrid_iff`). -/

namespace NanoChrono.Terminal

open Buffer

/-- The grid fits its slice and the cursor is in it. -/
structure InGrid (t : Term) : Prop where
  cols : 0 < t.cols ∧ t.cols ≤ MAX_COLS
  rows : 0 < t.rows ∧ t.rows ≤ MAX_ROWS
  fits : t.cols * t.rows ≤ t.cells.len
  cx : t.cx < t.cols
  cy : t.cy < t.rows

/-- A use of a cell below a bound. -/
def Below (n : Nat) : Use → Prop
  | .read i => i < n
  | .write i => i < n

/-- What a step that is no resize keeps: the grid, and the cursor in it. -/
structure Keeps (t u : Term) : Prop where
  inGrid : InGrid u
  cols : u.cols = t.cols
  rows : u.rows = t.rows
  len : u.cells.len = t.cells.len

/-- A step ends, uses cells of the grid only, and keeps the grid. -/
abbrev Stays (t : Term) (x : Ran Term) : Prop := Ends (Below (t.cols * t.rows)) (Keeps t) x

section

variable {t u v : Term}

theorem Keeps.refl (h : InGrid t) : Keeps t t := ⟨h, rfl, rfl, rfl⟩

theorem Keeps.trans (h : Keeps t u) (h' : Keeps u v) : Keeps t v :=
  ⟨h'.inGrid, h'.cols.trans h.cols, h'.rows.trans h.rows, h'.len.trans h.len⟩

/-- A state with the same grid and a cursor in it. -/
theorem InGrid.keeps (h : InGrid t) (hcols : u.cols = t.cols) (hrows : u.rows = t.rows)
    (hlen : u.cells.len = t.cells.len) (hcx : u.cx < t.cols) (hcy : u.cy < t.rows) : Keeps t u := by
  refine ⟨⟨?_, ?_, ?_, ?_, ?_⟩, hcols, hrows, hlen⟩
  · rw [hcols]; exact h.cols
  · rw [hrows]; exact h.rows
  · rw [hcols, hrows, hlen]; exact h.fits
  · rw [hcols]; exact hcx
  · rw [hrows]; exact hcy

theorem Stays.pure (h : Keeps t u) : Stays t (Pure.pure u) := Ends.pure h

/-- A step from what another has kept. -/
theorem Stays.after {x : Ran Term} (h : Keeps t u) (hx : Stays u x) : Stays t x :=
  hx.mono (by rw [h.cols, h.rows]; exact fun _ hu => hu) fun _ => h.trans

/-- A step after another. -/
theorem Stays.bind {x : Ran Term} {f : Term → Ran Term} (hx : Stays t x)
    (hf : ∀ u, Keeps t u → Stays u (f u)) : Stays t (x >>= f) :=
  Ends.bind hx fun u hu => (hf u hu).after hu

/-! ## Marks -/

theorem mark_keeps (h : InGrid t) (row : Nat) : Keeps t (t.mark row) := by
  rw [Term.mark]
  split
  · exact h.keeps rfl rfl rfl h.cx h.cy
  · exact Keeps.refl h

theorem marks_keep (h : InGrid t) (rows : List Nat) : Keeps t (rows.foldl Term.mark t) := by
  induction rows generalizing t with
  | nil => exact Keeps.refl h
  | cons row rows ih =>
    have hmark := mark_keeps h row
    exact hmark.trans (ih hmark.inGrid)

/-! ## Cells of the grid -/

/-- A cell of a row comes before the row's end, and that before the grid's. -/
theorem cell_lt {col row cols rows : Nat} (hcol : col < cols) (hrow : row < rows) :
    row * cols + col < row * cols + cols ∧ row * cols + cols ≤ cols * rows := by
  have hend : (row + 1) * cols ≤ rows * cols := Nat.mul_le_mul_right cols hrow
  rw [Nat.add_mul, Nat.one_mul, Nat.mul_comm rows] at hend
  exact ⟨by omega, hend⟩

theorem put_stays (h : InGrid t) (col row : Nat) (cell : Cell) : Stays t (t.put col row cell) := by
  rw [Term.put]
  split
  next hin =>
    obtain ⟨hlt, hle⟩ := cell_lt hin.1 hin.2
    have hfits := h.fits
    refine Ends.bind (p := fun cells => cells.len = t.cells.len)
      (Cells.ends_set (by omega) (show _ < _ by omega) rfl) fun cells hlen => ?_
    have hcells : Keeps t { t with cells } := h.keeps rfl rfl hlen h.cx h.cy
    exact Ends.pure (hcells.trans (mark_keeps hcells.inGrid row))
  next => exact Stays.pure (Keeps.refl h)

theorem clear_stays (h : InGrid t) : Stays t t.clear := by
  rw [Term.clear]
  refine Ends.bind (p := fun cells => cells.len = t.cells.len)
    (Cells.ends_fillSlice (Nat.zero_le _) h.fits (fun i _ hi => hi) rfl) fun cells hlen => ?_
  exact Ends.pure (h.keeps rfl rfl hlen h.cols.1 h.rows.1)

theorem scrollUp_stays (h : InGrid t) (n : Nat) : Stays t (t.scrollUp n) := by
  rw [Term.scrollUp]
  dsimp only
  have hfits := h.fits
  have hgrid : t.rows * t.cols = t.cols * t.rows := Nat.mul_comm _ _
  have hscrolled : min n t.rows * t.cols ≤ t.rows * t.cols := Nat.mul_le_mul_right _ (Nat.min_le_right n t.rows)
  have hkept : (t.rows - min n t.rows) * t.cols ≤ t.rows * t.cols := Nat.mul_le_mul_right _ (Nat.sub_le _ _)
  refine Ends.bind (p := fun cells => cells.len = t.cells.len)
    (Cells.ends_copyWithin hscrolled (by omega) (by omega) (fun i _ hi => show i < _ by omega)
      (fun i _ hi => show i < _ by omega) rfl) fun cells hlen => ?_
  refine Ends.bind (p := fun cells => cells.len = t.cells.len)
    (Cells.ends_fillSlice hkept (by omega) (fun i _ hi => show i < _ by omega) hlen) fun cells hlen => ?_
  refine Ends.pure ?_
  generalize List.foldl _ _ (List.range' (min n t.rows) _) = moved
  have hcells : Keeps t { t with cells, dirty := moved } := h.keeps rfl rfl hlen h.cx h.cy
  have hmarks := hcells.trans (marks_keep hcells.inGrid (List.range' (t.rows - min n t.rows) (min n t.rows)))
  exact hmarks.trans (hmarks.inGrid.keeps rfl rfl rfl hmarks.inGrid.cx hmarks.inGrid.cy)

theorem newline_stays (h : InGrid t) : Stays t t.newline := by
  rw [Term.newline]
  split
  · exact scrollUp_stays h 1
  · exact Stays.pure (h.keeps rfl rfl rfl h.cx (by dsimp only; omega))

theorem print_stays (h : InGrid t) (ch : Char) : Stays t (t.print ch) := by
  rw [Term.print]
  have hwrap : Stays t t.wrap := by
    rw [Term.wrap]
    split
    · have hcol : Keeps t { t with wrapPending := false, cx := 0 } := h.keeps rfl rfl rfl h.cols.1 h.cy
      exact (newline_stays hcol.inGrid).after hcol
    · exact Stays.pure (Keeps.refl h)
  refine hwrap.bind fun u hu => (put_stays hu.inGrid _ _ _).bind fun v hv => Stays.pure ?_
  have hin := hv.inGrid
  split
  · exact hin.keeps rfl rfl rfl hin.cx hin.cy
  · exact hin.keeps rfl rfl rfl (by dsimp only; omega) hin.cy

/-! ## Sequences -/

theorem putEach_stays (h : InGrid t) (start stop : Nat) (cell : Cell) : Stays t (t.putEach start stop cell) :=
  Ends.foldlM _ (fun _ c _ hu => (put_stays hu.inGrid c _ cell).after hu) (Keeps.refl h)

/-- No erase covers more than there is. -/
theorem eraseRange_le {mode cursor stop : Nat} (h : cursor < stop) : (Term.eraseRange mode cursor stop).2 ≤ stop := by
  unfold Term.eraseRange
  split
  · exact Nat.le_refl stop
  · exact h
  · exact Nat.le_refl stop

theorem eraseDisplay_stays (h : InGrid t) : Stays t t.eraseDisplay := by
  rw [Term.eraseDisplay]
  dsimp only
  obtain ⟨hlt, hle⟩ := cell_lt h.cx h.cy
  have hgrid : t.rows * t.cols = t.cols * t.rows := Nat.mul_comm _ _
  have hstop := @eraseRange_le (t.param param0 0) (t.cy * t.cols + t.cx) (t.rows * t.cols) (by omega)
  refine Ends.bind (p := fun cells => cells.len = t.cells.len)
    (Cells.ends_fillEach (by omega) (fun i _ hi => show i < _ by omega) rfl rfl) fun cells hlen => ?_
  have hcells : Keeps t { t with cells } := h.keeps rfl rfl hlen h.cx h.cy
  exact Ends.pure (hcells.trans (marks_keep hcells.inGrid _))

theorem deleteChars_stays (h : InGrid t) (n : Nat) : Stays t (t.deleteChars n) := by
  obtain ⟨hlt, hle⟩ := cell_lt h.cx h.cy
  have hcx := h.cx
  have hfits := h.fits
  rw [Term.deleteChars]
  dsimp only
  rw [if_pos (Nat.le_of_lt hcx)]
  refine Ends.bind (p := fun cells => cells.len = t.cells.len)
    (Cells.ends_copyWithin (by omega) (by omega) (by omega) (fun i _ hi => show i < _ by omega)
      (fun i _ hi => show i < _ by omega) rfl) fun cells hlen => ?_
  refine Ends.bind (p := fun cells => cells.len = t.cells.len)
    (Cells.ends_fillEach (by omega) (fun i _ hi => show i < _ by omega) hlen hlen) fun cells hlen => ?_
  have hcells : Keeps t { t with cells } := h.keeps rfl rfl hlen h.cx h.cy
  exact Ends.pure (hcells.trans (mark_keeps hcells.inGrid _))

theorem insertChars_stays (h : InGrid t) (n : Nat) : Stays t (t.insertChars n) := by
  obtain ⟨hlt, hle⟩ := cell_lt h.cx h.cy
  have hcx := h.cx
  have hfits := h.fits
  rw [Term.insertChars]
  dsimp only
  rw [if_pos (Nat.le_of_lt hcx)]
  refine Ends.bind (p := fun cells => cells.len = t.cells.len)
    (Cells.ends_copyWithin (by omega) (by omega) (by omega) (fun i _ hi => show i < _ by omega)
      (fun i _ hi => show i < _ by omega) rfl) fun cells hlen => ?_
  refine Ends.bind (p := fun cells => cells.len = t.cells.len)
    (Cells.ends_fillEach (by omega) (fun i _ hi => show i < _ by omega) hlen hlen) fun cells hlen => ?_
  have hcells : Keeps t { t with cells } := h.keeps rfl rfl hlen h.cx h.cy
  exact Ends.pure (hcells.trans (mark_keeps hcells.inGrid _))

/-! ## The parser -/

/-- A sequence's final character that brings a saved cursor back. -/
def Restores (t : Term) (ch : Char) : Prop :=
  (t.state = .escape ∧ ch = '8') ∨ (t.state = .csi ∧ t.priv = false ∧ ch = 'u')

instance (t : Term) (ch : Char) : Decidable (Restores t ch) := inferInstanceAs (Decidable (_ ∨ _))

/-- The saved cursor is in the grid as it now is. -/
def SavedIn (t : Term) : Prop := t.saved.1 < t.cols ∧ t.saved.2 < t.rows

instance (t : Term) : Decidable (SavedIn t) := inferInstanceAs (Decidable (_ ∧ _))

theorem visible_keeps (h : InGrid t) (shown : Bool) : Keeps t (Term.csi.visible t shown) := by
  rw [Term.csi.visible]
  split
  · have hshown : Keeps t { t with cursorVisible := shown } := h.keeps rfl rfl rfl h.cx h.cy
    exact hshown.trans (mark_keeps hshown.inGrid _)
  · exact Keeps.refl h

/-- Each sequence keeps the grid, but for a restore of a cursor saved outside it. -/
theorem csi_stays (h : InGrid t) (ch : Char) (hsaved : t.priv = false ∧ ch = 'u' → SavedIn t) :
    Stays t (t.csi ch) := by
  have hrows := h.rows.1
  have hcols := h.cols.1
  have hcx := h.cx
  have hcy := h.cy
  unfold Term.csi
  dsimp only
  split
  · exact Stays.pure (h.keeps rfl rfl rfl hcx hcy)
  · exact Stays.pure (h.keeps rfl rfl rfl (by rw [Term.csi.position]; dsimp only; omega)
      (by rw [Term.csi.position]; dsimp only; omega))
  · exact Stays.pure (h.keeps rfl rfl rfl (by rw [Term.csi.position]; dsimp only; omega)
      (by rw [Term.csi.position]; dsimp only; omega))
  · exact Stays.pure (h.keeps rfl rfl rfl hcx (by dsimp only; omega))
  · exact Stays.pure (h.keeps rfl rfl rfl hcx (by dsimp only; omega))
  · exact Stays.pure (h.keeps rfl rfl rfl (by dsimp only; omega) hcy)
  · exact Stays.pure (h.keeps rfl rfl rfl (by dsimp only; omega) hcy)
  · exact Stays.pure (h.keeps rfl rfl rfl (by dsimp only; omega) hcy)
  · exact Stays.pure (h.keeps rfl rfl rfl hcx (by dsimp only; omega))
  · exact eraseDisplay_stays h
  · exact putEach_stays h _ _ _
  · exact putEach_stays h _ _ _
  · exact deleteChars_stays h _
  · exact insertChars_stays h _
  · exact Stays.pure (h.keeps rfl rfl rfl hcx hcy)
  next hpriv =>
    obtain ⟨hx, hy⟩ := hsaved ⟨hpriv, rfl⟩
    exact Stays.pure (h.keeps rfl rfl rfl hx hy)
  · exact Stays.pure (visible_keeps h _)
  · exact Stays.pure (visible_keeps h _)
  · exact Stays.pure (Keeps.refl h)

/-- Each character keeps the grid, but for a restore of a cursor saved outside it. -/
theorem feed_stays (h : InGrid t) (ch : Char) (hsaved : Restores t ch → SavedIn t) : Stays t (t.feed ch) := by
  have hcols := h.cols.1
  have hcx := h.cx
  have hcy := h.cy
  unfold Term.feed
  split
  next hstate =>
    split_ifs
    · exact Stays.pure (h.keeps rfl rfl rfl hcx hcy)
    · exact Stays.pure (h.keeps rfl rfl rfl hcols hcy)
    · have hline : Keeps t { t with wrapPending := false } := h.keeps rfl rfl rfl hcx hcy
      exact (newline_stays hline.inGrid).after hline
    · exact Stays.pure (h.keeps rfl rfl rfl (by dsimp only; omega) hcy)
    · exact Stays.pure (h.keeps rfl rfl rfl (by dsimp only; omega) hcy)
    · exact Stays.pure (Keeps.refl h)
    · exact print_stays h ch
  next hstate =>
    dsimp only
    split_ifs with hcsi hosc hsave hrestore hreset
    · exact Stays.pure (h.keeps rfl rfl rfl hcx hcy)
    · exact Stays.pure (h.keeps rfl rfl rfl hcx hcy)
    · exact Stays.pure (h.keeps rfl rfl rfl hcx hcy)
    · obtain ⟨hx, hy⟩ := hsaved (Or.inl ⟨hstate, hrestore⟩)
      exact Stays.pure (h.keeps rfl rfl rfl hx hy)
    · have hfresh : Keeps t { t with state := .ground, fg := DEFAULT, bg := DEFAULT, flags := 0 } :=
        h.keeps rfl rfl rfl hcx hcy
      exact (clear_stays hfresh.inGrid).after hfresh
    · exact Stays.pure (h.keeps rfl rfl rfl hcx hcy)
  next hstate =>
    split_ifs
    · exact Stays.pure (h.keeps rfl rfl rfl hcx hcy)
    · exact Stays.pure (Keeps.refl h)
  next hstate =>
    split_ifs
    · exact Stays.pure (h.keeps rfl rfl rfl hcx hcy)
    · exact Stays.pure (h.keeps rfl rfl rfl hcx hcy)
    · exact Stays.pure (h.keeps rfl rfl rfl hcx hcy)
    · have hground : Keeps t { t with state := .ground } := h.keeps rfl rfl rfl hcx hcy
      refine (csi_stays hground.inGrid ch ?_).after hground
      exact fun hu => hsaved (Or.inr ⟨hstate, hu.1, hu.2⟩)
    · exact Stays.pure (Keeps.refl h)

theorem writeByte_stays (h : InGrid t) (byte : UInt8)
    (hsaved : ∀ ch, (Term.assemble t.utf8 t.utf8Len byte).2 = some ch → Restores t ch → SavedIn t) :
    Stays t (t.writeByte byte) := by
  rw [Term.writeByte]
  have hseq : Keeps t { t with
      utf8 := (Term.assemble t.utf8 t.utf8Len byte).1.1, utf8Len := (Term.assemble t.utf8 t.utf8Len byte).1.2 } :=
    h.keeps rfl rfl rfl h.cx h.cy
  split
  next => exact Stays.pure hseq
  next ch hch => exact (feed_stays hseq.inGrid ch (hsaved ch hch)).after hseq

end

/-! ## Resizing -/

/-- A resize reads cells of the old grid and writes cells of the new one. -/
def Between (old new : Nat) : Use → Prop
  | .read i => i < old
  | .write i => i < new

/-- The sizes a resize leads to, where the slice has a row of them. -/
theorem clamp_spec {cap cols rows : Nat} (h : Term.clampCols cols ≤ cap) :
    (0 < Term.clampCols cols ∧ Term.clampCols cols ≤ MAX_COLS) ∧
      (0 < Term.clampRows cap (Term.clampCols cols) rows ∧
        Term.clampRows cap (Term.clampCols cols) rows ≤ MAX_ROWS) ∧
      Term.clampCols cols * Term.clampRows cap (Term.clampCols cols) rows ≤ cap := by
  have hcols : 0 < Term.clampCols cols ∧ Term.clampCols cols ≤ MAX_COLS := by
    rw [Term.clampCols, MAX_COLS]
    omega
  have hone : 1 ≤ cap / Term.clampCols cols := (Nat.one_le_div_iff hcols.1).mpr h
  have hrows : Term.clampRows cap (Term.clampCols cols) rows ≤ cap / Term.clampCols cols := by
    rw [Term.clampRows]
    omega
  refine ⟨hcols, ?_, ?_⟩
  · rw [Term.clampRows, MAX_ROWS]
    omega
  · exact (Nat.mul_le_mul_left _ hrows).trans (Nat.mul_div_le cap _)

/-- One row of the old grid is read and one of the new one written. -/
theorem copyRow_ends {cells : Cells Cell} {firstOld oldCols oldRows cols rows r : Nat}
    (hold : oldCols * oldRows ≤ cells.len) (hnew : cols * rows ≤ cells.len) (hfrom : firstOld + r < oldRows)
    (hto : r < rows) {post : Cells Cell → Prop}
    (hpost : post (cells.written (r * cols) cols fun c =>
      if c < oldCols then cells.cell ((firstOld + r) * oldCols + c) else BLANK)) :
    Ends (Between (oldCols * oldRows) (cols * rows)) post (Term.copyRow cells firstOld oldCols cols r) := by
  have hread : (firstOld + r) * oldCols + oldCols ≤ oldCols * oldRows := by
    have hle := Nat.mul_le_mul_right oldCols (show firstOld + r + 1 ≤ oldRows by omega)
    rwa [Nat.add_mul, Nat.one_mul, Nat.mul_comm oldRows] at hle
  have hwrite : r * cols + cols ≤ cols * rows := by
    have hle := Nat.mul_le_mul_right cols (show r + 1 ≤ rows by omega)
    rwa [Nat.add_mul, Nat.one_mul, Nat.mul_comm rows] at hle
  rw [Term.copyRow]
  dsimp only
  refine Ends.bind (p := fun read => read = fun c => cells.cell ((firstOld + r) * oldCols + c))
    (Cells.ends_readEach (Or.inr (by omega)) (fun i _ hi => show i < _ by omega) rfl) ?_
  rintro read rfl
  exact Cells.ends_copyFromSlice (by omega) (fun i _ hi => show i < _ by omega) hpost

theorem relayout_ends {t : Term} (h : InGrid t) {cols rows : Nat}
    (hfits : cols * rows ≤ t.cells.len) :
    Ends (Between (t.cols * t.rows) (cols * rows))
      (fun u => u.cells.len = t.cells.len ∧ u.cols = cols ∧ u.rows = rows) (t.relayout cols rows) := by
  rw [Term.relayout]
  split
  next =>
    dsimp only
    have hkeep : min t.rows rows * cols ≤ rows * cols := Nat.mul_le_mul_right _ (Nat.min_le_right _ _)
    have hgrid : rows * cols = cols * rows := Nat.mul_comm _ _
    refine Ends.bind (p := fun cells => cells.len = t.cells.len) ?_ fun cells hlen => ?_
    · refine Ends.foldlM (p := fun cells : Cells Cell => cells.len = t.cells.len) _ (fun cells r hr hlen => ?_) rfl
      have hr := List.mem_range.mp hr
      have hold := h.fits
      exact copyRow_ends (by omega) (by omega) (by omega) (by omega) hlen
    · refine Ends.bind (p := fun cells => cells.len = t.cells.len)
        (Cells.ends_fillSlice hkeep (by omega) (fun i _ hi => show i < _ by omega) hlen) fun cells hlen => ?_
      exact Ends.pure ⟨hlen, rfl, rfl⟩
  next hsame =>
    have hcols : cols = t.cols := by omega
    have hrows : rows = t.rows := by omega
    exact Ends.pure ⟨rfl, hcols.symm, hrows.symm⟩

/-- A resize to a grid that the slice has room for keeps the cursor in the grid. -/
theorem resize_ends {t : Term} (h : InGrid t) {cols rows : Nat} (hroom : Term.clampCols cols ≤ t.cells.len) :
    Ends (Between (t.cols * t.rows)
        (Term.clampCols cols * Term.clampRows t.cells.len (Term.clampCols cols) rows))
      (fun u => InGrid u ∧ u.cells.len = t.cells.len ∧ u.cols = Term.clampCols cols ∧
        u.rows = Term.clampRows t.cells.len (Term.clampCols cols) rows) (t.resize cols rows) := by
  obtain ⟨hcols, hrows, hfits⟩ := @clamp_spec t.cells.len cols rows hroom
  rw [Term.resize]
  refine Ends.bind (relayout_ends h hfits) ?_
  rintro u ⟨hlen, hucols, hurows⟩
  refine Ends.pure ⟨⟨?_, ?_, ?_, ?_, ?_⟩, hlen, hucols, hurows⟩
  · dsimp only; omega
  · dsimp only; omega
  · dsimp only
    rw [hucols, hurows, hlen]
    exact hfits
  · dsimp only; omega
  · dsimp only; omega

/-! ## Runs -/

/-- What is done to a terminal. -/
inductive Event where
  | char (ch : Char)
  | byte (b : UInt8)
  | resize (cols rows : Nat)
deriving DecidableEq, Repr

def Term.step (t : Term) : Event → Ran Term
  | .char ch => t.feed ch
  | .byte b => t.writeByte b
  | .resize cols rows => t.resize cols rows

/-- The character an event feeds to the parser. -/
def Term.fed (t : Term) : Event → Option Char
  | .char ch => some ch
  | .byte b => (Term.assemble t.utf8 t.utf8Len b).2
  | .resize _ _ => none

/-- The slice is large enough for a row of the grid that is asked for. -/
def Event.Fits (len : Nat) : Event → Prop
  | .resize cols _ => Term.clampCols cols ≤ len
  | _ => True

/-- An event that brings back a cursor saved outside the grid. -/
def RestoresOutside (t : Term) (e : Event) : Prop := (∃ ch ∈ t.fed e, Restores t ch) ∧ ¬ SavedIn t

/-- A run stays in the grid: the cursor is inside in each of its states, each step ends, each cell it reads is in
the grid before it and each cell it writes in the grid after it. -/
@[grind =] def Inside : Term → List Event → Prop
  | t, [] => t.cx < t.cols ∧ t.cy < t.rows
  | t, e :: es => (t.cx < t.cols ∧ t.cy < t.rows) ∧ ∃ u used, (t.step e).run = some (u, used) ∧
      (∀ x ∈ used, Between (t.cols * t.rows) (u.cols * u.rows) x) ∧ Inside u es

/-- No step of a run restores a cursor from outside the grid as it then is. -/
def RestoresInside : Term → List Event → Prop
  | _, [] => True
  | t, e :: es => ¬ RestoresOutside t e ∧ ∀ u used, (t.step e).run = some (u, used) → RestoresInside u es

/-- A step that does not bring the cursor back from outside. -/
theorem step_ends {t : Term} (h : InGrid t) {e : Event} (hfits : e.Fits t.cells.len) (hsaved : ¬ RestoresOutside t e) :
    ∃ u used, (t.step e).run = some (u, used) ∧ (∀ x ∈ used, Between (t.cols * t.rows) (u.cols * u.rows) x) ∧
      InGrid u ∧ u.cells.len = t.cells.len := by
  have hin : ∀ ch, t.fed e = some ch → Restores t ch → SavedIn t := fun ch hch hrestores =>
    not_not.mp fun hout => hsaved ⟨⟨ch, hch, hrestores⟩, hout⟩
  have hstays : ∀ {x : Ran Term}, Stays t x → ∃ u used, x.run = some (u, used) ∧
      (∀ x ∈ used, Between (t.cols * t.rows) (u.cols * u.rows) x) ∧ InGrid u ∧ u.cells.len = t.cells.len := by
    rintro x ⟨u, used, hrun, hused, hkeeps⟩
    refine ⟨u, used, hrun, fun y hy => ?_, hkeeps.inGrid, hkeeps.len⟩
    have hbelow := hused y hy
    rw [hkeeps.cols, hkeeps.rows]
    cases y with
    | read i => exact hbelow
    | write i => exact hbelow
  cases e with
  | char ch => exact hstays (feed_stays h ch (hin ch rfl))
  | byte b => exact hstays (writeByte_stays h b hin)
  | resize cols rows =>
    obtain ⟨u, used, hrun, hused, hgrid, hlen, hcols, hrows⟩ := @resize_ends _ h cols rows hfits
    exact ⟨u, used, hrun, by rw [hcols, hrows]; exact hused, hgrid, hlen⟩

/-- A restored cursor is the saved one. -/
theorem step_restores {t : Term} {e : Event} {ch : Char} (hfed : t.fed e = some ch) (hrestores : Restores t ch) :
    ∃ u, (t.step e).run = some (u, []) ∧ u.cx = t.saved.1 ∧ u.cy = t.saved.2 ∧ u.cols = t.cols ∧ u.rows = t.rows := by
  have hfeed : ∀ {t : Term} {ch : Char}, Restores t ch → ∃ u, (t.feed ch).run = some (u, []) ∧ u.cx = t.saved.1 ∧
      u.cy = t.saved.2 ∧ u.cols = t.cols ∧ u.rows = t.rows := by
    rintro t ch (⟨hstate, rfl⟩ | ⟨hstate, hpriv, rfl⟩)
    · rw [Term.feed, hstate]
      exact ⟨_, rfl, rfl, rfl, rfl, rfl⟩
    · have hcsi : Term.feed t 'u' = Pure.pure { t with state := .ground, cx := t.saved.1, cy := t.saved.2 } := by
        rw [Term.feed, hstate]
        simp [Term.csi, hpriv]
      rw [hcsi]
      exact ⟨_, rfl, rfl, rfl, rfl, rfl⟩
  cases e with
  | char c =>
    obtain rfl := Option.some.inj hfed
    exact hfeed hrestores
  | byte b =>
    rw [Term.step, Term.writeByte]
    rw [Term.fed] at hfed
    rw [hfed]
    exact @hfeed { t with
      utf8 := (Term.assemble t.utf8 t.utf8Len b).1.1, utf8Len := (Term.assemble t.utf8 t.utf8Len b).1.2 } ch hrestores
  | resize cols rows => cases hfed

/-- A run stays in the grid exactly when it restores no cursor from outside. -/
theorem inside_iff (es : List Event) : ∀ {t : Term}, InGrid t → (∀ e ∈ es, e.Fits t.cells.len) →
    (Inside t es ↔ RestoresInside t es) := by
  induction es with
  | nil => exact fun h _ => ⟨fun _ => trivial, fun _ => ⟨h.cx, h.cy⟩⟩
  | cons e es ih =>
    intro t h hfits
    have htail : ∀ {u : Term}, u.cells.len = t.cells.len → ∀ e ∈ es, e.Fits u.cells.len := fun hlen e he => by
      rw [hlen]
      exact hfits e (List.mem_cons_of_mem _ he)
    constructor
    · rintro ⟨-, u, used, hrun, -, hinside⟩
      have hnot : ¬ RestoresOutside t e := by
        rintro ⟨⟨ch, hfed, hrestores⟩, hout⟩
        obtain ⟨v, hrun', hcx, hcy, hcols, hrows⟩ := step_restores hfed hrestores
        obtain ⟨rfl, -⟩ := Prod.mk.inj (Option.some.inj (hrun'.symm.trans hrun))
        have hcursor : v.cx < v.cols ∧ v.cy < v.rows := by
          cases es with
          | nil => exact hinside
          | cons _ _ => exact hinside.1
        rw [hcx, hcy, hcols, hrows] at hcursor
        exact hout hcursor
      refine ⟨hnot, fun u' used' hrun' => ?_⟩
      obtain ⟨v, usedv, hrunv, -, hgrid, hlen⟩ := step_ends h (hfits e List.mem_cons_self) hnot
      obtain ⟨rfl, -⟩ := Prod.mk.inj (Option.some.inj (hrun.symm.trans hrun'))
      obtain ⟨rfl, -⟩ := Prod.mk.inj (Option.some.inj (hrun.symm.trans hrunv))
      exact (ih hgrid (htail hlen)).mp hinside
    · rintro ⟨hnot, hrest⟩
      obtain ⟨u, used, hrun, hused, hgrid, hlen⟩ := step_ends h (hfits e List.mem_cons_self) hnot
      exact ⟨⟨h.cx, h.cy⟩, u, used, hrun, hused, (ih hgrid (htail hlen)).mpr (hrest u used hrun)⟩

/-- The state a run leads to. -/
def replay (t : Term) (es : List Event) : Option Term := es.foldlM (fun t e => (t.step e).run.map Prod.fst) t

theorem Inside.cursor {es : List Event} : ∀ {t : Term}, Inside t es →
    ∃ u, replay t es = some u ∧ u.cx < u.cols ∧ u.cy < u.rows := by
  induction es with
  | nil => exact fun {t} h => ⟨t, rfl, h⟩
  | cons e es ih =>
    rintro t ⟨-, u, used, hrun, -, hinside⟩
    obtain ⟨v, hreplay, hcursor⟩ := ih hinside
    refine ⟨v, ?_, hcursor⟩
    rw [replay, List.foldlM_cons, hrun]
    exact hreplay

/-- The one cell a terminal begins with. -/
theorem initial_inGrid {t : Term} (hcols : t.cols = 1) (hrows : t.rows = 1) (hcx : t.cx = 0) (hcy : t.cy = 0)
    (hlen : 0 < t.cells.len) : InGrid t := by
  refine ⟨?_, ?_, ?_, ?_, ?_⟩
  · rw [hcols, MAX_COLS]; decide
  · rw [hrows, MAX_ROWS]; decide
  · rw [hcols, hrows]; exact hlen
  · rw [hcols, hcx]; decide
  · rw [hrows, hcy]; decide

/-- A cursor saved in the fourth column, the grid cut to two, the cursor restored: it is outside. -/
theorem restored_outside : ¬ ∀ (cells : Cells Cell) (cols rows : Nat) (es : List Event),
    Term.clampCols cols ≤ cells.len → (∀ e ∈ es, e.Fits cells.len) →
    ∃ t used, (Term.new cells cols rows).run = some (t, used) ∧ Inside t es := by
  intro hclaim
  obtain ⟨t, used, hrun, hinside⟩ := hclaim ⟨8, fun _ => BLANK⟩ 4 2
    [.char 'a', .char 'b', .char 'c', .char '\x1b', .char '7', .resize 2 2, .char '\x1b', .char '8'] (by decide)
    (by simp [Event.Fits, Term.clampCols, MAX_COLS])
  obtain ⟨u, hreplay, hcursor, -⟩ := hinside.cursor
  have hlast : ((Term.new ⟨8, fun _ => BLANK⟩ 4 2).run.bind fun x => replay x.1
      [.char 'a', .char 'b', .char 'c', .char '\x1b', .char '7', .resize 2 2, .char '\x1b', .char '8']).map
        (fun u => (u.cx, u.cols)) = some (3, 2) := by
    decide
  rw [hrun, Option.bind_some, hreplay] at hlast
  obtain ⟨hcx, hcols⟩ := Prod.mk.inj (Option.some.inj hlast)
  omega

/-- Any characters, bytes and resizes that the slice has room for: from a new terminal on the run stays in the grid
exactly when no step of it restores a saved cursor from outside the grid. -/
theorem run_inGrid_iff (cells : Cells Cell) {cols rows : Nat} (hroom : Term.clampCols cols ≤ cells.len) (es : List Event)
    (hfits : ∀ e ∈ es, e.Fits cells.len) :
    ∃ t used, (Term.new cells cols rows).run = some (t, used) ∧ (Inside t es ↔ RestoresInside t es) := by
  have hlen : 0 < cells.len := by
    have hcols : 0 < Term.clampCols cols := (@clamp_spec _ cols rows hroom).1.1
    omega
  rw [Term.new]
  generalize hinit : Term.mk cells 1 1 0 0 _ _ _ _ _ _ _ _ _ _ _ _ _ _ _ = t
  obtain rfl : t.cells = cells := by rw [← hinit]
  obtain ⟨u, used, hrun, -, hgrid, hulen, -, -⟩ := @resize_ends _
    (@initial_inGrid t (by rw [← hinit]) (by rw [← hinit]) (by rw [← hinit]) (by rw [← hinit]) hlen) cols rows hroom
  exact ⟨u, used, hrun, inside_iff es hgrid (by rw [hulen]; exact hfits)⟩

/-- A grid that grows and shrinks while an `é` and a cursor position arrive. -/
theorem run_inGrid_iff_resized : ∃ t used, (Term.new ⟨8, fun _ => BLANK⟩ 4 2).run = some (t, used) ∧
    (Inside t [.byte 0xC3, .resize 2 2, .byte 0xA9, .char '\x1b', .char '[', .resize 8 1, .char '9', .char 'C'] ↔
      RestoresInside t
        [.byte 0xC3, .resize 2 2, .byte 0xA9, .char '\x1b', .char '[', .resize 8 1, .char '9', .char 'C']) :=
  run_inGrid_iff ⟨8, fun _ => BLANK⟩ (by decide) _ (by simp [Event.Fits, Term.clampCols, MAX_COLS])

end NanoChrono.Terminal
