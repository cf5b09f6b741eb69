import NanoChrono.Framebuffer.Plane
import Mathlib.Data.List.TakeWhile

/-! # The back buffer shows the plane

One lemma for each routine says which pixels it changes and how; no routine leaves the back
buffer. From these the runs of calls follow, as long as no far edge and no mask index passes 32
bits and each source holds all or nothing of what is to be seen of its block. -/

namespace NanoChrono.Framebuffer

open NanoChrono.Sweep

/-! ## Damage -/

namespace Damage

/-- A pixel is in the box. -/
def Covers (d : Damage) (px py : ℕ) : Prop := (d.x0 ≤ px ∧ px < d.x1) ∧ d.y0 ≤ py ∧ py < d.y1

instance (d : Damage) (px py : ℕ) : Decidable (d.Covers px py) := inferInstanceAs (Decidable (_ ∧ _))

/-- The box only widens. -/
theorem Covers.mark {d : Damage} {px py : ℕ} (h : d.Covers px py) (x y w h' : ℕ) :
    (d.mark x y w h').Covers px py := by
  obtain ⟨⟨h1, h2⟩, h3, h4⟩ := h
  exact ⟨⟨(min_le_left _ _).trans h1, lt_max_of_lt_left h2⟩, (min_le_left _ _).trans h3,
    lt_max_of_lt_left h4⟩

/-- It takes in what is marked. -/
theorem mark_covers (d : Damage) {x y w h px py : ℕ} (hx : x ≤ px ∧ px < x + w)
    (hy : y ≤ py ∧ py < y + h) (hpx : px < 2 ^ 32 - 1) (hpy : py < 2 ^ 32 - 1) :
    (d.mark x y w h).Covers px py := by
  refine ⟨⟨(min_le_right _ _).trans hx.1, lt_max_of_lt_right ?_⟩, (min_le_right _ _).trans hy.1,
    lt_max_of_lt_right ?_⟩
  · exact lt_min hx.2 hpx
  · exact lt_min hy.2 hpy

end Damage

namespace Surface

variable {fb : Surface}

/-! ## Indices -/

/-- The back buffer's indices stay in 32 bits. -/
theorem Usable.pixels_lt (h : fb.Usable) : fb.pixels < 2 ^ 32 - 1 := by
  obtain ⟨-, -, hheight, hbpp, -, hrow, hsize⟩ := h
  have hbpp : 2 ≤ fb.bytesPerPixel.toNat := UInt32.le_iff_toNat_le.mp hbpp
  have htwice : fb.width.toNat * 2 ≤ fb.pitch.toNat := (Nat.mul_le_mul_left _ hbpp).trans hrow
  have hall : fb.width.toNat * 2 * fb.height.toNat ≤ fb.pitch.toNat * fb.height.toNat :=
    Nat.mul_le_mul_right _ htwice
  have hexpand : fb.width.toNat * 2 * fb.height.toNat = 2 * fb.pixels := by
    rw [pixels]
    ring
  rw [sizeBytes] at hsize
  omega

/-- Coordinates of the screen are less than the largest of 32 bits. -/
theorem coords_lt {x y : ℕ} (hx : x < fb.width.toNat)
    (hy : y < fb.height.toNat) : x < 2 ^ 32 - 1 ∧ y < 2 ^ 32 - 1 := by
  have hw := fb.width.toNat_lt
  have hh := fb.height.toNat_lt
  omega

/-- The offset of a place in a row, or of its end. -/
theorem Usable.offset_eq (h : fb.Usable) {x y : ℕ} (hx : x ≤ fb.width.toNat)
    (hy : y < fb.height.toNat) : fb.offset x y = y * fb.width.toNat + x := by
  have hpixels := h.pixels_lt
  have hrow : (y + 1) * fb.width.toNat ≤ fb.height.toNat * fb.width.toNat :=
    Nat.mul_le_mul_right _ hy
  have hexpand : (y + 1) * fb.width.toNat = y * fb.width.toNat + fb.width.toNat := by ring
  have hcomm : fb.height.toNat * fb.width.toNat = fb.pixels := Nat.mul_comm _ _
  rw [offset, Nat.mod_eq_of_lt]
  omega

/-- A pixel of the screen is in the back buffer. -/
theorem write_cell {x y : ℕ} (hx : x < fb.width.toNat) (hy : y < fb.height.toNat) (colour : Colour)
    (m : ℕ → Colour) :
    fb.write (y * fb.width.toNat + x) colour m =
      some (Function.update m (y * fb.width.toNat + x) colour) :=
  if_pos (cell_lt hx hy)

/-! ## What one routine changes -/

/-- A pixel of the back buffer. -/
def pixel (fb : Surface) (b : Buffers) (px py : ℕ) : Colour := b.shadow (py * fb.width.toNat + px)

/-- `b'` has the pixels `new` on the screen, the device as it was, and no less damage. -/
structure Changes (fb : Surface) (b b' : Buffers) (new : ℕ → ℕ → Colour) : Prop where
  pixel : ∀ px < fb.width.toNat, ∀ py < fb.height.toNat, fb.pixel b' px py = new px py
  device : b'.device = b.device
  widens : ∀ px py, b.dirty.Covers px py → b'.dirty.Covers px py

/-- Every pixel that has changed is in the damage. -/
def Marks (fb : Surface) (b b' : Buffers) : Prop :=
  ∀ px < fb.width.toNat, ∀ py < fb.height.toNat, fb.pixel b' px py ≠ fb.pixel b px py →
    b'.dirty.Covers px py

/-- Nothing has changed. -/
theorem Changes.refl (b : Buffers) : Changes fb b b (fb.pixel b) :=
  ⟨fun _ _ _ _ => rfl, rfl, fun _ _ h => h⟩

theorem Marks.refl (b : Buffers) : Marks fb b b := fun _ _ _ _ h => absurd rfl h

/-- The same pixels under another name. -/
theorem Changes.congr {b b' : Buffers} {new new' : ℕ → ℕ → Colour} (h : Changes fb b b' new)
    (heq : ∀ px < fb.width.toNat, ∀ py < fb.height.toNat, new px py = new' px py) :
    Changes fb b b' new' :=
  ⟨fun px hpx py hpy => (h.pixel px hpx py hpy).trans (heq px hpx py hpy), h.device, h.widens⟩

/-- One call after another. -/
theorem Changes.trans {b b' b'' : Buffers} {new new' : ℕ → ℕ → Colour} (h : Changes fb b b' new)
    (h' : Changes fb b' b'' new') : Changes fb b b'' new' :=
  ⟨h'.pixel, h'.device.trans h.device, fun px py hin => h'.widens px py (h.widens px py hin)⟩

theorem Marks.trans {b b' b'' : Buffers} {new' : ℕ → ℕ → Colour} (h : Marks fb b b')
    (h' : Marks fb b' b'') (hc : Changes fb b' b'' new') : Marks fb b b'' := by
  intro px hpx py hpy hne
  by_cases hsame : fb.pixel b'' px py = fb.pixel b' px py
  · rw [hsame] at hne
    exact hc.widens px py (h px hpx py hpy hne)
  · exact h' px hpx py hpy hsame

/-- The points of a block, in the coordinates of the screen. -/
abbrev In (x y w h px py : ℕ) : Prop := (y ≤ py ∧ py < y + h) ∧ x ≤ px ∧ px < x + w

/-- A block that changes, with the damage marked for it. -/
theorem changes_drawn {b : Buffers} {shadow : ℕ → Colour} {x y w h : ℕ} {f : ℕ → ℕ → Colour}
    (hcells : ∀ px < fb.width.toNat, ∀ py < fb.height.toNat, shadow (py * fb.width.toNat + px) =
      if In x y w h px py then f px py else fb.pixel b px py) :
    Changes fb b (b.drawn x y w h shadow) (fun px py =>
        if In x y w h px py then f px py else fb.pixel b px py) ∧
      Marks fb b (b.drawn x y w h shadow) := by
  refine ⟨⟨hcells, rfl, fun px py hin => hin.mark x y w h⟩, fun px hpx py hpy hne => ?_⟩
  have hin : In x y w h px py := by
    by_contra hout
    exact hne ((hcells px hpx py hpy).trans (if_neg hout))
  obtain ⟨hbx, hby⟩ := coords_lt hpx hpy
  exact b.dirty.mark_covers hin.2 hin.1 hbx hby

/-- A block that fits the screen from `(x, y)` on. -/
theorem sat_right {x w width : ℕ} (hwidth : width ≤ 2 ^ 32 - 1) :
    min (saturating_add x w) width = min (x + w) width := by
  rw [saturating_add]
  omega

/-- Rows of colours written to a block of the screen. -/
theorem sweep_rows (hfb : fb.Usable) (x y w h : ℕ) (hx : x + w ≤ fb.width.toNat)
    (hy : y + h ≤ fb.height.toNat) (g : ℕ → ℕ → Colour) (m : ℕ → Colour) :
    ∃ m', sweep h w (fun row col m => fb.write (fb.offset x (y + row) + col) (g row col) m) m =
        some m' ∧
      ∀ px < fb.width.toNat, ∀ py, m' (py * fb.width.toNat + px) =
        if In x y w h px py then g (py - y) (px - x) else m (py * fb.width.toNat + px) :=
  sweep_spec fb.width.toNat x y h w (fun row col _ => g row col) _ hx
    (fun r hr c hc m => by
      rw [hfb.offset_eq (by omega) (by omega), Nat.add_assoc]
      exact write_cell (by omega) (by omega) _ m) m

/-! ## The routines -/

/-- `set` changes its pixel, if the screen has it. -/
theorem set_changes (hfb : fb.Usable) (x y : UInt32) (colour : Colour) (b : Buffers) :
    ∃ b', fb.set x y colour b = some b' ∧
      Changes fb b b' (fun px py =>
        if In x.toNat y.toNat 1 1 px py then colour else fb.pixel b px py) ∧ Marks fb b b' := by
  rw [set]
  by_cases hout : x ≥ fb.width ∨ y ≥ fb.height
  · rw [if_pos hout]
    refine ⟨b, rfl, (Changes.refl b).congr fun px hpx py hpy => ?_, Marks.refl b⟩
    rw [ge_iff_le, ge_iff_le, UInt32.le_iff_toNat_le, UInt32.le_iff_toNat_le] at hout
    exact (if_neg (by omega)).symm
  · rw [if_neg hout]
    rw [ge_iff_le, ge_iff_le, UInt32.le_iff_toNat_le, UInt32.le_iff_toNat_le, not_or, not_le,
      not_le] at hout
    rw [hfb.offset_eq hout.1.le hout.2, write_cell hout.1 hout.2]
    refine ⟨_, rfl, changes_drawn (f := fun _ _ => colour) fun px hpx py _ => ?_⟩
    by_cases hat : py = y.toNat ∧ px = x.toNat
    · obtain ⟨rfl, rfl⟩ := hat
      rw [Function.update_self, if_pos (by omega)]
    · rw [Function.update_of_ne (fun heq => hat ((cell_inj hpx hout.1).mp heq)), if_neg (by omega)]
      rfl

/-- `fill` changes the pixels of its rectangle. -/
theorem fill_changes (hfb : fb.Usable) (x y w h : UInt32) (colour : Colour) (b : Buffers) :
    ∃ b', fb.fill x y w h colour b = some b' ∧
      Changes fb b b' (fun px py =>
        if In x.toNat y.toNat w.toNat h.toNat px py then colour else fb.pixel b px py) ∧
      Marks fb b b' := by
  have hw := fb.width.toNat_lt
  have hh := fb.height.toNat_lt
  rw [fill]
  by_cases hout : x ≥ fb.width ∨ y ≥ fb.height ∨ w = 0 ∨ h = 0
  · rw [if_pos hout]
    refine ⟨b, rfl, (Changes.refl b).congr fun px hpx py hpy => ?_, Marks.refl b⟩
    rw [ge_iff_le, ge_iff_le, UInt32.le_iff_toNat_le, UInt32.le_iff_toNat_le, ← UInt32.toNat_inj,
      ← UInt32.toNat_inj] at hout
    exact (if_neg (by simp only [UInt32.toNat_zero] at hout; omega)).symm
  · rw [if_neg hout, sat_right (by omega), sat_right (by omega)]
    rw [ge_iff_le, ge_iff_le, UInt32.le_iff_toNat_le, UInt32.le_iff_toNat_le] at hout
    obtain ⟨m, hm, hcells⟩ := sweep_rows hfb x.toNat y.toNat
      (min (x.toNat + w.toNat) fb.width.toNat - x.toNat)
      (min (y.toNat + h.toNat) fb.height.toNat - y.toNat) (by omega) (by omega)
      (fun _ _ => colour) b.shadow
    obtain ⟨hchanges, hmarks⟩ := changes_drawn (b := b) (f := fun _ _ => colour)
      fun px hpx py _ => hcells px hpx py
    refine ⟨_, by simp only [hm, Option.map_some], hchanges.congr fun px hpx py hpy => ?_, hmarks⟩
    by_cases hin : In x.toNat y.toNat w.toNat h.toNat px py
    · rw [if_pos hin, if_pos (by omega)]
    · rw [if_neg hin, if_neg (by omega)]

/-- `draw_coverage` changes the pixels its mask covers; the mask's index has 32 bits. -/
theorem draw_coverage_changes (hfb : fb.Usable) (x y w h : UInt32) (mask : List UInt8) (fg : Colour)
    (bg : Option Colour) (b : Buffers) :
    ∃ b', fb.draw_coverage x y w h mask fg bg b = some b' ∧
      Changes fb b b' (fun px py =>
        if In x.toNat y.toNat w.toNat h.toNat px py then
          (covered (mask.getD (((py - y.toNat) * w.toNat + (px - x.toNat)) % 2 ^ 32) 0) fg bg
            (fb.pixel b px py)).getD (fb.pixel b px py)
        else fb.pixel b px py) ∧
      Marks fb b b' := by
  rw [draw_coverage]
  by_cases hout : x ≥ fb.width ∨ y ≥ fb.height
  · rw [if_pos hout]
    refine ⟨b, rfl, (Changes.refl b).congr fun px hpx py hpy => ?_, Marks.refl b⟩
    rw [ge_iff_le, ge_iff_le, UInt32.le_iff_toNat_le, UInt32.le_iff_toNat_le] at hout
    exact (if_neg (by omega)).symm
  · rw [if_neg hout]
    rw [ge_iff_le, ge_iff_le, UInt32.le_iff_toNat_le, UInt32.le_iff_toNat_le] at hout
    obtain ⟨m, hm, hcells⟩ := sweep_spec fb.width.toNat x.toNat y.toNat
      (min h.toNat (fb.height.toNat - y.toNat)) (min w.toNat (fb.width.toNat - x.toNat))
      (fun row col under =>
        (covered (mask.getD ((row * w.toNat + col) % 2 ^ 32) 0) fg bg under).getD under)
      (fun row col m =>
        (fb.get (x.toNat + col) (y.toNat + row) m).bind fun under =>
          (covered (mask.getD ((row * w.toNat + col) % 2 ^ 32) 0) fg bg under).elim (some m) fun colour =>
            fb.write (fb.offset (x.toNat + col) (y.toNat + row)) colour m)
      (by omega)
      (fun r hr c hc m => by
        have hx : x.toNat + c < fb.width.toNat := by omega
        have hy : y.toNat + r < fb.height.toNat := by omega
        have hget : fb.get (x.toNat + c) (y.toNat + r) m =
            some (m ((y.toNat + r) * fb.width.toNat + (x.toNat + c))) := by
          rw [get, if_neg (by omega), hfb.offset_eq hx.le hy,
            if_pos (show _ < fb.pixels from cell_lt hx hy)]
        rw [hget, hfb.offset_eq hx.le hy, Nat.add_assoc]
        simp only [Option.bind_some]
        cases covered (mask.getD ((r * w.toNat + c) % 2 ^ 32) 0) fg bg
            (m ((y.toNat + r) * fb.width.toNat + (x.toNat + c))) with
        | none => simp only [Option.elim_none, Option.getD_none, Function.update_eq_self]
        | some colour => exact write_cell hx hy colour m) b.shadow
    obtain ⟨hchanges, hmarks⟩ := changes_drawn (b := b) (f := fun px py =>
        (covered (mask.getD (((py - y.toNat) * w.toNat + (px - x.toNat)) % 2 ^ 32) 0) fg bg
          (fb.pixel b px py)).getD (fb.pixel b px py))
      fun px hpx py _ => hcells px hpx py
    refine ⟨_, (congrArg (Option.map _) (congrArg (sweep _ _ · b.shadow) ?_)).trans (congrArg (Option.map _) hm),
      hchanges.congr fun px hpx py hpy => ?_, hmarks⟩
    · funext row col m
      refine congrArg (Option.bind _) (funext fun under => ?_)
      cases covered (mask.getD ((row * w.toNat + col) % 2 ^ 32) 0) fg bg under <;> rfl
    by_cases hin : In x.toNat y.toNat w.toNat h.toNat px py
    · rw [if_pos hin, if_pos (by omega)]
    · rw [if_neg hin, if_neg (by omega)]

/-- The rows of a move, each inside the back buffer. -/
theorem foldlM_copy (hfb : fb.Usable) (sx sy dx dy w h : ℕ) (hsx : sx + w ≤ fb.width.toNat)
    (hdx : dx + w ≤ fb.width.toNat) (hsy : sy + h ≤ fb.height.toNat) (hdy : dy + h ≤ fb.height.toNat)
    (rows : List ℕ) (hrows : ∀ r ∈ rows, r < h) (m : ℕ → Colour) :
    rows.foldlM (fun m r => fb.copy (fb.offset sx (sy + r)) (fb.offset dx (dy + r)) w m) m =
      some (moves fb.width.toNat sx sy dx dy w rows m) := by
  induction rows generalizing m with
  | nil => rfl
  | cons r rows ih =>
    have hr := hrows r List.mem_cons_self
    have hend : ∀ x y, x + w ≤ fb.width.toNat → y < fb.height.toNat →
        y * fb.width.toNat + x + w ≤ fb.pixels := fun x y hx hy => by
      have hrow : (y + 1) * fb.width.toNat ≤ fb.height.toNat * fb.width.toNat :=
        Nat.mul_le_mul_right _ hy
      have hexpand : (y + 1) * fb.width.toNat = y * fb.width.toNat + fb.width.toNat := by ring
      have hcomm : fb.height.toNat * fb.width.toNat = fb.pixels := Nat.mul_comm _ _
      omega
    rw [List.foldlM_cons, hfb.offset_eq (by omega) (by omega), hfb.offset_eq (by omega) (by omega),
      copy, if_pos ⟨hend sx (sy + r) hsx (by omega), hend dx (dy + r) hdx (by omega)⟩]
    exact ih (fun r' hr' => hrows r' (List.mem_cons_of_mem r hr')) _

/-- One side of a move: `c` places, which are on the screen at both ends. -/
structure Common (s d w width c : ℕ) : Prop where
  source : s + c ≤ width
  target : d + c ≤ width
  inside : ∀ p < width, (d ≤ p ∧ p < d + c) ↔ ((d ≤ p ∧ p < d + w) ∧ p - d + s < width)

theorem common {s d w width : ℕ} (hpos : min (min w (width - s)) (width - d) ≠ 0) :
    Common s d w width (min (min w (width - s)) (width - d)) :=
  ⟨by omega, by omega, fun p hp => by omega⟩

/-- `copy_within` moves what is on the screen at both places. -/
theorem copy_within_changes (hfb : fb.Usable) (sx sy w h dx dy : UInt32) (b : Buffers) :
    ∃ b', fb.copy_within sx sy w h dx dy b = some b' ∧
      Changes fb b b' (fun px py =>
        if In dx.toNat dy.toNat w.toNat h.toNat px py ∧
            px - dx.toNat + sx.toNat < fb.width.toNat ∧ py - dy.toNat + sy.toNat < fb.height.toNat then
          fb.pixel b (px - dx.toNat + sx.toNat) (py - dy.toNat + sy.toNat)
        else fb.pixel b px py) ∧
      Marks fb b b' := by
  rw [copy_within]
  by_cases hnone : min (min w.toNat (fb.width.toNat - sx.toNat)) (fb.width.toNat - dx.toNat) = 0 ∨
      min (min h.toNat (fb.height.toNat - sy.toNat)) (fb.height.toNat - dy.toNat) = 0
  · refine ⟨b, by simp only [if_pos hnone], (Changes.refl b).congr fun px hpx py hpy => ?_,
      Marks.refl b⟩
    exact (if_neg (by omega)).symm
  · obtain ⟨hsx, hdx, hinx⟩ := common (not_or.mp hnone).1
    obtain ⟨hsy, hdy, hiny⟩ := common (not_or.mp hnone).2
    generalize min (min w.toNat (fb.width.toNat - sx.toNat)) (fb.width.toNat - dx.toNat) = cw at *
    generalize min (min h.toNat (fb.height.toNat - sy.toNat)) (fb.height.toNat - dy.toNat) = ch at *
    generalize hrows : (if dy > sy then (List.range ch).reverse else List.range ch) = rows
    have hmem : ∀ r, r ∈ rows ↔ r < ch := fun r => by
      rw [← hrows]
      split <;> simp
    -- no row that is still to be read has been written
    have horder : rows.Pairwise fun r r' => dy.toNat + r ≠ sy.toNat + r' := by
      rw [← hrows]
      split
      · next hdown =>
        have hdown : sy.toNat < dy.toNat := UInt32.lt_iff_toNat_lt.mp hdown
        rw [List.pairwise_reverse]
        exact List.pairwise_lt_range.imp fun hlt => by omega
      · next hup =>
        have hup : ¬sy.toNat < dy.toNat := fun hlt => hup (UInt32.lt_iff_toNat_lt.mpr hlt)
        exact List.pairwise_lt_range.imp fun hlt => by omega
    have hfold := foldlM_copy hfb sx.toNat sy.toNat dx.toNat dy.toNat cw ch hsx hdx hsy hdy rows
      (fun r hr => (hmem r).mp hr) b.shadow
    have hcells : ∀ px < fb.width.toNat, ∀ py < fb.height.toNat,
        moves fb.width.toNat sx.toNat sy.toNat dx.toNat dy.toNat cw rows b.shadow
            (py * fb.width.toNat + px) =
          if In dx.toNat dy.toNat cw ch px py then
            fb.pixel b (px - dx.toNat + sx.toNat) (py - dy.toNat + sy.toNat)
          else fb.pixel b px py := fun px hpx py _ => by
      have hrow : dy.toNat ≤ py → (py - dy.toNat ∈ rows ↔ py < dy.toNat + ch) := fun hle => by
        rw [hmem, Nat.sub_lt_iff_lt_add' hle]
      rw [moves_spec hsx hdx rows horder b.shadow hpx py]
      by_cases hin : In dx.toNat dy.toNat cw ch px py
      · rw [if_pos ⟨⟨hin.1.1, (hrow hin.1.1).mpr hin.1.2⟩, hin.2⟩, if_pos hin, pixel,
          Nat.add_comm (py - dy.toNat)]
      · rw [if_neg hin, if_neg fun h => hin ⟨⟨h.1.1, (hrow h.1.1).mp h.1.2⟩, h.2⟩]
        rfl
    obtain ⟨hchanges, hmarks⟩ := changes_drawn hcells
    refine ⟨_, ?_, hchanges.congr fun px hpx py hpy => if_congr ?_ rfl rfl, hmarks⟩
    · simp only [if_neg hnone]
      rw [hfold]
      rfl
    · rw [In, hiny py hpy, hinx px hpx]
      tauto

/-! ## The block -/

/-- The source holds a row's part that is to be seen. -/
def Held (cw skip_x skip_y : ℕ) (src : List Colour) (stride : UInt64) (r : ℕ) : Prop :=
  let start := ((skip_y + r) * stride.toNat + skip_x) % 2 ^ 64
  let stop := (start + cw) % 2 ^ 64
  start ≤ stop ∧ stop ≤ src.length

instance (cw skip_x skip_y : ℕ) (src : List Colour) (stride : UInt64) (r : ℕ) :
    Decidable (Held cw skip_x skip_y src stride r) := inferInstanceAs (Decidable (_ ∧ _))

/-- The loop copies the rows before the first that the source does not hold. -/
theorem blit_rows_eq (cx0 cy0 cw skip_x skip_y : ℕ) (src : List Colour) (stride : UInt64)
    (rows : List ℕ) (m : ℕ → Colour) :
    fb.blit_rows cx0 cy0 cw skip_x skip_y src stride rows m =
      ((rows.takeWhile (Held cw skip_x skip_y src stride ·)).foldlM (fun m r =>
        row cw (fun col m => fb.write (fb.offset cx0 (cy0 + r) + col)
          (src.getD (((skip_y + r) * stride.toNat + skip_x) % 2 ^ 64 + col) 0) m) m) m).map
        (·, rows.all (Held cw skip_x skip_y src stride ·)) := by
  induction rows generalizing m with
  | nil => rfl
  | cons r rows ih =>
    have hstep : fb.blit_rows cx0 cy0 cw skip_x skip_y src stride (r :: rows) m =
        if Held cw skip_x skip_y src stride r then
          (row cw (fun col m => fb.write (fb.offset cx0 (cy0 + r) + col)
            (src.getD (((skip_y + r) * stride.toNat + skip_x) % 2 ^ 64 + col) 0) m) m).bind
            (fb.blit_rows cx0 cy0 cw skip_x skip_y src stride rows)
        else some (m, false) := rfl
    rw [hstep]
    by_cases hheld : Held cw skip_x skip_y src stride r
    · rw [if_pos hheld]
      simp only [List.takeWhile_cons, List.all_cons, hheld, decide_true, if_true, Bool.true_and,
        List.foldlM_cons]
      cases row cw (fun col m => fb.write (fb.offset cx0 (cy0 + r) + col)
          (src.getD (((skip_y + r) * stride.toNat + skip_x) % 2 ^ 64 + col) 0) m) m with
      | none => rfl
      | some m' => exact ih m'
    · rw [if_neg hheld]
      simp only [List.takeWhile_cons, List.all_cons, hheld, decide_false, Bool.false_and]
      rfl

/-- The rows before the first of some kind are the first few. -/
theorem takeWhile_range (n : ℕ) (p : ℕ → Bool) :
    ∃ k ≤ n, (List.range n).takeWhile p = List.range k := by
  have htake := List.prefix_iff_eq_take.mp (List.takeWhile_prefix (l := List.range n) p)
  rw [List.take_range] at htake
  exact ⟨_, min_le_right _ _, htake⟩

/-- The loop stays inside the back buffer. -/
theorem blit_rows_some (hfb : fb.Usable) (cx0 cy0 cw ch skip_x skip_y : ℕ) (src : List Colour)
    (stride : UInt64) (hx : cx0 + cw ≤ fb.width.toNat) (hy : cy0 + ch ≤ fb.height.toNat)
    (m : ℕ → Colour) :
    ∃ result, fb.blit_rows cx0 cy0 cw skip_x skip_y src stride (List.range ch) m = some result := by
  obtain ⟨k, hk, htake⟩ := takeWhile_range ch (Held cw skip_x skip_y src stride ·)
  obtain ⟨m', hm', -⟩ := sweep_rows hfb cx0 cy0 cw k hx (by omega)
    (fun row col => src.getD (((skip_y + row) * stride.toNat + skip_x) % 2 ^ 64 + col) 0) m
  rw [blit_rows_eq, htake]
  exact ⟨_, congrArg (Option.map _) hm'⟩

/-- A loop whose rows are all held copies them. -/
theorem blit_rows_whole (hfb : fb.Usable) (cx0 cy0 cw ch skip_x skip_y : ℕ) (src : List Colour)
    (stride : UInt64) (hx : cx0 + cw ≤ fb.width.toNat) (hy : cy0 + ch ≤ fb.height.toNat)
    (hheld : ∀ r < ch, Held cw skip_x skip_y src stride r) (m : ℕ → Colour) :
    ∃ m', fb.blit_rows cx0 cy0 cw skip_x skip_y src stride (List.range ch) m = some (m', true) ∧
      ∀ px < fb.width.toNat, ∀ py, m' (py * fb.width.toNat + px) =
        if In cx0 cy0 cw ch px py then
          src.getD (((skip_y + (py - cy0)) * stride.toNat + skip_x) % 2 ^ 64 + (px - cx0)) 0
        else m (py * fb.width.toNat + px) := by
  obtain ⟨m', hm', hcells⟩ := sweep_rows hfb cx0 cy0 cw ch hx hy
    (fun row col => src.getD (((skip_y + row) * stride.toNat + skip_x) % 2 ^ 64 + col) 0) m
  have hall : ∀ r ∈ List.range ch, decide (Held cw skip_x skip_y src stride r) = true :=
    fun r hr => decide_eq_true (hheld r (List.mem_range.mp hr))
  refine ⟨m', ?_, hcells⟩
  rw [blit_rows_eq, List.takeWhile_eq_self_iff.mpr hall, List.all_eq_true.mpr hall]
  exact congrArg (Option.map _) hm'

/-- A loop whose first row is not held copies nothing. -/
theorem blit_rows_none {cx0 cy0 cw ch skip_x skip_y : ℕ} {src : List Colour} {stride : UInt64}
    (hch : 0 < ch) (hheld : ¬Held cw skip_x skip_y src stride 0) (m : ℕ → Colour) :
    fb.blit_rows cx0 cy0 cw skip_x skip_y src stride (List.range ch) m = some (m, false) := by
  obtain ⟨ch, rfl⟩ := Nat.exists_eq_succ_of_ne_zero hch.ne'
  rw [blit_rows_eq, List.range_succ_eq_map]
  simp only [List.takeWhile_cons, List.all_cons, hheld, decide_false, Bool.false_and]
  rfl

/-- What is cut off on the left of a block, or above it. -/
theorem skip_eq (x : Int32) : ((x.toInt.toNat : ℤ) - x.toInt).toNat % 2 ^ 32 = (-x.toInt).toNat := by
  have hlow := x.le_toInt
  rw [Nat.mod_eq_of_lt] <;> omega

/-- The source holds all of what is to be seen of a block, or nothing of it. -/
def Whole (fb : Surface) (x y : Int32) (w h : UInt32) (src : List Colour) (stride : UInt64) :
    Prop :=
  (∀ px < fb.width.toNat, ∀ py < fb.height.toNat,
    Plane.Inside x.toInt y.toInt w.toNat h.toNat px py →
      (py - y.toInt).toNat * stride.toNat + (px - x.toInt).toNat < src.length) ∨
  src.length ≤ (-y.toInt).toNat * stride.toNat + (-x.toInt).toNat ∧
    (-y.toInt).toNat * stride.toNat + (-x.toInt).toNat < 2 ^ 64

/-- A row whose end the source holds is held. -/
theorem held_of_lt {cw skip_x skip_y : ℕ} {src : List Colour} {stride : UInt64} {r : ℕ}
    (hsrc : src.length < 2 ^ 64)
    (hlast : (skip_y + r) * stride.toNat + skip_x + cw ≤ src.length) :
    Held cw skip_x skip_y src stride r := by
  rw [Held]
  rw [Nat.mod_eq_of_lt (by omega), Nat.mod_eq_of_lt (by omega)]
  omega

/-- A row that starts beyond the source is not held. -/
theorem not_held_of_le {cw skip_x skip_y : ℕ} {src : List Colour} {stride : UInt64} {r : ℕ}
    (hcw : 0 < cw) (hcw32 : cw < 2 ^ 32)
    (hbeyond : src.length ≤ (skip_y + r) * stride.toNat + skip_x)
    (hfits : (skip_y + r) * stride.toNat + skip_x < 2 ^ 64) :
    ¬Held cw skip_x skip_y src stride r := by
  rw [Held]
  rw [Nat.mod_eq_of_lt hfits]
  omega

/-- What is to be seen of one side of a block: `c` places from `start` on, which are those from `skip` on in the source. -/
structure Clip (X : ℤ) (w width skip start c : ℕ) : Prop where
  pos : 0 < c
  source : skip + c ≤ w
  screen : start + c ≤ width
  inside : ∀ p < width, (X ≤ p ∧ (p : ℤ) < X + w) ↔ (start ≤ p ∧ p < start + c)
  place : ∀ p : ℕ, start ≤ p → (p - X).toNat = skip + (p - start)

theorem clip {X : ℤ} {w width : ℕ} (hskip : (-X).toNat < w) (hstart : X.toNat < width) :
    Clip X w width (-X).toNat X.toNat (min (w - (-X).toNat) (width - X.toNat)) := by
  rcases Int.le_total 0 X with hX | hX
  · obtain ⟨n, rfl⟩ := Int.eq_ofNat_of_zero_le hX
    have hneg : (-(n : ℤ)).toNat = 0 := by omega
    rw [hneg] at hskip ⊢
    rw [Int.toNat_natCast] at hstart ⊢
    exact ⟨by omega, by omega, by omega, fun p hp => by omega, fun p hp => by omega⟩
  · obtain ⟨n, hn⟩ := Int.eq_ofNat_of_zero_le (Int.neg_nonneg_of_nonpos hX)
    have hzero : X.toNat = 0 := Int.toNat_of_nonpos hX
    rw [hn, Int.toNat_natCast] at hskip ⊢
    rw [hzero] at hstart ⊢
    exact ⟨by omega, by omega, by omega, fun p hp => by omega, fun p hp => by omega⟩

/-- `blit` stays inside the back buffer. Where the source holds all or nothing of what is to be
seen of the block, it changes the pixels that the source holds. -/
theorem blit_changes (hfb : fb.Usable) (x y : Int32) (w h : UInt32) (src : List Colour)
    (stride : UInt64) (hsrc : src.length < 2 ^ 64) (b : Buffers) :
    ∃ b', fb.blit x y w h src stride b = some b' ∧ (fb.Whole x y w h src stride →
      Changes fb b b' (fun px py =>
        if Plane.Inside x.toInt y.toInt w.toNat h.toNat px py then
          (src[(py - y.toInt).toNat * stride.toNat + (px - x.toInt).toNat]?).getD (fb.pixel b px py)
        else fb.pixel b px py) ∧
      Marks fb b b') := by
  have hwlt := fb.width.toNat_lt
  have hhlt := fb.height.toNat_lt
  rw [blit, Whole]
  simp only [skip_eq]
  generalize x.toInt = X
  generalize y.toInt = Y
  by_cases hout : (-X).toNat ≥ w.toNat ∨ (-Y).toNat ≥ h.toNat ∨ X.toNat ≥ fb.width.toNat ∨
      Y.toNat ≥ fb.height.toNat
  · rw [if_pos hout]
    refine ⟨b, rfl, fun _ => ⟨(Changes.refl b).congr fun px hpx py hpy => ?_, Marks.refl b⟩⟩
    refine (if_neg ?_).symm
    rintro ⟨⟨hx, hxw⟩, hy, hyh⟩
    omega
  · rw [if_neg hout]
    rw [not_or, not_or, not_or, not_le, not_le, not_le, not_le] at hout
    obtain ⟨hxw, hyh, hxs, hys⟩ := hout
    have clipx := clip hxw hxs
    have clipy := clip hyh hys
    generalize min (w.toNat - (-X).toNat) (fb.width.toNat - X.toNat) = cw at clipx ⊢
    generalize min (h.toNat - (-Y).toNat) (fb.height.toNat - Y.toNat) = ch at clipy ⊢
    generalize (-X).toNat = skip_x at clipx ⊢
    generalize (-Y).toNat = skip_y at clipy ⊢
    generalize X.toNat = x₀ at clipx ⊢
    generalize Y.toNat = y₀ at clipy ⊢
    clear hxw hyh hxs hys
    obtain ⟨hcw, hsx, hx, hinx, hcol⟩ := clipx
    obtain ⟨hch, hsy, hy, hiny, hrow⟩ := clipy
    -- the coordinates of a pixel of the block, in the screen and in the source
    have hinside : ∀ px < fb.width.toNat, ∀ py < fb.height.toNat,
        (Plane.Inside X Y w.toNat h.toNat px py ↔ In x₀ y₀ cw ch px py) :=
      fun px hpx py hpy => (and_congr (hinx px hpx) (hiny py hpy)).trans and_comm
    obtain ⟨result, hresult⟩ := blit_rows_some hfb x₀ y₀ cw ch skip_x skip_y src stride hx hy b.shadow
    refine ⟨_, congrArg (Option.map _) hresult, fun hwhole => ?_⟩
    rcases hwhole with hall | ⟨hnone, hfirst⟩
    · -- every row is held
      have hheld : ∀ r < ch, Held cw skip_x skip_y src stride r := by
        intro r hr
        have hlast := hall (x₀ + (cw - 1)) (by omega) (y₀ + r) (by omega)
          ((hinside _ (by omega) _ (by omega)).mpr (by omega))
        rw [hrow _ (Nat.le_add_right _ _), hcol _ (Nat.le_add_right _ _), Nat.add_sub_cancel_left,
          Nat.add_sub_cancel_left] at hlast
        exact held_of_lt hsrc (by omega)
      obtain ⟨m, hm, hcells⟩ := blit_rows_whole hfb x₀ y₀ cw ch skip_x skip_y src stride hx hy hheld b.shadow
      obtain rfl : result = (m, true) := Option.some_inj.mp (hresult.symm.trans hm)
      obtain ⟨hchanges, hmarks⟩ := changes_drawn (b := b) fun px hpx py _ => hcells px hpx py
      refine ⟨hchanges.congr fun px hpx py hpy => ?_, hmarks⟩
      by_cases hin : In x₀ y₀ cw ch px py
      · have hplane := (hinside px hpx py hpy).mpr hin
        have hlt := hall px hpx py hpy hplane
        rw [hrow py hin.1.1, hcol px hin.2.1] at hlt
        rw [if_pos hin, if_pos hplane, hrow py hin.1.1, hcol px hin.2.1, Nat.mod_eq_of_lt (by omega),
          List.getD_eq_getElem?_getD, Nat.add_assoc, List.getElem?_eq_getElem hlt]
        rfl
      · rw [if_neg hin, if_neg fun hplane => hin ((hinside px hpx py hpy).mp hplane)]
    · -- the first row is not
      have hheld : ¬Held cw skip_x skip_y src stride 0 :=
        not_held_of_le (by omega) (by omega) hnone hfirst
      obtain rfl : result = (b.shadow, false) :=
        Option.some_inj.mp (hresult.symm.trans (blit_rows_none hch hheld b.shadow))
      refine ⟨(Changes.refl b).congr fun px hpx py hpy => ?_, Marks.refl b⟩
      by_cases hplane : Plane.Inside X Y w.toNat h.toNat px py
      · have hin := (hinside px hpx py hpy).mp hplane
        have hmul : skip_y * stride.toNat ≤ (skip_y + (py - y₀)) * stride.toNat :=
          Nat.mul_le_mul_right _ (Nat.le_add_right _ _)
        rw [if_pos hplane, hrow py hin.1.1, hcol px hin.2.1, List.getElem?_eq_none (by omega)]
        rfl
      · rw [if_neg hplane]

/-! ## The outline -/

/-- A far edge, as 32 bits have it. -/
theorem far_edge {y h : UInt32} (hh : h ≠ 0) :
    (y + h - 1).toNat = (y.toNat + h.toNat - 1) % 2 ^ 32 := by
  have hpos : 0 < h.toNat := Nat.pos_of_ne_zero fun h0 => hh (UInt32.toNat_inj.mp h0)
  have hy := y.toNat_lt
  rw [UInt32.toNat_sub, UInt32.toNat_add, UInt32.toNat_one]
  omega

/-- A far edge is where it is to be, or the fill that draws it has nothing on the screen. -/
def Reaches (fb : Surface) (x y w h : UInt32) : Prop :=
  (y.toNat + h.toNat ≤ 2 ^ 32 ∨ fb.width ≤ x ∨ fb.height ≤ y + h - 1) ∧
    (x.toNat + w.toNat ≤ 2 ^ 32 ∨ fb.height ≤ y ∨ fb.width ≤ x + w - 1)

/-- `outline` stays inside the back buffer. Where its far edges are where they are to be, it
changes the pixels of the four sides. -/
theorem outline_changes (hfb : fb.Usable) (x y w h : UInt32) (colour : Colour) (b : Buffers) :
    ∃ b', fb.outline x y w h colour b = some b' ∧ (w = 0 ∨ h = 0 ∨ fb.Reaches x y w h →
      Changes fb b b' (fun px py =>
        if In x.toNat y.toNat w.toNat h.toNat px py ∧ (px = x.toNat ∨ px + 1 = x.toNat + w.toNat ∨
            py = y.toNat ∨ py + 1 = y.toNat + h.toNat) then colour
        else fb.pixel b px py) ∧
      Marks fb b b') := by
  rw [outline]
  by_cases hnone : w = 0 ∨ h = 0
  · rw [if_pos hnone]
    refine ⟨b, rfl, fun _ => ⟨(Changes.refl b).congr fun px _ py _ => ?_, Marks.refl b⟩⟩
    rw [← UInt32.toNat_inj, ← UInt32.toNat_inj, UInt32.toNat_zero] at hnone
    exact (if_neg (by omega)).symm
  · rw [if_neg hnone]
    rw [not_or] at hnone
    obtain ⟨b₁, h₁, htop, mtop⟩ := fill_changes hfb x y w 1 colour b
    obtain ⟨b₂, h₂, hbottom, mbottom⟩ := fill_changes hfb x (y + h - 1) w 1 colour b₁
    obtain ⟨b₃, h₃, hleft, mleft⟩ := fill_changes hfb x y 1 h colour b₂
    obtain ⟨b₄, h₄, hright, mright⟩ := fill_changes hfb (x + w - 1) y 1 h colour b₃
    refine ⟨b₄, ?_, fun hreach => ⟨?_, ?_⟩⟩
    · rw [h₁, Option.bind_some, h₂, Option.bind_some, h₃, Option.bind_some, h₄]
    · have hreach : fb.Reaches x y w h :=
        (hreach.resolve_left hnone.1).resolve_left hnone.2
      obtain ⟨hb, hr⟩ := hreach
      rw [UInt32.le_iff_toNat_le, UInt32.le_iff_toNat_le, far_edge hnone.2] at hb
      rw [UInt32.le_iff_toNat_le, UInt32.le_iff_toNat_le, far_edge hnone.1] at hr
      have hw : 0 < w.toNat := Nat.pos_of_ne_zero fun h0 => hnone.1 (UInt32.toNat_inj.mp h0)
      have hh : 0 < h.toNat := Nat.pos_of_ne_zero fun h0 => hnone.2 (UInt32.toNat_inj.mp h0)
      have hxlt := x.toNat_lt
      have hylt := y.toNat_lt
      have hwlt := w.toNat_lt
      have hhlt := h.toNat_lt
      refine (((htop.trans hbottom).trans hleft).trans hright).congr fun px hpx py hpy => ?_
      rw [hleft.pixel px hpx py hpy, hbottom.pixel px hpx py hpy, htop.pixel px hpx py hpy,
        far_edge hnone.2, far_edge hnone.1, UInt32.toNat_one]
      by_cases hside : In x.toNat y.toNat w.toNat h.toNat px py ∧ (px = x.toNat ∨
          px + 1 = x.toNat + w.toNat ∨ py = y.toNat ∨ py + 1 = y.toNat + h.toNat)
      · rw [if_pos hside]
        -- one of the four fills draws it, and those after it draw the same colour
        split
        · rfl
        · split
          · rfl
          · split
            · rfl
            · rw [if_pos (by omega)]
      · rw [if_neg hside, if_neg (by omega), if_neg (by omega), if_neg (by omega),
          if_neg (by omega)]
    · exact ((mtop.trans mbottom hbottom).trans mleft hleft).trans mright hright

end Surface

end NanoChrono.Framebuffer
