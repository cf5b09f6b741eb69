import NanoChrono.Framebuffer.Drawing

/-! # Drawing on an unbounded plane

What the routines are for: they draw on a plane without edges, of which the screen keeps its own
part. Outside the screen there is nothing, so nothing comes back from there either. -/

namespace NanoChrono.Framebuffer

/-- A plane: the colour of each point, where there is one. -/
abbrev Plane := ℤ → ℤ → Option Colour

namespace Plane

/-- The points of a rectangle. -/
def Inside (x y w h : ℤ) (px py : ℤ) : Prop := (x ≤ px ∧ px < x + w) ∧ y ≤ py ∧ py < y + h

instance (x y w h px py : ℤ) : Decidable (Inside x y w h px py) :=
  inferInstanceAs (Decidable (_ ∧ _))

variable (plane : Plane)

/-- A rectangle of one colour. -/
def fill (x y w h : ℤ) (colour : Colour) : Plane := fun px py =>
  if Inside x y w h px py then some colour else plane px py

/-- The four sides of a rectangle. -/
def outline (x y w h : ℤ) (colour : Colour) : Plane := fun px py =>
  if Inside x y w h px py ∧ (px = x ∨ px = x + w - 1 ∨ py = y ∨ py = y + h - 1) then some colour
  else plane px py

/-- A block of pixels, as far as the source holds them. -/
def blit (x y w h : ℤ) (src : List Colour) (stride : ℕ) : Plane := fun px py =>
  if Inside x y w h px py then
    (src[(py - y).toNat * stride + (px - x).toNat]?).or (plane px py)
  else plane px py

/-- A block of the plane at another place, as far as there is something at the first. -/
def copy (sx sy w h dx dy : ℤ) : Plane := fun px py =>
  if Inside dx dy w h px py then (plane (px - dx + sx) (py - dy + sy)).or (plane px py)
  else plane px py

/-- A mask of coverage; beyond its end it covers nothing. -/
def coverage (x y w h : ℤ) (mask : List UInt8) (fg : Colour) (bg : Option Colour) : Plane :=
  fun px py =>
    if Inside x y w h px py then
      (plane px py).map fun under =>
        (Surface.covered (mask.getD ((py - y).toNat * w.toNat + (px - x).toNat) 0) fg bg under).getD
          under
    else plane px py

/-- What a call draws. -/
def draw : Call → Plane
  | .set x y colour => plane.fill x.toNat y.toNat 1 1 colour
  | .fill x y w h colour => plane.fill x.toNat y.toNat w.toNat h.toNat colour
  | .blit x y w h src stride => plane.blit x.toInt y.toInt w.toNat h.toNat src.1 stride.toNat
  | .copy_within sx sy w h dx dy =>
    plane.copy sx.toNat sy.toNat w.toNat h.toNat dx.toNat dy.toNat
  | .draw_coverage x y w h mask fg bg => plane.coverage x.toNat y.toNat w.toNat h.toNat mask fg bg
  | .outline x y w h colour => plane.outline x.toNat y.toNat w.toNat h.toNat colour

end Plane

namespace Surface

variable (fb : Surface)

/-- The screen's part of the plane. -/
def crop (plane : Plane) : Plane := fun px py =>
  if Plane.Inside 0 0 fb.width.toNat fb.height.toNat px py then plane px py else none

/-- What the back buffer shows of the plane. -/
def view (shadow : ℕ → Colour) : Plane := fun px py =>
  if Plane.Inside 0 0 fb.width.toNat fb.height.toNat px py then
    some (shadow (py.toNat * fb.width.toNat + px.toNat))
  else none

/-- The points of the screen are those with coordinates in it. -/
theorem inside_screen {px py : ℤ}
    (h : Plane.Inside 0 0 fb.width.toNat fb.height.toNat px py) :
    ∃ x < fb.width.toNat, ∃ y < fb.height.toNat, px = x ∧ py = y := by
  obtain ⟨⟨hx, hxw⟩, hy, hyh⟩ := h
  exact ⟨px.toNat, by omega, py.toNat, by omega, by omega, by omega⟩

theorem view_at (shadow : ℕ → Colour) {x y : ℕ} (hx : x < fb.width.toNat) (hy : y < fb.height.toNat) :
    fb.view shadow x y = some (shadow (y * fb.width.toNat + x)) := by
  rw [view, if_pos ⟨⟨by omega, by omega⟩, by omega, by omega⟩, Int.toNat_natCast, Int.toNat_natCast]

/-- A back buffer that shows the plane's colours on the screen shows the screen's part of it. -/
theorem view_eq_crop {shadow : ℕ → Colour} {plane : Plane}
    (h : ∀ x < fb.width.toNat, ∀ y < fb.height.toNat,
      some (shadow (y * fb.width.toNat + x)) = plane x y) :
    fb.view shadow = fb.crop plane := by
  funext px py
  by_cases hin : Plane.Inside 0 0 fb.width.toNat fb.height.toNat px py
  · obtain ⟨x, hx, y, hy, rfl, rfl⟩ := fb.inside_screen hin
    rw [fb.view_at shadow hx hy, h x hx y hy, crop, if_pos hin]
  · rw [view, crop, if_neg hin, if_neg hin]

/-! ## Keeping the screen's part -/

/-- What the plane shows after some calls, when only the screen's part is kept after each. -/
def drawn (plane : Plane) (calls : List Call) : Plane :=
  calls.foldl (fun plane c => fb.crop (plane.draw c)) plane

/-- A call that brings nothing onto the screen from outside it. -/
def Within : Call → Prop
  | .copy_within sx sy w h dx dy => ∀ px py,
    Plane.Inside 0 0 fb.width.toNat fb.height.toNat px py →
      Plane.Inside dx.toNat dy.toNat w.toNat h.toNat px py →
        Plane.Inside 0 0 fb.width.toNat fb.height.toNat (px - dx.toNat + sx.toNat)
          (py - dy.toNat + sy.toNat)
  | _ => True

variable {fb}

end Surface

end NanoChrono.Framebuffer
