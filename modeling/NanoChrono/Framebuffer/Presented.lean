import NanoChrono.Framebuffer.Composited

/-! # What is drawn is shown

A call draws on the plane what it is to draw there, unless a far edge or a mask's index passes 32
bits, or the source holds some of what is to be seen of its block and not all of it. In a run of
such calls every pixel that differs from the device's is in the damage, so `present_damage` brings
the device up to date. -/

namespace NanoChrono.Framebuffer.Surface

open NanoChrono.Sweep

variable {fb : Surface}

/-! ## One call -/

/-- A call that draws what it is to draw. -/
def Careful (fb : Surface) : Call → Prop
  | .set _ _ _ => True
  | .fill _ _ _ _ _ => True
  | .copy_within _ _ _ _ _ _ => True
  | .blit x y w h src stride => fb.Whole x y w h src.1 stride
  | .draw_coverage x y w h _ _ _ =>
    ∀ px < fb.width.toNat, ∀ py < fb.height.toNat, In x.toNat y.toNat w.toNat h.toNat px py →
      (py - y.toNat) * w.toNat + (px - x.toNat) < 2 ^ 32
  | .outline x y w h _ => w = 0 ∨ h = 0 ∨ fb.Reaches x y w h

/-- The points of a block of the plane, in the coordinates of the screen. -/
theorem inside_iff (x y w h px py : ℕ) : Plane.Inside x y w h px py ↔ In x y w h px py := by
  rw [Plane.Inside, In]
  omega

/-- What a routine changes is what it draws on the plane. -/
theorem view_of_changes {b b' : Buffers} {new : ℕ → ℕ → Colour} {plane : Plane}
    (h : Changes fb b b' new)
    (hplane : ∀ px < fb.width.toNat, ∀ py < fb.height.toNat, plane px py = some (new px py)) :
    fb.view b'.shadow = fb.crop plane :=
  fb.view_eq_crop fun px hpx py hpy => by
    rw [hplane px hpx py hpy]
    exact congrArg some (h.pixel px hpx py hpy)

/-- What the back buffer shows at a point of the screen. -/
theorem view_pixel (b : Buffers) {px py : ℕ} (hpx : px < fb.width.toNat) (hpy : py < fb.height.toNat) :
    fb.view b.shadow px py = some (fb.pixel b px py) :=
  fb.view_at b.shadow hpx hpy

/-- One choice made on the plane and on the screen. -/
theorem ite_eq_some {p q : Prop} [Decidable p] [Decidable q] {a : Option Colour} {c d : Colour}
    (hiff : p ↔ q) (ha : q → a = some c) :
    (if p then a else some d) = some (if q then c else d) := by
  by_cases hq : q
  · rw [if_pos (hiff.mpr hq), if_pos hq, ha hq]
  · rw [if_neg fun hp => hq (hiff.mp hp), if_neg hq]

/-- What `copy_within` moves, on the plane. -/
theorem draw_copy_within (b : Buffers) (sx sy w h dx dy : UInt32) {px py : ℕ}
    (hpx : px < fb.width.toNat) (hpy : py < fb.height.toNat) :
    (fb.view b.shadow).draw (.copy_within sx sy w h dx dy) px py =
      some (if In dx.toNat dy.toNat w.toNat h.toNat px py ∧
          px - dx.toNat + sx.toNat < fb.width.toNat ∧ py - dy.toNat + sy.toNat < fb.height.toNat then
        fb.pixel b (px - dx.toNat + sx.toNat) (py - dy.toNat + sy.toNat)
      else fb.pixel b px py) := by
  rw [Plane.draw, Plane.copy, view_pixel b hpx hpy]
  by_cases hin : In dx.toNat dy.toNat w.toNat h.toNat px py
  · have hx : (px : ℤ) - dx.toNat + sx.toNat = (px - dx.toNat + sx.toNat : ℕ) := by omega
    have hy : (py : ℤ) - dy.toNat + sy.toNat = (py - dy.toNat + sy.toNat : ℕ) := by omega
    rw [if_pos ((inside_iff _ _ _ _ px py).mpr hin), hx, hy]
    by_cases hscreen : px - dx.toNat + sx.toNat < fb.width.toNat ∧
        py - dy.toNat + sy.toNat < fb.height.toNat
    · rw [if_pos ⟨hin, hscreen⟩, view_pixel b hscreen.1 hscreen.2, Option.some_or]
    · -- off the screen there is nothing to move
      rw [if_neg fun h => hscreen h.2, view, if_neg, Option.none_or]
      rintro ⟨⟨-, hxw⟩, -, hyh⟩
      omega
  · rw [if_neg fun h => hin ((inside_iff _ _ _ _ px py).mp h), if_neg fun h => hin h.1]

/-- **One call** stays inside the back buffer and, if it is careful, draws on the screen's part of
the plane, leaves the device, and takes into the damage what it changes. -/
theorem call_draws (hfb : fb.Usable) (b : Buffers) (c : Call) :
    ∃ b', fb.call b c = some b' ∧ (fb.Careful c →
      fb.view b'.shadow = fb.crop ((fb.view b.shadow).draw c) ∧
        (∃ new, Changes fb b b' new) ∧ Marks fb b b') := by
  cases c with
  | set x y colour =>
    obtain ⟨b', hb', hchanges, hmarks⟩ := set_changes hfb x y colour b
    refine ⟨b', hb', fun _ => ⟨view_of_changes hchanges fun px hpx py hpy => ?_,
      ⟨_, hchanges⟩, hmarks⟩⟩
    rw [Plane.draw, Plane.fill, view_pixel b hpx hpy]
    exact ite_eq_some (inside_iff _ _ 1 1 px py) fun _ => rfl
  | fill x y w h colour =>
    obtain ⟨b', hb', hchanges, hmarks⟩ := fill_changes hfb x y w h colour b
    refine ⟨b', hb', fun _ => ⟨view_of_changes hchanges fun px hpx py hpy => ?_,
      ⟨_, hchanges⟩, hmarks⟩⟩
    rw [Plane.draw, Plane.fill, view_pixel b hpx hpy]
    exact ite_eq_some (inside_iff _ _ _ _ px py) fun _ => rfl
  | copy_within sx sy w h dx dy =>
    obtain ⟨b', hb', hchanges, hmarks⟩ := copy_within_changes hfb sx sy w h dx dy b
    exact ⟨b', hb', fun _ => ⟨view_of_changes hchanges fun px hpx py hpy =>
      draw_copy_within b sx sy w h dx dy hpx hpy, ⟨_, hchanges⟩, hmarks⟩⟩
  | blit x y w h src stride =>
    obtain ⟨b', hb', hdraws⟩ := blit_changes hfb x y w h src.1 stride src.2 b
    refine ⟨b', hb', fun hwhole => ?_⟩
    obtain ⟨hchanges, hmarks⟩ := hdraws hwhole
    refine ⟨view_of_changes hchanges fun px hpx py hpy => ?_, ⟨_, hchanges⟩, hmarks⟩
    rw [Plane.draw, Plane.blit, view_pixel b hpx hpy]
    refine ite_eq_some Iff.rfl fun _ => ?_
    cases src.1[(py - y.toInt).toNat * stride.toNat + (px - x.toInt).toNat]? <;> rfl
  | draw_coverage x y w h mask fg bg =>
    obtain ⟨b', hb', hchanges, hmarks⟩ := draw_coverage_changes hfb x y w h mask fg bg b
    refine ⟨b', hb', fun hsmall => ⟨view_of_changes hchanges fun px hpx py hpy => ?_,
      ⟨_, hchanges⟩, hmarks⟩⟩
    rw [Plane.draw, Plane.coverage, view_pixel b hpx hpy]
    refine ite_eq_some (inside_iff _ _ _ _ px py) fun hin => ?_
    have hx : ((px : ℤ) - x.toNat).toNat = px - x.toNat := by omega
    have hy : ((py : ℤ) - y.toNat).toNat = py - y.toNat := by omega
    rw [hx, hy, Int.toNat_natCast, Nat.mod_eq_of_lt (hsmall px hpx py hpy hin)]
    rfl
  | outline x y w h colour =>
    obtain ⟨b', hb', hdraws⟩ := outline_changes hfb x y w h colour b
    refine ⟨b', hb', fun hreach => ?_⟩
    obtain ⟨hchanges, hmarks⟩ := hdraws hreach
    refine ⟨view_of_changes hchanges fun px hpx py hpy => ?_, ⟨_, hchanges⟩, hmarks⟩
    rw [Plane.draw, Plane.outline, view_pixel b hpx hpy]
    refine ite_eq_some ?_ fun _ => rfl
    rw [inside_iff]
    omega

/-! ## A run of calls -/

/-- A pixel's bytes on the device. -/
def bytes (fb : Surface) (device : ℕ → UInt8) (px py : ℕ) : List UInt8 :=
  (List.range fb.bytesPerPixel.toNat).map fun i =>
    device (py * fb.pitch.toNat + px * fb.bytesPerPixel.toNat + i)

/-- The device shows a pixel of the back buffer, in its own format. -/
def Shows (fb : Surface) (b : Buffers) (px py : ℕ) : Prop :=
  fb.bytes b.device px py = fb.format (fb.pixel b px py)

instance (b : Buffers) (px py : ℕ) : Decidable (fb.Shows b px py) :=
  inferInstanceAs (Decidable (_ = _))

/-- Calls stay inside the back buffer. -/
theorem calls_some (hfb : fb.Usable) (calls : List Call) (b : Buffers) :
    ∃ b', calls.foldlM fb.call b = some b' := by
  induction calls generalizing b with
  | nil => exact ⟨b, rfl⟩
  | cons c calls ih =>
    obtain ⟨b₁, h₁, -⟩ := call_draws hfb b c
    rw [List.foldlM_cons, h₁]
    exact ih b₁

/-- Careful calls draw on the plane, leave the device, and take into the damage what they
change. -/
theorem calls_draw (hfb : fb.Usable) (calls : List Call) (hcareful : ∀ c ∈ calls, fb.Careful c)
    {b b' : Buffers} (hrun : calls.foldlM fb.call b = some b') :
    fb.view b'.shadow = fb.drawn (fb.view b.shadow) calls ∧ (∃ new, Changes fb b b' new) ∧
      Marks fb b b' := by
  induction calls generalizing b with
  | nil =>
    obtain rfl := Option.some_inj.mp hrun
    exact ⟨rfl, ⟨_, Changes.refl b⟩, Marks.refl b⟩
  | cons c calls ih =>
    obtain ⟨b₁, h₁, hdraws⟩ := call_draws hfb b c
    obtain ⟨hview, ⟨new, hchanges⟩, hmarks⟩ := hdraws (hcareful c List.mem_cons_self)
    rw [List.foldlM_cons, h₁] at hrun
    obtain ⟨hviews, ⟨new', hchanges'⟩, hmarks'⟩ :=
      ih (fun c hc => hcareful c (List.mem_cons_of_mem _ hc)) hrun
    refine ⟨?_, ⟨new', hchanges.trans hchanges'⟩, hmarks.trans hmarks' hchanges'⟩
    rw [hviews, hview]
    rfl

/-- A pixel has as many bytes as the device keeps of it. -/
theorem Usable.length_format (h : fb.Usable) (colour : Colour) :
    (fb.format colour).length = fb.bytesPerPixel.toNat := by
  obtain ⟨-, -, -, hlow, hhigh, -⟩ := h
  rw [UInt32.le_iff_toNat_le] at hlow hhigh
  rw [format]
  split
  · next h4 => rw [h4]; rfl
  · next h4 =>
    split
    · next h3 => rw [h3]; rfl
    · next h3 =>
      have h4 : fb.bytesPerPixel.toNat ≠ 4 := fun h => h4 (UInt32.toNat_inj.mp h)
      have h3 : fb.bytesPerPixel.toNat ≠ 3 := fun h => h3 (UInt32.toNat_inj.mp h)
      have hlow : 2 ≤ fb.bytesPerPixel.toNat := hlow
      have hhigh : fb.bytesPerPixel.toNat ≤ 4 := hhigh
      simp only [List.length_cons, List.length_nil]
      omega

/-- A pixel of the screen ends inside its row on the device. -/
theorem Usable.byte_lt (h : fb.Usable) {px i : ℕ} (hpx : px < fb.width.toNat)
    (hi : i < fb.bytesPerPixel.toNat) :
    px * fb.bytesPerPixel.toNat + i < fb.pitch.toNat := by
  obtain ⟨-, -, -, -, -, hrow, -⟩ := h
  have hnext : (px + 1) * fb.bytesPerPixel.toNat ≤ fb.width.toNat * fb.bytesPerPixel.toNat :=
    Nat.mul_le_mul_right _ hpx
  have hexpand : (px + 1) * fb.bytesPerPixel.toNat =
      px * fb.bytesPerPixel.toNat + fb.bytesPerPixel.toNat := by ring
  omega

/-- Two pixels of the screen share no byte of the device. -/
theorem Usable.byte_inj (h : fb.Usable) {px py qx qy i j : ℕ} (hpx : px < fb.width.toNat)
    (hqx : qx < fb.width.toNat) (hi : i < fb.bytesPerPixel.toNat) (hj : j < fb.bytesPerPixel.toNat)
    (heq : py * fb.pitch.toNat + px * fb.bytesPerPixel.toNat + i =
      qy * fb.pitch.toNat + qx * fb.bytesPerPixel.toNat + j) :
    (px = qx ∧ py = qy) ∧ i = j := by
  rw [Nat.add_assoc, Nat.add_assoc] at heq
  obtain ⟨hy, hrest⟩ := (cell_inj (h.byte_lt hpx hi) (h.byte_lt hqx hj)).mp heq
  obtain ⟨hx, hij⟩ := (cell_inj hi hj).mp hrest
  exact ⟨⟨hx, hy⟩, hij⟩

/-- A pixel stored: its bytes are there, and those of the others are as they were. -/
theorem store_pixel (hfb : fb.Usable) {qx qy : ℕ} (hqx : qx < fb.width.toNat)
    (hqy : qy < fb.height.toNat) (colour : Colour) (device : ℕ → UInt8) :
    ∃ device', fb.store (qy * fb.pitch.toNat + qx * fb.bytesPerPixel.toNat) (fb.format colour) device =
        some device' ∧ fb.bytes device' qx qy = fb.format colour ∧
      ∀ px < fb.width.toNat, ∀ py, ¬(px = qx ∧ py = qy) →
        fb.bytes device' px py = fb.bytes device px py := by
  have hlen := hfb.length_format colour
  have hfits : qy * fb.pitch.toNat + qx * fb.bytesPerPixel.toNat + (fb.format colour).length ≤
      fb.sizeBytes := by
    have hpos : 0 < fb.bytesPerPixel.toNat := by
      have hlow := UInt32.le_iff_toNat_le.mp hfb.2.2.2.1
      have hlow : 2 ≤ fb.bytesPerPixel.toNat := hlow
      omega
    have hlast := hfb.byte_lt hqx (Nat.sub_lt hpos Nat.one_pos)
    have hcell := cell_lt hlast hqy
    rw [sizeBytes]
    omega
  refine ⟨_, if_pos hfits, ?_, fun px hpx py hother => ?_⟩
  · refine List.ext_getElem (by rw [bytes, List.length_map, List.length_range, hlen]) fun i hi hi' => ?_
    rw [hlen] at hi'
    simp only [bytes, List.getElem_map, List.getElem_range]
    rw [if_pos (by omega), Nat.add_sub_cancel_left, List.getD_eq_getElem?_getD,
      List.getElem?_eq_getElem (by omega), Option.getD_some]
  · refine List.map_congr_left fun i hi => if_neg fun hin => hother ?_
    have hi := List.mem_range.mp hi
    refine (hfb.byte_inj (i := i) (j := px * fb.bytesPerPixel.toNat + py * fb.pitch.toNat + i -
      (qy * fb.pitch.toNat + qx * fb.bytesPerPixel.toNat)) hpx hqx hi (by omega) (by omega)).1

/-- Where a row's pixel is, in the back buffer and on the device. -/
theorem Usable.present_index (hfb : fb.Usable) {x col py : ℕ} (hx : x + col < fb.width.toNat)
    (hpy : py < fb.height.toNat) :
    (if fb.bytesPerPixel.toNat = 4 then fb.offset x py + col else fb.offset 0 py + (x + col)) =
        py * fb.width.toNat + (x + col) ∧
      (py * fb.pitch.toNat + x * fb.bytesPerPixel.toNat) % 2 ^ 32 + col * fb.bytesPerPixel.toNat =
        py * fb.pitch.toNat + (x + col) * fb.bytesPerPixel.toNat := by
  have hpos : 0 < fb.bytesPerPixel.toNat :=
    lt_of_lt_of_le (by decide : 0 < (2 : UInt32).toNat) (UInt32.le_iff_toNat_le.mp hfb.2.2.2.1)
  have hfits : py * fb.pitch.toNat + x * fb.bytesPerPixel.toNat < 2 ^ 32 := by
    have hfirst := hfb.byte_lt (show x < fb.width.toNat by omega) hpos
    exact (cell_lt hfirst hpy).trans hfb.2.2.2.2.2.2
  rw [hfb.offset_eq (by omega) hpy, hfb.offset_eq (Nat.zero_le _) hpy, Nat.mod_eq_of_lt hfits,
    Nat.add_mul]
  refine ⟨?_, by omega⟩
  split <;> omega

/-- What the loops of `present` do for one pixel. -/
def present_pixel (fb : Surface) (b : Buffers) (x py : ℕ) (device : ℕ → UInt8) (col : ℕ) :
    Option (ℕ → UInt8) :=
  let bpp := fb.bytesPerPixel.toNat
  let src := if bpp = 4 then fb.offset x py + col else fb.offset 0 py + (x + col)
  if src < fb.pixels then
    fb.store ((py * fb.pitch.toNat + x * bpp) % 2 ^ 32 + col * bpp) (fb.format (b.shadow src)) device
  else none

/-- One row of a box is brought up to date. -/
theorem present_row (hfb : fb.Usable) (x right py : ℕ) (hright : right ≤ fb.width.toNat)
    (hpy : py < fb.height.toNat) (b : Buffers) (device : ℕ → UInt8) :
    ∃ device', (List.range (right - x)).foldlM (fb.present_pixel b x py) device = some device' ∧
      ∀ k : ℕ × ℕ, (k.1 < fb.width.toNat ∧ k.2 < fb.height.toNat) →
        ((k.2 = py ∧ x ≤ k.1 ∧ k.1 < right) →
          fb.bytes device' k.1 k.2 = fb.format (fb.pixel b k.1 k.2)) ∧
        (¬(k.2 = py ∧ x ≤ k.1 ∧ k.1 < right) → fb.bytes device' k.1 k.2 = fb.bytes device k.1 k.2) := by
  obtain ⟨device', hrun, hkeys⟩ := foldlM_writes (fun k device => fb.bytes device k.1 k.2)
    (fun k => k.1 < fb.width.toNat ∧ k.2 < fb.height.toNat)
    (fun k => fb.format (fb.pixel b k.1 k.2)) (fun col k => k = (x + col, py))
    (fb.present_pixel b x py)
    (List.range (right - x))
    (fun col hcol device => by
      have hcol := List.mem_range.mp hcol
      have hx : x + col < fb.width.toNat := by omega
      obtain ⟨hsrc, hdst⟩ := hfb.present_index hx hpy
      obtain ⟨device', hstore, hnew, hold⟩ := store_pixel hfb hx hpy (fb.pixel b (x + col) py) device
      refine ⟨device', ?_, fun k hk => ⟨fun hkey => ?_, fun hkey => ?_⟩⟩
      · simp only [present_pixel]
        rw [hsrc, if_pos (show _ < fb.pixels from cell_lt hx hpy), hdst]
        exact hstore
      · rw [hkey]
        exact hnew
      · exact hold k.1 hk.1 k.2 fun h => hkey (Prod.ext h.1 h.2)) device
  refine ⟨device', hrun, fun k hk => ⟨fun hin => ?_, fun hout => ?_⟩⟩
  · exact (hkeys k hk).1 ⟨k.1 - x, List.mem_range.mpr (by omega), Prod.ext (by simp only; omega) hin.1⟩
  · refine (hkeys k hk).2 fun ⟨col, hcol, hkey⟩ => hout ?_
    have hcol := List.mem_range.mp hcol
    rw [hkey]
    exact ⟨rfl, by simp only; omega, by simp only; omega⟩

/-- The pixels a box has on the screen are brought up to date, and no other. -/
theorem present_shows (hfb : fb.Usable) (x y w h : ℕ) (b : Buffers) :
    ∃ device, fb.present x y w h b = some { b with device := device } ∧
      ∀ px < fb.width.toNat, ∀ py < fb.height.toNat,
        (In x y w h px py → fb.bytes device px py = fb.format (fb.pixel b px py)) ∧
          (¬In x y w h px py → fb.bytes device px py = fb.bytes b.device px py) := by
  have hwlt := fb.width.toNat_lt
  have hhlt := fb.height.toNat_lt
  rw [present]
  by_cases hout : w = 0 ∨ h = 0 ∨ x ≥ fb.width.toNat ∨ y ≥ fb.height.toNat
  · rw [if_pos hout]
    exact ⟨b.device, rfl, fun px hpx py hpy => ⟨fun hin => absurd hin (by omega), fun _ => rfl⟩⟩
  · rw [if_neg hout, sat_right (by omega), sat_right (by omega)]
    generalize hright : min (x + w) fb.width.toNat = right
    generalize hbottom : min (y + h) fb.height.toNat = bottom
    obtain ⟨device, hrun, hkeys⟩ := foldlM_writes
      (fun (k : ℕ × ℕ) device => fb.bytes device k.1 k.2)
      (fun k => k.1 < fb.width.toNat ∧ k.2 < fb.height.toNat)
      (fun k => fb.format (fb.pixel b k.1 k.2))
      (fun row k => k.2 = y + row ∧ x ≤ k.1 ∧ k.1 < right)
      (fun device row => (List.range (right - x)).foldlM (fb.present_pixel b x (y + row)) device) (List.range (bottom - y))
      (fun row hrow device => by
        have hrow := List.mem_range.mp hrow
        exact present_row hfb x right (y + row) (by omega) (by omega) b device)
      b.device
    refine ⟨device, congrArg (Option.map _) hrun, fun px hpx py hpy => ⟨fun hin => ?_, fun hnot => ?_⟩⟩
    · refine (hkeys (px, py) ⟨hpx, hpy⟩).1 ⟨py - y, List.mem_range.mpr (by omega), ?_⟩
      exact ⟨by simp only; omega, hin.2.1, by simp only; omega⟩
    · refine (hkeys (px, py) ⟨hpx, hpy⟩).2 fun ⟨row, hrow, hy, hx, hlt⟩ => hnot ?_
      have hrow := List.mem_range.mp hrow
      simp only at hy hx hlt
      omega

/-- The damage is presented and forgotten: what was in it is shown, and so is what was shown. -/
theorem present_damage_shows (hfb : fb.Usable) (b : Buffers) :
    ∃ device, fb.present_damage b = some ⟨b.shadow, device, Damage.reset⟩ ∧
      ∀ px < fb.width.toNat, ∀ py < fb.height.toNat, fb.Shows b px py ∨ b.dirty.Covers px py →
        fb.bytes device px py = fb.format (fb.pixel b px py) := by
  rw [present_damage]
  by_cases hempty : b.dirty.x0 ≥ b.dirty.x1 ∨ b.dirty.y0 ≥ b.dirty.y1
  · simp only [if_pos hempty]
    refine ⟨b.device, rfl, fun px _ py _ hor => hor.resolve_right fun hcovers => ?_⟩
    obtain ⟨⟨hx, hxlt⟩, hy, hylt⟩ := hcovers
    omega
  · simp only [if_neg hempty]
    obtain ⟨device, hpresent, hpixels⟩ := present_shows hfb b.dirty.x0 b.dirty.y0
      (b.dirty.x1 - b.dirty.x0) (b.dirty.y1 - b.dirty.y0) { b with dirty := Damage.reset }
    refine ⟨device, hpresent, fun px hpx py hpy hor => ?_⟩
    by_cases hin : In b.dirty.x0 b.dirty.y0 (b.dirty.x1 - b.dirty.x0) (b.dirty.y1 - b.dirty.y0) px py
    · exact (hpixels px hpx py hpy).1 hin
    · have hshows : fb.Shows b px py := hor.resolve_right fun hcovers => hin (by
        obtain ⟨⟨hx, hxlt⟩, hy, hylt⟩ := hcovers
        omega)
      rw [(hpixels px hpx py hpy).2 hin]
      exact hshows

/-! ## The runs -/

/-- **Any calls stay inside the back buffer. Careful calls draw on the screen's part of the plane;
every pixel they change is in the damage; and after `present_damage`, which stays inside the device
too, the device shows each pixel that it showed at first, that was in the damage, or that has
changed.** -/
theorem drawn_and_presented (hfb : fb.Usable) (calls : List Call) (b : Buffers) :
    ∃ b', calls.foldlM fb.call b = some b' ∧ ((∀ c ∈ calls, fb.Careful c) →
      fb.view b'.shadow = fb.drawn (fb.view b.shadow) calls ∧
      (∀ px < fb.width.toNat, ∀ py < fb.height.toNat, fb.pixel b' px py ≠ fb.pixel b px py →
        b'.dirty.Covers px py) ∧
      ∃ b'', fb.present_damage b' = some b'' ∧ b''.shadow = b'.shadow ∧
        ∀ px < fb.width.toNat, ∀ py < fb.height.toNat,
          fb.Shows b px py ∨ b.dirty.Covers px py ∨ fb.pixel b' px py ≠ fb.pixel b px py →
            fb.Shows b'' px py) := by
  obtain ⟨b', hrun⟩ := calls_some hfb calls b
  refine ⟨b', hrun, fun hcareful => ?_⟩
  obtain ⟨hview, ⟨new, hchanges⟩, hmarks⟩ := calls_draw hfb calls hcareful hrun
  obtain ⟨device, hpresent, hshown⟩ := present_damage_shows hfb b'
  refine ⟨hview, hmarks, _, hpresent, rfl, fun px hpx py hpy hor => hshown px hpx py hpy ?_⟩
  by_cases hsame : fb.pixel b' px py = fb.pixel b px py
  · -- shown or in the damage before, and so still
    rcases hor with hshows | hcovers | hchanged
    · left
      rw [Shows, hsame, hchanges.device]
      exact hshows
    · exact .inr (hchanges.widens px py hcovers)
    · exact absurd hsame hchanged
  · exact .inr (hmarks px hpx py hpy hsame)

/-- A screen of two rows of two pixels. -/
def tiny : Surface := ⟨0xE0000000, 2, 2, 8, 4⟩

/-- Black, shown, with no damage. -/
def black : Buffers := ⟨fun _ => 0, fun _ => 0, Damage.reset⟩

theorem drawn_and_presented_tiny :
    ∃ b', [Call.fill 0 1 5 5 7, .outline 1 0 1 1 9].foldlM tiny.call black = some b' ∧
      tiny.view b'.shadow =
        tiny.drawn (tiny.view black.shadow) [.fill 0 1 5 5 7, .outline 1 0 1 1 9] ∧
      (∀ px < 2, ∀ py < 2, tiny.pixel b' px py ≠ tiny.pixel black px py →
        b'.dirty.Covers px py) ∧
      ∃ b'', tiny.present_damage b' = some b'' ∧ b''.shadow = b'.shadow ∧
        ∀ px < 2, ∀ py < 2, tiny.Shows black px py ∨ black.dirty.Covers px py ∨
          tiny.pixel b' px py ≠ tiny.pixel black px py → tiny.Shows b'' px py := by
  obtain ⟨b', hrun, hcareful⟩ := @drawn_and_presented tiny (by decide)
    [.fill 0 1 5 5 7, .outline 1 0 1 1 9] black
  refine ⟨b', hrun, hcareful fun c hc => ?_⟩
  rcases List.mem_pair.mp hc with rfl | rfl
  · trivial
  · exact .inr (.inr ⟨.inl (by decide), .inl (by decide)⟩)

theorem one_pixel_lt : [(7 : Colour)].length < 2 ^ 64 := by decide

/-- A source of one pixel. -/
def one_pixel : Source := ⟨[7], one_pixel_lt⟩

/-- A block of two rows whose source holds one is copied halfway, and the pixel it changes is never
shown; an outline whose far edge passes 32 bits leaves a row of pixels at the top of the screen. -/
theorem drawn_astray :
    tiny.Usable ∧
      (∃ b' b'', tiny.call black (.blit 0 0 1 2 one_pixel 1) = some b' ∧
        tiny.pixel b' 0 0 = 7 ∧ ¬b'.dirty.Covers 0 0 ∧ tiny.present_damage b' = some b'' ∧
        tiny.Shows black 0 0 ∧ ¬tiny.Shows b'' 0 0) ∧
      ∃ b', tiny.call black (.outline 0 0xFFFFFFFF 2 2 7) = some b' ∧ tiny.pixel b' 0 0 = 7 ∧
        tiny.crop ((tiny.view black.shadow).draw (.outline 0 0xFFFFFFFF 2 2 7)) 0 0 = some 0 := by
  refine ⟨by decide, ⟨_, _, rfl, ?_, ?_, rfl, ?_, ?_⟩, ⟨_, rfl, ?_, ?_⟩⟩ <;> decide

end NanoChrono.Framebuffer.Surface
