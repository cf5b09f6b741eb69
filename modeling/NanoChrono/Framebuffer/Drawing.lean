import NanoChrono.Framebuffer.Surface
import NanoChrono.Memory.Sweep

/-! # Drawing through the back buffer

Every routine clips to the surface and draws into the back buffer, whose rows are `width` pixels,
and widens one damage box; `present_damage` copies the box to the device in the device's format.
An access outside the back buffer or the device's memory is `none`. -/

namespace NanoChrono.Framebuffer

open NanoChrono.Sweep

/-- `0x00RRGGBB`. -/
abbrev Colour := UInt32

/-! ## Damage -/

/-- `u32::saturating_add`. -/
def saturating_add (a b : ℕ) : ℕ := min (a + b) (2 ^ 32 - 1)

/-- `DIRTY_X0` to `DIRTY_Y1`. -/
structure Damage where
  x0 : ℕ
  y0 : ℕ
  x1 : ℕ
  y1 : ℕ
deriving DecidableEq

/-- No damage. -/
def Damage.reset : Damage := ⟨2 ^ 32 - 1, 2 ^ 32 - 1, 0, 0⟩

/-- `mark`. -/
def Damage.mark (d : Damage) (x y w h : ℕ) : Damage :=
  ⟨min d.x0 x, min d.y0 y, max d.x1 (saturating_add x w), max d.y1 (saturating_add y h)⟩

/-- The back buffer, the device's bytes from `base` on, and the damage. -/
structure Buffers where
  shadow : ℕ → Colour
  device : ℕ → UInt8
  dirty : Damage

/-- The back buffer has changed, and the damage with it. -/
def Buffers.drawn (b : Buffers) (x y w h : ℕ) (shadow : ℕ → Colour) : Buffers :=
  { b with shadow := shadow, dirty := b.dirty.mark x y w h }

/-! ## Blending -/

/-- `draw::blend`. -/
def blend (bg fg : Colour) (alpha : UInt8) : Colour :=
  if alpha = 0 then bg
  else if alpha = 255 then fg
  else
    let a := alpha.toUInt32
    let inv := 255 - a
    let mix := fun shift : UInt32 =>
      let b := (bg >>> shift) &&& 0xFF
      let f := (fg >>> shift) &&& 0xFF
      ((f * a + b * inv) / 255) <<< shift
    mix 16 ||| mix 8 ||| mix 0

namespace Surface

variable (fb : Surface)

/-- The pixels of the back buffer. -/
def pixels : ℕ := fb.width.toNat * fb.height.toNat

/-- `(y * self.width + x) as usize`: the product and the sum are of 32 bits. -/
def offset (x y : ℕ) : ℕ := (y * fb.width.toNat + x) % 2 ^ 32

/-- `shadow.add(i).write(colour)`. -/
def write (i : ℕ) (colour : Colour) (m : ℕ → Colour) : Option (ℕ → Colour) :=
  if i < fb.pixels then some (Function.update m i colour) else none

/-- `get`, through the back buffer. -/
def get (x y : ℕ) (m : ℕ → Colour) : Option Colour :=
  if x ≥ fb.width.toNat ∨ y ≥ fb.height.toNat then some 0
  else if fb.offset x y < fb.pixels then some (m (fb.offset x y)) else none

/-! ## The routines -/

/-- `set`. -/
def set (x y : UInt32) (colour : Colour) (b : Buffers) : Option Buffers :=
  if x ≥ fb.width ∨ y ≥ fb.height then some b
  else (fb.write (fb.offset x.toNat y.toNat) colour b.shadow).map (b.drawn x.toNat y.toNat 1 1)

/-- `fill`. -/
def fill (x y w h : UInt32) (colour : Colour) (b : Buffers) : Option Buffers :=
  if x ≥ fb.width ∨ y ≥ fb.height ∨ w = 0 ∨ h = 0 then some b
  else
    let right := min (saturating_add x.toNat w.toNat) fb.width.toNat
    let bottom := min (saturating_add y.toNat h.toNat) fb.height.toNat
    (sweep (bottom - y.toNat) (right - x.toNat)
      (fun row col m => fb.write (fb.offset x.toNat (y.toNat + row) + col) colour m) b.shadow).map
      (b.drawn x.toNat y.toNat (right - x.toNat) (bottom - y.toNat))

/-- `outline`; the far edges are sums of 32 bits. -/
def outline (x y w h : UInt32) (colour : Colour) (b : Buffers) : Option Buffers :=
  if w = 0 ∨ h = 0 then some b
  else
    (fb.fill x y w 1 colour b).bind fun b =>
      (fb.fill x (y + h - 1) w 1 colour b).bind fun b =>
        (fb.fill x y 1 h colour b).bind fun b =>
          fb.fill (x + w - 1) y 1 h colour b

/-- The loop of `blit`. A row that the source does not hold ends the call, `false`. -/
def blit_rows (cx0 cy0 cw skip_x skip_y : ℕ) (src : List Colour) (stride : UInt64) :
    List ℕ → (ℕ → Colour) → Option ((ℕ → Colour) × Bool)
  | [], m => some (m, true)
  | r :: rows, m =>
    let start := ((skip_y + r) * stride.toNat + skip_x) % 2 ^ 64
    let stop := (start + cw) % 2 ^ 64
    if start ≤ stop ∧ stop ≤ src.length then
      (row cw (fun col m => fb.write (fb.offset cx0 (cy0 + r) + col) (src.getD (start + col) 0) m)
        m).bind (blit_rows cx0 cy0 cw skip_x skip_y src stride rows)
    else some (m, false)

/-- `blit`. -/
def blit (x y : Int32) (w h : UInt32) (src : List Colour) (stride : UInt64) (b : Buffers) :
    Option Buffers :=
  let cx0 := x.toInt.toNat
  let cy0 := y.toInt.toNat
  let skip_x := ((cx0 : ℤ) - x.toInt).toNat % 2 ^ 32
  let skip_y := ((cy0 : ℤ) - y.toInt).toNat % 2 ^ 32
  if skip_x ≥ w.toNat ∨ skip_y ≥ h.toNat ∨ cx0 ≥ fb.width.toNat ∨ cy0 ≥ fb.height.toNat then some b
  else
    let cw := min (w.toNat - skip_x) (fb.width.toNat - cx0)
    let ch := min (h.toNat - skip_y) (fb.height.toNat - cy0)
    (fb.blit_rows cx0 cy0 cw skip_x skip_y src stride (List.range ch) b.shadow).map fun result =>
      if result.2 then b.drawn cx0 cy0 cw ch result.1 else { b with shadow := result.1 }

/-- `core::ptr::copy` of `n` pixels. -/
def copy (src dst n : ℕ) (m : ℕ → Colour) : Option (ℕ → Colour) :=
  if src + n ≤ fb.pixels ∧ dst + n ≤ fb.pixels then some (move src dst n m) else none

/-- `copy_within`. -/
def copy_within (sx sy w h dx dy : UInt32) (b : Buffers) : Option Buffers :=
  let w := min (min w.toNat (fb.width.toNat - sx.toNat)) (fb.width.toNat - dx.toNat)
  let h := min (min h.toNat (fb.height.toNat - sy.toNat)) (fb.height.toNat - dy.toNat)
  if w = 0 ∨ h = 0 then some b
  else
    let rows := if dy > sy then (List.range h).reverse else List.range h
    (rows.foldlM (fun m r => fb.copy (fb.offset sx.toNat (sy.toNat + r))
      (fb.offset dx.toNat (dy.toNat + r)) w m) b.shadow).map (b.drawn dx.toNat dy.toNat w h)

/-- What `draw_coverage` does to one pixel: `none` leaves it. -/
def covered (a : UInt8) (fg : Colour) (bg : Option Colour) (under : Colour) : Option Colour :=
  if a = 0 then bg
  else if a = 255 then some fg
  else some (blend (bg.getD under) fg a)

/-- `draw_coverage`; the index into the mask is of 32 bits. -/
def draw_coverage (x y w h : UInt32) (coverage : List UInt8) (fg : Colour) (bg : Option Colour)
    (b : Buffers) : Option Buffers :=
  if x ≥ fb.width ∨ y ≥ fb.height then some b
  else
    let cw := min w.toNat (fb.width.toNat - x.toNat)
    let ch := min h.toNat (fb.height.toNat - y.toNat)
    (sweep ch cw
      (fun row col m =>
        let a := coverage.getD ((row * w.toNat + col) % 2 ^ 32) 0
        (fb.get (x.toNat + col) (y.toNat + row) m).bind fun under =>
          match covered a fg bg under with
          | none => some m
          | some colour => fb.write (fb.offset (x.toNat + col) (y.toNat + row)) colour m)
      b.shadow).map (b.drawn x.toNat y.toNat cw ch)

/-! ## Presenting -/

/-- The bytes of a pixel on the device. -/
def format (colour : Colour) : List UInt8 :=
  if fb.bytesPerPixel = 4 then
    [colour.toUInt8, (colour >>> 8).toUInt8, (colour >>> 16).toUInt8, (colour >>> 24).toUInt8]
  else if fb.bytesPerPixel = 3 then
    [colour.toUInt8, (colour >>> 8).toUInt8, (colour >>> 16).toUInt8]
  else
    let r := (colour >>> 19) &&& 0x1F
    let g := (colour >>> 10) &&& 0x3F
    let b := (colour >>> 3) &&& 0x1F
    let packed := (r <<< 11) ||| (g <<< 5) ||| b
    [packed.toUInt8, (packed >>> 8).toUInt8]

/-- A volatile write of some bytes at an offset of the device. -/
def store (i : ℕ) (data : List UInt8) (device : ℕ → UInt8) : Option (ℕ → UInt8) :=
  if i + data.length ≤ fb.sizeBytes then
    some fun j => if i ≤ j ∧ j < i + data.length then data.getD (j - i) 0 else device j
  else none

/-- `present`. -/
def present (x y w h : ℕ) (b : Buffers) : Option Buffers :=
  if w = 0 ∨ h = 0 ∨ x ≥ fb.width.toNat ∨ y ≥ fb.height.toNat then some b
  else
    let right := min (saturating_add x w) fb.width.toNat
    let bottom := min (saturating_add y h) fb.height.toNat
    let bpp := fb.bytesPerPixel.toNat
    -- the four-byte path steps by whole pixels from the row's first, the others by bytes; both
    -- start at the offset of 32 bits and go `bpp` bytes on
    ((List.range (bottom - y)).foldlM (fun device row =>
      (List.range (right - x)).foldlM (fun device col =>
        let src :=
          if bpp = 4 then fb.offset x (y + row) + col else fb.offset 0 (y + row) + (x + col)
        if src < fb.pixels then
          fb.store (((y + row) * fb.pitch.toNat + x * bpp) % 2 ^ 32 + col * bpp)
            (fb.format (b.shadow src)) device
        else none) device) b.device).map fun device => { b with device := device }

/-- `present_damage`. -/
def present_damage (b : Buffers) : Option Buffers :=
  let d := b.dirty
  let b := { b with dirty := Damage.reset }
  if d.x0 ≥ d.x1 ∨ d.y0 ≥ d.y1 then some b
  else fb.present d.x0 d.y0 (d.x1 - d.x0) (d.y1 - d.y0) b

end Surface

/-- A slice's length is an address's. -/
abbrev Source := { src : List Colour // src.length < 2 ^ 64 }

/-- A call that draws. -/
inductive Call
  | set (x y : UInt32) (colour : Colour)
  | fill (x y w h : UInt32) (colour : Colour)
  | blit (x y : Int32) (w h : UInt32) (src : Source) (stride : UInt64)
  | copy_within (sx sy w h dx dy : UInt32)
  | draw_coverage (x y w h : UInt32) (coverage : List UInt8) (fg : Colour) (bg : Option Colour)
  | outline (x y w h : UInt32) (colour : Colour)

/-- One call. -/
def Surface.call (fb : Surface) (b : Buffers) : Call → Option Buffers
  | .set x y colour => fb.set x y colour b
  | .fill x y w h colour => fb.fill x y w h colour b
  | .blit x y w h src stride => fb.blit x y w h src.1 stride b
  | .copy_within sx sy w h dx dy => fb.copy_within sx sy w h dx dy b
  | .draw_coverage x y w h coverage fg bg => fb.draw_coverage x y w h coverage fg bg b
  | .outline x y w h colour => fb.outline x y w h colour b

end NanoChrono.Framebuffer
