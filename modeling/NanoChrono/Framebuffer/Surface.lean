import Mathlib.Tactic

/-! # The surface to draw on

Where a surface starts, how many pixels it has, and how many bytes a row and a pixel take. A surface is drawn on only
if its rows hold their pixels and its offsets fit 32 bits. -/

namespace NanoChrono.Framebuffer

/-- A surface to draw on. -/
structure Surface where
  base : UInt64
  width : UInt32
  height : UInt32
  pitch : UInt32
  bytesPerPixel : UInt32
deriving DecidableEq

/-- A surface, from what a loader or a driver says of it. -/
def Surface.new (base : UInt64) (width height pitch : UInt32) (bitsPerPixel : UInt8) : Surface :=
  ⟨base, width, height, pitch, UInt32.ofNat ((bitsPerPixel.toNat + 7) / 8)⟩

def Surface.sizeBytes (fb : Surface) : Nat := fb.pitch.toNat * fb.height.toNat

/-- Whether a surface can be drawn on. -/
def Surface.Usable (fb : Surface) : Prop :=
  fb.base ≠ 0 ∧ 0 < fb.width ∧ 0 < fb.height ∧ 2 ≤ fb.bytesPerPixel ∧ fb.bytesPerPixel ≤ 4 ∧
    fb.width.toNat * fb.bytesPerPixel.toNat ≤ fb.pitch.toNat ∧ fb.sizeBytes < 2 ^ 32

instance (fb : Surface) : Decidable fb.Usable := inferInstanceAs (Decidable (_ ∧ _ ∧ _ ∧ _ ∧ _ ∧ _ ∧ _))

end NanoChrono.Framebuffer
