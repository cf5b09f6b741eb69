import Mathlib.Data.List.Basic
import Mathlib.Algebra.Order.Ring.Nat

/-! # Quite OK Image

The pictures the kernel embeds, decoded a pixel at a time over a borrowed stream. A stream that ends early
keeps repeating its last pixel. -/

namespace NanoChrono.Qoi

abbrev Bytes := List UInt8

/-- `qoif`, then width and height as big-endian `u32`, channels, colour space. -/
def MAGIC : Bytes := [0x71, 0x6F, 0x69, 0x66]

def HEADER_LEN : Nat := 14

/-- Seven zero bytes and a one. -/
def END_MARKER : Bytes := [0, 0, 0, 0, 0, 0, 0, 1]

/-- The largest image: past it the header is refused. -/
def MAX_PIXELS : Nat := 64 * 1024 * 1024

def OP_INDEX : UInt8 := 0x00
def OP_DIFF : UInt8 := 0x40
def OP_LUMA : UInt8 := 0x80
def OP_RUN : UInt8 := 0xC0
def OP_RGB : UInt8 := 0xFE
def OP_RGBA : UInt8 := 0xFF
def MASK_2 : UInt8 := 0xC0

/-- Why a picture was refused. -/
inductive Error where
  /-- Shorter than a header, or not `qoif`. -/
  | notQoi
  /-- Zero-sized, larger than `MAX_PIXELS`, or an unknown channel count. -/
  | badHeader
deriving DecidableEq, Repr

/-- The header's fields. Channels and colour space are informational: every pixel decodes to RGBA. -/
structure Header where
  width : UInt32
  height : UInt32
  channels : UInt8
  colorspace : UInt8
deriving DecidableEq, Repr

def Header.pixels (h : Header) : Nat := h.width.toNat * h.height.toNat

/-- Four bytes, the highest first. -/
def u32OfBytes (a b c d : UInt8) : UInt32 :=
  .ofNat (((a.toNat * 2 ^ 8 + b.toNat) * 2 ^ 8 + c.toNat) * 2 ^ 8 + d.toNat)

/-- The four bytes of a word, the highest first. -/
def bytesOfU32 (n : UInt32) : Bytes :=
  [.ofNat (n.toNat / 2 ^ 24), .ofNat (n.toNat / 2 ^ 16), .ofNat (n.toNat / 2 ^ 8), .ofNat n.toNat]

/-- Reads and checks the header. -/
@[grind =] def header : Bytes → Except Error Header
  | m₀ :: m₁ :: m₂ :: m₃ :: w₀ :: w₁ :: w₂ :: w₃ :: h₀ :: h₁ :: h₂ :: h₃ :: channels :: colorspace :: _ =>
    if [m₀, m₁, m₂, m₃] ≠ MAGIC then .error .notQoi
    else
      let header : Header := ⟨u32OfBytes w₀ w₁ w₂ w₃, u32OfBytes h₀ h₁ h₂ h₃, channels, colorspace⟩
      if header.width = 0 ∨ header.height = 0 ∨ MAX_PIXELS < header.pixels ∨ ¬(3 ≤ channels ∧ channels ≤ 4)
      then .error .badHeader
      else .ok header
  | _ => .error .notQoi

/-- A pixel, as `[r, g, b, a]`. -/
structure Pixel where
  r : UInt8
  g : UInt8
  b : UInt8
  a : UInt8
deriving DecidableEq, Repr

/-- The slot of a pixel in the table of recent ones. -/
def hash (p : Pixel) : Fin 64 :=
  ⟨(p.r.toNat * 3 + p.g.toNat * 5 + p.b.toNat * 7 + p.a.toNat * 11) % 64, Nat.mod_lt _ (by decide)⟩

/-- The pixels seen last, one for each slot. -/
abbrev Index := Vector Pixel 64

/-- The table at the start of an image. -/
def Index.empty : Index := Vector.replicate 64 ⟨0, 0, 0, 0⟩

/-- The table with a pixel in its slot. -/
def Index.put (index : Index) (p : Pixel) : Index := index.set (hash p) p

/-- The pixel before the first. -/
def BLACK : Pixel := ⟨0, 0, 0, 255⟩

/-! ## The stream -/

/-- A borrowed stream and how far it is read. Reading stays before the end of the opcodes, and this is
inside the data. -/
structure Input where
  data : Bytes
  pos : Nat
  /-- The end of the opcode stream: the end marker's start, or the data's end when it is missing. -/
  stop : Nat
  pos_le : pos ≤ stop
  stop_le : stop ≤ data.length
deriving DecidableEq, Repr

namespace Input

/-- The next byte of the opcodes. -/
def byte (i : Input) : Option UInt8 × Input :=
  if h : i.pos < i.stop then
    (some (i.data.get ⟨i.pos, Nat.lt_of_lt_of_le h i.stop_le⟩), { i with pos := i.pos + 1, pos_le := h })
  else (none, i)

/-- No opcode is left. -/
def finish (i : Input) : Input := { i with pos := i.stop, pos_le := Nat.le_refl _ }

/-- What is left of the opcodes. -/
def left (i : Input) : Bytes := (i.data.take i.stop).drop i.pos

end Input

/-! ## The decoder -/

/-- A pixel-at-a-time decoder. -/
structure Decoder where
  input : Input
  header : Header
  index : Index
  previous : Pixel
  run : Nat
  remaining : Nat
  /-- Whether the stream ran out before the image did. -/
  damaged : Bool

/-- The slot an opcode names. -/
def slotOf (op : UInt8) : Fin 64 :=
  ⟨(op &&& 0x3F).toNat, UInt8.toNat_and op 0x3F ▸ Nat.and_lt_two_pow _ (by decide : (0x3F : UInt8).toNat < 2 ^ 6)⟩

/-- What a chunk makes of the pixel before it: the next pixel, and how many more like it follow. Nothing if
the stream ends within the chunk. -/
def chunk (index : Index) (p : Pixel) (op : UInt8) (i : Input) : Option (Pixel × Nat) × Input :=
  if op = OP_RGB then
    let r := i.byte
    let g := r.2.byte
    let b := g.2.byte
    match r.1, g.1, b.1 with
    | some r, some g, some b' => (some ({ p with r, g, b := b' }, 0), b.2)
    | _, _, _ => (none, b.2)
  else if op = OP_RGBA then
    let r := i.byte
    let g := r.2.byte
    let b := g.2.byte
    let a := b.2.byte
    match r.1, g.1, b.1, a.1 with
    | some r, some g, some b, some a' => (some (⟨r, g, b, a'⟩, 0), a.2)
    | _, _, _, _ => (none, a.2)
  else if op &&& MASK_2 = OP_INDEX then (some (index.get (slotOf op), 0), i)
  else if op &&& MASK_2 = OP_DIFF then
    (some ({ p with
      r := p.r + ((op >>> 4 &&& 3) - 2)
      g := p.g + ((op >>> 2 &&& 3) - 2)
      b := p.b + ((op &&& 3) - 2) }, 0), i)
  else if op &&& MASK_2 = OP_LUMA then
    let next := i.byte
    match next.1 with
    | some b =>
      let dg := (op &&& 0x3F) - 32
      let dr_dg := (b >>> 4) - 8
      let db_dg := (b &&& 0x0F) - 8
      (some ({ p with r := p.r + (dg + dr_dg), g := p.g + dg, b := p.b + (dg + db_dg) }, 0), next.2)
    | none => (none, next.2)
  else
    -- `OP_RUN`: this pixel and `run` more like it.
    (some (p, (op &&& 0x3F).toNat), i)

namespace Decoder

/-- Where the opcodes of `data` end. -/
def stopOf (data : Bytes) : Nat :=
  if HEADER_LEN + END_MARKER.length ≤ data.length ∧ data.drop (data.length - 8) = END_MARKER then
    data.length - 8
  else data.length

theorem stopOf_le (data : Bytes) : stopOf data ≤ data.length := by
  unfold stopOf
  split <;> omega

theorem header_len_le {data : Bytes} {h : Header} (hheader : Qoi.header data = .ok h) :
    HEADER_LEN ≤ stopOf data := by
  have hlength : HEADER_LEN ≤ data.length := by
    unfold Qoi.header at hheader
    split at hheader
    · simp [HEADER_LEN]
    · cases hheader
  unfold stopOf
  split
  case isTrue hmarker =>
    have hmarker := hmarker.1
    change HEADER_LEN + 8 ≤ data.length at hmarker
    omega
  case isFalse => exact hlength

/-- A decoder at the first pixel of `data`. -/
def new (data : Bytes) : Except Error Decoder :=
  match h : Qoi.header data with
  | .error e => .error e
  | .ok header => .ok {
      input := ⟨data, HEADER_LEN, stopOf data, header_len_le h, stopOf_le data⟩
      header
      index := .empty
      previous := BLACK
      run := 0
      remaining := header.pixels
      damaged := false }

/-- The next pixel of an image that has one. -/
def readPixel (d : Decoder) : Pixel × Decoder :=
  if 0 < d.run then (d.previous, { d with run := d.run - 1 })
  else
    let op := d.input.byte
    match op.1 with
    | none => (d.previous, { d with damaged := true })
    | some code =>
      let next := chunk d.index d.previous code op.2
      match next.1 with
      | none => (d.previous, { d with input := next.2.finish, damaged := true })
      | some (p, run) =>
        (p, { d with input := next.2, index := d.index.put p, previous := p, run })

/-- The next pixel, or nothing once all of them have been handed out. -/
def nextPixel (d : Decoder) : Option Pixel × Decoder :=
  if d.remaining = 0 then (none, d)
  else
    let r := readPixel { d with remaining := d.remaining - 1 }
    (some r.1, r.2)

@[simp]
theorem readPixel_remaining (d : Decoder) : d.readPixel.2.remaining = d.remaining := by
  unfold readPixel
  split
  · rfl
  · dsimp only
    split
    · rfl
    · split <;> rfl

theorem nextPixel_none {d : Decoder} (h : d.remaining = 0) : d.nextPixel = (none, d) := if_pos h

theorem nextPixel_some {d : Decoder} {n : Nat} (h : d.remaining = n + 1) :
    d.nextPixel =
      (some (readPixel { d with remaining := n }).1, (readPixel { d with remaining := n }).2) := by
  rw [nextPixel, if_neg (by omega)]
  simp only [h, Nat.add_sub_cancel]

/-- All pixels that are handed out, and the decoder after them. -/
def collect (d : Decoder) : List Pixel × Decoder :=
  match h : d.nextPixel with
  | (none, d) => ([], d)
  | (some p, next) =>
    have : next.remaining < d.remaining := by
      cases hremaining : d.remaining with
      | zero =>
        rw [nextPixel_none hremaining] at h
        cases h
      | succ n =>
        rw [nextPixel_some hremaining] at h
        cases h
        rw [readPixel_remaining]
        exact Nat.lt_succ_self n
    let rest := next.collect
    (p :: rest.1, rest.2)
termination_by d.remaining

theorem collect_zero {d : Decoder} (h : d.remaining = 0) : d.collect = ([], d) := by
  rw [collect]
  split
  case h_1 d' hnext =>
    rw [nextPixel_none h] at hnext
    cases hnext
    rfl
  case h_2 hnext =>
    rw [nextPixel_none h] at hnext
    cases hnext

theorem collect_succ {d : Decoder} {n : Nat} (h : d.remaining = n + 1) :
    d.collect =
      ((readPixel { d with remaining := n }).1 :: (readPixel { d with remaining := n }).2.collect.1,
        (readPixel { d with remaining := n }).2.collect.2) := by
  rw [collect]
  split
  case h_1 hnext =>
    rw [nextPixel_some h] at hnext
    cases hnext
  case h_2 hnext =>
    rw [nextPixel_some h] at hnext
    cases hnext
    rfl

/-- A decoder hands out as many pixels as its header asks for, and then no more. -/
theorem collect_length (d : Decoder) :
    d.collect.1.length = d.remaining ∧ d.collect.2.nextPixel.1 = none := by
  induction hremaining : d.remaining generalizing d with
  | zero =>
    rw [collect_zero hremaining]
    exact ⟨rfl, by rw [nextPixel_none hremaining]⟩
  | succ n ih =>
    obtain ⟨hlength, hlast⟩ := ih (readPixel { d with remaining := n }).2 (readPixel_remaining _)
    rw [collect_succ hremaining]
    exact ⟨congrArg Nat.succ hlength, hlast⟩

end Decoder

/-! ## The encoder -/

/-- The pixel at place `i` of an image of `step` bytes for each. -/
def pixelAt (pixels : Bytes) (step i : Nat) : Pixel :=
  ⟨pixels.getD (i * step) 0, pixels.getD (i * step + 1) 0, pixels.getD (i * step + 2) 0,
    if step = 4 then pixels.getD (i * step + 3) 0 else 255⟩

/-- The first `n` pixels of an image. -/
def pixelsOf (pixels : Bytes) (step n : Nat) : List Pixel := (List.range n).map (pixelAt pixels step)

/-- What the encoder keeps between pixels. -/
structure Encoder where
  index : Index
  previous : Pixel
  /-- How often the previous pixel was seen without having been written. -/
  run : Nat

namespace Encoder

/-- An encoder at the first pixel. -/
def new : Encoder := ⟨.empty, BLACK, 0⟩

/-- A run of pixels like the one before them. -/
def runChunk (run : Nat) : Bytes := [OP_RUN ||| .ofNat (run - 1)]

/-- A colour that is not in the table, as a difference where it is a small one. -/
def colour (previous p : Pixel) : Bytes :=
  if p.a = previous.a then
    let dr := (p.r - previous.r).toInt8
    let dg := (p.g - previous.g).toInt8
    let db := (p.b - previous.b).toInt8
    let dr_dg := dr - dg
    let db_dg := db - dg
    if (-2 ≤ dr ∧ dr ≤ 1) ∧ (-2 ≤ dg ∧ dg ≤ 1) ∧ (-2 ≤ db ∧ db ≤ 1) then
      [OP_DIFF ||| (dr + 2).toUInt8 <<< 4 ||| (dg + 2).toUInt8 <<< 2 ||| (db + 2).toUInt8]
    else if (-32 ≤ dg ∧ dg ≤ 31) ∧ (-8 ≤ dr_dg ∧ dr_dg ≤ 7) ∧ (-8 ≤ db_dg ∧ db_dg ≤ 7) then
      [OP_LUMA ||| (dg + 32).toUInt8, (dr_dg + 8).toUInt8 <<< 4 ||| (db_dg + 8).toUInt8]
    else [OP_RGB, p.r, p.g, p.b]
  else [OP_RGBA, p.r, p.g, p.b, p.a]

/-- Encodes one pixel. -/
def pixel (e : Encoder) (p : Pixel) (last : Bool) : Bytes × Encoder :=
  if p = e.previous then
    let run := e.run + 1
    if run = 62 ∨ last then (runChunk run, { e with run := 0 }) else ([], { e with run })
  else
    let flush := if 0 < e.run then runChunk e.run else []
    if e.index.get (hash p) = p then
      (flush ++ [OP_INDEX ||| .ofNat (hash p)], { e with previous := p, run := 0 })
    else (flush ++ colour e.previous p, ⟨e.index.put p, p, 0⟩)

/-- The chunks of the rest of an image. -/
@[grind =] def chunks : Encoder → List Pixel → Bytes
  | _, [] => []
  | e, p :: rest =>
    let r := e.pixel p rest.isEmpty
    r.1 ++ chunks r.2 rest

end Encoder

/-- Encodes RGBA or, with three channels, RGB pixels. There is no result where the channels are not three or
four, or the pixels do not match the size. -/
def encode (pixels : Bytes) (width height : UInt32) (channels : UInt8) : Option Bytes :=
  let n := width.toNat * height.toNat
  let step := channels.toNat
  if (channels = 3 ∨ channels = 4) ∧ pixels.length = n * step then
    some (MAGIC ++ bytesOfU32 width ++ bytesOfU32 height ++ [channels, 0] ++
      Encoder.new.chunks (pixelsOf pixels step n) ++ END_MARKER)
  else none

end NanoChrono.Qoi
