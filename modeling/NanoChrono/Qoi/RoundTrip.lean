import Mathlib.Data.Fintype.Basic
import Mathlib.Tactic.Ring
import NanoChrono.Qoi.Format

/-! # Pictures and their streams

The decoder follows the encoder: after the chunks of a pixel it has that pixel before it, and every entry
of the encoder's table. What it has besides is the black before the first pixel, which the encoder does not
file, and whose slot the encoder's table cannot be asked for until both have written it. -/

namespace NanoChrono.Qoi

/-! ## Reading a stream -/

namespace Input

theorem byte_left {i : Input} {b : UInt8} {rest : Bytes} (h : i.left = b :: rest) :
    i.byte.1 = some b ∧ i.byte.2.left = rest := by
  have hpos : i.pos < i.stop := by
    by_contra hpos
    rw [left, List.drop_of_length_le (by rw [List.length_take]; omega)] at h
    cases h
  have hlength : i.pos < (i.data.take i.stop).length := by
    rw [List.length_take]
    have := i.stop_le
    omega
  rw [left, List.drop_eq_getElem_cons hlength, List.cons.injEq, List.getElem_take] at h
  rw [byte, dif_pos hpos]
  exact ⟨congrArg some h.1, h.2⟩

@[simp]
theorem byte_data (i : Input) : i.byte.2.data = i.data := by
  unfold byte
  split <;> rfl

end Input

section Chunks

variable {index : Index} {p : Pixel} {i : Input} {rest : Bytes}

theorem chunk_run {run : Nat} (hpos : 0 < run) (hle : run ≤ 62) :
    chunk index p (OP_RUN ||| .ofNat (run - 1)) i = (some (p, run - 1), i) := by
  have hops : ∀ n < 62, OP_RUN ||| .ofNat n ≠ OP_RGB ∧ OP_RUN ||| .ofNat n ≠ OP_RGBA ∧
      (OP_RUN ||| .ofNat n) &&& MASK_2 = OP_RUN ∧ ((OP_RUN ||| .ofNat n) &&& 0x3F).toNat = n := by decide
  obtain ⟨hrgb, hrgba, hmask, hrun⟩ := hops (run - 1) (by omega)
  rw [chunk, if_neg hrgb, if_neg hrgba, hmask, if_neg (by decide), if_neg (by decide), if_neg (by decide), hrun]

theorem chunk_index (slot : Fin 64) :
    chunk index p (OP_INDEX ||| .ofNat slot) i = (some (index.get slot, 0), i) := by
  have hops : ∀ slot : Fin 64, OP_INDEX ||| .ofNat slot ≠ OP_RGB ∧ OP_INDEX ||| .ofNat slot ≠ OP_RGBA ∧
      (OP_INDEX ||| .ofNat slot) &&& MASK_2 = OP_INDEX ∧ slotOf (OP_INDEX ||| .ofNat slot) = slot := by decide
  obtain ⟨hrgb, hrgba, hmask, hslot⟩ := hops slot
  rw [chunk, if_neg hrgb, if_neg hrgba, hmask, if_pos rfl, hslot]

/-- The differences that are written, counted from the smallest on. -/
theorem differences (x : UInt8) :
    (-2 ≤ x.toInt8 ∧ x.toInt8 ≤ 1 → (x + 2).toNat < 4) ∧
      (-8 ≤ x.toInt8 ∧ x.toInt8 ≤ 7 → (x + 8).toNat < 16) ∧
      (-32 ≤ x.toInt8 ∧ x.toInt8 ≤ 31 → (x + 32).toNat < 64) := by
  have hall : ∀ n < 256,
      (-2 ≤ (UInt8.ofNat n).toInt8 ∧ (UInt8.ofNat n).toInt8 ≤ 1 → (UInt8.ofNat n + 2).toNat < 4) ∧
        (-8 ≤ (UInt8.ofNat n).toInt8 ∧ (UInt8.ofNat n).toInt8 ≤ 7 → (UInt8.ofNat n + 8).toNat < 16) ∧
        (-32 ≤ (UInt8.ofNat n).toInt8 ∧ (UInt8.ofNat n).toInt8 ≤ 31 → (UInt8.ofNat n + 32).toNat < 64) := by
    decide +kernel
  have hx := hall x.toNat x.toNat_lt
  rwa [UInt8.ofNat_toNat] at hx

/-- The bits of a difference chunk. -/
theorem diff_bits {r g b : UInt8} (hr : r.toNat < 4) (hg : g.toNat < 4) (hb : b.toNat < 4) :
    let op := OP_DIFF ||| r <<< 4 ||| g <<< 2 ||| b
    op ≠ OP_RGB ∧ op ≠ OP_RGBA ∧ op &&& MASK_2 = OP_DIFF ∧
      op >>> 4 &&& 3 = r ∧ op >>> 2 &&& 3 = g ∧ op &&& 3 = b := by
  have hall : ∀ r < 4, ∀ g < 4, ∀ b < 4,
      let op := OP_DIFF ||| UInt8.ofNat r <<< 4 ||| UInt8.ofNat g <<< 2 ||| UInt8.ofNat b
      op ≠ OP_RGB ∧ op ≠ OP_RGBA ∧ op &&& MASK_2 = OP_DIFF ∧
        op >>> 4 &&& 3 = .ofNat r ∧ op >>> 2 &&& 3 = .ofNat g ∧ op &&& 3 = .ofNat b := by
    decide
  have hop := hall r.toNat hr g.toNat hg b.toNat hb
  rwa [UInt8.ofNat_toNat, UInt8.ofNat_toNat, UInt8.ofNat_toNat] at hop

theorem luma_bits {g : UInt8} (hg : g.toNat < 64) :
    let op := OP_LUMA ||| g
    op ≠ OP_RGB ∧ op ≠ OP_RGBA ∧ op &&& MASK_2 = OP_LUMA ∧ op &&& 0x3F = g := by
  have hall : ∀ g < 64,
      let op := OP_LUMA ||| UInt8.ofNat g
      op ≠ OP_RGB ∧ op ≠ OP_RGBA ∧ op &&& MASK_2 = OP_LUMA ∧ op &&& 0x3F = .ofNat g := by
    decide
  have hop := hall g.toNat hg
  rwa [UInt8.ofNat_toNat] at hop

/-- The two halves of the byte after a luma opcode. -/
theorem halves {r b : UInt8} (hr : r.toNat < 16) (hb : b.toNat < 16) :
    (r <<< 4 ||| b) >>> 4 = r ∧ (r <<< 4 ||| b) &&& 0x0F = b := by
  have hall : ∀ r < 16, ∀ b < 16,
      (UInt8.ofNat r <<< 4 ||| UInt8.ofNat b) >>> 4 = .ofNat r ∧
        (UInt8.ofNat r <<< 4 ||| UInt8.ofNat b) &&& 0x0F = .ofNat b := by
    decide
  have hbyte := hall r.toNat hr b.toNat hb
  rwa [UInt8.ofNat_toNat, UInt8.ofNat_toNat] at hbyte

theorem chunk_diff {r g b : UInt8} (hr : r.toNat < 4) (hg : g.toNat < 4) (hb : b.toNat < 4) :
    chunk index p (OP_DIFF ||| r <<< 4 ||| g <<< 2 ||| b) i =
      (some ({ p with r := p.r + (r - 2), g := p.g + (g - 2), b := p.b + (b - 2) }, 0), i) := by
  obtain ⟨hrgb, hrgba, hmask, hopr, hopg, hopb⟩ := diff_bits hr hg hb
  rw [chunk, if_neg hrgb, if_neg hrgba, hmask, if_neg (by decide), if_pos rfl, hopr, hopg, hopb]

theorem chunk_luma {g r b : UInt8} (hg : g.toNat < 64) (hr : r.toNat < 16) (hb : b.toNat < 16)
    (hnext : i.byte.1 = some (r <<< 4 ||| b)) :
    chunk index p (OP_LUMA ||| g) i =
      (some ({ p with r := p.r + (g - 32 + (r - 8)), g := p.g + (g - 32), b := p.b + (g - 32 + (b - 8)) }, 0),
        i.byte.2) := by
  obtain ⟨hrgb, hrgba, hmask, hopg⟩ := luma_bits hg
  obtain ⟨hopr, hopb⟩ := halves hr hb
  rw [chunk, if_neg hrgb, if_neg hrgba, hmask, if_neg (by decide), if_neg (by decide), if_pos rfl]
  simp only [hnext, hopg, hopr, hopb]

theorem chunk_rgb {r g b : UInt8} (h : i.left = r :: g :: b :: rest) :
    (chunk index p OP_RGB i).1 = some ({ p with r, g, b }, 0) ∧ (chunk index p OP_RGB i).2.left = rest := by
  obtain ⟨hr, h⟩ := Input.byte_left h
  obtain ⟨hg, h⟩ := Input.byte_left h
  obtain ⟨hb, h⟩ := Input.byte_left h
  rw [chunk, if_pos rfl]
  simp only [hr, hg, hb, h, and_self]

theorem chunk_rgba {r g b a : UInt8} (h : i.left = r :: g :: b :: a :: rest) :
    (chunk index p OP_RGBA i).1 = some (⟨r, g, b, a⟩, 0) ∧ (chunk index p OP_RGBA i).2.left = rest := by
  obtain ⟨hr, h⟩ := Input.byte_left h
  obtain ⟨hg, h⟩ := Input.byte_left h
  obtain ⟨hb, h⟩ := Input.byte_left h
  obtain ⟨ha, h⟩ := Input.byte_left h
  rw [chunk, if_neg (by decide), if_pos rfl]
  simp only [hr, hg, hb, ha, h, and_self]

/-- A colour is read as it was written. -/
theorem chunk_colour {previous : Pixel} (h : i.left = Encoder.colour previous p ++ rest) :
    ∃ op, i.byte.1 = some op ∧ (chunk index previous op i.byte.2).1 = some (p, 0) ∧
      (chunk index previous op i.byte.2).2.left = rest := by
  unfold Encoder.colour at h
  split at h
  case isTrue halpha =>
    -- Differences of bytes wrap around as those of signed bytes do.
    have htwo (x : UInt8) : (x.toInt8 + 2).toUInt8 = x + 2 := Int8.toUInt8_add _ _
    have height (x : UInt8) : (x.toInt8 + 8).toUInt8 = x + 8 := Int8.toUInt8_add _ _
    have hthirty (x : UInt8) : (x.toInt8 + 32).toUInt8 = x + 32 := Int8.toUInt8_add _ _
    have hsame (x y k : UInt8) : x + (y - x + k - k) = y := by grind
    have hgreen (x y d k l : UInt8) : x + (d + k - k + (y - x - d + l - l)) = y := by grind
    simp only [← UInt8.toInt8_sub, htwo, height, hthirty] at h
    split at h
    case isTrue hsmall =>
      obtain ⟨hop, hleft⟩ := Input.byte_left h
      have hchunk := @chunk_diff index previous i.byte.2 _ _ _ ((differences _).1 hsmall.1)
        ((differences _).1 hsmall.2.1) ((differences _).1 hsmall.2.2)
      refine ⟨_, hop, ?_, ?_⟩
      · simp only [hchunk, hsame, ← halpha]
      · rw [hchunk]
        exact hleft
    case isFalse =>
      split at h
      case isTrue hsmall =>
        obtain ⟨hop, hleft⟩ := Input.byte_left h
        obtain ⟨hnext, hrest⟩ := Input.byte_left hleft
        have hchunk := @chunk_luma index previous i.byte.2 _ _ _ ((differences _).2.2 hsmall.1)
          ((differences _).2.1 hsmall.2.1) ((differences _).2.1 hsmall.2.2) hnext
        refine ⟨_, hop, ?_, ?_⟩
        · simp only [hchunk, hsame, hgreen, ← halpha]
        · rw [hchunk]
          exact hrest
      case isFalse =>
        obtain ⟨hop, hleft⟩ := Input.byte_left h
        obtain ⟨hpixel, hrest⟩ := @chunk_rgb index previous _ _ _ _ _ hleft
        exact ⟨OP_RGB, hop, by rw [hpixel, ← halpha], hrest⟩
  case isFalse =>
    obtain ⟨hop, hleft⟩ := Input.byte_left h
    exact ⟨OP_RGBA, hop, chunk_rgba hleft⟩

end Chunks

/-! ## The table -/

/-- The pixel an empty slot holds. -/
abbrev CLEAR : Pixel := ⟨0, 0, 0, 0⟩

/-- The decoder's table is the encoder's, but for the black before the first pixel, which a run at the start
makes the decoder file. -/
def Agree (written read : Index) : Prop :=
  ∀ slot, read.get slot = written.get slot ∨
    (slot = hash BLACK ∧ written.get slot = CLEAR ∧ read.get slot = BLACK)

theorem Index.get_put (index : Index) (p : Pixel) (slot : Fin 64) :
    (index.put p).get slot = if hash p = slot then p else index.get slot := by
  change (index.set (hash p) p)[(slot : Nat)] = if hash p = slot then p else index[(slot : Nat)]
  rw [Vector.getElem_set]
  simp only [Fin.ext_iff]

namespace Agree

variable {written read : Index} {p : Pixel}

/-- What the encoder finds in its table the decoder finds in its own. -/
theorem get_hash (h : Agree written read) (hp : written.get (hash p) = p) : read.get (hash p) = p := by
  rcases h (hash p) with hsame | ⟨hslot, hclear, -⟩
  · rw [hsame, hp]
  · -- The slot of black holds nothing that belongs there.
    rw [← hp, hclear] at hslot
    exact absurd hslot (by decide)

theorem put (h : Agree written read) (p : Pixel) : Agree (written.put p) (read.put p) := by
  intro slot
  rw [Index.get_put, Index.get_put]
  split
  · exact .inl rfl
  · exact h slot

/-- Filing what is in its slot already changes nothing. -/
theorem put_filed (h : Agree written read) (hp : written.get (hash p) = p) : Agree written (read.put p) := by
  intro slot
  rw [Index.get_put]
  split
  case isTrue hslot => exact .inl (by rw [← hslot, hp])
  case isFalse => exact h slot

theorem put_black (h : Agree written read) (hclear : written.get (hash BLACK) = CLEAR) :
    Agree written (read.put BLACK) := by
  intro slot
  rw [Index.get_put]
  split
  case isTrue hslot => exact .inr ⟨hslot.symm, by rw [← hslot, hclear], rfl⟩
  case isFalse => exact h slot

end Agree

/-! ## One pixel -/

/-- The decoder stands where the encoder stood when it had written all pixels up to `previous`. -/
structure Synced (index : Index) (previous : Pixel) (d : Decoder) : Prop where
  agree : Agree index d.index
  /-- The last pixel is in the table, or it is the black before the first. -/
  filed : index.get (hash previous) = previous ∨ previous = BLACK ∧ index.get (hash BLACK) = CLEAR
  previous_eq : d.previous = previous
  run_eq : d.run = 0
  damaged_eq : d.damaged = false

/-- The decoder after a chunk. -/
def Decoder.after (d : Decoder) (i : Input) (p : Pixel) (run : Nat) : Decoder :=
  { d with input := i, index := d.index.put p, previous := p, run }

theorem Decoder.readPixel_chunk {d : Decoder} {op : UInt8} {p : Pixel} {run : Nat} (hrun : d.run = 0)
    (hop : d.input.byte.1 = some op) (hchunk : (chunk d.index d.previous op d.input.byte.2).1 = some (p, run)) :
    d.readPixel = (p, d.after (chunk d.index d.previous op d.input.byte.2).2 p run) := by
  rw [Decoder.readPixel, if_neg (by omega)]
  simp only [hop, hchunk, Decoder.after]

section Steps

variable {index : Index} {previous : Pixel} {d : Decoder} {rest : Bytes} {m : Nat}

/-- The pixels of a run are handed out one after another. -/
theorem collect_repeat {n : Nat} (hrun : d.run = n) (hremaining : d.remaining = n + m) :
    d.collect = (List.replicate n d.previous ++ (Decoder.collect { d with run := 0, remaining := m }).1,
      (Decoder.collect { d with run := 0, remaining := m }).2) := by
  induction n generalizing d with
  | zero =>
    obtain ⟨⟩ := d
    obtain rfl := hrun
    obtain rfl := hremaining.trans (Nat.zero_add m)
    rfl
  | succ n ih =>
    have hread : Decoder.readPixel { d with remaining := n + m } =
        (d.previous, { d with remaining := n + m, run := n }) := by
      rw [Decoder.readPixel, if_pos (by simp [hrun])]
      simp [hrun]
    rw [Decoder.collect_succ (n := n + m) (by omega), hread, ih rfl rfl]
    rfl

/-- A run that was written is read as often as it was seen. -/
theorem flush_run {run : Nat} (hsync : Synced index previous d) (hpos : 0 < run) (hle : run ≤ 62)
    (hleft : d.input.left = Encoder.runChunk run ++ rest) (hremaining : d.remaining = run + m) :
    ∃ d', Synced index previous d' ∧ d'.input.left = rest ∧ d'.remaining = m ∧
      d.collect = (List.replicate run previous ++ d'.collect.1, d'.collect.2) := by
  change d.input.left = (OP_RUN ||| .ofNat (run - 1)) :: rest at hleft
  obtain ⟨hop, hrest⟩ := Input.byte_left hleft
  have hchunk := @chunk_run d.index d.previous d.input.byte.2 run hpos hle
  have hread := @Decoder.readPixel_chunk { d with remaining := run - 1 + m } _ _ _ hsync.run_eq hop
    (congrArg Prod.fst hchunk)
  have hagree : Agree index (d.index.put previous) := by
    rcases hsync.filed with hfiled | ⟨rfl, hclear⟩
    · exact hsync.agree.put_filed hfiled
    · exact hsync.agree.put_black hclear
  have hcollect := @collect_repeat (Decoder.after { d with remaining := run - 1 + m } d.input.byte.2 d.previous
    (run - 1)) m (run - 1) rfl rfl
  refine ⟨{ d with
    input := d.input.byte.2, index := d.index.put previous, previous := previous, run := 0, remaining := m },
    ⟨hagree, hsync.filed, rfl, rfl, hsync.damaged_eq⟩, hrest, rfl, ?_⟩
  rw [Decoder.collect_succ (n := run - 1 + m) (by omega), hread]
  simp only [hchunk, hcollect]
  simp only [Decoder.after, hsync.previous_eq]
  obtain ⟨run, rfl⟩ := Nat.exists_eq_add_of_lt hpos
  simp [List.replicate_succ]

/-- A pixel that is not like the one before it is read as it was written. -/
theorem next_pixel {p : Pixel} (hsync : Synced index previous d)
    (hleft : d.input.left =
      (if index.get (hash p) = p then [OP_INDEX ||| .ofNat (hash p)] else Encoder.colour previous p) ++ rest)
    (hremaining : d.remaining = m + 1) :
    ∃ d', Synced (if index.get (hash p) = p then index else index.put p) p d' ∧ d'.input.left = rest ∧
      d'.remaining = m ∧ d.collect = (p :: d'.collect.1, d'.collect.2) := by
  obtain ⟨op, hop, hchunk, hrest⟩ : ∃ op, d.input.byte.1 = some op ∧
      (chunk d.index d.previous op d.input.byte.2).1 = some (p, 0) ∧
      (chunk d.index d.previous op d.input.byte.2).2.left = rest := by
    split at hleft
    case isTrue hfiled =>
      obtain ⟨hop, hrest⟩ := Input.byte_left hleft
      refine ⟨_, hop, ?_, ?_⟩
      · rw [chunk_index, hsync.agree.get_hash hfiled]
      · rw [chunk_index]
        exact hrest
    case isFalse =>
      rw [hsync.previous_eq]
      exact chunk_colour hleft
  have hread := @Decoder.readPixel_chunk { d with remaining := m } _ _ _ hsync.run_eq hop hchunk
  refine ⟨Decoder.after { d with remaining := m } _ p 0, ?_, hrest, rfl, ?_⟩
  · split
    case isTrue hfiled => exact ⟨hsync.agree.put_filed hfiled, .inl hfiled, rfl, rfl, hsync.damaged_eq⟩
    case isFalse =>
      exact ⟨hsync.agree.put p, .inl (by rw [Index.get_put, if_pos rfl]), rfl, rfl, hsync.damaged_eq⟩
  · rw [Decoder.collect_succ hremaining, hread]

end Steps

/-! ## Whole images -/

/-- The run that is pending before a pixel that ends it. -/
theorem flush_pending {e : Encoder} {d : Decoder} {rest : Bytes} {m : Nat} (hsync : Synced e.index e.previous d)
    (hrun : e.run < 62) (hleft : d.input.left = (if 0 < e.run then Encoder.runChunk e.run else []) ++ rest)
    (hremaining : d.remaining = e.run + m) :
    ∃ d', Synced e.index e.previous d' ∧ d'.input.left = rest ∧ d'.remaining = m ∧
      d.collect = (List.replicate e.run e.previous ++ d'.collect.1, d'.collect.2) := by
  split at hleft
  case isTrue hpos => exact flush_run hsync hpos (by omega) hleft hremaining
  case isFalse hpos =>
    have hzero : e.run = 0 := by omega
    exact ⟨d, hsync, hleft, by omega, by rw [hzero]; rfl⟩

/-- What the encoder writes of the rest of an image, with the run it has not written yet, is read as it is. -/
theorem collect_chunks {e : Encoder} {d : Decoder} (pixels : List Pixel) (hsync : Synced e.index e.previous d)
    (hrun : e.run < 62) (hlast : pixels = [] → e.run = 0) (hleft : d.input.left = e.chunks pixels)
    (hremaining : d.remaining = e.run + pixels.length) :
    d.collect.1 = List.replicate e.run e.previous ++ pixels ∧ d.collect.2.damaged = false := by
  induction pixels generalizing e d with
  | nil =>
    have hzero := hlast rfl
    rw [List.length_nil, hzero] at hremaining
    rw [Decoder.collect_zero hremaining, hzero]
    exact ⟨rfl, hsync.damaged_eq⟩
  | cons p rest ih =>
    rw [List.length_cons] at hremaining
    rw [Encoder.chunks] at hleft
    by_cases hp : p = e.previous
    · subst hp
      by_cases hflush : e.run + 1 = 62 ∨ rest.isEmpty
      · -- The run ends here, and is written.
        have hpixel : e.pixel e.previous rest.isEmpty = (Encoder.runChunk (e.run + 1), { e with run := 0 }) := by
          rw [Encoder.pixel, if_pos rfl, if_pos hflush]
        rw [hpixel] at hleft
        obtain ⟨d', hsync', hleft', hremaining', hcollect⟩ :=
          @flush_run _ _ _ _ rest.length (e.run + 1) hsync (Nat.succ_pos _) (by omega) hleft (by omega)
        obtain ⟨hpixels, hdamaged⟩ := @ih { e with run := 0 } d' hsync' (by simp) (fun _ => rfl) hleft' (by simpa)
        rw [hcollect]
        refine ⟨?_, hdamaged⟩
        rw [hpixels, List.replicate_succ', List.append_assoc]
        rfl
      · -- The run goes on.
        have hpixel : e.pixel e.previous rest.isEmpty = ([], { e with run := e.run + 1 }) := by
          rw [Encoder.pixel, if_pos rfl, if_neg hflush]
        rw [hpixel] at hleft
        obtain ⟨hfull, hrest⟩ := not_or.1 hflush
        obtain ⟨hpixels, hdamaged⟩ := @ih { e with run := e.run + 1 } d hsync (show e.run + 1 < 62 by omega)
          (fun hempty => absurd (by rw [hempty]; rfl) hrest) hleft (show d.remaining = e.run + 1 + _ by omega)
        refine ⟨?_, hdamaged⟩
        rw [hpixels, List.replicate_succ', List.append_assoc]
        rfl
    · let body := if e.index.get (hash p) = p then [OP_INDEX ||| .ofNat (hash p)] else Encoder.colour e.previous p
      let index := if e.index.get (hash p) = p then e.index else e.index.put p
      have hpixel : e.pixel p rest.isEmpty =
          ((if 0 < e.run then Encoder.runChunk e.run else []) ++ body, ⟨index, p, 0⟩) := by
        rw [Encoder.pixel, if_neg hp]
        simp only [body, index]
        split <;> rfl
      rw [hpixel, List.append_assoc] at hleft
      obtain ⟨d₁, hsync₁, hleft₁, hremaining₁, hcollect₁⟩ := flush_pending hsync hrun hleft hremaining
      obtain ⟨d₂, hsync₂, hleft₂, hremaining₂, hcollect₂⟩ := next_pixel hsync₁ hleft₁ hremaining₁
      obtain ⟨hpixels, hdamaged⟩ := @ih ⟨index, p, 0⟩ d₂ hsync₂ (show 0 < 62 by decide) (fun _ => rfl) hleft₂
        (hremaining₂.trans (Nat.zero_add _).symm)
      rw [hcollect₁, hcollect₂]
      refine ⟨?_, hdamaged⟩
      rw [hpixels]
      rfl

/-! ## Headers -/

theorem u32OfBytes_bytesOfU32 (n : UInt32) :
    u32OfBytes (.ofNat (n.toNat / 2 ^ 24)) (.ofNat (n.toNat / 2 ^ 16)) (.ofNat (n.toNat / 2 ^ 8)) (.ofNat n.toNat) =
      n := by
  have hn := n.toNat_lt
  apply UInt32.toNat_inj.1
  simp only [u32OfBytes, UInt8.toNat_ofNat', UInt32.toNat_ofNat']
  omega

/-- An image as the encoder takes it: three or four bytes for each pixel. -/
structure Image where
  width : UInt32
  height : UInt32
  channels : UInt8
  pixels : Bytes
  channels_eq : channels = 3 ∨ channels = 4
  length_eq : pixels.length = width.toNat * height.toNat * channels.toNat

namespace Image

/-- The number of pixels. -/
def size (image : Image) : Nat := image.width.toNat * image.height.toNat

/-- The pixels, row by row. -/
def rows (image : Image) : List Pixel := pixelsOf image.pixels image.channels.toNat image.size

@[simp]
theorem length_rows (image : Image) : image.rows.length = image.size := by
  simp [rows, pixelsOf]

/-- The bytes before the chunks. -/
def head (image : Image) : Bytes :=
  MAGIC ++ bytesOfU32 image.width ++ bytesOfU32 image.height ++ [image.channels, 0]

/-- The stream of an image. -/
def stream (image : Image) : Bytes := image.head ++ Encoder.new.chunks image.rows ++ END_MARKER

theorem encode_eq (image : Image) :
    encode image.pixels image.width image.height image.channels = some image.stream :=
  if_pos ⟨image.channels_eq, image.length_eq⟩

/-- The decoder's header of an image. -/
def header (image : Image) : Header := ⟨image.width, image.height, image.channels, 0⟩

/-- The format holds images of one pixel a side and more, up to `MAX_PIXELS`. -/
def Fits (image : Image) : Prop :=
  image.width ≠ 0 ∧ image.height ≠ 0 ∧ image.size ≤ MAX_PIXELS

theorem header_stream {image : Image} (hfits : image.Fits) : Qoi.header image.stream = .ok image.header := by
  obtain ⟨hwidth, hheight, hsize⟩ := hfits
  have hchannels : 3 ≤ image.channels ∧ image.channels ≤ 4 := by
    rcases image.channels_eq with h | h <;> rw [h] <;> decide
  have hpixels : ¬MAX_PIXELS < image.header.pixels := Nat.not_lt.2 hsize
  have hmagic : [(0x71 : UInt8), 0x6F, 0x69, 0x66] = MAGIC := rfl
  simp only [stream, head, MAGIC, bytesOfU32, List.cons_append, List.nil_append, Qoi.header,
    u32OfBytes_bytesOfU32]
  rw [if_neg (fun h => h hmagic), if_neg]
  · rfl
  · exact not_or.2 ⟨hwidth, not_or.2 ⟨hheight, not_or.2 ⟨hpixels, not_not.2 hchannels⟩⟩⟩

theorem length_head (image : Image) : image.head.length = HEADER_LEN := rfl

/-- The chunks end where the marker begins. -/
theorem stopOf_stream (image : Image) :
    Decoder.stopOf image.stream = image.head.length + (Encoder.new.chunks image.rows).length := by
  have hlength : image.stream.length = image.head.length + (Encoder.new.chunks image.rows).length + 8 := by
    rw [stream, List.length_append, List.length_append]
    rfl
  have hmarker : image.stream.drop (image.stream.length - 8) = END_MARKER := by
    rw [hlength, Nat.add_sub_cancel, ← List.length_append, stream, List.drop_left]
  have hroom : HEADER_LEN + END_MARKER.length ≤ image.stream.length := by
    rw [hlength, length_head]
    change HEADER_LEN + 8 ≤ _
    omega
  rw [Decoder.stopOf, if_pos ⟨hroom, hmarker⟩, hlength, Nat.add_sub_cancel]

end Image

/-- The decoder of data with a header that passes. -/
theorem Decoder.new_eq {data : Bytes} {h : Header} (hheader : Qoi.header data = .ok h) :
    Decoder.new data = .ok {
      input := ⟨data, HEADER_LEN, stopOf data, header_len_le hheader, stopOf_le data⟩
      header := h
      index := .empty
      previous := BLACK
      run := 0
      remaining := h.pixels
      damaged := false } := by
  unfold Decoder.new
  split
  case h_1 hbad =>
    rw [hheader] at hbad
    cases hbad
  case h_2 header' hgood =>
    obtain rfl := Except.ok.inj (hheader.symm.trans hgood)
    rfl

/-- The decoder makes of the encoder's output what the encoder was given. -/
def Image.RoundTrips (image : Image) : Prop :=
  ∃ data d, encode image.pixels image.width image.height image.channels = some data ∧ Decoder.new data = .ok d ∧
    d.header.width = image.width ∧ d.header.height = image.height ∧ d.collect.1 = image.rows ∧
    d.collect.2.damaged = false

theorem Image.Fits.roundTrips {image : Image} (hfits : image.Fits) : image.RoundTrips := by
  have hsync : Synced Encoder.new.index Encoder.new.previous
      { input := ⟨image.stream, HEADER_LEN, Decoder.stopOf image.stream, Decoder.header_len_le (header_stream hfits),
          Decoder.stopOf_le image.stream⟩
        header := image.header
        index := .empty
        previous := BLACK
        run := 0
        remaining := image.header.pixels
        damaged := false } :=
    ⟨fun _ => .inl rfl, .inr ⟨rfl, by decide⟩, rfl, rfl, rfl⟩
  have hdone := collect_chunks image.rows hsync (by decide) (fun _ => rfl) ?_ ?_
  · exact ⟨image.stream, _, image.encode_eq, Decoder.new_eq (header_stream hfits), rfl, rfl, hdone.1, hdone.2⟩
  · -- What is left of the stream after the header and before the marker.
    change (image.stream.take (Decoder.stopOf image.stream)).drop HEADER_LEN = _
    rw [stopOf_stream, ← length_head image, stream, ← List.length_append, List.take_left, List.drop_left]
  · exact (length_rows image).symm.trans (Nat.zero_add _).symm

/-! ## Any stream -/

theorem chunk_data (index : Index) (p : Pixel) (op : UInt8) (i : Input) : (chunk index p op i).2.data = i.data := by
  unfold chunk
  repeat' first
    | split
    | rfl
    | simp only [Input.byte_data]

theorem Decoder.readPixel_data (d : Decoder) : d.readPixel.2.input.data = d.input.data := by
  unfold Decoder.readPixel
  split
  · rfl
  · dsimp only
    split
    · rfl
    · split
      · exact (chunk_data _ _ _ _).trans d.input.byte_data
      · exact (chunk_data _ _ _ _).trans d.input.byte_data

theorem Decoder.nextPixel_data (d : Decoder) : d.nextPixel.2.input.data = d.input.data := by
  unfold Decoder.nextPixel
  split
  · rfl
  · exact Decoder.readPixel_data _

/-- The decoder after `k` calls. -/
def Decoder.afterCalls (d : Decoder) : Nat → Decoder
  | 0 => d
  | k + 1 => (d.afterCalls k).nextPixel.2

theorem Decoder.afterCalls_data (d : Decoder) (k : Nat) : (d.afterCalls k).input.data = d.input.data := by
  induction k with
  | zero => rfl
  | succ k ih => exact (Decoder.nextPixel_data _).trans ih

/-- However often it is called, the decoder has read no further than the data go. -/
theorem Decoder.afterCalls_pos_le (d : Decoder) (k : Nat) : (d.afterCalls k).input.pos ≤ d.input.data.length := by
  rw [← d.afterCalls_data k]
  exact (d.afterCalls k).input.pos_le.trans (d.afterCalls k).input.stop_le

/-- An image without pixels, of which the encoder writes a header that the decoder refuses. -/
def nothing : Image := ⟨0, 0, 4, [], .inr rfl, rfl⟩

theorem not_all_roundTrip : ¬∀ image : Image, image.RoundTrips := by
  intro hall
  obtain ⟨data, d, hencode, hnew, -⟩ := hall nothing
  rw [Image.encode_eq, Option.some.injEq] at hencode
  have hheader : Qoi.header data = .error .badHeader := by
    rw [← hencode]
    decide
  unfold Decoder.new at hnew
  split at hnew
  case h_1 => cases hnew
  case h_2 hgood =>
    rw [hheader] at hgood
    cases hgood

/-- An image that fits the format comes back as it was. Whatever follows a header that passes, the decoder
hands out one pixel for each the header asks for and then no more, and reads nothing outside of the data. -/
theorem roundTrips_and_ends :
    (∀ image : Image, image.Fits → image.RoundTrips) ∧
    ∀ data h, header data = .ok h → ∃ d, Decoder.new data = .ok d ∧ d.header = h ∧
      d.collect.1.length = h.width.toNat * h.height.toNat ∧ d.collect.2.nextPixel.1 = none ∧
      ∀ k, (d.afterCalls k).input.data = data ∧ (d.afterCalls k).input.pos ≤ data.length := by
  refine ⟨fun _ hfits => hfits.roundTrips, fun data h hheader => ⟨_, Decoder.new_eq hheader, rfl, ?_⟩⟩
  obtain ⟨hlength, hlast⟩ := Decoder.collect_length _
  exact ⟨hlength, hlast, fun k => ⟨Decoder.afterCalls_data _ k, Decoder.afterCalls_pos_le _ k⟩⟩

/-- One red pixel, and a header of one pixel without any chunk. -/
theorem roundTrips_and_ends_red :
    (⟨1, 1, 3, [255, 0, 0], .inl rfl, rfl⟩ : Image).RoundTrips ∧
      ∃ d, Decoder.new (MAGIC ++ [0, 0, 0, 1, 0, 0, 0, 1, 4, 0]) = .ok d ∧ d.collect.1.length = 1 := by
  refine ⟨roundTrips_and_ends.1 _ ⟨by decide, by decide, by decide⟩, ?_⟩
  obtain ⟨d, hnew, -, hlength, -⟩ := roundTrips_and_ends.2 (MAGIC ++ [0, 0, 0, 1, 0, 0, 0, 1, 4, 0])
    ⟨1, 1, 4, 0⟩ (by decide)
  exact ⟨d, hnew, hlength⟩

end NanoChrono.Qoi
