import NanoChrono.Buffer.BigEndian
import NanoChrono.Deflate.Bits
import NanoChrono.Png.Checksums

/-! # The chunks of a PNG

The chunks behind the signature, each checked as it is read: its length, its CRC and that its kind
is letters. Reading does not depend on what lies behind a chunk (`next_congr`), so a file whose
damage is in one chunk is read as before up to that chunk, and no further (`forEach_damaged`). -/

namespace NanoChrono.Png

open Buffer

/-- Why a PNG was refused. -/
inductive Error where
  | notPng
  /-- A chunk runs past the end, fails its CRC, comes out of order, or something follows IEND. -/
  | badChunk
  | badHeader
  | unsupported
  | tooBig
  | badZlib
  | badData (e : Deflate.Error)
  | badFilter
  | badPalette
  | bufferTooSmall
deriving DecidableEq, Repr

def isAsciiAlphabetic (b : UInt8) : Bool := 0x41 ≤ b ∧ b ≤ 0x5A ∨ 0x61 ≤ b ∧ b ≤ 0x7A

/-- One chunk: its type and data, CRC already checked. -/
structure Chunk where
  kind : Bytes
  data : Bytes
deriving DecidableEq, Repr

/-- The chunks after the signature, each checked as it is read. -/
structure Chunks where
  b : Bytes
  pos : Nat

namespace Chunks

/-- The next chunk and the iterator behind it, or an error, which leaves the iterator where it is. -/
def next (c : Chunks) : Option (Except Error (Chunk × Chunks)) :=
  if c.b.length ≤ c.pos then none
  else some <|
    match be32 c.b c.pos with
    | none => .error .badChunk
    | some len =>
      if 0x7FFFFFFF < len then .error .badChunk
      else
        let kindAt := c.pos + 4
        match slice? c.b kindAt 4, slice? c.b (kindAt + 4) len, be32 c.b (kindAt + 4 + len) with
        | some kind, some data, some crc =>
          if (crc32 [kind, data]).toNat ≠ crc ∨ ¬ kind.all isAsciiAlphabetic then .error .badChunk
          else .ok (⟨kind, data⟩, ⟨c.b, kindAt + 8 + len⟩)
        | _, _, _ => .error .badChunk

/-- Where a chunk that was read stands: its length, its kind, its data and its CRC. -/
structure Stands (b : Bytes) (pos : Nat) (chunk : Chunk) : Prop where
  len : be32 b pos = some chunk.data.length
  short : chunk.data.length ≤ 0x7FFFFFFF
  kind : slice? b (pos + 4) 4 = some chunk.kind
  data : slice? b (pos + 8) chunk.data.length = some chunk.data
  crc : be32 b (pos + 8 + chunk.data.length) = some (crc32 [chunk.kind, chunk.data]).toNat
  letters : chunk.kind.all isAsciiAlphabetic

theorem next_ok {b : Bytes} {pos : Nat} {chunk : Chunk} {c : Chunks} :
    next ⟨b, pos⟩ = some (.ok (chunk, c)) ↔
      Stands b pos chunk ∧ c = ⟨b, pos + 12 + chunk.data.length⟩ := by
  constructor
  · intro h
    rw [next] at h
    split at h
    · cases h
    have h := Option.some.inj h
    split at h
    · cases h
    next len hlen =>
      split at h
      · cases h
      next hshort =>
        dsimp only at h
        split at h
        next kind data crc hkind hdata hcrc =>
          split at h
          · cases h
          next hok =>
            cases h
            push Not at hok
            -- The data has the length it was read with.
            have hsize : data.length = len := by
              obtain ⟨hin, rfl⟩ := slice?_eq_some.mp hdata
              rw [length_slice]
              omega
            subst hsize
            exact ⟨⟨hlen, Nat.le_of_not_lt hshort, hkind, hdata, hok.1 ▸ hcrc, hok.2⟩,
              congrArg (mk b) (by dsimp only)⟩
        next => cases h
  · rintro ⟨h, rfl⟩
    have hin := be32_within h.len
    rw [next, if_neg (by dsimp only; omega)]
    simp only [h.len, h.kind, h.data, h.crc, h.letters, Nat.not_lt.mpr h.short, if_false, ne_eq,
      not_true_eq_false, or_self]

theorem next_within {c c' : Chunks} {chunk : Chunk} (h : c.next = some (.ok (chunk, c'))) :
    c'.b = c.b ∧ c.pos < c'.pos ∧ c'.pos ≤ c.b.length := by
  obtain ⟨hstands, rfl⟩ := next_ok.mp h
  have hcrc := be32_within hstands.crc
  exact ⟨rfl, by dsimp only; omega, by dsimp only; omega⟩

/-- A loop over the chunks, whatever its body, that ends with the first error of either. -/
def forEach {σ : Type} (body : σ → Chunk → Except Error σ) (c : Chunks) (s : σ) : Except Error σ :=
  match _h : c.next with
  | none => .ok s
  | some (.error e) => .error e
  | some (.ok (chunk, c')) =>
    match body s chunk with
    | .error e => .error e
    | .ok s' => forEach body c' s'
termination_by c.b.length - c.pos
decreasing_by
  obtain ⟨hb, hlt, hle⟩ := next_within _h
  rw [hb]
  omega

section Loop

variable {σ : Type} {body : σ → Chunk → Except Error σ} {c c' : Chunks} {chunk : Chunk} {s : σ}

theorem forEach_none (h : c.next = none) : forEach body c s = .ok s := by
  rw [forEach]
  split
  · rfl
  · next hnext => rw [h] at hnext; cases hnext
  · next hnext => rw [h] at hnext; cases hnext

theorem forEach_error {e : Error} (h : c.next = some (.error e)) : forEach body c s = .error e := by
  rw [forEach]
  split
  · next hnext => rw [h] at hnext; cases hnext
  · next hnext => rw [h] at hnext; cases hnext; rfl
  · next hnext => rw [h] at hnext; cases hnext

theorem forEach_ok (h : c.next = some (.ok (chunk, c'))) :
    forEach body c s = (body s chunk).bind (forEach body c') := by
  rw [forEach]
  split
  · next hnext => rw [h] at hnext; cases hnext
  · next hnext => rw [h] at hnext; cases hnext
  · next hnext =>
    rw [h] at hnext
    cases hnext
    cases body s chunk <;> rfl

end Loop

/-- Reading chunk after chunk leads from one place in the file to another. -/
inductive Leads (b : Bytes) : Nat → Nat → Prop
  | here (pos : Nat) : Leads b pos pos
  | step {start pos : Nat} {chunk : Chunk} {c : Chunks} : next ⟨b, start⟩ = some (.ok (chunk, c)) →
      Leads b c.pos pos → Leads b start pos

theorem Leads.le {b : Bytes} {start pos : Nat} (h : Leads b start pos) : start ≤ pos := by
  induction h with
  | here pos => exact le_rfl
  | step hnext _ ih => exact (next_within hnext).2.1.le.trans ih

/-! ## Damage -/

/-- Two buffers with the same cells below `n` give the same slices there. -/
theorem slice_congr {b b' : Bytes} {pos m n : Nat} (h : b.take n = b'.take n) (hm : pos + m ≤ n) :
    slice b pos m = slice b' pos m := by
  have hslice (l : Bytes) : slice (l.take n) pos m = slice l pos m := by
    rw [slice, slice, List.drop_take, List.take_take, min_eq_left (by omega)]
  rw [← hslice b, ← hslice b', h]

theorem slice?_congr {b b' s : Bytes} {pos m n : Nat} (h : b.take n = b'.take n) (hlen : b.length = b'.length)
    (hm : pos + m ≤ n) (hs : slice? b pos m = some s) : slice? b' pos m = some s := by
  rw [slice?_eq_some] at hs ⊢
  rwa [← hlen, ← slice_congr h hm]

theorem be32_congr {b b' : Bytes} {pos v n : Nat} (h : b.take n = b'.take n) (hlen : b.length = b'.length)
    (hm : pos + 4 ≤ n) (hv : be32 b pos = some v) : be32 b' pos = some v := by
  obtain ⟨s, hs, rfl⟩ := Option.map_eq_some_iff.mp hv
  rw [be32, slice?_congr h hlen hm hs, Option.map_some]

/-- A chunk before the damage is read as it was. -/
theorem next_congr {b b' : Bytes} {pos n : Nat} {chunk : Chunk} {c : Chunks} (h : b.take n = b'.take n)
    (hlen : b.length = b'.length) (hnext : next ⟨b, pos⟩ = some (.ok (chunk, c))) (hc : c.pos ≤ n) :
    next ⟨b', pos⟩ = some (.ok (chunk, ⟨b', c.pos⟩)) := by
  obtain ⟨hs, rfl⟩ := next_ok.mp hnext
  dsimp only at hc
  exact next_ok.mpr ⟨⟨be32_congr h hlen (by omega) hs.len, hs.short, slice?_congr h hlen (by omega) hs.kind,
    slice?_congr h hlen (by omega) hs.data, be32_congr h hlen (by omega) hs.crc, hs.letters⟩, rfl⟩

/-- A chunk of the file is damaged: at most 32 bits in a row of its kind and data are not what they were. -/
structure Damaged (b b' : Bytes) (pos : Nat) (chunk : Chunk) : Prop where
  len : b.length = b'.length
  before : b.take (pos + 4) = b'.take (pos + 4)
  behind : b.drop (pos + 8 + chunk.data.length) = b'.drop (pos + 8 + chunk.data.length)
  burst : Burst (bitsOf (slice b (pos + 4) (4 + chunk.data.length)))
    (bitsOf (slice b' (pos + 4) (4 + chunk.data.length)))

/-- Where the damaged chunk begins, there is nothing but an error to read. -/
theorem next_damaged {b b' : Bytes} {pos : Nat} {chunk : Chunk} (hs : Stands b pos chunk)
    (hd : Damaged b b' pos chunk) : next ⟨b', pos⟩ = some (.error .badChunk) := by
  have hcrc := be32_within hs.crc
  have hlen' := be32_congr hd.before hd.len le_rfl hs.len
  have hlength := hd.len
  have hkind : slice? b' (pos + 4) 4 = some (slice b' (pos + 4) 4) := slice?_eq_some.mpr ⟨by omega, rfl⟩
  have hdata : slice? b' (pos + 8) chunk.data.length = some (slice b' (pos + 8) chunk.data.length) :=
    slice?_eq_some.mpr ⟨by omega, rfl⟩
  have hstored : be32 b' (pos + 8 + chunk.data.length) = some (crc32 [chunk.kind, chunk.data]).toNat := by
    rw [← hs.crc, be32, be32, slice?, slice?, hd.len, slice, slice, hd.behind]
  -- Kind and data are one run of bytes, and its CRC is no longer the one that is stored.
  have hrun (l : Bytes) : (slice l (pos + 4) 4 ++ slice l (pos + 8) chunk.data.length) =
      slice l (pos + 4) (4 + chunk.data.length) := slice_append_slice
  have hne : crc32 [slice b' (pos + 4) 4, slice b' (pos + 8) chunk.data.length] ≠
      crc32 [chunk.kind, chunk.data] := by
    rw [crc32_eq, crc32_eq, ← (slice?_eq_some.mp hs.kind).2]
    conv_rhs => rw [← (slice?_eq_some.mp hs.data).2]
    simp only [List.flatten_cons, List.flatten_nil, List.append_nil, hrun]
    exact (crcOf_burst hd.burst).symm
  rw [next, if_neg (by dsimp only; omega)]
  simp only [hlen', Nat.not_lt.mpr hs.short, if_false, hkind, Nat.add_assoc, Nat.reduceAdd]
  simp only [← Nat.add_assoc, hdata, hstored]
  rw [if_pos (.inl fun heq => hne (BitVec.eq_of_toNat_eq heq))]

/-- Whatever a loop does with the chunks: where it reads the whole file, it ends with a bad chunk once any of
them is damaged. -/
theorem forEach_damaged {σ : Type} (body : σ → Chunk → Except Error σ) {b b' : Bytes} {start pos : Nat}
    {chunk : Chunk} {s r : σ} (hleads : Leads b start pos) (hs : Stands b pos chunk) (hd : Damaged b b' pos chunk)
    (h : forEach body ⟨b, start⟩ s = .ok r) : forEach body ⟨b', start⟩ s = .error .badChunk := by
  induction hleads generalizing s with
  | here pos => exact forEach_error (next_damaged hs hd)
  | @step start pos first c hnext hleads ih =>
    -- What comes before the damaged chunk is read as it was, and the loop's body goes on from it.
    have hle := hleads.le
    have hbefore := next_congr hd.before hd.len hnext (by omega)
    have hc : (⟨b, c.pos⟩ : Chunks) = c := congrArg (mk · c.pos) (next_within hnext).1.symm
    rw [forEach_ok hnext, ← hc] at h
    rw [forEach_ok hbefore]
    cases hbody : body s first with
    | error e =>
      rw [hbody] at h
      cases h
    | ok s' =>
      rw [hbody] at h
      exact ih hs hd h

/-- The end of a file. -/
def iend : Bytes := [0, 0, 0, 0, 0x49, 0x45, 0x4E, 0x44, 0xAE, 0x42, 0x60, 0x82]

/-- Its kind with one bit flipped. -/
def iendDamaged : Bytes := [0, 0, 0, 0, 0x49, 0x45, 0x4F, 0x44, 0xAE, 0x42, 0x60, 0x82]

theorem iend_stands : Stands iend 0 ⟨[0x49, 0x45, 0x4E, 0x44], []⟩ := by
  refine ⟨by decide, by decide, by decide, by decide, ?_, by decide⟩
  rw [crc32_eq]
  decide +kernel

/-- A flipped bit of IEND is found, whatever the chunks are collected for. -/
theorem forEach_damaged_iend :
    forEach (fun kinds chunk => .ok (chunk.kind :: kinds)) ⟨iendDamaged, 0⟩ [] = .error .badChunk := by
  have hend : forEach (fun kinds chunk => .ok (chunk.kind :: kinds)) ⟨iend, 0⟩ [] =
      .ok [[0x49, 0x45, 0x4E, 0x44]] := by
    rw [forEach_ok (next_ok.mpr ⟨iend_stands, rfl⟩)]
    exact forEach_none (by decide)
  refine forEach_damaged _ (.here 0) iend_stands ⟨rfl, rfl, rfl, ?_⟩ hend
  exact ⟨bitsOf [0x49, 0x45], [false], [true], (bitsOf [0x4E, 0x44]).drop 1, by decide, by decide, rfl, by decide,
    by decide⟩

end Chunks

end NanoChrono.Png
