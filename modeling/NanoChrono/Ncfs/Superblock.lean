import NanoChrono.Ncfs.Format

/-! # The superblock

A volume has two slots for it, of which generation `g` is written to `SUPER[g % 2]`: a commit leaves
the previous one whole. What is decoded is checked, and a superblock that passes the checks is
decoded from its own encoding (`decode_encode`). -/

namespace NanoChrono.Ncfs

open Buffer

/-- Where the superblock's checksum is. -/
def SB_SUM : Nat := BLOCK - 32

/-- A generation's slot. -/
def slotOf (generation : UInt64) : Nat := if generation.toNat % 2 = 0 then 1 else 2

/-- The two slots. -/
def SUPER : List Nat := [1, 2]

structure Superblock where
  incompat : UInt64
  roCompat : UInt64
  compat : UInt64
  flags : UInt64
  fsid : Vector UInt8 16
  label : Vector UInt8 64
  generation : UInt64
  totalBlocks : UInt64
  created : Int64
  committed : Int64
  /-- The tree of subvolumes. -/
  rootTree : Ptr
  nextSubvol : UInt64
  defaultSubvol : UInt64
  /-- Blocks in use, for information. -/
  usedBlocks : UInt64
  /-- Blocks of the signature area in use, none when not sealed. -/
  sigBlocks : UInt16
deriving DecidableEq, Repr

namespace Superblock

/-- What a superblock puts where, its checksum apart. -/
def fields (sb : Superblock) : List (Piece UInt8) :=
  [(0, MAGIC), (8, le32 VERSION), (12, le32 (UInt32.ofNat BLOCK)), (16, le64 sb.incompat),
    (24, le64 sb.roCompat), (32, le64 sb.compat), (40, le64 sb.flags), (48, sb.fsid.toList),
    (64, sb.label.toList), (128, le64 sb.generation), (136, le64 sb.totalBlocks),
    (144, le64 sb.created.toUInt64), (152, le64 sb.committed.toUInt64)] ++
  sb.rootTree.fields 160 ++
  [(216, le64 sb.nextSubvol), (224, le64 sb.defaultSubvol), (232, le64 sb.usedBlocks),
    (240, le16 sb.sigBlocks)]

variable (hash : Bytes → Hash)

def encode (sb : Superblock) : Bytes :=
  let b := writeAll (List.replicate BLOCK 0) sb.fields
  let sum := hash (b.take SB_SUM)
  splice b SB_SUM sum.toList

/-- The fields as they stand in a block. -/
def ofBlock (b : Bytes) : Superblock where
  incompat := rd64 b 16
  roCompat := rd64 b 24
  compat := rd64 b 32
  flags := rd64 b 40
  fsid := rdArray 16 b 48
  label := rdArray 64 b 64
  generation := rd64 b 128
  totalBlocks := rd64 b 136
  created := (rd64 b 144).toInt64
  committed := (rd64 b 152).toInt64
  rootTree := Ptr.read b 160
  nextSubvol := rd64 b 216
  defaultSubvol := rd64 b 224
  usedBlocks := rd64 b 232
  sigBlocks := rd16 b 240

/-- Decodes and checks one superblock copy. -/
def decode (b : Bytes) : Except Error Superblock := do
  if b.length ≠ BLOCK ∨ slice b 0 8 ≠ MAGIC then throw .noSuperblock
  if hash (b.take SB_SUM) ≠ rdArray 32 b SB_SUM then throw .noSuperblock
  if rd32 b 8 ≠ VERSION ∨ rd32 b 12 ≠ UInt32.ofNat BLOCK then throw .unsupported
  if (slice b 242 (SB_SUM - 242)).any (· ≠ 0) ∨ (slice b 209 7).any (· ≠ 0) then
    throw .noSuperblock
  let sb := ofBlock b
  if sb.incompat &&& ~~~INCOMPAT_KNOWN ≠ 0 then throw .unsupported
  if sb.totalBlocks.toNat < MIN_BLOCKS ∨ sb.rootTree.block.toNat < FIRST_FREE ∨
      sb.rootTree.block ≥ sb.totalBlocks ∨ sb.rootTree.level.toNat ≥ MAX_LEVEL ∨
      sb.sigBlocks.toNat > SIG_BLOCKS ∨ sb.defaultSubvol = 0 ∨
      sb.nextSubvol ≤ sb.defaultSubvol then throw .noSuperblock
  return sb

/-- Whether the volume is a sealed, read-only image. -/
def isSealed (sb : Superblock) : Prop := sb.flags &&& FLAG_SEED ≠ 0

instance (sb : Superblock) : Decidable sb.isSealed := inferInstanceAs (Decidable (_ ≠ _))

/-- The rules a decoded superblock keeps. -/
structure Valid (sb : Superblock) : Prop where
  known : sb.incompat &&& ~~~INCOMPAT_KNOWN = 0
  total : MIN_BLOCKS ≤ sb.totalBlocks.toNat
  rootLow : FIRST_FREE ≤ sb.rootTree.block.toNat
  rootHigh : sb.rootTree.block < sb.totalBlocks
  level : sb.rootTree.level.toNat < MAX_LEVEL
  sig : sb.sigBlocks.toNat ≤ SIG_BLOCKS
  default : sb.defaultSubvol ≠ 0
  next : sb.defaultSubvol < sb.nextSubvol

variable {hash}

theorem valid_of_decode {b : Bytes} {sb : Superblock} (h : decode hash b = .ok sb) : sb.Valid := by
  rw [decode] at h
  split at h
  · cases h
  dsimp only at h
  split at h
  · cases h
  split at h
  · cases h
  split at h
  · cases h
  split at h
  · cases h
  rename_i hknown
  split at h
  · cases h
  rename_i hrules
  obtain rfl := Except.ok.inj h
  simp only [not_or, not_lt, not_le, ge_iff_le, gt_iff_lt, not_not] at hknown hrules
  obtain ⟨htotal, hlow, hhigh, hlevel, hsig, hdefault, hnext⟩ := hrules
  exact ⟨hknown, htotal, hlow, UInt64.not_le.1 hhigh, hlevel, hsig, hdefault, UInt64.not_le.1 hnext⟩

/-! ## Decoding an encoding -/

/-- The fields of a superblock lie in order, before its checksum. -/
theorem ordered_fields (sb : Superblock) : Ordered 0 sb.fields SB_SUM := by
  simp [fields, Ptr.fields, Ordered, MAGIC, SB_SUM, BLOCK]

theorem placed_fields (sb : Superblock) : Placed sb.fields (List.replicate BLOCK (0 : UInt8)).length := by
  refine ⟨fun f hf => ?_, (ordered_fields sb).placed.apart⟩
  have := (ordered_fields sb).bounds f hf
  rw [List.length_replicate]
  have : SB_SUM ≤ BLOCK := by decide
  omega

theorem sum_inside (sb : Superblock) (sum : Hash) :
    SB_SUM + sum.toList.length ≤ (writeAll (List.replicate BLOCK 0) sb.fields).length := by
  rw [length_writeAll (placed_fields sb), List.length_replicate, Vector.length_toList]
  decide

theorem length_encode (sb : Superblock) : (encode hash sb).length = BLOCK := by
  rw [encode, length_splice (sum_inside sb _), length_writeAll (placed_fields sb),
    List.length_replicate]

/-- Every field of an encoded superblock is read back. -/
theorem slice_encode {sb : Superblock} {f : Piece UInt8} (hf : f ∈ sb.fields) :
    slice (encode hash sb) f.1 f.2.length = f.2 := by
  rw [encode, slice_splice_below (sum_inside sb _) ((ordered_fields sb).bounds f hf).2,
    slice_writeAll (placed_fields sb) hf]

/-- What no field covers, before the checksum, is zero. -/
theorem slice_encode_gap {sb : Superblock} {pos n : Nat} (hn : pos + n ≤ SB_SUM)
    (hgap : ∀ f ∈ sb.fields, f.1 + f.2.length ≤ pos ∨ pos + n ≤ f.1) :
    (slice (encode hash sb) pos n).any (· ≠ 0) = false := by
  rw [encode, slice_splice_below (sum_inside sb _) hn,
    slice_writeAll_of_apart (placed_fields sb) hgap, List.any_eq_false]
  intro x hx
  have := List.eq_of_mem_replicate (List.mem_of_mem_drop (List.mem_of_mem_take hx))
  simp [this]

theorem sum_encode (sb : Superblock) :
    rdArray 32 (encode hash sb) SB_SUM = hash ((encode hash sb).take SB_SUM) := by
  have htake : (encode hash sb).take SB_SUM =
      (writeAll (List.replicate BLOCK 0) sb.fields).take SB_SUM := by
    have := slice_splice_below (sum_inside sb (hash ((writeAll (List.replicate BLOCK 0)
      sb.fields).take SB_SUM))) (show 0 + SB_SUM ≤ SB_SUM by omega)
    exact this
  apply rdArray_of_slice
  rw [htake, encode]
  exact slice_splice (sum_inside sb _) (Vector.length_toList).symm

/-- The fields of an encoded superblock, as decoding reads them. -/
theorem rd64_encode {sb : Superblock} {pos : Nat} {v : UInt64} (h : (pos, le64 v) ∈ sb.fields) :
    rd64 (encode hash sb) pos = v := by
  apply rd64_of_slice
  rw [← length_le64 v]
  exact slice_encode h

theorem rd32_encode {sb : Superblock} {pos : Nat} {v : UInt32} (h : (pos, le32 v) ∈ sb.fields) :
    rd32 (encode hash sb) pos = v := by
  apply rd32_of_slice
  rw [← length_le32 v]
  exact slice_encode h

theorem rdArray_encode {sb : Superblock} {pos n : Nat} {v : Vector UInt8 n}
    (h : (pos, v.toList) ∈ sb.fields) : rdArray n (encode hash sb) pos = v := by
  apply rdArray_of_slice
  have hslice : slice (encode hash sb) pos v.toList.length = v.toList := slice_encode h
  rwa [Vector.length_toList] at hslice

theorem ofBlock_encode (sb : Superblock) : ofBlock (encode hash sb) = sb := by
  have hroot : Ptr.read (encode hash sb) 160 = sb.rootTree := by
    apply Ptr.read_of_fields
    intro f hf
    exact slice_encode (by simp [fields, hf])
  have hsig : rd16 (encode hash sb) 240 = sb.sigBlocks := by
    apply rd16_of_slice
    rw [← length_le16 sb.sigBlocks]
    exact slice_encode (f := (240, le16 sb.sigBlocks)) (by simp [fields])
  rw [ofBlock, rd64_encode (v := sb.incompat) (by simp [fields]),
    rd64_encode (v := sb.roCompat) (by simp [fields]),
    rd64_encode (v := sb.compat) (by simp [fields]),
    rd64_encode (v := sb.flags) (by simp [fields]),
    rdArray_encode (v := sb.fsid) (by simp [fields]),
    rdArray_encode (v := sb.label) (by simp [fields]),
    rd64_encode (v := sb.generation) (by simp [fields]),
    rd64_encode (v := sb.totalBlocks) (by simp [fields]),
    rd64_encode (v := sb.created.toUInt64) (by simp [fields]),
    rd64_encode (v := sb.committed.toUInt64) (by simp [fields]), hroot,
    rd64_encode (v := sb.nextSubvol) (by simp [fields]),
    rd64_encode (v := sb.defaultSubvol) (by simp [fields]),
    rd64_encode (v := sb.usedBlocks) (by simp [fields]), hsig, Int64.toInt64_toUInt64,
    Int64.toInt64_toUInt64]

/-- A valid superblock is decoded from its own encoding. -/
theorem decode_encode {sb : Superblock} (h : sb.Valid) : decode hash (encode hash sb) = .ok sb := by
  have hmagic : slice (encode hash sb) 0 8 = MAGIC := slice_encode (f := (0, MAGIC)) (by simp [fields])
  have hversion : rd32 (encode hash sb) 8 = VERSION := rd32_encode (by simp [fields])
  have hblock : rd32 (encode hash sb) 12 = UInt32.ofNat BLOCK := rd32_encode (by simp [fields])
  have hgap : (slice (encode hash sb) 242 (SB_SUM - 242)).any (· ≠ 0) = false := by
    apply slice_encode_gap (by decide)
    simp [fields, Ptr.fields, MAGIC]
  have hgap' : (slice (encode hash sb) 209 7).any (· ≠ 0) = false := by
    apply slice_encode_gap (by decide)
    simp [fields, Ptr.fields, MAGIC]
  obtain ⟨hknown, htotal, hlow, hhigh, hlevel, hsigs, hdefault, hnext⟩ := h
  rw [decode, if_neg (by simp [length_encode, hmagic])]
  dsimp only
  rw [if_neg (by simp [sum_encode]), if_neg (by simp [hversion, hblock]),
    if_neg (by simp only [hgap, hgap', Bool.false_eq_true, or_self, not_false_eq_true]),
    ofBlock_encode, if_neg (by simp [hknown]), if_neg (by
      simp only [not_or, not_lt, ge_iff_le, gt_iff_lt]
      exact ⟨htotal, hlow, UInt64.not_le.2 hhigh, Nat.not_le.2 hlevel, hsigs, hdefault, UInt64.not_le.2 hnext⟩)]
  rfl

/-- An erased slot does not decode. -/
theorem decode_zero : decode hash (List.replicate BLOCK 0) = .error .noSuperblock := by
  have hmagic : slice (List.replicate BLOCK (0 : UInt8)) 0 8 ≠ MAGIC := by
    rw [slice, List.drop_zero, List.take_replicate]
    decide
  rw [decode, if_pos (.inr hmagic)]
  rfl

end Superblock

end NanoChrono.Ncfs
