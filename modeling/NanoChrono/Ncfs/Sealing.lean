import NanoChrono.Crash.Prog
import NanoChrono.Ncfs.Superblock

/-! # Sealing a volume

Sealing writes a superblock with the seed flag to the next slot and then erases the other one, so
that no older superblock is left to roll back to. A call on a volume that is sealed already does
nothing, also when the call that sealed it was cut short before the erasure: it then answers that
the volume is sealed while both slots still decode. -/

namespace NanoChrono.Ncfs

open Buffer Crash

/-- A device: its size in blocks, and what they hold. -/
structure Dev where
  size : UInt64
  disk : Nat → Bytes

namespace Dev

/-- The device with one block replaced. -/
def set (d : Dev) (block : Nat) (data : Bytes) : Dev :=
  { d with disk := fun b => if b = block then data else d.disk b }

@[simp] theorem size_set (d : Dev) (block : Nat) (data : Bytes) : (d.set block data).size = d.size :=
  rfl

@[simp] theorem disk_set_self (d : Dev) (block : Nat) (data : Bytes) :
    (d.set block data).disk block = data := if_pos rfl

theorem disk_set_ne {d : Dev} {block b : Nat} {data : Bytes} (h : b ≠ block) :
    (d.set block data).disk b = d.disk b := if_neg h

/-- Reading a block, which is refused past the end. -/
def readBlock (d : Dev) (block : Nat) : Except Error Bytes :=
  if block < d.size.toNat then .ok (d.disk block) else .error .io

end Dev

/-- What writing a block cut short leaves of it, from the old bytes and the new ones. -/
abbrev Tear := Bytes → Bytes → Bytes

/-- Writing a block: refused past the end, and torn when it is cut short. -/
def writeBlock (tear : Tear) (block : Nat) (data : Bytes) : Prog Dev Error Unit :=
  .mutate (fun d => if block < d.size.toNat then .ok () else .error .io) .io
    (fun d => d.set block (tear (d.disk block) data)) (fun d => d.set block data)

/-- The barrier: what was written before it is durable after. -/
def flush : Prog Dev Error Unit := .mutate (fun _ => .ok ()) .io id id

section Seal

variable (hash : Bytes → Hash) (tear : Tear)

/-- One slot's turn in looking for the superblock: the valid one of the higher generation. -/
def better (d : Dev) (best : Option Superblock) (slot : Nat) : Option Superblock :=
  match d.readBlock slot with
  | .error _ => best
  | .ok buf =>
    match Superblock.decode hash buf with
    | .error _ => best
    | .ok sb =>
      if sb.totalBlocks ≤ d.size ∧ best.all (fun b => sb.generation > b.generation) then some sb
      else best

/-- The volume's superblock: of the two slots, the valid one with the higher generation. -/
def readSuperblock (d : Dev) : Except Error Superblock :=
  match SUPER.foldl (better hash d) none with
  | some sb => .ok sb
  | none => .error .noSuperblock

/-- The superblock of the sealed volume. -/
def sealedSuperblock (sb : Superblock) : Superblock :=
  { sb with flags := sb.flags ||| FLAG_SEED, sigBlocks := UInt16.ofNat SIG_BLOCKS,
            generation := sb.generation + 1 }

/-- Clears the signature area, writes the sealed superblock to its slot and erases the other. -/
def sealWrites (sb : Superblock) : Prog Dev Error Unit := do
  (List.range SIG_BLOCKS).forM fun b => writeBlock tear (SIG_FIRST + b) (List.replicate BLOCK 0)
  writeBlock tear (slotOf sb.generation) (sb.encode hash)
  flush
  writeBlock tear (slotOf (sb.generation + 1)) (List.replicate BLOCK 0)
  flush

/-- Seals the volume if it is not sealed already; the sealed superblock's block. -/
def sealVolume : Prog Dev Error Bytes := do
  let sb ← Prog.query (readSuperblock hash)
  if sb.isSealed then
    Prog.query fun d => d.readBlock (slotOf sb.generation)
  else
    sealWrites hash tear (sealedSuperblock sb)
    Prog.query fun d => d.readBlock (slotOf (sealedSuperblock sb).generation)

/-! ## Histories -/

/-- What happens to a device: a call of `sealVolume`, with what may interrupt it, or a block written by
anything else, a commit or a torn one. -/
inductive Event where
  | seal (fuse : Fuse)
  | write (block : Nat) (data : Bytes)

/-- The device after an event. -/
def Event.apply (d : Dev) : Event → Dev
  | .seal fuse => ((sealVolume hash tear).run ⟨d, fuse⟩).2.store
  | .write block data => d.set block data

/-- The calls of `sealVolume` in a history: the device each finds, and what may interrupt it. -/
def sealCalls (d : Dev) : List Event → List (Dev × Fuse)
  | [] => []
  | .seal fuse :: events => (d, fuse) :: sealCalls (Event.apply hash tear d (.seal fuse)) events
  | .write block data :: events => sealCalls (d.set block data) events

/-- Exactly one slot decodes, to a sealed superblock that names `root`. -/
def SealedAt (root : Ptr) (d : Dev) : Prop :=
  ∃ slot ∈ SUPER, (∃ sb, Superblock.decode hash (d.disk slot) = .ok sb ∧ sb.isSealed ∧
    sb.rootTree = root) ∧
    ∀ other ∈ SUPER, other ≠ slot → ∃ e, Superblock.decode hash (d.disk other) = .error e

/-- What a call that answers `Ok` promises: the tree it found is the one that is sealed. -/
def Promise (d : Dev) (fuse : Fuse) : Prop :=
  ∀ out, ((sealVolume hash tear).run ⟨d, fuse⟩).1 = .ok out → ∃ sb, readSuperblock hash d = .ok sb ∧
    SealedAt hash sb.rootTree ((sealVolume hash tear).run ⟨d, fuse⟩).2.store

/-- The volume is not sealed yet, or one of its slots does not decode. -/
def Clear (d : Dev) : Prop :=
  ∀ sb, readSuperblock hash d = .ok sb → sb.isSealed →
    ∃ slot ∈ SUPER, ∃ e, Superblock.decode hash (d.disk slot) = .error e

variable {hash tear}

/-! ## Mounting -/

theorem slotOf_mem (g : UInt64) : slotOf g ∈ SUPER := by
  rw [slotOf]
  split <;> simp [SUPER]

/-- Two generations in a row go to different slots. -/
theorem slotOf_succ_ne (g : UInt64) : slotOf (g + 1) ≠ slotOf g := by
  have hadd : (g + 1).toNat = (g.toNat + 1) % 2 ^ 64 := UInt64.toNat_add g 1
  rw [slotOf, slotOf, hadd]
  split <;> split <;> omega

/-- The slots are the one of a generation and the one of the next. -/
theorem eq_slotOf_succ {g : UInt64} {slot : Nat} (h : slot ∈ SUPER) (hne : slot ≠ slotOf g) :
    slot = slotOf (g + 1) := by
  have hsucc := slotOf_succ_ne g
  have hg := slotOf_mem g
  have hg' := slotOf_mem (g + 1)
  simp only [SUPER, List.mem_cons, List.not_mem_nil, or_false] at h hg hg'
  omega

/-- A turn keeps the best superblock so far or takes the slot's. -/
theorem better_cases {d : Dev} {best : Option Superblock} {slot : Nat} {sb : Superblock}
    (h : better hash d best slot = some sb) : best = some sb ∨
      (Superblock.decode hash (d.disk slot) = .ok sb ∧ sb.totalBlocks ≤ d.size) := by
  rw [better, Dev.readBlock] at h
  split at h
  · exact .inl h
  · rename_i buf hread
    split at hread
    · obtain rfl := Except.ok.inj hread
      split at h
      · exact .inl h
      · rename_i sb' hdecode
        split at h
        · rename_i htaken
          obtain rfl := Option.some.inj h
          exact .inr ⟨hdecode, htaken.1⟩
        · exact .inl h
    · cases hread

/-- A slot that decodes to a newer superblock of the device's is taken. -/
theorem better_of_decode {d : Dev} {best : Option Superblock} {slot : Nat} {sb : Superblock}
    (hslot : slot < d.size.toNat) (hdecode : Superblock.decode hash (d.disk slot) = .ok sb)
    (hfits : sb.totalBlocks ≤ d.size) (hbest : best.all (fun b => sb.generation > b.generation) = true) :
    better hash d best slot = some sb := by
  rw [better, Dev.readBlock, if_pos hslot]
  simp only [hdecode]
  rw [if_pos ⟨hfits, hbest⟩]

theorem better_of_error {d : Dev} {best : Option Superblock} {slot : Nat} {e : Error}
    (hslot : slot < d.size.toNat) (hdecode : Superblock.decode hash (d.disk slot) = .error e) :
    better hash d best slot = best := by
  rw [better, Dev.readBlock, if_pos hslot]
  simp only [hdecode]

/-- What mounts is what a slot decodes to, and it fits the device. -/
theorem mounted {d : Dev} {sb : Superblock} (h : readSuperblock hash d = .ok sb) :
    (∃ slot ∈ SUPER, Superblock.decode hash (d.disk slot) = .ok sb) ∧ MIN_BLOCKS ≤ d.size.toNat := by
  rw [readSuperblock] at h
  split at h
  · rename_i sb' hfold
    obtain rfl := Except.ok.inj h
    have hslot : ∃ slot ∈ SUPER, Superblock.decode hash (d.disk slot) = .ok sb' ∧
        sb'.totalBlocks ≤ d.size := by
      rw [SUPER, List.foldl_cons, List.foldl_cons, List.foldl_nil] at hfold
      rcases better_cases hfold with hfirst | hsecond
      · rcases better_cases hfirst with hnone | hfirst
        · cases hnone
        · exact ⟨1, by simp [SUPER], hfirst⟩
      · exact ⟨2, by simp [SUPER], hsecond⟩
    obtain ⟨slot, hmem, hdecode, hfits⟩ := hslot
    have htotal := (Superblock.valid_of_decode hdecode).total
    have hle := UInt64.le_iff_toNat_le.1 hfits
    exact ⟨⟨slot, hmem, hdecode⟩, by omega⟩
  · cases h

/-! ## One call -/

/-- Sealing a valid superblock gives a valid, sealed one. -/
theorem valid_sealed {sb : Superblock} (h : sb.Valid) : (sealedSuperblock sb).Valid := by
  obtain ⟨hknown, htotal, hlow, hhigh, hlevel, -, hdefault, hnext⟩ := h
  have hsig : (UInt16.ofNat SIG_BLOCKS).toNat ≤ SIG_BLOCKS := by decide
  exact ⟨hknown, htotal, hlow, hhigh, hlevel, hsig, hdefault, hnext⟩

theorem isSealed_sealed (sb : Superblock) : (sealedSuperblock sb).isSealed := by
  intro h
  have hbit : (sb.flags ||| FLAG_SEED) &&& FLAG_SEED = FLAG_SEED := by
    apply UInt64.toNat_inj.1
    rw [UInt64.toNat_and, UInt64.toNat_or, show FLAG_SEED.toNat = 1 from rfl, Nat.and_one_is_mod,
      Nat.or_mod_two_eq_one.2 (.inr rfl)]
  exact absurd (hbit.symm.trans h) (by decide)

/-- When the writes go well, the sealed superblock is in its slot and the other one is erased. -/
theorem slots_of_sealWrites {sb : Superblock} {w w' : World Dev} {u : Unit}
    (h : (sealWrites hash tear sb).run w = (.ok u, w')) :
    w'.store.disk (slotOf sb.generation) = sb.encode hash ∧
      w'.store.disk (slotOf (sb.generation + 1)) = List.replicate BLOCK 0 := by
  obtain ⟨_, w₁, -, h⟩ := Prog.run_bind_eq_ok.1 h
  obtain ⟨_, w₂, hwrite, h⟩ := Prog.run_bind_eq_ok.1 h
  obtain ⟨_, w₃, hflush, h⟩ := Prog.run_bind_eq_ok.1 h
  obtain ⟨_, w₄, herase, hlast⟩ := Prog.run_bind_eq_ok.1 h
  have h₂ := Prog.store_of_mutate hwrite
  have h₃ := Prog.store_of_mutate hflush
  have h₄ := Prog.store_of_mutate herase
  have h₅ := Prog.store_of_mutate hlast
  rw [h₅, h₄, h₃, h₂]
  simp only [id_eq, Dev.disk_set_self, and_true]
  rw [Dev.disk_set_ne (slotOf_succ_ne sb.generation).symm, Dev.disk_set_self]

/-- A sealed volume is answered as it is. -/
theorem run_sealVolume_sealed {d : Dev} {sb : Superblock} (hsb : readSuperblock hash d = .ok sb)
    (hsealed : sb.isSealed) (fuse : Fuse) : (sealVolume hash tear).run ⟨d, fuse⟩ =
      (d.readBlock (slotOf sb.generation), ⟨d, fuse⟩) := by
  rw [sealVolume, Prog.run_bind, Prog.run_query]
  simp only [hsb, if_pos hsealed]
  rfl

/-- A call in the first generation that is cut before the erasure leaves both superblocks. -/
theorem slots_of_cut {disk : Nat → Bytes} {sb : Superblock}
    (hsb : readSuperblock hash ⟨256, disk⟩ = .ok sb) (hsealed : ¬ sb.isSealed)
    (hgen : sb.generation = 1) :
    ((sealVolume hash tear).run ⟨⟨256, disk⟩, .cut 17⟩).2.store.disk 1 =
        (sealedSuperblock sb).encode hash ∧
      ((sealVolume hash tear).run ⟨⟨256, disk⟩, .cut 17⟩).2.store.disk 2 = disk 2 ∧
      ((sealVolume hash tear).run ⟨⟨256, disk⟩, .cut 17⟩).2.store.size = 256 := by
  have hslot : slotOf (sealedSuperblock sb).generation = 1 := by
    rw [sealedSuperblock, hgen]
    show slotOf (1 + 1) = 1
    decide
  rw [sealVolume, Prog.run_bind, Prog.run_query, hsb]
  simp only [if_neg hsealed, sealWrites, hslot]
  exact ⟨rfl, rfl, rfl⟩

/-- A call keeps its promise when the volume was not sealed or a slot did not decode. -/
theorem promise_of_clear {d : Dev} (h : Clear hash d) (fuse : Fuse) : Promise hash tear d fuse := by
  intro out hout
  cases hsb : readSuperblock hash d with
  | error e =>
    rw [sealVolume, Prog.run_bind, Prog.run_query] at hout
    simp [hsb] at hout
  | ok sb =>
    obtain ⟨⟨slot, hslot, hdecode⟩, -⟩ := mounted hsb
    refine ⟨sb, rfl, ?_⟩
    by_cases hsealed : sb.isSealed
    · -- nothing is written: the slot that does not decode is not the one that mounts
      obtain ⟨bad, hbad, e, hfails⟩ := h sb hsb hsealed
      rw [run_sealVolume_sealed hsb hsealed]
      refine ⟨slot, hslot, ⟨sb, hdecode, hsealed, rfl⟩, fun other hother hne => ⟨e, ?_⟩⟩
      have hbadSlot : bad ≠ slot := by
        rintro rfl
        rw [hdecode] at hfails
        cases hfails
      have : other = bad := by
        simp only [SUPER, List.mem_cons, List.not_mem_nil, or_false] at hslot hbad hother
        omega
      rw [this]
      exact hfails
    · rcases hrun : (sealVolume hash tear).run ⟨d, fuse⟩ with ⟨r, w⟩
      rw [hrun] at hout
      obtain rfl : r = .ok out := hout
      rw [sealVolume] at hrun
      obtain ⟨sb', w₁, hquery, hrest⟩ := Prog.run_bind_eq_ok.1 hrun
      rw [Prog.run_query, hsb] at hquery
      obtain ⟨heq, rfl⟩ := Prod.mk.inj hquery
      obtain rfl := Except.ok.inj heq
      rw [if_neg hsealed] at hrest
      obtain ⟨_, w₂, hwrites, hread⟩ := Prog.run_bind_eq_ok.1 hrest
      obtain ⟨-, rfl⟩ := Prod.mk.inj hread
      obtain ⟨hwritten, herased⟩ := slots_of_sealWrites hwrites
      refine ⟨slotOf (sealedSuperblock sb).generation, slotOf_mem _, ⟨sealedSuperblock sb, ?_,
        isSealed_sealed sb, rfl⟩, fun other hother hne => ⟨.noSuperblock, ?_⟩⟩
      · rw [hwritten]
        exact Superblock.decode_encode (valid_sealed (Superblock.valid_of_decode hdecode))
      · rw [eq_slotOf_succ hother hne, herased]
        exact Superblock.decode_zero

/-- On a sealed volume with two slots that decode a call breaks it, whatever interrupts it. -/
theorem not_promise {d : Dev} {sb : Superblock} (hsb : readSuperblock hash d = .ok sb)
    (hsealed : sb.isSealed)
    (hboth : ∀ slot ∈ SUPER, ¬ ∃ e, Superblock.decode hash (d.disk slot) = .error e) (fuse : Fuse) :
    ¬ Promise hash tear d fuse := by
  intro h
  have hread : d.readBlock (slotOf sb.generation) = .ok (d.disk (slotOf sb.generation)) := by
    have hsize := (mounted hsb).2
    have hslot := slotOf_mem sb.generation
    have : MIN_BLOCKS = 256 := rfl
    simp only [SUPER, List.mem_cons, List.not_mem_nil, or_false] at hslot
    rw [Dev.readBlock, if_pos (by omega)]
  obtain ⟨sb', hsb', slot, hslot, -, hothers⟩ := h _ (by rw [run_sealVolume_sealed hsb hsealed, hread])
  rw [run_sealVolume_sealed hsb hsealed] at hothers
  -- the slot beside the one that is sealed decodes too
  have hother : ∃ other ∈ SUPER, other ≠ slot := by
    simp only [SUPER, List.mem_cons, List.not_mem_nil, or_false] at hslot
    rcases hslot with rfl | rfl
    · exact ⟨2, by simp [SUPER], by simp⟩
    · exact ⟨1, by simp [SUPER], by simp⟩
  obtain ⟨other, hmem, hne⟩ := hother
  exact hboth other hmem (hothers other hmem hne)

/-! ## Every call -/

/-- A call keeps its promise exactly when it finds a volume that is not sealed yet, or one whose
other slot does not decode. -/
theorem promise_iff (d : Dev) (fuse : Fuse) : Promise hash tear d fuse ↔ Clear hash d := by
  refine ⟨fun h sb hsb hsealed => ?_, fun h => promise_of_clear h fuse⟩
  by_contra hnone
  refine not_promise hsb hsealed (fun slot hslot hfails => hnone ⟨slot, hslot, hfails⟩) fuse h

/-- Over every history of a device, the calls that answer `Ok` all leave exactly one slot that
decodes, the sealed one that names the tree found, if and only if each of them finds a volume that is
not sealed yet or one whose other slot does not decode. -/
theorem seal_promise_iff (hash : Bytes → Hash) (tear : Tear) (d : Dev) (events : List Event) :
    (∀ c ∈ sealCalls hash tear d events, Promise hash tear c.1 c.2) ↔
      ∀ c ∈ sealCalls hash tear d events, Clear hash c.1 :=
  forall₂_congr fun c _ => promise_iff c.1 c.2

end Seal

/-! ## A call cut short -/

namespace Cut

/-- A hash that tells no blocks apart, a torn write that leaves the old bytes. -/
def hash (_ : Bytes) : Hash := Vector.replicate 32 0

def tear : Tear := fun old _ => old

/-- The superblock of the smallest volume, in its first generation. -/
def first : Superblock where
  incompat := 0
  roCompat := 0
  compat := 0
  flags := 0
  fsid := Vector.replicate 16 0
  label := Vector.replicate 64 0
  generation := 1
  totalBlocks := 256
  created := 0
  committed := 0
  rootTree := ⟨19, 1, Vector.replicate 32 0, 0⟩
  nextSubvol := 2
  defaultSubvol := 1
  usedBlocks := 20
  sigBlocks := 0

/-- The volume, just made. -/
def disk (b : Nat) : Bytes := if b = 2 then first.encode hash else List.replicate BLOCK 0

theorem first_valid : first.Valid :=
  ⟨by decide, by decide, by decide, by decide, by decide, by decide, by decide, by decide⟩

theorem disk_one : disk 1 = List.replicate BLOCK 0 := if_neg (by decide)

theorem disk_two : disk 2 = first.encode hash := if_pos rfl

theorem mount_dev : readSuperblock hash ⟨256, disk⟩ = .ok first := by
  have hone : Superblock.decode hash (disk 1) = .error .noSuperblock := by
    rw [disk_one]
    exact Superblock.decode_zero
  have htwo : Superblock.decode hash (disk 2) = .ok first := by
    rw [disk_two]
    exact Superblock.decode_encode first_valid
  have hfirst : better hash ⟨256, disk⟩ none 1 = none := better_of_error (by decide) hone
  have hsecond : better hash ⟨256, disk⟩ none 2 = some first :=
    better_of_decode (by decide) htwo (by decide) rfl
  rw [readSuperblock, SUPER, List.foldl_cons, List.foldl_cons, List.foldl_nil, hfirst, hsecond]

/-- With the sealed superblock in one slot and the older one in the other, a call breaks its
promise. -/
theorem not_promise_of_slots {d : Dev} (hone : d.disk 1 = (sealedSuperblock first).encode hash)
    (htwo : d.disk 2 = first.encode hash) (hsize : d.size = 256) : ¬ Promise hash tear d .off := by
  have hnewer : Superblock.decode hash (d.disk 1) = .ok (sealedSuperblock first) := by
    rw [hone]
    exact Superblock.decode_encode (valid_sealed first_valid)
  have holder : Superblock.decode hash (d.disk 2) = .ok first := by
    rw [htwo]
    exact Superblock.decode_encode first_valid
  have hfirst : better hash d none 1 = some (sealedSuperblock first) :=
    better_of_decode (by rw [hsize]; decide) hnewer (by rw [hsize]; decide) rfl
  have hsecond : better hash d (some (sealedSuperblock first)) 2 = some (sealedSuperblock first) := by
    have hgen : ¬ first.generation > (sealedSuperblock first).generation := by decide
    rw [better, Dev.readBlock, if_pos (by rw [hsize]; decide)]
    simp only [holder, Option.all_some, hgen, decide_false, Bool.false_eq_true, and_false, if_false]
  have hmount : readSuperblock hash d = .ok (sealedSuperblock first) := by
    rw [readSuperblock, SUPER, List.foldl_cons, List.foldl_cons, List.foldl_nil, hfirst, hsecond]
  refine not_promise hmount (isSealed_sealed first) ?_ .off
  rintro slot hslot ⟨e, he⟩
  simp only [SUPER, List.mem_cons, List.not_mem_nil, or_false] at hslot
  rcases hslot with rfl | rfl
  · rw [hnewer] at he
    cases he
  · rw [holder] at he
    cases he

/-- Of two calls in a row, the second finds what the first left. -/
theorem promise_of_second {d : Dev} {f g : Fuse}
    (h : ∀ c ∈ sealCalls hash tear d [.seal f, .seal g], Promise hash tear c.1 c.2) :
    Promise hash tear ((sealVolume hash tear).run ⟨d, f⟩).2.store g :=
  h (_, g) (List.mem_cons_of_mem _ List.mem_cons_self)

/-- A call is cut before the erasure, and the next one answers `Ok` with both slots left. -/
theorem both_slots_left : ¬ ∀ c ∈ sealCalls hash tear ⟨256, disk⟩ [.seal (.cut 17), .seal .off],
    Promise hash tear c.1 c.2 := by
  intro h
  have hsealed : ¬ first.isSealed := by decide
  have hgen : first.generation = 1 := by decide
  have hpromise := promise_of_second h
  obtain ⟨hone, htwo, hsize⟩ := @slots_of_cut hash tear disk first mount_dev hsealed hgen
  exact not_promise_of_slots hone (htwo.trans disk_two) hsize hpromise

end Cut

end NanoChrono.Ncfs
