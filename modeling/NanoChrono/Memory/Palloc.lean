import NanoChrono.Memory.Pages

/-! # Physical pages

The kernel's page allocator is the frame table over the RAM the loader reported, with the image, the loader's ranges
and the modules taken out of it, and a counter of the bytes in use. The table records only what is free, so that a
run given back need never have been handed out: what is outstanding is kept here beside it (`owned`). Memory that is
no one's to give back stays out of the table, and the counter counts what is outstanding, exactly in the runs in which
what is given back is outstanding (`run_sound_iff`). -/

namespace NanoChrono.Memory

/-! ## The allocator -/

/-- What the allocator is built for: the width of an address, and the highest address handed out. -/
structure Target where
  bits : Nat
  ceiling : Nat
  word : bits ≤ 64
  below : ceiling < 2 ^ bits

/-- A number of the width of an address. -/
abbrev Target.Usize (t : Target) := Fin (2 ^ t.bits)

def x86_64 : Target := ⟨64, 2 ^ 30, Nat.le_refl 64, by decide⟩

def i386 : Target := ⟨32, 0xFFFFF000, by decide, by decide⟩

/-- Free runs the table holds. -/
def RANGES : Nat := 128

structure Palloc where
  ready : Bool
  frames : Frames RANGES
  inUse : Nat

/-- What the loader reported: RAM, the end of the kernel image, and the ranges and modules that it placed. -/
structure Boot where
  ram : List (UInt64 × UInt64)
  imageEnd : UInt64
  placed : List (UInt64 × UInt64)

/-- RAM below the ceiling. -/
def addRam (t : Target) (f : Frames RANGES) (r : UInt64 × UInt64) : Frames RANGES :=
  let stop := min (saturatingAdd r.1.toNat r.2.toNat) t.ceiling
  if stop > r.1.toNat then (f.add r.1.toNat (stop - r.1.toNat)).1 else f

/-- Builds the free ranges: the whole map first, and then what is in use. -/
def initMultiboot (t : Target) (b : Boot) : Palloc :=
  let ram := b.ram.foldl (addRam t) (Frames.new RANGES)
  ⟨true, b.placed.foldl (fun f r => f.reserve r.1.toNat r.2.toNat) (ram.reserve 0 b.imageEnd.toNat), 0⟩

/-- A length rounded up to pages. -/
def rounded (len : Nat) : Nat := (len + (PAGE - 1)) / PAGE * PAGE

namespace Palloc

variable {t : Target}

@[grind =] def alloc (s : Palloc) (len align : t.Usize) : Palloc × Option Nat :=
  if s.ready = false then (s, none)
  else
    match s.frames.alloc len.val align.val t.ceiling with
    | (frames, none) => ({ s with frames := frames }, none)
    | (frames, some addr) =>
      ({ s with frames := frames, inUse := (s.inUse + rounded len.val % 2 ^ t.bits) % 2 ^ t.bits },
        if addr < 2 ^ t.bits then some addr else none)

@[grind =] def free (s : Palloc) (addr len : t.Usize) : Palloc × Bool :=
  if s.ready = false then (s, false)
  else
    match s.frames.free addr.val len.val with
    | (frames, false) => ({ s with frames := frames }, false)
    | (frames, true) =>
      ({ s with frames := frames, inUse := s.inUse - min (rounded len.val % 2 ^ t.bits) s.inUse }, true)

end Palloc

/-- A call of the allocator. -/
inductive Op (t : Target) where
  | alloc (len align : t.Usize)
  | free (addr len : t.Usize)

def Palloc.step {t : Target} (s : Palloc) : Op t → Palloc × Answer
  | .alloc len align => ((s.alloc len align).1, .run (s.alloc len align).2)
  | .free addr len => ((s.free addr len).1, .done (s.free addr len).2)

/-! ## What is outstanding -/

/-- The run of an address and a length. -/
def runOf (addr len : Nat) : Range := ⟨addr, addr + rounded len⟩

/-- The runs handed out and not given back, after a call and its answer. -/
def owned {t : Target} (out : List Range) : Op t → Answer → List Range
  | .alloc len _, .run (some addr) => runOf addr len.val :: out
  | .free addr len, .done true => out.erase (runOf addr.val len.val)
  | _, _ => out

/-- What was taken out at boot. -/
def Boot.taken (b : Boot) (x : Nat) : Prop :=
  x < b.imageEnd.toNat ∨ ∃ r ∈ b.placed, r.1.toNat ≤ x ∧ x < r.1.toNat + r.2.toNat

/-- The counter counts what is outstanding, and neither that nor what was taken at boot is free. -/
structure Kept (b : Boot) (s : Palloc) (out : List Range) : Prop where
  used : s.inUse = (out.map Span.len).sum
  taken : ∀ x ∈ cells s.frames.ranges, ¬b.taken x
  others : ∀ x ∈ cells s.frames.ranges, x ∉ cells out

/-- In every state of a run the allocator keeps what it should, and what it takes back, or changes what is free for,
is one outstanding allocation. -/
def Sound {t : Target} (b : Boot) : Palloc → List Range → List (Op t) → Prop
  | s, out, [] => Kept b s out
  | s, out, op :: ops => Kept b s out ∧
    (∀ addr len, op = .free addr len → (s.free addr len).2 = true ∨
      cells (s.free addr len).1.frames.ranges ≠ cells s.frames.ranges → out.count (runOf addr.val len.val) = 1) ∧
    Sound b (s.step op).1 (owned out op (s.step op).2) ops

/-- What is given back in a run is outstanding, or the table has grounds to refuse it: it is not page-aligned, is empty,
leaves the address space or overlaps free memory. -/
def Honest {t : Target} : Palloc → List Range → List (Op t) → Prop
  | _, _, [] => True
  | s, out, op :: ops =>
    (∀ addr len, op = .free addr len → runOf addr.val len.val ∈ out ∨ s.frames.freeRun addr.val len.val = none) ∧
    Honest (s.step op).1 (owned out op (s.step op).2) ops

/-! ## The table under the allocator -/

section Table

variable {f : Frames RANGES} {base : Nat}

/-- A reservation takes its bytes out of the table and puts none in. -/
theorem reserve_table (len : Nat) (h : Table RANGES f.ranges) (hb : base ≤ U64_MAX) :
    Table RANGES (f.reserve base len).ranges ∧ ∀ x ∈ cells (f.reserve base len).ranges,
      x ∈ cells f.ranges ∧ ¬(base ≤ x ∧ x < base + len) := by
  rw [Frames.reserve]
  split
  next hz =>
    refine ⟨h, fun x hx => ⟨hx, ?_⟩⟩
    omega
  next hz =>
    obtain ⟨hbase, hstop, hlt, hcells⟩ := outward_spec hb hz
    obtain ⟨htable, hlossy⟩ := removed_spec h hbase hstop
      (hlt.imp_right fun hlt s hs => ((h.paged s hs).stop_le).trans hlt)
    refine ⟨htable, fun x hx => ?_⟩
    obtain ⟨hold, hout⟩ := Finset.mem_sdiff.mp (hlossy.subset hx)
    refine ⟨hold, fun hin => hout ?_⟩
    obtain ⟨r, hr, hxr⟩ := mem_cells.mp hold
    rw [Span.mem_cells] at hxr
    rw [hcells x (hxr.2.trans_le (h.paged r hr).stop_le), mem_bytes, mem_meeting]
    exact ⟨x, hin.1, hin.2, rfl⟩

variable {len : Nat}

theorem add_table (h : Table RANGES f.ranges) (hb : base ≤ U64_MAX) : Table RANGES (f.add base len).1.ranges := by
  rw [Frames.add]
  split
  · exact h
  · split
    · exact h
    next r hr =>
      obtain ⟨hpaged, hlt, -⟩ := (inward_spec len hb).1 r hr
      exact (inserted_spec h hpaged hlt).1

/-- What an allocation takes is a run of free pages below the ceiling. -/
theorem alloc_table (len : Nat) {align ceiling : Nat} (h : Table RANGES f.ranges) (halign : align ≤ U64_MAX)
    (hceiling : ceiling ≤ U64_MAX) :
    match f.alloc len align ceiling with
    | (frames, none) => frames.ranges = f.ranges
    | (frames, some addr) => Table RANGES frames.ranges ∧ addr < addr + rounded len ∧ addr + rounded len ≤ ceiling ∧
        (∀ x ∈ (runOf addr len).cells, x ∈ cells f.ranges) ∧
        ∀ x ∈ cells frames.ranges, x ∈ cells f.ranges ∧ x ∉ (runOf addr len).cells := by
  rw [Frames.alloc]
  cases hrun : f.allocRun len align ceiling with
  | none => exact rfl
  | some r =>
    obtain ⟨hstop, hfit, -⟩ := (allocRun_spec len h halign hceiling).1 r hrun
    obtain ⟨hbase, hend, hlt, -⟩ := allocRun_cells hstop hfit
    obtain ⟨htable, hlossy⟩ := removed_spec h hbase hend (.inl hlt)
    have hsame : runOf r.base len = r := by
      rw [runOf, rounded, ← hstop]
    refine ⟨htable, ?_, hfit.below, fun x hx => ?_, fun x hx => ?_⟩
    · rw [rounded, ← hstop]
      exact hlt
    · rw [hsame, Span.mem_cells, hstop] at hx
      exact hfit.free x hx.1 hx.2
    · rw [hsame]
      exact Finset.mem_sdiff.mp (hlossy.subset hx)

/-- What is taken back is the run of its address and length. -/
theorem freeRun_eq {r : Range} (h : f.freeRun base len = some r) : r = runOf base len := by
  rw [Frames.freeRun] at h
  split at h
  · cases h
  · split at h
    · cases h
    next size hup =>
      obtain ⟨-, rfl⟩ := alignUp_eq_some hup
      rw [checkedAdd] at h
      split at h
      · cases h
      next stop hstop =>
        split at hstop
        · obtain rfl := Option.some.inj hstop
          split at h
          · cases h
          · exact (Option.some.inj h).symm
        · cases hstop

/-- A run that is taken back is all that becomes free. -/
theorem free_table (base len : Nat) (h : Table RANGES f.ranges) :
    match f.free base len with
    | (frames, false) => frames.ranges = f.ranges ∧ f.freeRun base len = none
    | (frames, true) => Table RANGES frames.ranges ∧ f.freeRun base len ≠ none ∧
        ∀ x ∈ cells frames.ranges, x ∈ cells f.ranges ∨ x ∈ (runOf base len).cells := by
  rw [Frames.free]
  cases hrun : f.freeRun base len with
  | none => exact ⟨rfl, rfl⟩
  | some r =>
    obtain ⟨hpaged, hlt, -⟩ := freeRun_spec hrun
    obtain ⟨htable, hlossy⟩ := inserted_spec h hpaged hlt
    refine ⟨htable, fun h => (by cases h), fun x hx => ?_⟩
    rw [← freeRun_eq hrun]
    exact Finset.mem_union.mp (hlossy.subset hx)

end Table

/-! ## Boot -/

theorem addRam_table (t : Target) {f : Frames RANGES} (h : Table RANGES f.ranges) (r : UInt64 × UInt64) :
    Table RANGES (addRam t f r).ranges := by
  unfold addRam
  dsimp only
  split
  · exact add_table h (Nat.le_pred_of_lt r.1.toNat_lt)
  · exact h

/-- After boot nothing is free that was taken. -/
theorem init_table (t : Target) (b : Boot) : Table RANGES (initMultiboot t b).frames.ranges ∧
    ∀ x ∈ cells (initMultiboot t b).frames.ranges, ¬b.taken x := by
  have hram : ∀ (ram : List (UInt64 × UInt64)) (f : Frames RANGES), Table RANGES f.ranges →
      Table RANGES (ram.foldl (addRam t) f).ranges := by
    intro ram
    induction ram with
    | nil => exact fun _ h => h
    | cons r ram ih => exact fun f h => ih _ (addRam_table t h r)
  have hplaced : ∀ (placed : List (UInt64 × UInt64)) (f : Frames RANGES), Table RANGES f.ranges →
      Table RANGES (placed.foldl (fun f r => f.reserve r.1.toNat r.2.toNat) f).ranges ∧
      ∀ x ∈ cells (placed.foldl (fun f r => f.reserve r.1.toNat r.2.toNat) f).ranges, x ∈ cells f.ranges ∧
        ¬∃ r ∈ placed, r.1.toNat ≤ x ∧ x < r.1.toNat + r.2.toNat := by
    intro placed
    induction placed with
    | nil => exact fun f h => ⟨h, fun x hx => ⟨hx, by simp⟩⟩
    | cons r placed ih =>
      intro f h
      obtain ⟨htable, hout⟩ := reserve_table r.2.toNat h (Nat.le_pred_of_lt r.1.toNat_lt)
      obtain ⟨hall, hrest⟩ := ih _ htable
      refine ⟨hall, fun x hx => ?_⟩
      obtain ⟨hin, hnone⟩ := hrest x hx
      obtain ⟨hold, hfirst⟩ := hout x hin
      refine ⟨hold, ?_⟩
      rintro ⟨q, hq, hxq⟩
      rcases List.mem_cons.mp hq with rfl | hq
      · exact hfirst hxq
      · exact hnone ⟨q, hq, hxq⟩
  have hfirst := hram b.ram _ (Refines.new RANGES).table
  obtain ⟨himage, hbelow⟩ := reserve_table b.imageEnd.toNat hfirst (Nat.zero_le _)
  obtain ⟨htable, hrest⟩ := hplaced b.placed _ himage
  refine ⟨htable, fun x hx => ?_⟩
  obtain ⟨hin, hnone⟩ := hrest x hx
  rintro (hlow | hplaced)
  · exact (hbelow x hin).2 ⟨Nat.zero_le x, by omega⟩
  · exact hnone hplaced

/-! ## Steps -/

/-- What every call keeps, with what is outstanding: runs below the ceiling that do not overlap. -/
structure Outstanding (t : Target) (b : Boot) (s : Palloc) (out : List Range) : Prop extends Kept b s out where
  ready : s.ready = true
  table : Table RANGES s.frames.ranges
  apart : out.Pairwise fun r q => Disjoint r.cells q.cells
  whole : ∀ r ∈ out, r.base < r.stop ∧ r.stop ≤ t.ceiling
  handed : ∀ x ∈ cells out, ¬b.taken x

section Steps

variable {t : Target} {b : Boot} {s : Palloc} {out : List Range}

theorem initMultiboot_outstanding (t : Target) (b : Boot) : Outstanding t b (initMultiboot t b) [] where
  used := rfl
  taken := (init_table t b).2
  others := fun x _ h => (by simp at h)
  ready := rfl
  table := (init_table t b).1
  apart := .nil
  whole := fun r h => (by cases h)
  handed := fun x h => (by simp at h)

/-- Runs that do not overlap hold the sum of their lengths. -/
theorem card_cells_eq : ∀ {out : List Range}, out.Pairwise (fun r q => Disjoint r.cells q.cells) →
    (cells out).card = (out.map Span.len).sum
  | [], _ => rfl
  | r :: out, h => by
    obtain ⟨hfirst, hrest⟩ := List.pairwise_cons.mp h
    have hdisjoint : Disjoint r.cells (cells out) := by
      refine Finset.disjoint_left.mpr fun x hx hout => ?_
      obtain ⟨q, hq, hxq⟩ := mem_cells.mp hout
      exact Finset.disjoint_left.mp (hfirst q hq) hx hxq
    have hunion : cells (r :: out) = r.cells ∪ cells out := by
      ext x
      simp only [mem_cells, Finset.mem_union, List.mem_cons, exists_eq_or_imp]
    rw [hunion, Finset.card_union_of_disjoint hdisjoint, Span.card_cells, card_cells_eq hrest]
    rfl

/-- An allocation is outstanding afterwards. -/
theorem alloc_outstanding (h : Outstanding t b s out) (len align : t.Usize) :
    Outstanding t b (s.step (.alloc len align)).1
      (owned out (.alloc len align) (s.step (.alloc len align)).2) := by
  have hword : 2 ^ t.bits ≤ 2 ^ 64 := Nat.pow_le_pow_right (by decide) t.word
  have hbelow := t.below
  have halign : align.val ≤ U64_MAX := Nat.le_pred_of_lt (align.isLt.trans_le hword)
  have hceiling : t.ceiling ≤ U64_MAX := Nat.le_pred_of_lt (hbelow.trans_le hword)
  have hspec := alloc_table len.val h.table halign hceiling
  have hrun : s.alloc len align = match s.frames.alloc len.val align.val t.ceiling with
      | (frames, none) => ({ s with frames := frames }, none)
      | (frames, some addr) =>
        ({ s with frames := frames, inUse := (s.inUse + rounded len.val % 2 ^ t.bits) % 2 ^ t.bits },
          if addr < 2 ^ t.bits then some addr else none) := by
    rw [Palloc.alloc, if_neg (by rw [h.ready]; exact Bool.noConfusion)]
  unfold Palloc.step
  dsimp only
  rcases hcall : s.frames.alloc len.val align.val t.ceiling with ⟨frames, _ | addr⟩
  · rw [hcall] at hspec hrun
    change frames.ranges = _ at hspec
    rw [hrun]
    refine { h with taken := ?_, others := ?_, table := ?_ }
    · exact hspec ▸ h.taken
    · exact hspec ▸ h.others
    · exact hspec ▸ h.table
  · rw [hcall] at hspec hrun
    obtain ⟨htable, hlt, hle, hfree, hleft⟩ := hspec
    have haddr : addr < 2 ^ t.bits := by omega
    dsimp only at hrun
    rw [if_pos haddr] at hrun
    rw [hrun]
    have hnew : ∀ r ∈ out, Disjoint (runOf addr len.val).cells r.cells := fun r hr =>
      Finset.disjoint_left.mpr fun x hx hxr => h.others x (hfree x hx) (mem_cells.mpr ⟨r, hr, hxr⟩)
    have hapart : (runOf addr len.val :: out).Pairwise fun r q => Disjoint r.cells q.cells :=
      List.pairwise_cons.mpr ⟨hnew, h.apart⟩
    have hwhole : ∀ r ∈ runOf addr len.val :: out, r.base < r.stop ∧ r.stop ≤ t.ceiling := by
      intro r hr
      rcases List.mem_cons.mp hr with rfl | hr
      · exact ⟨hlt, hle⟩
      · exact h.whole r hr
    have hmem : ∀ x ∈ cells (runOf addr len.val :: out), x ∈ (runOf addr len.val).cells ∨ x ∈ cells out := by
      intro x hx
      obtain ⟨r, hr, hxr⟩ := mem_cells.mp hx
      rcases List.mem_cons.mp hr with rfl | hr
      · exact .inl hxr
      · exact .inr (mem_cells.mpr ⟨r, hr, hxr⟩)
    have hlen : (runOf addr len.val).len = rounded len.val := Nat.add_sub_cancel_left _ _
    have hsum : ((runOf addr len.val :: out).map Span.len).sum ≤ t.ceiling := by
      rw [← card_cells_eq hapart]
      refine (Finset.card_le_card fun x hx => ?_).trans (Nat.le_of_eq (Finset.card_range t.ceiling))
      obtain ⟨r, hr, hxr⟩ := mem_cells.mp hx
      rw [Span.mem_cells] at hxr
      exact Finset.mem_range.mpr (hxr.2.trans_le (hwhole r hr).2)
    exact {
      used := by
        rw [List.map_cons, List.sum_cons, hlen] at hsum
        show (s.inUse + rounded len.val % 2 ^ t.bits) % 2 ^ t.bits = ((runOf addr len.val :: out).map Span.len).sum
        rw [List.map_cons, List.sum_cons, hlen, h.used, Nat.mod_eq_of_lt (by omega : rounded len.val < _),
          Nat.mod_eq_of_lt (by omega), Nat.add_comm]
      taken := fun x hx => h.taken x (hleft x hx).1
      others := fun x hx hout => by
        obtain ⟨hin, hnot⟩ := hleft x hx
        rcases hmem x hout with hrun | hout
        · exact hnot hrun
        · exact h.others x hin hout
      ready := h.ready
      table := htable
      apart := hapart
      whole := hwhole
      handed := fun x hx => by
        rcases hmem x hx with hrun | hout
        · exact h.taken x (hfree x hrun)
        · exact h.handed x hout }

/-- An outstanding run is outstanding once, and apart from the others. -/
theorem Outstanding.split (h : Outstanding t b s out) {r : Range} (hr : r ∈ out) :
    out.count r = 1 ∧ (r :: out.erase r).Pairwise (fun r q => Disjoint r.cells q.cells) := by
  have hperm := List.perm_cons_erase hr
  have hapart : (r :: out.erase r).Pairwise fun r q => Disjoint r.cells q.cells :=
    (hperm.pairwise_iff fun hd => hd.symm).mp h.apart
  refine ⟨?_, hapart⟩
  have hnot : r ∉ out.erase r := fun hmem => by
    have hself := (List.pairwise_cons.mp hapart).1 r hmem
    have hbase : r.base ∈ r.cells := Span.mem_cells.mpr ⟨Nat.le_refl _, (h.whole r hr).1⟩
    exact Finset.disjoint_left.mp hself hbase hbase
  rw [hperm.count_eq, List.count_cons_self, List.count_eq_zero.mpr hnot]

/-- What was outstanding and is given back is free, and the rest stays outstanding. -/
theorem free_outstanding (h : Outstanding t b s out) {addr len : t.Usize}
    (hh : runOf addr.val len.val ∈ out ∨ s.frames.freeRun addr.val len.val = none) :
    Outstanding t b (s.step (.free addr len)).1 (owned out (.free addr len) (s.step (.free addr len)).2) ∧
      ((s.free addr len).2 = true ∨ cells (s.free addr len).1.frames.ranges ≠ cells s.frames.ranges →
        out.count (runOf addr.val len.val) = 1) := by
  have hspec := free_table addr.val len.val h.table
  have hrun : s.free addr len = match s.frames.free addr.val len.val with
      | (frames, false) => ({ s with frames := frames }, false)
      | (frames, true) =>
        ({ s with frames := frames, inUse := s.inUse - min (rounded len.val % 2 ^ t.bits) s.inUse }, true) := by
    rw [Palloc.free, if_neg (by rw [h.ready]; exact Bool.noConfusion)]
  unfold Palloc.step
  dsimp only
  rcases hcall : s.frames.free addr.val len.val with ⟨frames, _ | _⟩
  · rw [hcall] at hspec hrun
    obtain ⟨hsame, -⟩ := hspec
    rw [hrun]
    refine ⟨{ h with taken := hsame ▸ h.taken, others := hsame ▸ h.others, table := hsame ▸ h.table }, ?_⟩
    rintro (hyes | hchanged)
    · cases hyes
    · exact absurd (congrArg cells hsame) hchanged
  · rw [hcall] at hspec hrun
    obtain ⟨htable, hsome, hbounds⟩ := hspec
    have hr := hh.resolve_right hsome
    obtain ⟨hcount, hapart⟩ := h.split hr
    obtain ⟨hfirst, hrest⟩ := List.pairwise_cons.mp hapart
    obtain ⟨hlt, hle⟩ := h.whole _ hr
    have hsub : ∀ r ∈ out.erase (runOf addr.val len.val), r ∈ out := fun r => List.mem_of_mem_erase
    have hcells : ∀ x ∈ cells (out.erase (runOf addr.val len.val)), x ∈ cells out := fun x hx => by
      obtain ⟨r, hr, hxr⟩ := mem_cells.mp hx
      exact mem_cells.mpr ⟨r, hsub r hr, hxr⟩
    have hlen : (runOf addr.val len.val).len = rounded len.val := Nat.add_sub_cancel_left _ _
    have hsum : (out.map Span.len).sum =
        rounded len.val + ((out.erase (runOf addr.val len.val)).map Span.len).sum := by
      rw [((List.perm_cons_erase hr).map Span.len).sum_eq, List.map_cons, List.sum_cons, hlen]
    have hbelow := t.below
    have hsize : rounded len.val < 2 ^ t.bits := by
      have hstop : addr.val + rounded len.val ≤ t.ceiling := hle
      omega
    rw [hrun]
    refine ⟨{
      used := ?_
      taken := fun x hx => ?_
      others := fun x hx hout => ?_
      ready := h.ready
      table := htable
      apart := hrest
      whole := fun r hr => h.whole r (hsub r hr)
      handed := fun x hx => h.handed x (hcells x hx) }, fun _ => hcount⟩
    · show s.inUse - min (rounded len.val % 2 ^ t.bits) s.inUse =
        ((out.erase (runOf addr.val len.val)).map Span.len).sum
      rw [Nat.mod_eq_of_lt hsize, h.used, hsum]
      omega
    · rcases hbounds x hx with hold | hback
      · exact h.taken x hold
      · exact h.handed x (mem_cells.mpr ⟨_, hr, hback⟩)
    · rcases hbounds x hx with hold | hback
      · exact h.others x hold (hcells x hout)
      · obtain ⟨r, hr, hxr⟩ := mem_cells.mp hout
        exact Finset.disjoint_left.mp (hfirst r hr) hback hxr

/-- From a state with what is outstanding, a run is sound exactly if it is honest. -/
theorem sound_iff_honest : ∀ (ops : List (Op t)) {s : Palloc} {out : List Range}, Outstanding t b s out →
    (Sound b s out ops ↔ Honest s out ops)
  | [], s, out, h => ⟨fun _ => trivial, fun _ => h.toKept⟩
  | op :: ops, s, out, h => by
    constructor
    · rintro ⟨-, honly, hrest⟩
      have hhonest : ∀ addr len, op = .free addr len → runOf addr.val len.val ∈ out ∨
          s.frames.freeRun addr.val len.val = none := by
        rintro addr len rfl
        cases hrun : s.frames.freeRun addr.val len.val with
        | none => exact .inr rfl
        | some r =>
          have hyes : (s.free addr len).2 = true := by
            rw [Palloc.free, if_neg (by rw [h.ready]; exact Bool.noConfusion), Frames.free, hrun]
          exact .inl (List.count_pos_iff.mp (by rw [honly addr len rfl (.inl hyes)]; exact Nat.one_pos))
      refine ⟨hhonest, (sound_iff_honest ops ?_).mp hrest⟩
      cases op with
      | alloc len align => exact alloc_outstanding h len align
      | free addr len => exact (free_outstanding h (hhonest addr len rfl)).1
    · rintro ⟨hhonest, hrest⟩
      have hstep : Outstanding t b (s.step op).1 (owned out op (s.step op).2) := by
        cases op with
        | alloc len align => exact alloc_outstanding h len align
        | free addr len => exact (free_outstanding h (hhonest addr len rfl)).1
      refine ⟨h.toKept, ?_, (sound_iff_honest ops hstep).mpr hrest⟩
      rintro addr len rfl
      exact (free_outstanding h (hhonest addr len rfl)).2

end Steps

/-! ## Runs -/

/-- A run of calls after boot takes back only what is outstanding, and counts it, exactly if what is given back in it
is outstanding or refused by the table. -/
theorem run_sound_iff (t : Target) (b : Boot) (ops : List (Op t)) :
    Sound b (initMultiboot t b) [] ops ↔ Honest (initMultiboot t b) [] ops :=
  sound_iff_honest ops (initMultiboot_outstanding t b)

/-- Two megabytes of RAM, the lower of which the image takes. -/
def smallBoot : Boot := ⟨[(0, 0x200000)], 0x100000, []⟩

theorem image_fits : 0x80000 < 2 ^ x86_64.bits := by decide

/-- A page of the kernel image is taken back, though it was never handed out. -/
theorem image_taken_back : ¬Sound smallBoot (initMultiboot x86_64 smallBoot) []
    [.free ⟨0x80000, image_fits⟩ ⟨0x1000, image_fits.trans' (by decide)⟩] := by
  rintro ⟨-, honly, -⟩
  have hcount := honly _ _ rfl (.inl (by decide))
  cases hcount

end NanoChrono.Memory
