import NanoChrono.Kernel.Map

/-! # What the edits keep

Unmapping a page takes just that page out (`unmapPage_shape`), as long as the table a split takes
is not in use; letting ring 3 in or shutting it out changes only what is granted
(`mapRange_shape`), as long as none of the pages holds a guard. Neither takes a table in use from
the page it serves. -/

namespace NanoChrono.Kernel

open Paging

variable {p : Placement} {root pdpt pd : Nat} {gone : Nat → Prop} {granted : Nat → Option Bool}
  {t : Tables}

/-! ## Filling a table -/

theorem foldl_write (table : Nat) (f : Nat → Entry) (n : Nat) (t : Tables) (q j : Nat) :
    ((List.range n).foldl (fun t i => t.write table i (f i)) t) q j =
      if q = table ∧ j < n then f j else t q j := by
  induction n with
  | zero => simp
  | succ n ih =>
    rw [List.range_succ, List.foldl_append, List.foldl_cons, List.foldl_nil, Tables.write_apply, ih]
    by_cases hq : q = table
    · by_cases hj : j = n
      · simp [hq, hj]
      · have : j < n + 1 ↔ j < n := by omega
        simp [hq, hj, this]
    · simp [hq]

theorem fill_apply (t : Tables) (table : Nat) (f : Nat → Entry) (q j : Nat) :
    fill t table f q j = if q = table ∧ j < 512 then f j else t q j :=
  foldl_write table f 512 t q j

theorem fill_of_ne {t : Tables} {table q : Nat} {f : Nat → Entry} (h : q ≠ table) (j : Nat) :
    fill t table f q j = t q j := by
  rw [fill_apply, if_neg fun hq => h hq.1]

/-! ## The entries of a split -/

/-- An entry of a freshly split page: the 4 KiB page at its place in the large one, with the
flags the large one had. -/
theorem split_entry {e : Entry} {j i : Nat} (hj : j < 512)
    (hframe : e.frame = j * LARGE) :
    ((e &&& ADDR &&& ~~~0x1FFFFF#64) + .ofNat 64 (i * 4096)) ||| (e &&& PTE_FLAGS) =
      BitVec.ofNat 64 ((j * 512 + i) * 4096) ||| (e &&& PTE_FLAGS) := by
  have hmask : ADDR &&& ~~~0x1FFFFF#64 = FRAME := by decide
  have hnat : (e &&& FRAME) = BitVec.ofNat 64 (j * LARGE) := by
    apply BitVec.eq_of_toNat_eq
    rw [BitVec.toNat_ofNat, Nat.mod_eq_of_lt (by simp only [LARGE]; omega)]
    exact hframe
  have hsum : j * LARGE + i * 4096 = (j * 512 + i) * 4096 := by
    rw [LARGE, Nat.add_mul, Nat.mul_assoc]
  rw [BitVec.and_assoc, hmask, hnat, ← BitVec.ofNat_add, hsum]

/-- A split entry maps its page to itself, for whom and for what the large page was. -/
theorem split_leaf {e : Entry} {j i : Nat} (hj : j < 512) (hi : i < 512)
    (hw : Whole gone none j e) (hnot : ¬ gone (j * 512 + i)) :
    Leaf gone (j * 512 + i)
      (((e &&& ADDR &&& ~~~0x1FFFFF#64) + .ofNat 64 (i * 4096)) ||| (e &&& PTE_FLAGS)) := by
  have haligned : (j * 512 + i) * 4096 % 4096 = 0 := Nat.mul_mod_left _ _
  have hlow : (j * 512 + i) * 4096 < 2 ^ 52 := by omega
  have hkeeps : ∀ flag : Entry, flag &&& PTE_FLAGS = flag → flag.toNat < 4096 →
      (Entry.Has (BitVec.ofNat 64 ((j * 512 + i) * 4096) ||| (e &&& PTE_FLAGS)) flag ↔
        e.Has flag) := by
    intro flag hin hm
    rw [Entry.has_made haligned hm, Entry.Has, Entry.Has, BitVec.and_assoc,
      BitVec.and_comm PTE_FLAGS, hin]
  rw [split_entry hj hw.frame]
  refine ⟨fun h => absurd h hnot, fun _ => ?_, fun _ => ?_, ?_, fun _ => ?_⟩
  · exact (hkeeps PRESENT (by decide) (by decide)).2 hw.present
  · exact (hkeeps WRITABLE (by decide) (by decide)).2 (hw.writable.resolve_right (by simp))
  · rw [hkeeps USER (by decide) (by decide)]
    exact fun h => hw.user h rfl
  · refine Entry.page_made haligned hlow ?_
    rw [BitVec.and_assoc]
    exact BitVec.and_zero

/-! ## Frames of an edit -/

/-- Edits below the directory's way leave it open. -/
theorem Spine.congr {t' : Tables} (h : Spine p root pdpt pd t)
    (hroot : ∀ k, t' root k = t root k) (hpdpt : ∀ k, t' pdpt k = t pdpt k) :
    Spine p root pdpt pd t' :=
  { h with
    present4 := by rw [hroot]; exact h.present4
    writable4 := by rw [hroot]; exact h.writable4
    page4 := by rw [hroot]; exact h.page4
    present3 := by rw [hpdpt]; exact h.present3
    writable3 := by rw [hpdpt]; exact h.writable3
    small3 := by rw [hpdpt]; exact h.small3
    page3 := by rw [hpdpt]; exact h.page3
    closed4 := fun k hk hne => by rw [hroot]; exact h.closed4 k hk hne
    closed3 := fun k hk hne => by rw [hpdpt]; exact h.closed3 k hk hne }

/-- A page other than the one taken out is as it was. -/
theorem Leaf.other {q r : Nat} {e : Entry} (h : Leaf gone r e) (hne : r ≠ q) :
    Leaf (fun r => gone r ∨ r = q) r e := by
  have hiff : (gone r ∨ r = q) ↔ gone r := or_iff_left hne
  exact ⟨fun hr => h.missing (hiff.1 hr), fun hr => h.present fun hg => hr (.inl hg),
    fun hr => h.writable fun hg => hr (.inl hg), h.kernel,
    fun hr => h.page fun hg => hr (.inl hg)⟩

/-- The entry of the page taken out. -/
theorem Leaf.taken (q : Nat) : Leaf (fun r => gone r ∨ r = q) q 0 :=
  ⟨fun _ => by decide, fun h => absurd (.inr rfl) h, fun h => absurd (.inr rfl) h, by decide,
    fun h => absurd (.inr rfl) h⟩

theorem Whole.other {q j : Nat} {g : Option Bool} {e : Entry} (h : Whole gone g j e)
    (hne : j ≠ q / 512) : Whole (fun r => gone r ∨ r = q) g j e :=
  { h with
    intact := by
      rintro i hi (hgone | heq)
      · exact h.intact i hi hgone
      · omega }

/-- A directory entry whose table is not written is as it was. -/
theorem Split.other {q j : Nat} {t' : Tables} {e : Entry} (h : Split gone root pdpt pd t j e)
    (hne : j ≠ q / 512) (hsame : ∀ i, t' e.page i = t e.page i) :
    Split (fun r => gone r ∨ r = q) root pdpt pd t' j e :=
  { h with
    leaves := by
      intro i hi
      rw [hsame]
      exact (h.leaves i hi).other (by omega) }

/-- The table of a directory entry after its page was taken out. -/
theorem Split.taken {q j : Nat} {t' : Tables} {e : Entry} (h : Split gone root pdpt pd t j e)
    (hq : q / 512 = j) (hzero : t' e.page (q % 512) = 0)
    (hsame : ∀ i, i ≠ q % 512 → t' e.page i = t e.page i) :
    Split (fun r => gone r ∨ r = q) root pdpt pd t' j e :=
  { h with
    leaves := by
      intro i hi
      by_cases hat : i = q % 512
      · have : j * 512 + i = q := by omega
        rw [this, hat, hzero]
        exact Leaf.taken q
      · rw [hsame i hat]
        exact (h.leaves i hi).other (by omega) }

/-! ## Unmapping a page -/

/-- The spare table `k` serves no page. -/
def Free (p : Placement) (pd : Nat) (t : Tables) (k : Nat) : Prop :=
  ∀ j < 512, ¬ (t pd j).Has HUGE → (t pd j).page ≠ p.guardTable k

/-- The directory entry of a split page. -/
def splitSlot (p : Placement) (k : Nat) : Entry := .ofNat 64 (p.guardTable k) ||| PRESENT ||| WRITABLE

theorem splitSlot_facts (p : Placement) {k : Nat} (hk : k < 2) :
    (splitSlot p k).Has PRESENT ∧ (splitSlot p k).Has WRITABLE ∧ ¬ (splitSlot p k).Has HUGE ∧
      (splitSlot p k).page = p.guardTable k := by
  have haligned : p.guardTable k % 4096 = 0 := by
    have := p.guardTables_aligned
    rw [Placement.guardTable]
    omega
  have hlow : p.guardTable k < 2 ^ 52 := by
    have := p.guardTables_low
    rw [Placement.guardTable]
    omega
  have hmade : splitSlot p k = .ofNat 64 (p.guardTable k) ||| (PRESENT ||| WRITABLE) :=
    BitVec.or_assoc _ _ _
  rw [hmade]
  refine ⟨?_, ?_, ?_, Entry.page_made haligned hlow (by decide)⟩
  · exact (Entry.has_made haligned (by decide)).2 (by decide)
  · exact (Entry.has_made haligned (by decide)).2 (by decide)
  · rw [Entry.has_made haligned (by decide)]
    decide

/-- Where an edit that takes the page `q` out leaves the directory. -/
structure Taken (p : Placement) (pd : Nat) (t t' : Tables) (q spare : Nat) : Prop where
  others : ∀ k, k ≠ q / 512 → t' pd k = t pd k
  kept : ¬ (t pd (q / 512)).Has HUGE → t' pd (q / 512) = t pd (q / 512)
  split : (t pd (q / 512)).Has HUGE → t' pd (q / 512) = splitSlot p spare

/-- Taking a page out of a table. -/
theorem Shape.take_split (h : Shape p root pdpt pd gone granted t) {q : Nat} (hq : q / 512 < 512)
    (hs : Split gone root pdpt pd t (q / 512) (t pd (q / 512))) :
    Shape p root pdpt pd (fun r => gone r ∨ r = q) granted
      (t.write (t pd (q / 512)).page (q % 512) 0) := by
  obtain ⟨hroot, hpdpt, hpd⟩ := hs.table_ne
  refine ⟨h.spine.congr (fun k => Tables.write_of_page_ne hroot.symm)
    (fun k => Tables.write_of_page_ne hpdpt.symm), ?_, ?_⟩
  · intro k hk
    rw [Tables.write_of_page_ne hpd.symm]
    by_cases hkq : k = q / 512
    · rw [hkq]
      exact .inr (hs.taken rfl (Tables.write_self ..) fun i hi => Tables.write_of_index_ne hi)
    · rcases h.slots k hk with hw | hs'
      · exact .inl (hw.other hkq)
      · -- Another entry's table is another table.
        refine .inr (hs'.other hkq fun i => Tables.write_of_page_ne fun heq => hkq ?_)
        exact h.sole k hk _ hq hs'.small hs.small heq
  · intro j hj k hk
    rw [Tables.write_of_page_ne hpd.symm, Tables.write_of_page_ne hpd.symm]
    exact h.sole j hj k hk

/-- Taking a page out of a whole large page, through a spare table that serves no other. -/
theorem Shape.take_whole (h : Shape p root pdpt pd gone granted t) {q spare : Nat}
    (hq : q / 512 < 512) (hw : Whole gone none (q / 512) (t pd (q / 512))) (hspare : spare < 2)
    (hfree : Free p pd t spare) :
    Shape p root pdpt pd (fun r => gone r ∨ r = q) granted
      (((fill t (p.guardTable spare) fun i =>
          (((t pd (q / 512)) &&& ADDR &&& ~~~0x1FFFFF#64) + .ofNat 64 (i * 4096)) |||
            ((t pd (q / 512)) &&& PTE_FLAGS)).write pd (q / 512) (splitSlot p spare)).write
        (p.guardTable spare) (q % 512) 0) := by
  obtain ⟨hroot, hpdpt, hpd⟩ := h.spine.spares spare hspare
  obtain ⟨hpresent, hwritable, hsmall, hpage⟩ := splitSlot_facts p hspare
  -- The two tables written are the directory and the spare one.
  have hpass : ∀ r, r ≠ p.guardTable spare → r ≠ pd → ∀ i,
      (((fill t (p.guardTable spare) fun i =>
          (((t pd (q / 512)) &&& ADDR &&& ~~~0x1FFFFF#64) + .ofNat 64 (i * 4096)) |||
            ((t pd (q / 512)) &&& PTE_FLAGS)).write pd (q / 512) (splitSlot p spare)).write
        (p.guardTable spare) (q % 512) 0) r i = t r i := by
    intro r hr hr' i
    rw [Tables.write_of_page_ne hr, Tables.write_of_page_ne hr', fill_of_ne hr]
  have hdir : ∀ k,
      (((fill t (p.guardTable spare) fun i =>
          (((t pd (q / 512)) &&& ADDR &&& ~~~0x1FFFFF#64) + .ofNat 64 (i * 4096)) |||
            ((t pd (q / 512)) &&& PTE_FLAGS)).write pd (q / 512) (splitSlot p spare)).write
        (p.guardTable spare) (q % 512) 0) pd k =
        if k = q / 512 then splitSlot p spare else t pd k := by
    intro k
    rw [Tables.write_of_page_ne hpd.symm, Tables.write_apply, fill_of_ne hpd.symm]
    exact if_congr (and_iff_right rfl) rfl rfl
  refine ⟨h.spine.congr (hpass root hroot.symm h.spine.root_ne_pd)
    (hpass pdpt hpdpt.symm h.spine.pdpt_ne_pd), ?_, ?_⟩
  · intro k hk
    rw [hdir]
    by_cases hkq : k = q / 512
    · rw [if_pos hkq, hkq]
      refine .inr ⟨hpresent, hwritable, hsmall, by rw [hpage]; exact ⟨hroot, hpdpt, hpd⟩, ?_⟩
      intro i hi
      rw [hpage]
      by_cases hat : i = q % 512
      · have : q / 512 * 512 + i = q := by omega
        rw [this, hat, Tables.write_self]
        exact Leaf.taken q
      · rw [Tables.write_of_index_ne hat, Tables.write_of_page_ne hpd, fill_apply,
          if_pos ⟨rfl, hi⟩]
        exact (split_leaf hq hi hw (hw.intact i hi)).other (by omega)
    · rw [if_neg hkq]
      rcases h.slots k hk with hw' | hs'
      · exact .inl (hw'.other hkq)
      · exact .inr (hs'.other hkq (hpass _ (hfree k hk hs'.small) hs'.table_ne.2.2))
  · intro j hj k hk
    rw [hdir, hdir]
    by_cases hjq : j = q / 512 <;> by_cases hkq : k = q / 512
    · exact fun _ _ _ => hjq.trans hkq.symm
    · rw [if_pos hjq, if_neg hkq, hpage]
      exact fun _ hk' heq => absurd heq.symm (hfree k hk hk')
    · rw [if_neg hjq, if_pos hkq, hpage]
      exact fun hj' _ heq => absurd heq (hfree j hj hj')
    · rw [if_neg hjq, if_neg hkq]
      exact h.sole j hj k hk

/-- Unmapping a page of the first gigabyte takes just that page out, when a split finds its spare
table free. -/
theorem unmapPage_shape (h : Shape p root pdpt pd gone granted t) {addr : Nat} (spare : Nat)
    (ha : addr < 2 ^ 30) (hgranted : granted (addr / LARGE) = none)
    (hfree : (t pd (addr / LARGE)).Has HUGE → spare < 2 ∧ Free p pd t spare) :
    ∃ t', unmapPage p root t addr spare =
        (true, t', if (t pd (addr / LARGE)).Has HUGE then spare + 1 else spare) ∧
      Shape p root pdpt pd (fun r => gone r ∨ r = addr / 4096) granted t' ∧
      Taken p pd t t' (addr / 4096) spare := by
  obtain ⟨h4, h3, h2, h1⟩ := index_low ha
  have hj : addr / LARGE = addr / 4096 / 512 := by
    rw [Nat.div_div_eq_div_mul, LARGE]
  rw [hj] at hgranted hfree h2 ⊢
  have hlt : addr / 4096 / 512 < 512 := by omega
  rw [unmapPage]
  simp only [h4, h3, h2, h1, h.spine.page4, h.spine.page3, h.spine.present4, h.spine.present3,
    h.spine.small3, not_true_eq_false, if_false, or_self]
  rcases h.slots _ hlt with hw | hs
  · obtain ⟨hspare, hunused⟩ := hfree hw.huge
    obtain ⟨-, -, hpd⟩ := h.spine.spares spare hspare
    rw [hgranted] at hw
    have hlarge : ¬ spare ≥ 2 := by omega
    simp only [hw.present, hw.huge, hlarge, not_true_eq_false, if_false, if_true]
    refine ⟨_, rfl, h.take_whole hlt hw hspare hunused, ?_, ?_, ?_⟩
    · intro k hk
      rw [Tables.write_of_page_ne hpd.symm, Tables.write_of_index_ne hk, fill_of_ne hpd.symm]
    · exact fun hsmall => absurd hw.huge hsmall
    · intro _
      rw [Tables.write_of_page_ne hpd.symm, Tables.write_self]
      rfl
  · simp only [hs.present, hs.small, not_true_eq_false, if_false]
    have hpass : ∀ k, (t.write (t pd (addr / 4096 / 512)).page (addr / 4096 % 512) 0) pd k =
        t pd k := fun k => Tables.write_of_page_ne hs.table_ne.2.2.symm
    exact ⟨_, rfl, h.take_split hlt hs, fun k _ => hpass k, fun _ => hpass _,
      fun hhuge => absurd hhuge hs.small⟩

/-! ## Letting ring 3 in -/

/-- The way to the directory with its user bits set or cleared. -/
def opened (root pdpt : Nat) (t : Tables) (user : Bool) : Tables :=
  (t.write root 0 ((t root 0).setBit USER user)).write pdpt 0 ((t pdpt 0).setBit USER user)

theorem opened_of_ne {root pdpt r : Nat} {t : Tables} {user : Bool} (hroot : r ≠ root)
    (hpdpt : r ≠ pdpt) (k : Nat) : opened root pdpt t user r k = t r k := by
  rw [opened, Tables.write_of_page_ne hpdpt, Tables.write_of_page_ne hroot]

theorem opened_root {root pdpt : Nat} (t : Tables) (user : Bool) (hne : root ≠ pdpt) :
    opened root pdpt t user root 0 = (t root 0).setBit USER user := by
  rw [opened, Tables.write_of_page_ne hne, Tables.write_self]

theorem opened_pdpt (root pdpt : Nat) (t : Tables) (user : Bool) :
    opened root pdpt t user pdpt 0 = (t pdpt 0).setBit USER user := Tables.write_self ..

theorem opened_index {root pdpt : Nat} {t : Tables} {user : Bool} {r k : Nat} (hk : k ≠ 0) :
    opened root pdpt t user r k = t r k := by
  rw [opened, Tables.write_of_index_ne hk, Tables.write_of_index_ne hk]

/-- Only ring 3's way in changes. -/
theorem Spine.opened (h : Spine p root pdpt pd t) (user : Bool) :
    Spine p root pdpt pd (opened root pdpt t user) := by
  have hroot := opened_root t user h.root_ne_pdpt
  have hpdpt := opened_pdpt root pdpt t user
  have hkeeps : ∀ (e flag : Entry), USER &&& flag = 0#64 →
      ((e.setBit USER user).Has flag ↔ e.Has flag) :=
    fun e flag hflag => Entry.has_setBit_of_disjoint hflag
  exact { h with
    present4 := by rw [hroot, hkeeps _ _ (by decide)]; exact h.present4
    writable4 := by rw [hroot, hkeeps _ _ (by decide)]; exact h.writable4
    page4 := by rw [hroot, Entry.page_setBit (by decide)]; exact h.page4
    present3 := by rw [hpdpt, hkeeps _ _ (by decide)]; exact h.present3
    writable3 := by rw [hpdpt, hkeeps _ _ (by decide)]; exact h.writable3
    small3 := by rw [hpdpt, hkeeps _ _ (by decide)]; exact h.small3
    page3 := by rw [hpdpt, Entry.page_setBit (by decide)]; exact h.page3
    closed4 := fun k hk hne => by rw [opened_index hne]; exact h.closed4 k hk hne
    closed3 := fun k hk hne => by rw [opened_index hne]; exact h.closed3 k hk hne }

/-- A directory entry whose table is as it was. -/
theorem Split.congr {j : Nat} {t' : Tables} {e : Entry} (h : Split gone root pdpt pd t j e)
    (hsame : ∀ i, t' e.page i = t e.page i) : Split gone root pdpt pd t' j e :=
  { h with leaves := fun i hi => by rw [hsame]; exact h.leaves i hi }

theorem Shape.opened (h : Shape p root pdpt pd gone granted t) (user : Bool) :
    Shape p root pdpt pd gone granted (opened root pdpt t user) := by
  have hdir : ∀ k, Kernel.opened root pdpt t user pd k = t pd k :=
    opened_of_ne h.spine.root_ne_pd.symm h.spine.pdpt_ne_pd.symm
  refine ⟨h.spine.opened user, ?_, ?_⟩
  · intro k hk
    rw [hdir]
    rcases h.slots k hk with hw | hs
    · exact .inl hw
    · exact .inr (hs.congr (opened_of_ne hs.table_ne.1 hs.table_ne.2.1))
  · intro j hj k hk
    rw [hdir, hdir]
    exact h.sole j hj k hk

/-- What ring 3 is granted on a page once it was let in or shut out. -/
def grant (user writable : Bool) : Option Bool := if user then some writable else none

/-- The entry of a whole page with its user and write bits set for a grant. -/
theorem Whole.grant {g : Option Bool} {j : Nat} {e : Entry} (h : Whole gone g j e)
    (user writable : Bool) :
    Whole gone (grant user writable) j
      ((e.setBit USER user).setBit WRITABLE (writable || !user)) := by
  have hkeeps : ∀ flag : Entry, USER &&& flag = 0#64 → WRITABLE &&& flag = 0#64 →
      (((e.setBit USER user).setBit WRITABLE (writable || !user)).Has flag ↔ e.Has flag) := by
    intro flag huser hwritable
    rw [Entry.has_setBit_of_disjoint hwritable, Entry.has_setBit_of_disjoint huser]
  refine ⟨?_, ?_, ?_, ?_, ?_, h.intact⟩
  · exact (hkeeps PRESENT (by decide) (by decide)).2 h.present
  · exact (hkeeps HUGE (by decide) (by decide)).2 h.huge
  · rw [Entry.frame_setBit (by decide), Entry.frame_setBit (by decide), h.frame]
  · rw [Entry.has_setBit_of_disjoint (by decide), Entry.has_setBit (by decide)]
    rintro rfl
    exact Option.some_ne_none _
  · rw [Entry.has_setBit (by decide)]
    cases user <;> cases writable <;> simp [Kernel.grant]

/-- Letting ring 3 into one page, or shutting it out, changes what is granted there. -/
theorem setUser2m_shape (h : Shape p root pdpt pd gone granted t) {a : Nat} (ha : a < 2 ^ 30)
    (user writable : Bool) :
    Shape p root pdpt pd gone
        (fun k => if k = a / LARGE then grant user writable else granted k)
        (setUser2m root t a user (writable || !user)).2 ∧
      ∀ k, ¬ (t pd k).Has HUGE →
        (setUser2m root t a user (writable || !user)).2 pd k = t pd k := by
  obtain ⟨h4, h3, h2, -⟩ := index_low ha
  have hj : a / LARGE < 512 := by
    simp only [LARGE]
    omega
  have hopen := h.opened user
  have hdir : ∀ k, opened root pdpt t user pd k = t pd k :=
    opened_of_ne h.spine.root_ne_pd.symm h.spine.pdpt_ne_pd.symm
  -- The two upper entries are rewritten whatever follows.
  have hrun : (setUser2m root t a user (writable || !user)).2 =
      if (t pd (a / LARGE)).Has HUGE then
        (opened root pdpt t user).write pd (a / LARGE)
          (((t pd (a / LARGE)).setBit USER user).setBit WRITABLE (writable || !user))
      else opened root pdpt t user := by
    have hpdpt : (t.write root 0 ((t root 0).setBit USER user)) pdpt 0 = t pdpt 0 :=
      Tables.write_of_page_ne h.spine.root_ne_pdpt.symm
    have hpresent : (t pd (a / LARGE)).Has PRESENT := by
      rcases h.slots _ hj with hw | hs
      · exact hw.present
      · exact hs.present
    rw [setUser2m]
    simp only [h4, h3, h2, Tables.write_self, Entry.page_setBit (show USER &&& ADDR = 0#64 by decide),
      h.spine.page4, hpdpt, h.spine.page3, h.spine.present4, h.spine.present3, h.spine.small3,
      not_true_eq_false, if_false, or_self, ← opened.eq_1, hdir, hpresent, false_or]
    by_cases hhuge : (t pd (a / LARGE)).Has HUGE
    · rw [if_neg (not_not.2 hhuge), if_pos hhuge]
      exact Tables.write_write ..
    · rw [if_pos hhuge, if_neg hhuge]
  rw [hrun]
  by_cases hhuge : (t pd (a / LARGE)).Has HUGE
  · rw [if_pos hhuge]
    have hpass : ∀ r, r ≠ pd → ∀ k, ((opened root pdpt t user).write pd (a / LARGE)
        (((t pd (a / LARGE)).setBit USER user).setBit WRITABLE (writable || !user))) r k =
        opened root pdpt t user r k := fun r hr k => Tables.write_of_page_ne hr
    have hhas : ∀ k, ((opened root pdpt t user).write pd (a / LARGE)
        (((t pd (a / LARGE)).setBit USER user).setBit WRITABLE (writable || !user))) pd k =
        if k = a / LARGE then
          ((t pd (a / LARGE)).setBit USER user).setBit WRITABLE (writable || !user)
        else t pd k := by
      intro k
      rw [Tables.write_apply, hdir]
      exact if_congr (and_iff_right rfl) rfl rfl
    have hwhole := (h.slots _ hj).resolve_right fun hs => hs.small hhuge
    have hgrant := hwhole.grant user writable
    refine ⟨⟨hopen.spine.congr (hpass root h.spine.root_ne_pd) (hpass pdpt h.spine.pdpt_ne_pd),
      ?_, ?_⟩, ?_⟩
    · intro k hk
      rw [hhas]
      by_cases hkj : k = a / LARGE
      · rw [if_pos hkj, if_pos hkj, hkj]
        exact .inl hgrant
      · rw [if_neg hkj, if_neg hkj]
        rcases h.slots k hk with hw | hs
        · exact .inl hw
        · refine .inr (hs.congr fun i => ?_)
          rw [hpass _ hs.table_ne.2.2, opened_of_ne hs.table_ne.1 hs.table_ne.2.1]
    · intro j hj k hk
      rw [hhas, hhas]
      by_cases hja : j = a / LARGE
      · rw [if_pos hja]
        exact fun hsmall => absurd hgrant.huge hsmall
      · by_cases hka : k = a / LARGE
        · rw [if_pos hka]
          exact fun _ hsmall => absurd hgrant.huge hsmall
        · rw [if_neg hja, if_neg hka]
          exact h.sole j hj k hk
    · intro k hsmall
      rw [hhas, if_neg fun hka : k = a / LARGE => hsmall (hka ▸ hhuge)]
  · rw [if_neg hhuge]
    refine ⟨⟨hopen.spine, ?_, hopen.sole⟩, fun k _ => hdir k⟩
    intro k hk
    by_cases hka : k = a / LARGE
    · -- A page of 4 KiB pages is not granted at all.
      refine .inr ((hopen.slots k hk).resolve_left fun hw => hhuge ?_)
      have := hw.huge
      rwa [hdir, hka] at this
    · rw [if_neg hka]
      exact hopen.slots k hk

/-- What is granted after ring 3 was let into `n` pages from `m` on, or shut out of them. -/
theorem mapPages_shape (h : Shape p root pdpt pd gone granted t) (user writable : Bool)
    {n m : Nat} (hn : 0 < n → (m + n - 1) * LARGE < 2 ^ 30) :
    Shape p root pdpt pd gone
        (fun k => if m ≤ k ∧ k < m + n then grant user writable else granted k)
        (mapPages root user writable n (m * LARGE) t).2 ∧
      ∀ k, ¬ (t pd k).Has HUGE → (mapPages root user writable n (m * LARGE) t).2 pd k = t pd k := by
  induction n generalizing m t granted with
  | zero =>
    have hnone : (fun k => if m ≤ k ∧ k < m + 0 then grant user writable else granted k) =
        granted := funext fun k => if_neg (by omega)
    rw [hnone]
    exact ⟨h, fun _ _ => rfl⟩
  | succ n ih =>
    have hm : m * LARGE < 2 ^ 30 := lt_of_le_of_lt (Nat.mul_le_mul_right _ (by omega)) (hn (by omega))
    have hat : m * LARGE / LARGE = m := Nat.mul_div_cancel m (by decide)
    obtain ⟨hfirst, hkept⟩ := setUser2m_shape h hm user writable
    rw [hat] at hfirst
    have hnext : m * LARGE + LARGE = (m + 1) * LARGE := by
      rw [Nat.add_mul, Nat.one_mul]
    have hlast : 0 < n → (m + 1 + n - 1) * LARGE < 2 ^ 30 := by
      intro _
      rw [show m + 1 + n - 1 = m + (n + 1) - 1 by omega]
      exact hn (by omega)
    obtain ⟨hrest, hkept'⟩ := ih hfirst hlast
    rw [mapPages, hnext]
    refine ⟨?_, ?_⟩
    · have hboth : (fun k => if m ≤ k ∧ k < m + (n + 1) then grant user writable else granted k) =
          fun k => if m + 1 ≤ k ∧ k < m + 1 + n then grant user writable
            else if k = m then grant user writable else granted k := by
        funext k
        by_cases hk : m + 1 ≤ k ∧ k < m + 1 + n
        · rw [if_pos hk, if_pos (by omega)]
        · rw [if_neg hk]
          exact if_congr (by omega) rfl rfl
      rw [hboth]
      exact hrest
    · intro k hk
      have := hkept k hk
      rw [hkept' k (by rw [this]; exact hk), this]

/-- Letting ring 3 into a region of the first gigabyte, or shutting it out. -/
theorem mapRange_shape (h : Shape p root pdpt pd gone granted t) {base len : Nat}
    (hlow : base + len ≤ 2 ^ 30) (user writable : Bool) :
    Shape p root pdpt pd gone
        (fun k => if Overlaps base len k then grant user writable else granted k)
        (mapRange root t base len user writable).2 ∧
      ∀ k, ¬ (t pd k).Has HUGE → (mapRange root t base len user writable).2 pd k = t pd k := by
  have hbase : base - base % LARGE = base / LARGE * LARGE := by
    have := Nat.div_add_mod' base LARGE
    omega
  have hpages : ∀ k, base / LARGE ≤ k ∧ k < base / LARGE +
      (base + len - base / LARGE * LARGE + (LARGE - 1)) / LARGE ↔ Overlaps base len k := by
    intro k
    simp only [Overlaps, LARGE]
    omega
  rw [mapRange, hbase]
  have hfits : 0 < (base + len - base / LARGE * LARGE + (LARGE - 1)) / LARGE →
      (base / LARGE + (base + len - base / LARGE * LARGE + (LARGE - 1)) / LARGE - 1) * LARGE <
        2 ^ 30 := by
    simp only [LARGE]
    omega
  have hrun := mapPages_shape h user writable hfits
  simp only [hpages] at hrun
  exact hrun

end NanoChrono.Kernel
