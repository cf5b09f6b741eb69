import NanoChrono.Memory.Tables

/-! # The frame table refines a set of pages

The abstract model of the frame table is the set of the numbers of the free pages. RAM adds the
pages wholly inside it, a reservation takes the pages it meets, an allocation the pages of the run it
returns, and a run given back adds its pages. `run_right` follows a run of calls through table and
set: the table is well formed, never holds a page the set does not, and lacks at most the bytes it
has counted, so long as the 64-bit counter can hold them. `duplicate_ram_wraps` is a run where it
cannot. -/

namespace NanoChrono.Memory

open Frames

/-! ## Pages and their bytes -/

/-- The bytes of the pages. -/
def bytes (M : Finset Nat) : Finset Nat :=
  M.biUnion fun p => Finset.Ico (p * PAGE) ((p + 1) * PAGE)

theorem mem_bytes {M : Finset Nat} {x : Nat} : x ∈ bytes M ↔ x / PAGE ∈ M := by
  simp only [bytes, Finset.mem_biUnion, Finset.mem_Ico, PAGE]
  constructor
  · rintro ⟨p, hp, hx⟩
    have : x / 4096 = p := by omega
    rwa [this]
  · intro h
    exact ⟨x / 4096, h, by omega⟩

theorem bytes_union (M P : Finset Nat) : bytes (M ∪ P) = bytes M ∪ bytes P := by
  ext x
  simp only [mem_bytes, Finset.mem_union]

theorem bytes_sdiff (M P : Finset Nat) : bytes (M \ P) = bytes M \ bytes P := by
  ext x
  simp only [mem_bytes, Finset.mem_sdiff]

/-- The pages wholly inside `[base, base + len)`. The last page of the address space is never one:
its end is no 64-bit address. -/
def inside (base len : Nat) : Finset Nat :=
  Finset.Ico ((base + (PAGE - 1)) / PAGE) (min (base + len) U64_MAX / PAGE)

theorem mem_inside {base len p : Nat} : p ∈ inside base len ↔
    base ≤ p * PAGE ∧ (p + 1) * PAGE ≤ base + len ∧ (p + 1) * PAGE ≤ U64_MAX := by
  simp only [inside, Finset.mem_Ico, PAGE]
  omega

/-- The pages that meet `[base, base + len)`. -/
def meeting (base len : Nat) : Finset Nat :=
  if len = 0 then ∅ else Finset.Ico (base / PAGE) ((base + len + (PAGE - 1)) / PAGE)

theorem mem_meeting {base len p : Nat} : p ∈ meeting base len ↔
    ∃ x, base ≤ x ∧ x < base + len ∧ x / PAGE = p := by
  rw [meeting]
  split
  · next h =>
    subst h
    simp
    omega
  · simp only [Finset.mem_Ico, PAGE]
    constructor
    · intro h
      exact ⟨max base (p * 4096), by omega, by omega, by omega⟩
    · rintro ⟨x, hx⟩
      omega

/-! ## The model -/

/-- What a call does to the set of free pages, given what it answered. -/
def modelStep (M : Finset Nat) : Call → Answer → Finset Nat
  | .add base len, .done true => M ∪ inside base.toNat len.toNat
  | .reserve base len, _ => M \ meeting base.toNat len.toNat
  | .alloc len _ _, .run (some start) => M \ meeting start len.toNat
  | .free base len, .done true => M ∪ meeting base.toNat len.toNat
  | _, _ => M

/-- A table and the set of pages after a run of calls, both from no memory at all. -/
def runFrom {N : Nat} : Frames N × Finset Nat → List Call → Frames N × Finset Nat
  | s, [] => s
  | (f, M), c :: cs => runFrom ((f.step c).1, modelStep M c (f.step c).2) cs

/-- In every call of the run, the 64-bit counter can hold the bytes the call drops. -/
def Counted {N : Nat} : Frames N → List Call → Prop
  | _, [] => True
  | f, c :: cs => f.dropped + f.loss c ≤ U64_MAX ∧ Counted (f.step c).1 cs

/-- `start` begins a run an allocation may return: aligned, below the ceiling, and free, all with
the length rounded up to pages. -/
structure Fits {N : Nat} (f : Frames N) (len align ceiling start : Nat) : Prop where
  positive : 0 < len
  power : align.isPowerOfTwo
  aligned : align ∣ start
  page : PAGE ∣ start
  below : start + (len + (PAGE - 1)) / PAGE * PAGE ≤ ceiling
  free : ∀ x, start ≤ x → x < start + (len + (PAGE - 1)) / PAGE * PAGE → x ∈ cells f.ranges

/-- The table is well formed and stands for the pages `M` as far as it has slots, an allocation
returns the highest run that fits, and no run that overlaps a free one is taken back. -/
structure Right {N : Nat} (f : Frames N) (M : Finset Nat) : Prop where
  sorted : f.ranges.Pairwise fun r s => r.stop < s.base
  whole : ∀ r ∈ f.ranges, r.base % PAGE = 0 ∧ r.stop % PAGE = 0 ∧ r.base < r.stop
  subset : cells f.ranges ⊆ bytes M
  exact : f.dropped = 0 → cells f.ranges = bytes M
  missing : (bytes M \ cells f.ranges).card ≤ f.dropped
  highest : ∀ (len align ceiling : UInt64) (a : Nat),
    (f.alloc len.toNat align.toNat ceiling.toNat).2 = some a →
      IsGreatest {b | Fits f len.toNat align.toNat ceiling.toNat b} a
  exhausted : ∀ len align ceiling : UInt64,
    (f.alloc len.toNat align.toNat ceiling.toNat).2 = none →
      ∀ a, ¬ Fits f len.toNat align.toNat ceiling.toNat a
  refused : ∀ (base len : UInt64) (x : Nat), base.toNat ≤ x → x < base.toNat + len.toNat →
    x ∈ cells f.ranges → (f.free base.toNat len.toNat).2 = false

/-! ## Allocation -/

section Alloc

variable {N : Nat} {l : List Range} {len align ceiling a b : Nat}

/-- An aligned address below `x` is not above `x` rounded down. -/
theorem le_alignDown {x : Nat} (hx : x ≤ U64_MAX) (ha : align.isPowerOfTwo)
    (hlt : align ≤ U64_MAX) (hb : align ∣ b) (hbx : b ≤ x) : b ≤ alignDown x align := by
  rw [alignDown_eq hx ha hlt]
  obtain ⟨c, rfl⟩ := hb
  have hc : align * c ≤ align * (x / align) := by
    apply Nat.mul_le_mul_left
    rw [Nat.le_div_iff_mul_le (Nat.pos_of_isPowerOfTwo ha), Nat.mul_comm]
    exact hbx
  have := Nat.div_add_mod x align
  omega

theorem dvd_alignDown {x : Nat} (hx : x ≤ U64_MAX) (ha : align.isPowerOfTwo)
    (hlt : align ≤ U64_MAX) : align ∣ alignDown x align ∧ alignDown x align ≤ x := by
  rw [alignDown_eq hx ha hlt]
  exact ⟨Nat.dvd_sub_mod x, Nat.sub_le _ _⟩

/-- An aligned run below the ceiling inside one range. -/
def Holds (l : List Range) (len align ceiling a : Nat) : Prop :=
  align ∣ a ∧ a + len ≤ ceiling ∧ ∃ s ∈ l, s.base ≤ a ∧ a + len ≤ s.stop

/-- The search from the top finds a run if there is one, and none lies above what it finds. -/
theorem findRun_spec (len ceiling : Nat) (hlen : 0 < len) (h : Spaced l) (htop : ∀ s ∈ l, s.stop ≤ U64_MAX)
    (ha : align.isPowerOfTwo) (hlt : align ≤ U64_MAX) :
    (∀ a, findRun len align ceiling l.reverse = some a → Holds l len align ceiling a) ∧
      ∀ b, Holds l len align ceiling b →
        ∃ a, findRun len align ceiling l.reverse = some a ∧ b ≤ a := by
  induction l using List.reverseRecOn with
  | nil => simp [findRun, Holds]
  | append_singleton l r ih =>
    obtain ⟨ih₁, ih₂⟩ := ih (h.sublist (List.sublist_append_left l [r]))
      fun s hs => htop s (by simp [hs])
    have hr := htop r (by simp)
    have hgap : ∀ s ∈ l, s.stop < r.base := fun s hs =>
      (List.pairwise_append.1 h.sorted).2.2 s hs r (by simp)
    have hweak : ∀ a, Holds l len align ceiling a → Holds (l ++ [r]) len align ceiling a := by
      rintro a ⟨hal, hc, s, hs, hin⟩
      exact ⟨hal, hc, s, by simp [hs], hin⟩
    have hsplit : ∀ b, Holds (l ++ [r]) len align ceiling b → Holds l len align ceiling b ∨
        align ∣ b ∧ b + len ≤ min r.stop ceiling ∧ r.base ≤ b := by
      rintro b ⟨hal, hc, s, hs, hin⟩
      rcases List.mem_append.1 hs with hs | hs
      · exact .inl ⟨hal, hc, s, hs, hin⟩
      · rw [List.mem_singleton] at hs
        subst hs
        exact .inr ⟨hal, by omega, hin.1⟩
    have hx : min r.stop ceiling - len ≤ U64_MAX := by omega
    rw [List.reverse_append, List.reverse_singleton, List.singleton_append, findRun]
    dsimp only
    split
    · -- The range is too short below the ceiling.
      next hshort =>
      refine ⟨fun a he => hweak a (ih₁ a he), fun b hb => ?_⟩
      rcases hsplit b hb with hb | hb
      · exact ih₂ b hb
      · omega
    · next hlong =>
      split
      · next hstart =>
        obtain ⟨hdvd, hle⟩ := dvd_alignDown hx ha hlt
        constructor
        · intro a he
          obtain rfl := Option.some.inj he
          exact ⟨hdvd, by omega, r, by simp, hstart, by omega⟩
        · intro b hb
          refine ⟨_, rfl, ?_⟩
          rcases hsplit b hb with ⟨-, -, s, hs, -, hbs⟩ | ⟨hal, hc, -⟩
          · have := hgap s hs
            omega
          · exact le_alignDown hx ha hlt hal (by omega)
      · next hstart =>
        refine ⟨fun a he => hweak a (ih₁ a he), fun b hb => ?_⟩
        rcases hsplit b hb with hb | ⟨hal, hc, hrb⟩
        · exact ih₂ b hb
        · have := le_alignDown hx ha hlt hal (show b ≤ min r.stop ceiling - len by omega)
          omega

/-- Being aligned to both a power of two and a page is being aligned to the larger. -/
theorem max_page_dvd (ha : align.isPowerOfTwo) :
    max align PAGE ∣ a ↔ align ∣ a ∧ PAGE ∣ a := by
  obtain ⟨k, rfl⟩ := ha
  rw [show PAGE = 2 ^ 12 from rfl]
  rcases Nat.le_total k 12 with h | h
  · have hd : 2 ^ k ∣ 2 ^ 12 := Nat.pow_dvd_pow 2 h
    rw [max_eq_right (Nat.pow_le_pow_right (by omega) h)]
    exact ⟨fun hb => ⟨hd.trans hb, hb⟩, fun hb => hb.2⟩
  · have hd : 2 ^ 12 ∣ 2 ^ k := Nat.pow_dvd_pow 2 h
    rw [max_eq_left (Nat.pow_le_pow_right (by omega) h)]
    exact ⟨fun hb => ⟨hb, hd.trans hb⟩, fun hb => hb.1⟩

theorem max_page_power (ha : align.isPowerOfTwo) : (max align PAGE).isPowerOfTwo := by
  rcases max_choice align PAGE with h | h <;> rw [h]
  exacts [ha, isPowerOfTwo_page]

/-- The runs that fit are those the search looks for. -/
theorem fits_iff {f : Frames N} (h : Table N f.ranges) (hlen : 0 < len)
    (hpow : align.isPowerOfTwo) (hc : ceiling ≤ U64_MAX) :
    Fits f len align ceiling a ↔ Holds f.ranges ((len + (PAGE - 1)) / PAGE * PAGE)
      (max align PAGE) (alignDown ceiling PAGE) a := by
  have hsize : 0 < (len + (PAGE - 1)) / PAGE * PAGE := by
    simp only [PAGE]
    omega
  -- The run ends on a page's boundary, so rounding the ceiling down takes none away.
  have hceil : PAGE ∣ a → (a + (len + (PAGE - 1)) / PAGE * PAGE ≤ ceiling ↔
      a + (len + (PAGE - 1)) / PAGE * PAGE ≤ alignDown ceiling PAGE) := by
    rw [alignDown_page hc]
    simp only [PAGE]
    omega
  constructor
  · rintro ⟨-, -, hal, hp, hbelow, hfree⟩
    refine ⟨(max_page_dvd hpow).2 ⟨hal, hp⟩, (hceil hp).1 hbelow, ?_⟩
    exact h.spaced.within (by omega) fun n hn hn' => hfree n hn hn'
  · rintro ⟨hal, hbelow, s, hs, hin⟩
    obtain ⟨hal, hp⟩ := (max_page_dvd hpow).1 hal
    refine ⟨hlen, hpow, hal, hp, (hceil hp).2 hbelow, fun x hx hx' => mem_cells.2 ⟨s, hs, ?_⟩⟩
    rw [Span.mem_cells]
    omega

variable (len) in
/-- The run an allocation takes is the highest that fits; it takes none when none fits. -/
theorem allocRun_spec {f : Frames N} (h : Table N f.ranges) (halign : align ≤ U64_MAX)
    (hc : ceiling ≤ U64_MAX) :
    (∀ r, f.allocRun len align ceiling = some r →
      r.stop = r.base + (len + (PAGE - 1)) / PAGE * PAGE ∧
        IsGreatest {b | Fits f len align ceiling b} r.base) ∧
      (f.allocRun len align ceiling = none → ∀ a, ¬ Fits f len align ceiling a) := by
  rw [Frames.allocRun]
  split
  · next hbad =>
    refine ⟨by simp, fun _ a hfit => ?_⟩
    rcases hbad with hbad | hbad
    · have := hfit.positive
      omega
    · exact hbad hfit.power
  · next hok =>
    rw [not_or, not_not] at hok
    obtain ⟨hlen, hpow⟩ := hok
    have hlen : 0 < len := by omega
    split
    · next hup =>
      -- No run of the address space is that long.
      refine ⟨by simp, fun _ a hfit => ?_⟩
      have hbelow := hfit.below
      rw [alignUp_page] at hup
      split at hup
      · cases hup
      · simp only [PAGE, U64_MAX] at *
        omega
    · next size hup =>
      obtain ⟨-, rfl⟩ := alignUp_eq_some hup
      have hmax : max align PAGE ≤ U64_MAX := by
        rw [max_le_iff]
        exact ⟨halign, by decide⟩
      obtain ⟨h₁, h₂⟩ := findRun_spec ((len + (PAGE - 1)) / PAGE * PAGE)
        (alignDown ceiling PAGE) (by simp only [PAGE]; omega) h.spaced (fun s hs => (h.paged s hs).top)
        (max_page_power hpow) hmax
      have hiff := fun a => fits_iff (a := a) h hlen hpow hc
      constructor
      · intro r hr
        obtain ⟨a, ha, rfl⟩ := Option.map_eq_some_iff.1 hr
        refine ⟨rfl, (hiff a).2 (h₁ a ha), fun b hb => ?_⟩
        obtain ⟨a', ha', hle⟩ := h₂ b ((hiff b).1 hb)
        rw [ha] at ha'
        obtain rfl := Option.some.inj ha'
        exact hle
      · intro hn a hfit
        obtain ⟨a', ha', -⟩ := h₂ a ((hiff a).1 hfit)
        rw [ha'] at hn
        cases hn

end Alloc

/-! ## The ranges of the other calls -/

section Ranges

variable {base len : Nat}

variable (len) in
/-- RAM shrunk inward holds the pages inside it. -/
theorem inward_spec (hb : base ≤ U64_MAX) :
    (∀ r, inward base len = some r → Paged r ∧ r.base < r.stop ∧ r.cells = bytes (inside base len)) ∧
      (inward base len = none → inside base len = ∅) := by
  have hsat := saturatingAdd_le base len
  have hhi := alignDown_page hsat
  rw [saturatingAdd] at hsat hhi
  unfold inward
  split
  · next hup =>
    have hlo := alignUp_eq_none hup
    refine ⟨by simp, fun _ => ?_⟩
    ext p
    simp only [mem_inside, Finset.notMem_empty, iff_false, PAGE, U64_MAX] at *
    omega
  · next lo hup =>
    obtain ⟨hle, hlo⟩ := alignUp_eq_some hup
    rw [saturatingAdd]
    dsimp only
    split
    · next hlt =>
      refine ⟨fun r hr => ?_, by simp⟩
      rw [← Option.some.inj hr]
      refine ⟨⟨?_, ?_, ?_⟩, hlt, ?_⟩
      · simp only [PAGE] at *
        omega
      · simp only [PAGE] at *
        omega
      · dsimp only
        omega
      · ext x
        simp only [Span.mem_cells, mem_bytes, mem_inside, PAGE, U64_MAX] at *
        omega
    · next hlt =>
      refine ⟨by simp, fun _ => ?_⟩
      ext p
      simp only [mem_inside, Finset.notMem_empty, iff_false, PAGE, U64_MAX] at *
      omega

/-- A reservation widened outward holds, below the last page, the pages it meets. -/
theorem outward_spec (hb : base ≤ U64_MAX) (hlen : len ≠ 0) :
    (outward base len).base % PAGE = 0 ∧ (outward base len).stop % PAGE = 0 ∧
      ((outward base len).base < (outward base len).stop ∨
        U64_MAX - (PAGE - 1) ≤ (outward base len).base) ∧
      ∀ x < U64_MAX - (PAGE - 1),
        x ∈ (outward base len).cells ↔ x ∈ bytes (meeting base len) := by
  unfold outward
  rw [alignDown_page hb, meeting, if_neg hlen]
  simp only [Span.mem_cells, mem_bytes, Finset.mem_Ico]
  rw [saturatingAdd]
  split
  · next hi hup =>
    obtain ⟨hle, hhi⟩ := alignUp_eq_some hup
    simp only [PAGE, U64_MAX] at *
    refine ⟨by omega, by omega, by omega, fun x hx => by omega⟩
  · next hup =>
    have hle := alignUp_eq_none hup
    simp only [PAGE, U64_MAX] at *
    refine ⟨by omega, by omega, by omega, fun x hx => by omega⟩

variable {N : Nat} {f : Frames N}

/-- A run given back holds the pages it meets. -/
theorem freeRun_spec {r : Range} (h : f.freeRun base len = some r) :
    Paged r ∧ r.base < r.stop ∧ r.cells = bytes (meeting base len) := by
  rw [freeRun] at h
  split at h
  · cases h
  · next hok =>
    rw [not_or, not_not] at hok
    obtain ⟨hbase, hlen⟩ := hok
    split at h
    · cases h
    · next size hup =>
      obtain ⟨hle, rfl⟩ := alignUp_eq_some hup
      rw [checkedAdd] at h
      split at h
      · cases h
      · next stop hstop =>
        split at hstop
        · next htop =>
          obtain rfl := Option.some.inj hstop
          split at h
          · cases h
          · obtain rfl := Option.some.inj h
            refine ⟨⟨hbase, ?_, htop⟩, ?_, ?_⟩
            · simp only [PAGE] at *
              omega
            · simp only [PAGE]
              omega
            · ext x
              rw [Span.mem_cells, mem_bytes, meeting, if_neg hlen, Finset.mem_Ico]
              simp only [PAGE] at *
              omega
        · cases hstop

/-- A run that overlaps a free range is not taken back. -/
theorem freeRun_overlap {x : Nat} (hx : base ≤ x) (hx' : x < base + len)
    (hc : x ∈ cells f.ranges) : f.freeRun base len = none := by
  obtain ⟨r, hr, hxr⟩ := mem_cells.1 hc
  rw [Span.mem_cells] at hxr
  rw [freeRun]
  split
  · rfl
  · split
    · rfl
    · next size hup =>
      obtain ⟨hle, rfl⟩ := alignUp_eq_some hup
      split
      · rfl
      · next stop hstop =>
        rw [checkedAdd] at hstop
        split at hstop
        · obtain rfl := Option.some.inj hstop
          rw [if_pos]
          rw [List.any_eq_true]
          refine ⟨r, hr, ?_⟩
          rw [decide_eq_true_eq]
          simp only [PAGE]
          omega
        · cases hstop

/-- The run an allocation takes holds the pages it meets. -/
theorem allocRun_cells {align ceiling : Nat} {r : Range}
    (hr : r.stop = r.base + (len + (PAGE - 1)) / PAGE * PAGE)
    (hf : Fits f len align ceiling r.base) : r.base % PAGE = 0 ∧ r.stop % PAGE = 0 ∧
      r.base < r.stop ∧ r.cells = bytes (meeting r.base len) := by
  have hpos := hf.positive
  have hpage := hf.page
  refine ⟨?_, ?_, ?_, ?_⟩
  · simp only [PAGE] at *
    omega
  · simp only [PAGE] at *
    omega
  · simp only [PAGE] at *
    omega
  · ext x
    rw [Span.mem_cells, mem_bytes, meeting, if_neg (by omega), Finset.mem_Ico]
    simp only [PAGE] at *
    omega

end Ranges

/-! ## Steps -/

/-- The table stands for the pages, less what it has lost. -/
structure Refines {N : Nat} (f : Frames N) (M : Finset Nat) : Prop where
  table : Table N f.ranges
  lossy : Lossy (bytes M) (cells f.ranges) f.dropped

section Steps

variable {N : Nat} {f : Frames N} {M P : Finset Nat} {r : Range}

theorem Refines.new (N : Nat) : Refines (new N) ∅ :=
  ⟨⟨.nil, by simp [Frames.new], Nat.zero_le _⟩, .refl _⟩

theorem Refines.close (h : Refines f M) : Refines f.close M := ⟨h.table, h.lossy⟩

theorem update_dropped {change : List Range × Nat} (h : f.dropped + change.2 ≤ U64_MAX) :
    (f.update change).dropped = f.dropped + change.2 := by
  rw [update]
  simp only [U64_MAX] at h
  exact Nat.mod_eq_of_lt (by omega)

/-- Inserting the bytes of `P`. -/
theorem Refines.insert (h : Refines f M) (hr : Paged r) (hlt : r.base < r.stop)
    (hP : r.cells = bytes P) (hc : f.dropped + (inserted N f.ranges r).2 ≤ U64_MAX) :
    Refines (f.insert r) (M ∪ P) := by
  obtain ⟨htable, hlossy⟩ := inserted_spec h.table hr hlt
  rw [hP] at hlossy
  refine ⟨htable, ?_⟩
  rw [Frames.insert, update_dropped hc, bytes_union]
  exact h.lossy.put hlossy

/-- Removing the bytes of `P`. -/
theorem Refines.remove (h : Refines f M) (hb : r.base % PAGE = 0) (hs : r.stop % PAGE = 0)
    (hlt : r.base < r.stop ∨ ∀ s ∈ f.ranges, s.stop ≤ r.base)
    (hP : cells f.ranges \ r.cells = cells f.ranges \ bytes P)
    (hc : f.dropped + (removed N r.base r.stop 0 f.ranges).2 ≤ U64_MAX) :
    Refines (f.remove r) (M \ P) := by
  obtain ⟨htable, hlossy⟩ := removed_spec h.table hb hs hlt
  rw [hP] at hlossy
  refine ⟨htable, ?_⟩
  rw [Frames.remove, update_dropped hc, bytes_sdiff]
  exact h.lossy.cut hlossy

/-- A page-aligned range ends below the last page. -/
theorem Paged.stop_le (h : Paged r) : r.stop ≤ U64_MAX - (PAGE - 1) := by
  obtain ⟨-, hs, ht⟩ := h
  simp only [PAGE, U64_MAX] at *
  omega

/-- One call keeps the table standing for the pages, if the counter can hold what it drops. -/
theorem step_refines (h : Refines f M) (c : Call) (hc : f.dropped + f.loss c ≤ U64_MAX) :
    Refines (f.step c).1 (modelStep M c (f.step c).2) := by
  have hu : ∀ n : UInt64, n.toNat ≤ U64_MAX := fun n => Nat.le_pred_of_lt n.toNat_lt
  cases c with
  | add base len =>
    rw [Frames.loss] at hc
    rw [Frames.step, Frames.add]
    obtain ⟨hsome, hnone⟩ := inward_spec len.toNat (hu base)
    by_cases hclosed : f.closed = true
    · simp only [hclosed, if_true, modelStep]
      exact h
    · rw [if_neg hclosed] at hc ⊢
      rcases hin : inward base.toNat len.toNat with _ | r
      · simp only [modelStep]
        rw [hnone hin, Finset.union_empty]
        exact h
      · simp only [hin, Option.map_some, Option.getD_some, modelStep] at hc ⊢
        obtain ⟨hp, hlt, hcells⟩ := hsome r hin
        exact h.insert hp hlt hcells hc
  | reserve base len =>
    rw [Frames.loss] at hc
    rw [Frames.step, Frames.reserve]
    simp only [modelStep]
    by_cases hz : len = 0
    · subst hz
      simp only [UInt64.toNat_zero, if_true, meeting, Finset.sdiff_empty]
      exact h.close
    · have hlen : len.toNat ≠ 0 := by
        rw [Ne, ← UInt64.toNat_zero, UInt64.toNat_inj]
        exact hz
      rw [if_neg hz] at hc
      rw [if_neg hlen]
      obtain ⟨hb, hs, hlt, hcells⟩ := outward_spec (hu base) hlen
      apply h.close.remove hb hs _ _ hc
      · exact hlt.imp_right fun hlt s hs => ((h.table.paged s hs).stop_le).trans hlt
      · ext x
        rw [Finset.mem_sdiff, Finset.mem_sdiff]
        apply and_congr_right
        intro hx
        obtain ⟨s, hs, hx⟩ := mem_cells.1 hx
        rw [Span.mem_cells] at hx
        exact not_congr (hcells x (hx.2.trans_le (h.table.paged s hs).stop_le))
  | alloc len align ceiling =>
    rw [Frames.loss] at hc
    rw [Frames.step, Frames.alloc]
    obtain ⟨hsome, -⟩ := allocRun_spec len.toNat h.table (hu align) (hu ceiling)
    rcases hrun : f.allocRun len.toNat align.toNat ceiling.toNat with _ | r
    · simp only [modelStep]
      exact h.close
    · simp only [hrun, Option.map_some, Option.getD_some, modelStep] at hc ⊢
      obtain ⟨hr, hfit, -⟩ := hsome r hrun
      obtain ⟨hb, hs, hlt, hcells⟩ := allocRun_cells hr hfit
      exact h.close.remove hb hs (.inl hlt) (by rw [hcells]) hc
  | free base len =>
    rw [Frames.loss] at hc
    rw [Frames.step, Frames.free]
    rcases hrun : f.freeRun base.toNat len.toNat with _ | r
    · simp only [modelStep]
      exact h.close
    · simp only [hrun, Option.map_some, Option.getD_some, modelStep] at hc ⊢
      obtain ⟨hp, hlt, hcells⟩ := freeRun_spec hrun
      exact h.close.insert hp hlt hcells hc

/-- A table that stands for the pages answers as it should. -/
theorem Refines.right (h : Refines f M) : Right f M := by
  have hu : ∀ n : UInt64, n.toNat ≤ U64_MAX := fun n => Nat.le_pred_of_lt n.toNat_lt
  constructor
  · exact h.table.spaced.sorted
  · intro r hr
    have hp := h.table.paged r hr
    exact ⟨hp.base, hp.stop, h.table.spaced.inhabited r hr⟩
  · exact h.lossy.subset
  · intro hz
    have hl := h.lossy
    rw [hz] at hl
    exact hl.exact
  · exact h.lossy.missing
  · intro len align ceiling a ha
    have hspec := (allocRun_spec len.toNat h.table (hu align) (hu ceiling)).1
    rw [Frames.alloc] at ha
    split at ha
    · cases ha
    · next r hr =>
      obtain rfl := Option.some.inj ha
      exact (hspec r hr).2
  · intro len align ceiling ha
    have hspec := (allocRun_spec len.toNat h.table (hu align) (hu ceiling)).2
    rw [Frames.alloc] at ha
    split at ha
    · next hr => exact hspec hr
    · cases ha
  · intro base len x hx hx' hc
    rw [Frames.free, freeRun_overlap hx hx' hc]

end Steps

/-! ## Runs -/

/-- What every call keeps, a run of calls keeps. -/
theorem runFrom_refines {N : Nat} {f : Frames N} {M : Finset Nat} (h : Refines f M)
    (cs : List Call) (hc : Counted f cs) :
    Refines (runFrom (f, M) cs).1 (runFrom (f, M) cs).2 := by
  induction cs generalizing f M with
  | nil => exact h
  | cons c cs ih => exact ih (step_refines h c hc.1) hc.2

/-- After every run of calls whose losses the counter can hold, the table is well formed, never
holds a page that is not free, and lacks no more than it has counted. -/
theorem run_right (N : Nat) (cs : List Call) (hc : Counted (new N) cs) :
    Right (runFrom (new N, ∅) cs).1 (runFrom (new N, ∅) cs).2 :=
  (runFrom_refines (.new N) cs hc).right

/-- RAM, a reservation that splits it in a full table, an allocation and its return. -/
theorem run_right_two_slots :
    let cs := [.add 0 0x10000, .add 0x20000 0x10000, .reserve 0x3000 0x1000,
      .alloc 0x2000 0x1000 0x8000, .free 0x6000 0x2000]
    Right (runFrom (new 2, ∅) cs).1 (runFrom (new 2, ∅) cs).2 :=
  run_right 2 _ ⟨by decide, by decide, by decide, by decide,
    by decide, trivial⟩

/-! ## A counter that wraps -/

/-- RAM, and four times the same RAM that a table of one slot has no room for. -/
def duplicateRam : List Call :=
  .add 0 0x8000000000000000 :: List.replicate 4 (.add 0x8000000000001000 0x4000000000000000)

/-- A table that has counted no loss holds every free page. -/
theorem Right.holds {N : Nat} {f : Frames N} {M : Finset Nat} (h : Right f M)
    (hz : f.dropped = 0) {p : Nat} (hp : p ∈ M) : p * PAGE ∈ cells f.ranges := by
  rw [h.exact hz, mem_bytes, Nat.mul_div_cancel p (by decide)]
  exact hp

/-- The four losses add up to the whole address space, so the counter is back at nothing, though the
pages are missing. -/
theorem duplicate_ram_wraps :
    ¬ Right (runFrom (new 1, ∅) duplicateRam).1 (runFrom (new 1, ∅) duplicateRam).2 := by
  have hf : (runFrom (new 1, ∅) duplicateRam).1 = ⟨[⟨0, 2 ^ 63⟩], 0, false⟩ := by decide
  have hM : ∃ M, (runFrom (new 1, ∅) duplicateRam).2 =
      M ∪ inside (2 ^ 63 + 2 ^ 12) (2 ^ 62) := ⟨_, rfl⟩
  intro h
  -- The page where the RAM without a slot begins.
  apply absurd (h.holds (p := 2 ^ 51 + 1) (by rw [hf]) _)
  · rw [hf]
    simp [PAGE]
  · obtain ⟨M, hM⟩ := hM
    rw [hM]
    apply Finset.mem_union_right
    rw [mem_inside]
    decide

end NanoChrono.Memory
