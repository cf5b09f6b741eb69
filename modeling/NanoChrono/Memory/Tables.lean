import NanoChrono.Memory.Frames

/-! # What inserting and removing do to a table

A list of ranges is a `Table N` when it is spaced, page-aligned, below the top of the address space
and no longer than the `N` slots it has. Inserting a range and removing one keep a table a table
(`inserted_table`, `removed_table`), and what they keep of the bytes they ought to keep falls short
by no more than what they count as lost (`inserted_lossy`, `removed_lossy`). -/

namespace NanoChrono.Memory

/-! ## Rounding -/

/-- Masking by a power of two rounds down to a multiple of it. -/
theorem alignDown_eq {x align : Nat} (hx : x ≤ U64_MAX) (ha : align.isPowerOfTwo)
    (hlt : align ≤ U64_MAX) : alignDown x align = x - x % align := by
  obtain ⟨k, rfl⟩ := ha
  have hk : k < 64 := by
    by_contra hk
    have : 2 ^ 64 ≤ 2 ^ k := Nat.pow_le_pow_right (by omega) (by omega)
    simp only [U64_MAX] at hlt
    omega
  have hmul : x - x % 2 ^ k = x / 2 ^ k * 2 ^ k := by
    have := Nat.div_add_mod x (2 ^ k)
    rw [Nat.mul_comm] at this
    omega
  have hmask : U64_MAX - (2 ^ k - 1) = 2 ^ 64 - (2 ^ k - 1 + 1) := by
    simp only [U64_MAX]
    omega
  rw [hmul, alignDown, hmask]
  -- Bit by bit: the mask keeps the bits from `k` on.
  apply Nat.eq_of_testBit_eq
  intro i
  have hpow : 2 ^ k - 1 < 2 ^ 64 := by
    have : 2 ^ k < 2 ^ 64 := Nat.pow_lt_pow_right (by omega) hk
    omega
  rw [Nat.testBit_and, Nat.testBit_two_pow_sub_succ hpow, Nat.testBit_two_pow_sub_one,
    Nat.testBit_mul_two_pow, Nat.testBit_div_two_pow]
  by_cases hi : k ≤ i
  · have h64 : 64 ≤ i → x.testBit i = false := fun h =>
      Nat.testBit_lt_two_pow (lt_of_lt_of_le (by simp only [U64_MAX] at hx; omega)
        (Nat.pow_le_pow_right (by omega) h))
    by_cases hi' : i < 64
    · simp [hi, hi', Nat.sub_add_cancel hi]
    · simp [hi, Nat.sub_add_cancel hi, h64 (by omega)]
  · have : i < k := by omega
    simp [hi, this]

theorem isPowerOfTwo_page : PAGE.isPowerOfTwo := ⟨12, rfl⟩

theorem alignDown_page {x : Nat} (hx : x ≤ U64_MAX) : alignDown x PAGE = x - x % PAGE :=
  alignDown_eq hx isPowerOfTwo_page (by decide)

theorem saturatingAdd_le (x y : Nat) : saturatingAdd x y ≤ U64_MAX := by
  rw [saturatingAdd]
  omega

theorem alignUp_page {x : Nat} : alignUp x PAGE =
    if x + (PAGE - 1) ≤ U64_MAX then some (x + (PAGE - 1) - (x + (PAGE - 1)) % PAGE) else none := by
  rw [alignUp, checkedAdd]
  split
  · next h => rw [Option.map_some, alignDown_page h]
  · rfl

theorem alignUp_eq_some {x y : Nat} (h : alignUp x PAGE = some y) :
    x + (PAGE - 1) ≤ U64_MAX ∧ y = (x + (PAGE - 1)) / PAGE * PAGE := by
  rw [alignUp_page] at h
  split at h
  · next hx =>
    refine ⟨hx, ?_⟩
    rw [← Option.some.inj h]
    simp only [PAGE]
    omega
  · cases h

theorem alignUp_eq_none {x : Nat} (h : alignUp x PAGE = none) : U64_MAX < x + (PAGE - 1) := by
  rw [alignUp_page] at h
  split at h
  · cases h
  · omega

/-! ## Tables -/

/-- A range whose ends are page-aligned and lie in the address space. -/
structure Paged (r : Range) : Prop where
  base : r.base % PAGE = 0
  stop : r.stop % PAGE = 0
  top : r.stop ≤ U64_MAX

/-- The ranges of a table with `N` slots. -/
structure Table (N : Nat) (l : List Range) : Prop where
  spaced : Spaced l
  paged : ∀ r ∈ l, Paged r
  room : l.length ≤ N

/-! ## Inserting -/

section Swallow

variable {l : List Range} {x : Range}

theorem swallow_cons (r : Range) (l : List Range) (x : Range) : swallow (r :: l) x =
    if r.Meets x then swallow l (x.join r)
    else (r :: (swallow l x).1, (swallow l x).2) := by
  rw [swallow]
  exact if_congr Iff.rfl rfl rfl

theorem swallow_sublist : (swallow l x).1.Sublist l := by
  induction l generalizing x with
  | nil => exact .slnil
  | cons r l ih =>
    rw [swallow_cons]
    split
    · exact ih.cons r
    · exact ih.cons_cons r

/-- The widened range begins and ends where one of those it is made of does. -/
theorem swallow_ends {P : Nat → Prop} {Q : Nat → Prop} (hl : ∀ r ∈ l, P r.base ∧ Q r.stop)
    (hn : P x.base ∧ Q x.stop) : P (swallow l x).2.base ∧ Q (swallow l x).2.stop := by
  induction l generalizing x with
  | nil => exact hn
  | cons r l ih =>
    have hr := hl r (by simp)
    have hl' : ∀ r ∈ l, P r.base ∧ Q r.stop := fun r hr => hl r (by simp [hr])
    rw [swallow_cons]
    split
    · apply ih hl'
      rw [Span.join_base, Span.join_stop]
      constructor
      · rcases min_choice x.base r.base with h | h <;> rw [h]
        exacts [hn.1, hr.1]
      · rcases max_choice x.stop r.stop with h | h <;> rw [h]
        exacts [hn.2, hr.2]
    · exact ih hl' hn

theorem swallow_of_apart (h : ∀ r ∈ l, ¬ r.Meets x) : swallow l x = (l, x) := by
  induction l with
  | nil => rfl
  | cons r l ih =>
    rw [swallow_cons, if_neg (h r (by simp)), ih fun s hs => h s (by simp [hs])]

theorem swallow_cells : cells (swallow l x).1 ∪ (swallow l x).2.cells =
    cells l ∪ x.cells := by
  induction l generalizing x with
  | nil => rfl
  | cons r l ih =>
    rw [swallow_cons]
    split
    · next hm =>
      rw [ih]
      ext n
      have hj : n ∈ (x.join r).cells ↔ n ∈ x.cells ∨ n ∈ r.cells :=
        Span.mem_join ⟨hm.2, hm.1⟩
      simp only [cells_cons, Finset.mem_union, hj]
      tauto
    · rw [cells_cons, cells_cons, Finset.union_assoc, ih, Finset.union_assoc]

/-- None of the ranges left meets the widened one. -/
theorem swallow_apart (h : Spaced l) : ∀ r ∈ (swallow l x).1, ¬ r.Meets (swallow l x).2 := by
  induction l generalizing x with
  | nil => simp [swallow]
  | cons r l ih =>
    rw [swallow_cons]
    split
    · exact ih h.tail
    · next hm =>
      intro s hs
      rcases List.mem_cons.1 hs with rfl | hs
      · rw [Span.Meets] at hm
        by_cases hb : s.stop < x.base
        · -- What follows `s` begins above it, and so does the widened range.
          have hw := swallow_ends (P := fun n => s.stop < n) (Q := fun _ => True)
            (fun t ht => ⟨h.gap t ht, trivial⟩) (show _ ∧ _ from ⟨hb, trivial⟩)
          rw [Span.Meets]
          dsimp only
          omega
        · -- The new range ends below `s`, so it meets nothing that follows.
          rw [swallow_of_apart (l := l)]
          · exact hm
          · intro t ht hmt
            have := h.gap t ht
            have := h.head
            rw [Span.Meets] at hmt
            omega
      · exact ih h.tail s hs

theorem swallow_inhabited (hl : Spaced l) (hn : x.base < x.stop) :
    (swallow l x).2.base < (swallow l x).2.stop := by
  induction l generalizing x with
  | nil => exact hn
  | cons r l ih =>
    rw [swallow_cons]
    split
    · apply ih hl.tail
      have := hl.head
      rw [Span.join_base, Span.join_stop]
      omega
    · exact ih hl.tail hn

end Swallow

/-- The smallest range is one of the list. -/
theorem smallest_split {l : List Range} (h : l ≠ []) :
    ∃ l₁ s l₂, l = l₁ ++ s :: l₂ ∧ smallest l = (l₁.length, s.len) := by
  induction l with
  | nil => exact absurd rfl h
  | cons r l ih =>
    cases l with
    | nil => exact ⟨[], r, [], rfl, rfl⟩
    | cons r' l =>
      obtain ⟨l₁, s, l₂, he, hs⟩ := ih (by simp)
      rw [smallest, hs]
      dsimp only
      split
      · exact ⟨[], r, r' :: l, rfl, rfl⟩
      · exact ⟨r :: l₁, s, l₂, by rw [he, List.cons_append], rfl⟩

section Insert

variable {N : Nat} {l : List Range} {r : Range}

theorem swallow_table (h : Table N l) : Table N (swallow l r).1 :=
  ⟨h.spaced.sublist swallow_sublist, fun s hs => h.paged s (swallow_sublist.subset hs),
    swallow_sublist.length_le.trans h.room⟩

theorem swallow_paged (h : Table N l) (hr : Paged r) : Paged (swallow l r).2 := by
  have := swallow_ends (P := fun n => n % PAGE = 0) (Q := fun n => n % PAGE = 0 ∧ n ≤ U64_MAX)
    (fun s hs => ⟨(h.paged s hs).base, (h.paged s hs).stop, (h.paged s hs).top⟩)
    (show _ ∧ _ from ⟨hr.base, hr.stop, hr.top⟩)
  exact ⟨this.1, this.2.1, this.2.2⟩

/-- Putting a range that meets no other into a table with a slot to spare. -/
theorem Table.place (h : Table N l) (hr : Paged r) (hlt : r.base < r.stop)
    (hn : ∀ s ∈ l, ¬ s.Meets r) (hroom : l.length < N) : Table N (placeSpan l r) := by
  refine ⟨h.spaced.place hlt hn, fun s hs => ?_, by rw [length_placeSpan]; omega⟩
  rcases mem_placeSpan.1 hs with rfl | hs
  · exact hr
  · exact h.paged s hs

/-- Inserting keeps a table, and loses of it and the new range what it counts. -/
theorem inserted_spec (h : Table N l) (hr : Paged r) (hlt : r.base < r.stop) :
    Table N (inserted N l r).1 ∧
      Lossy (cells l ∪ r.cells) (cells (inserted N l r).1) (inserted N l r).2 := by
  have hkept := swallow_table (r := r) h
  have hnew := swallow_paged h hr
  have hapart := swallow_apart (x := r) h.spaced
  have hin := swallow_inhabited h.spaced hlt
  rw [← swallow_cells (l := l) (x := r), inserted, if_neg (by omega)]
  generalize swallow l r = w at hkept hnew hapart hin
  obtain ⟨kept, new⟩ := w
  dsimp only at hkept hnew hapart hin ⊢
  split
  · next hfull =>
    split
    · -- The table keeps what it has, and the new range is lost.
      refine ⟨hkept, .of_span Finset.subset_union_left ?_⟩
      rw [Finset.union_sdiff_left]
      exact Finset.sdiff_subset
    · next hN =>
      -- The smallest range makes room for the new one.
      have hne : kept ≠ [] := by
        rintro rfl
        simp at hfull
        omega
      obtain ⟨l₁, s, l₂, rfl, hs⟩ := smallest_split hne
      have hlen : (l₁ ++ s :: l₂).length = (l₁ ++ l₂).length + 1 := by simp; omega
      have herase : (l₁ ++ s :: l₂).eraseIdx l₁.length = l₁ ++ l₂ := by
        rw [List.eraseIdx_append_of_length_le le_rfl]
        simp
      have hsub : (l₁ ++ l₂).Sublist (l₁ ++ s :: l₂) :=
        (List.Sublist.refl l₁).append (List.sublist_cons_self s l₂)
      rw [hs]
      dsimp only
      rw [herase]
      constructor
      · apply Table.place _ hnew hin _ (by omega)
        · exact ⟨hkept.spaced.sublist hsub, fun t ht => hkept.paged t (hsub.subset ht), by omega⟩
        · exact fun t ht => hapart t (hsub.subset ht)
      · rw [cells_placeSpan]
        apply Lossy.of_span
        · rw [Finset.union_comm]
          exact Finset.union_subset_union_left (cells_subset fun t ht => hsub.subset ht)
        · intro x hx
          apply cells_erase l₁ l₂ s
          simp only [Finset.mem_sdiff, Finset.mem_union] at hx ⊢
          tauto
  · next hfull =>
    refine ⟨hkept.place hnew hin hapart (lt_of_le_of_ne hkept.room hfull), ?_⟩
    rw [cells_placeSpan, Finset.union_comm]
    exact .refl _

end Insert

/-! ## Removing -/

section Remove

variable {N lo hi before : Nat} {l : List Range} {r : Range}

/-- What removing `[lo, hi)` makes of one range. -/
structure Pieces (lo hi : Nat) (r : Range) (ps : List Range) (lost : Nat) : Prop where
  spaced : Spaced ps
  inside : ∀ s ∈ ps, r.base ≤ s.base ∧ s.stop ≤ r.stop
  paged : ∀ s ∈ ps, Paged s
  lossy : Lossy (r.cells \ Finset.Ico lo hi) (cells ps) lost

/-- One piece of the range, none, or both. -/
theorem Pieces.none (h : lo ≤ r.base ∧ r.stop ≤ hi) : Pieces lo hi r [] 0 := by
  refine ⟨.nil, by simp, by simp, ?_⟩
  have : r.cells \ Finset.Ico lo hi = ∅ := by
    ext x
    simp
    omega
  rw [this, cells_nil]
  exact .refl _

theorem Pieces.one {s : Range} {lost : Nat} (hs : s.base < s.stop)
    (hin : r.base ≤ s.base ∧ s.stop ≤ r.stop) (hp : Paged s)
    (h : Lossy (r.cells \ Finset.Ico lo hi) s.cells lost) : Pieces lo hi r [s] lost :=
  ⟨.cons hs (by simp) .nil, by simpa using hin, by simpa using hp, by simpa using h⟩

/-- What is removed of a table's first range, and where the rest goes on. -/
theorem removed_step (N before : Nat) (l : List Range) (hr : r.base < r.stop) (hp : Paged r)
    (hroom : before + (r :: l).length ≤ N) (hlo : lo % PAGE = 0) (hhi : hi % PAGE = 0)
    (hlt : lo < hi ∨ r.stop ≤ lo) :
    ∃ ps lost, removed N lo hi before (r :: l) =
        (ps ++ (removed N lo hi (before + ps.length) l).1,
          lost + (removed N lo hi (before + ps.length) l).2) ∧
      Pieces lo hi r ps lost ∧ before + ps.length + l.length ≤ N := by
  rw [List.length_cons] at hroom
  obtain ⟨hb, hs, ht⟩ := hp
  rw [removed]
  split
  · next hout =>
    refine ⟨[r], 0, by simp, .one hr ⟨le_rfl, le_rfl⟩ ⟨hb, hs, ht⟩ ?_, by simp; omega⟩
    have : r.cells \ Finset.Ico lo hi = r.cells := by
      ext x
      simp
      omega
    rw [this]
    exact .refl _
  · next hmeet =>
    have hmax : max lo r.base = lo ∨ max lo r.base = r.base := by omega
    have hmin : min hi r.stop = hi ∨ min hi r.stop = r.stop := by omega
    have hleft : Paged ⟨r.base, max lo r.base⟩ := by
      refine ⟨hb, ?_, ?_⟩ <;> dsimp only <;> rcases hmax with h | h <;> rw [h] <;> omega
    have hright : Paged ⟨min hi r.stop, r.stop⟩ := by
      refine ⟨?_, hs, ht⟩
      dsimp only
      rcases hmin with h | h <;> rw [h] <;> assumption
    dsimp only
    split
    · next he he' =>
      rw [Span.isEmpty_iff] at he he'
      exact ⟨[], 0, by simp, .none (by dsimp only at he he'; omega), by simp; omega⟩
    · next he he' =>
      rw [← Bool.not_eq_true, Span.isEmpty_iff] at he
      rw [Span.isEmpty_iff] at he'
      dsimp only at he he'
      refine ⟨[⟨r.base, max lo r.base⟩], 0, by simp,
        .one (by dsimp only; omega) (by dsimp only; omega) hleft ?_, by simp; omega⟩
      have : r.cells \ Finset.Ico lo hi = Span.cells ⟨r.base, max lo r.base⟩ := by
        ext x
        simp
        omega
      rw [this]
      exact .refl _
    · next he he' =>
      rw [Span.isEmpty_iff] at he
      rw [← Bool.not_eq_true, Span.isEmpty_iff] at he'
      dsimp only at he he'
      refine ⟨[⟨min hi r.stop, r.stop⟩], 0, by simp,
        .one (by dsimp only; omega) (by dsimp only; omega) hright ?_, by simp; omega⟩
      have : r.cells \ Finset.Ico lo hi = Span.cells ⟨min hi r.stop, r.stop⟩ := by
        ext x
        simp
        omega
      rw [this]
      exact .refl _
    · next he he' =>
      rw [← Bool.not_eq_true, Span.isEmpty_iff] at he he'
      dsimp only at he he'
      -- The removed part lies strictly inside, so there are two pieces.
      have hmax : max lo r.base = lo := by omega
      have hmin : min hi r.stop = hi := by omega
      rw [hmax] at he hleft ⊢
      rw [hmin] at he' hright ⊢
      have hboth : r.cells \ Finset.Ico lo hi =
          Span.cells ⟨r.base, lo⟩ ∪ Span.cells ⟨hi, r.stop⟩ := by
        ext x
        simp
        omega
      split
      · split
        · refine ⟨[⟨r.base, lo⟩], Span.len ⟨hi, r.stop⟩, by simp,
            .one (by dsimp only; omega) (by dsimp only; omega) hleft ?_, by simp; omega⟩
          rw [hboth]
          apply Lossy.of_span Finset.subset_union_left
          rw [Finset.union_sdiff_left]
          exact Finset.sdiff_subset
        · refine ⟨[⟨hi, r.stop⟩], Span.len ⟨r.base, lo⟩, by simp,
            .one (by dsimp only; omega) (by dsimp only; omega) hright ?_, by simp; omega⟩
          rw [hboth]
          apply Lossy.of_span Finset.subset_union_right
          rw [Finset.union_sdiff_right]
          exact Finset.sdiff_subset
      · next hfull =>
        refine ⟨[⟨r.base, lo⟩, ⟨hi, r.stop⟩], 0, by simp, ⟨?_, ?_, ?_, ?_⟩, by simp; omega⟩
        · refine .cons (by dsimp only; omega) ?_ (.cons (by dsimp only; omega) (by simp) .nil)
          simp
          omega
        · simp
          omega
        · simp [hleft, hright]
        · rw [hboth]
          simpa using Lossy.refl _

/-- Removing keeps a table's ranges, and loses of them what it counts. -/
theorem removed_pieces (h : Spaced l) (hp : ∀ r ∈ l, Paged r) (hroom : before + l.length ≤ N)
    (hlo : lo % PAGE = 0) (hhi : hi % PAGE = 0) (hlt : lo < hi ∨ ∀ r ∈ l, r.stop ≤ lo) :
    Spaced (removed N lo hi before l).1 ∧
      (∀ s ∈ (removed N lo hi before l).1, Paged s ∧ ∃ r ∈ l, r.base ≤ s.base) ∧
      before + (removed N lo hi before l).1.length ≤ N ∧
      Lossy (cells l \ Finset.Ico lo hi) (cells (removed N lo hi before l).1)
        (removed N lo hi before l).2 := by
  induction l generalizing before with
  | nil => exact ⟨.nil, by simp [removed], by simpa [removed] using hroom, by simpa using .refl _⟩
  | cons r l ih =>
    obtain ⟨ps, lost, he, hps, hroom'⟩ := removed_step N before l h.head (hp r (by simp)) hroom
      hlo hhi (hlt.imp_right fun hlt => hlt r (by simp))
    obtain ⟨hsp, hin, hlen, hloss⟩ := ih h.tail
      (fun s hs => hp s (by simp [hs])) hroom' (hlt.imp_right fun hlt s hs => hlt s (by simp [hs]))
    rw [he]
    dsimp only
    refine ⟨hps.spaced.append hsp fun s hs t ht => ?_, fun s hs => ?_, ?_, ?_⟩
    · obtain ⟨u, hu, hut⟩ := (hin t ht).2
      have := h.gap u hu
      have := (hps.inside s hs).2
      omega
    · rcases List.mem_append.1 hs with hs | hs
      · exact ⟨hps.paged s hs, r, by simp, (hps.inside s hs).1⟩
      · obtain ⟨hs', u, hu, hus⟩ := hin s hs
        exact ⟨hs', u, by simp [hu], hus⟩
    · rw [List.length_append]
      omega
    · rw [cells_append, cells_cons, Finset.union_sdiff_distrib]
      exact hps.lossy.union hloss

theorem removed_spec (h : Table N l) (hlo : r.base % PAGE = 0) (hhi : r.stop % PAGE = 0)
    (hlt : r.base < r.stop ∨ ∀ s ∈ l, s.stop ≤ r.base) :
    Table N (removed N r.base r.stop 0 l).1 ∧
      Lossy (cells l \ r.cells) (cells (removed N r.base r.stop 0 l).1)
        (removed N r.base r.stop 0 l).2 := by
  obtain ⟨hsp, hin, hlen, hloss⟩ :=
    removed_pieces h.spaced h.paged (show 0 + l.length ≤ N by rw [Nat.zero_add]; exact h.room)
      hlo hhi hlt
  exact ⟨⟨hsp, fun s hs => (hin s hs).1, by simpa using hlen⟩, hloss⟩

end Remove

end NanoChrono.Memory
