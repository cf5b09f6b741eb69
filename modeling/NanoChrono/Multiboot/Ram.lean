import NanoChrono.Multiboot.Bounded

/-! # The memory the loader described

The total is summed over every memory map, and a coarse figure takes its place wherever the sum is still zero; the
ranges of usable RAM are those of the first map alone. The two agree exactly if the coarse figure before the map is
zero, and so is all that comes after the map, unless the map alone reaches the largest sum. The loader in common use
puts the coarse figure before the map. -/

namespace NanoChrono.Multiboot

variable {w : Width} {i : Info}

/-! ## Sums -/

/-- The lengths of the RAM that a tag's map calls available. -/
def lengthsOf (i : Info) (t : Tag) : List Nat :=
  ((entriesOf i t).filter fun e => e.2.2 = MEMORY_AVAILABLE).map fun e => e.2.1

/-- A sum that stays at the largest number of 64 bits. -/
def saturating (l : List Nat) : Nat := l.foldl (fun s x => min (s + x) U64_MAX) 0

theorem foldl_saturating (l : List Nat) : ∀ {s : Nat}, s ≤ U64_MAX →
    l.foldl (fun s x => min (s + x) U64_MAX) s = min (s + l.sum) U64_MAX := by
  induction l with
  | nil =>
    intro s hs
    rw [List.foldl_nil, List.sum_nil, Nat.add_zero, Nat.min_eq_left hs]
  | cons x l ih =>
    intro s hs
    rw [List.foldl_cons, ih (Nat.min_le_right _ _), List.sum_cons]
    omega

theorem saturating_eq (l : List Nat) : saturating l = min l.sum U64_MAX := by
  rw [saturating, foldl_saturating l (Nat.zero_le _), Nat.zero_add]

/-- The entries of a map add the lengths of what is available. -/
theorem countRam_total (es : List (Nat × Nat × Nat)) : ∀ {m : RamTotal}, m.total ≤ U64_MAX →
    (es.foldl (fun m e => countRam e.1 e.2.1 e.2.2 m) m).total =
      min (m.total + ((es.filter fun e => e.2.2 = MEMORY_AVAILABLE).map fun e => e.2.1).sum) U64_MAX := by
  induction es with
  | nil =>
    intro m hm
    exact (Nat.min_eq_left hm).symm
  | cons e es ih =>
    intro m hm
    rw [List.foldl_cons]
    by_cases hram : e.2.2 = MEMORY_AVAILABLE
    · have hcount : (countRam e.1 e.2.1 e.2.2 m).total = min (m.total + e.2.1) U64_MAX := by rw [countRam, if_pos hram]
      rw [ih (by rw [hcount]; exact Nat.min_le_right _ _), hcount, List.filter_cons, if_pos (by simpa using hram),
        List.map_cons, List.sum_cons]
      omega
    · have hcount : countRam e.1 e.2.1 e.2.2 m = m := if_neg hram
      rw [hcount, ih hm, List.filter_cons, if_neg (by simpa using hram)]

/-- What is reported of a map has the same sum. -/
theorem foundRam_sum (es : List (Nat × Nat × Nat)) : ∀ (found : List (Nat × Nat)),
    ((es.foldl (fun f e => foundRam e.1 e.2.1 e.2.2 f) found).map Prod.snd).sum =
      (found.map Prod.snd).sum + ((es.filter fun e => e.2.2 = MEMORY_AVAILABLE).map fun e => e.2.1).sum := by
  induction es with
  | nil => exact fun found => (Nat.add_zero _).symm
  | cons e es ih =>
    intro found
    rw [List.foldl_cons, ih]
    by_cases hram : e.2.2 = MEMORY_AVAILABLE
    · rw [List.filter_cons, if_pos (by simpa using hram), List.map_cons, List.sum_cons]
      by_cases hlen : e.2.1 > 0
      · rw [foundRam, if_pos ⟨hram, hlen⟩, List.map_append, List.sum_append]
        simp only [List.map_cons, List.map_nil, List.sum_cons, List.sum_nil]
        omega
      · rw [foundRam, if_neg (fun h => hlen h.2)]
        omega
    · rw [foundRam, if_neg (fun h => hram h.1), List.filter_cons, if_neg (by simpa using hram)]

/-! ## One tag -/

/-- The total after a tag. -/
def totalStep (i : Info) (t : Tag) (total : Nat) : Nat :=
  if t.IsMap then min (total + (lengthsOf i t).sum) U64_MAX else if total = 0 then basicOf i t else total

theorem basicOf_le (t : Tag) : basicOf i t ≤ U64_MAX := by
  unfold basicOf
  split
  · have hlower := littleEndian_lt i.bytes (t.offset + 8) 4
    have hupper := littleEndian_lt i.bytes (t.offset + 12) 4
    have hmax : U64_MAX = 2 ^ 64 - 1 := rfl
    omega
  · exact Nat.zero_le _

theorem memoryStep_total {t : Tag} {m : RamTotal} (hm : m.total ≤ U64_MAX) :
    (memoryStep i t m).total = totalStep i t m.total := by
  unfold memoryStep totalStep
  split
  · exact countRam_total _ hm
  · by_cases hzero : m.total = 0
    · rw [if_pos hzero]
      split
      · rfl
      next hnot =>
        rw [basicOf, if_neg fun h => hnot ⟨h.1, h.2, hzero⟩]
        exact hzero
    · rw [if_neg hzero, if_neg fun h => hzero h.2.2]

theorem totalStep_le (t : Tag) {total : Nat} (h : total ≤ U64_MAX) : totalStep i t total ≤ U64_MAX := by
  unfold totalStep
  split
  · exact Nat.min_le_right _ _
  · split
    · exact basicOf_le t
    · exact h

/-- A total never becomes smaller. -/
theorem le_totalStep (t : Tag) {total : Nat} (h : total ≤ U64_MAX) : total ≤ totalStep i t total := by
  unfold totalStep
  split
  · omega
  · split
    · omega
    · exact Nat.le_refl _

def totalOf (i : Info) (ts : List Tag) (total : Nat) : Nat := ts.foldl (fun n t => totalStep i t n) total

theorem totalOf_bounds (ts : List Tag) : ∀ {total : Nat}, total ≤ U64_MAX →
    total ≤ totalOf i ts total ∧ totalOf i ts total ≤ U64_MAX := by
  induction ts with
  | nil => exact fun h => ⟨Nat.le_refl _, h⟩
  | cons t ts ih =>
    intro total h
    obtain ⟨hle, hmax⟩ := ih (totalStep_le (i := i) t h)
    exact ⟨(le_totalStep t h).trans hle, hmax⟩

theorem memory_total (ts : List Tag) : ∀ {m : RamTotal}, m.total ≤ U64_MAX →
    (ts.foldl (fun m t => memoryStep i t m) m).total = totalOf i ts m.total := by
  induction ts with
  | nil => exact fun _ => rfl
  | cons t ts ih =>
    intro m hm
    have hstep := memoryStep_total (i := i) (t := t) hm
    rw [List.foldl_cons, ih (hstep ▸ totalStep_le t hm), hstep]
    rfl

/-! ## The tags before and after the first map -/

theorem totalOf_append (pre post : List Tag) (total : Nat) :
    totalOf i (pre ++ post) total = totalOf i post (totalOf i pre total) := List.foldl_append ..

/-- Without a map the total stays zero exactly if every coarse figure is zero. -/
theorem totalOf_pre {pre : List Tag} (hpre : ∀ q ∈ pre, ¬q.IsMap) :
    totalOf i pre 0 = 0 ↔ ∀ q ∈ pre, basicOf i q = 0 := by
  induction pre with
  | nil => exact ⟨fun _ q hq => (by cases hq), fun _ => rfl⟩
  | cons t pre ih =>
    have hstep : totalStep i t 0 = basicOf i t := by
      rw [totalStep, if_neg (hpre t List.mem_cons_self), if_pos rfl]
    have hrest := ih fun q hq => hpre q (List.mem_cons_of_mem _ hq)
    have hfold : totalOf i (t :: pre) 0 = totalOf i pre (basicOf i t) := by
      rw [← hstep]
      rfl
    rw [hfold, List.forall_mem_cons]
    constructor
    · intro h
      have hle : basicOf i t ≤ totalOf i pre (basicOf i t) := (totalOf_bounds pre (basicOf_le t)).1
      have hzero : basicOf i t = 0 := by omega
      rw [hzero] at h
      exact ⟨hzero, hrest.mp h⟩
    · rintro ⟨hzero, hall⟩
      rw [hzero]
      exact hrest.mpr hall

/-- A tag that adds nothing to a total. -/
def Quiet (i : Info) (total : Nat) (t : Tag) : Prop :=
  if t.IsMap then (lengthsOf i t).sum = 0 else total = 0 → basicOf i t = 0

theorem quiet_iff {t : Tag} {total : Nat} (h : total < U64_MAX) : totalStep i t total = total ↔ Quiet i total t := by
  unfold totalStep Quiet
  split
  · omega
  · split
    next hzero => exact ⟨fun heq _ => heq.trans hzero, fun hq => (hq hzero).trans hzero.symm⟩
    next hne => exact ⟨fun _ hzero => absurd hzero hne, fun _ => rfl⟩

/-- A total stays as it is exactly if every tag adds nothing. -/
theorem totalOf_post {total : Nat} (h : total < U64_MAX) (post : List Tag) :
    totalOf i post total = total ↔ ∀ q ∈ post, Quiet i total q := by
  induction post with
  | nil => exact ⟨fun _ q hq => (by cases hq), fun _ => rfl⟩
  | cons t post ih =>
    have hfold : totalOf i (t :: post) total = totalOf i post (totalStep i t total) := rfl
    rw [hfold, List.forall_mem_cons, ← quiet_iff h]
    constructor
    · intro heq
      have hle : totalStep i t total ≤ totalOf i post (totalStep i t total) :=
        (totalOf_bounds post (totalStep_le t (Nat.le_of_lt h))).1
      have hstep : totalStep i t total = total := Nat.le_antisymm (hle.trans (Nat.le_of_eq heq)) (le_totalStep t (Nat.le_of_lt h))
      rw [hstep] at heq
      exact ⟨hstep, ih.mp heq⟩
    · rintro ⟨hstep, hall⟩
      rw [hstep]
      exact ih.mpr hall

/-- The sum over all tags is the one of the first map. -/
theorem totalOf_map {pre post : List Tag} {t : Tag} (hpre : ∀ q ∈ pre, ¬q.IsMap) (hmap : t.IsMap) :
    totalOf i (pre ++ t :: post) 0 = saturating (lengthsOf i t) ↔
      saturating (lengthsOf i t) = U64_MAX ∨
        (∀ q ∈ pre, basicOf i q = 0) ∧ ∀ q ∈ post, Quiet i (saturating (lengthsOf i t)) q := by
  obtain ⟨-, hmax⟩ := totalOf_bounds (i := i) pre (Nat.zero_le U64_MAX)
  have hstep : totalStep i t (totalOf i pre 0) = min (totalOf i pre 0 + (lengthsOf i t).sum) U64_MAX := if_pos hmap
  have hfold : totalOf i (pre ++ t :: post) 0 =
      totalOf i post (min (totalOf i pre 0 + (lengthsOf i t).sum) U64_MAX) := by
    rw [totalOf_append, ← hstep]
    rfl
  obtain ⟨hle, htop⟩ := totalOf_bounds (i := i) post (Nat.min_le_right (totalOf i pre 0 + (lengthsOf i t).sum) U64_MAX)
  have hsum := saturating_eq (lengthsOf i t)
  rw [hfold, ← totalOf_pre hpre]
  by_cases hfull : saturating (lengthsOf i t) = U64_MAX
  · -- Where the map alone reaches the largest sum, nothing can be added.
    refine iff_of_true ?_ (.inl hfull)
    omega
  · constructor
    · intro heq
      have hzero : totalOf i pre 0 = 0 := by omega
      refine .inr ⟨hzero, ?_⟩
      rw [hzero, Nat.zero_add, ← hsum] at heq
      exact (totalOf_post (by omega) post).mp heq
    · rintro (h | ⟨hzero, hquiet⟩)
      · exact absurd h hfull
      · rw [hzero, Nat.zero_add, ← hsum]
        exact (totalOf_post (by omega) post).mpr hquiet

/-! ## Usable RAM -/

/-- What is reported is what the first map has. -/
theorem usable_map {pre post : List Tag} {t : Tag} (hpre : ∀ q ∈ pre, ¬q.IsMap) (hmap : t.IsMap) :
    foldTags (usableStep i) (pre ++ t :: post) [] =
      (entriesOf i t).foldl (fun f e => foundRam e.1 e.2.1 e.2.2 f) [] := by
  induction pre with
  | nil =>
    rw [List.nil_append, foldTags, usableStep, if_pos hmap]
    rfl
  | cons q pre ih =>
    rw [List.cons_append, foldTags, usableStep, if_neg (hpre q List.mem_cons_self)]
    exact ih fun x hx => hpre x (List.mem_cons_of_mem _ hx)

theorem usable_saturating {t : Tag} :
    saturating (((entriesOf i t).foldl (fun f e => foundRam e.1 e.2.1 e.2.2 f) []).map Prod.snd) =
      saturating (lengthsOf i t) := by
  rw [saturating_eq, saturating_eq, foundRam_sum, List.map_nil, List.sum_nil, Nat.zero_add]
  rfl

/-- A list with an element that has a property has a first one. -/
theorem exists_first {p : Tag → Prop} [DecidablePred p] : ∀ {ts : List Tag}, (∃ t ∈ ts, p t) →
    ∃ pre t post, ts = pre ++ t :: post ∧ (∀ q ∈ pre, ¬p q) ∧ p t
  | [], h => by
    obtain ⟨t, ht, -⟩ := h
    cases ht
  | t :: ts, h => by
    by_cases ht : p t
    · exact ⟨[], t, ts, rfl, fun q hq => (by cases hq), ht⟩
    · obtain ⟨x, hx, hpx⟩ := h
      have hrest : ∃ x ∈ ts, p x := by
        rcases List.mem_cons.mp hx with rfl | hmem
        · exact absurd hpx ht
        · exact ⟨x, hmem, hpx⟩
      obtain ⟨pre, y, post, rfl, hpre, hy⟩ := exists_first hrest
      refine ⟨t :: pre, y, post, rfl, fun q hq => ?_, hy⟩
      rcases List.mem_cons.mp hq with rfl | hmem
      · exact ht
      · exact hpre q hmem

/-! ## Rounds -/

/-- What a function comes to, after some number of rounds. -/
def Returns {α : Type} (f : Nat → Except Fault α) (r : α) : Prop := ∃ rounds, f rounds = .ok r

/-- More rounds change nothing. -/
def Steady {α : Type} (f : Nat → Except Fault α) : Prop := ∀ n r, f n = .ok r → f (n + 1) = .ok r

theorem Steady.returns_unique {α : Type} {f : Nat → Except Fault α} (h : Steady f) {r r' : α} (hr : Returns f r)
    (hr' : Returns f r') : r = r' := by
  have hmore : ∀ k {n : Nat} {r : α}, f n = .ok r → f (n + k) = .ok r := by
    intro k
    induction k with
    | zero => exact fun h => h
    | succ k ih => exact fun hn => h _ _ (ih hn)
  obtain ⟨n, hn⟩ := hr
  obtain ⟨m, hm⟩ := hr'
  have h1 := hmore m hn
  have h2 := hmore n hm
  rw [Nat.add_comm m n] at h2
  exact Except.ok.inj (h1.symm.trans h2)

theorem Returns.of_toOption {α : Type} {f : Nat → Except Fault α} {r : α} (n : Nat)
    (h : (f n).toOption = some r) : Returns f r := by
  refine ⟨n, ?_⟩
  cases hf : f n with
  | error e =>
    rw [hf] at h
    cases h
  | ok a =>
    rw [hf] at h
    exact congrArg _ (Option.some.inj h)

theorem bind_ok {α β : Type} {x : Except Fault α} {f : α → Except Fault β} {r : β} :
    (x >>= f) = .ok r ↔ ∃ a, x = .ok a ∧ f a = .ok r := by
  cases x with
  | error e => exact ⟨fun h => (by cases h), fun ⟨a, h, _⟩ => (by cases h)⟩
  | ok a => exact ⟨fun h => ⟨a, rfl, h⟩, fun ⟨b, hb, h⟩ => Except.ok.inj hb ▸ h⟩

theorem entries_steady {α : Type} (visit : Nat → Nat → Nat → α → α) (entrySize stop : Nat) : ∀ (n start : Nat) (a r : α),
    entries w i visit entrySize stop n start a = .ok r → entries w i visit entrySize stop (n + 1) start a = .ok r
  | 0, start, a, r, h => by cases h
  | n + 1, start, a, r, h => by
    rw [entries] at h ⊢
    split at h
    next hin =>
      rw [if_pos hin]
      obtain ⟨base, hbase, h⟩ := bind_ok.mp h
      obtain ⟨length, hlength, h⟩ := bind_ok.mp h
      obtain ⟨region, hregion, h⟩ := bind_ok.mp h
      exact bind_ok.mpr ⟨base, hbase, bind_ok.mpr ⟨length, hlength, bind_ok.mpr ⟨region, hregion,
        entries_steady visit entrySize stop n _ _ r h⟩⟩⟩
    next hin =>
      rw [if_neg hin]
      exact h

theorem mapEntries_steady {α : Type} (visit : Nat → Nat → Nat → α → α) (t : Tag) (a : α) :
    Steady fun n => mapEntries w i visit n t a := by
  intro n r h
  obtain ⟨entrySize, hsize, h⟩ := bind_ok.mp h
  refine bind_ok.mpr ⟨entrySize, hsize, ?_⟩
  split at h
  next hlong =>
    rw [if_pos hlong]
    exact entries_steady visit entrySize _ n _ a r h
  next hshort =>
    rw [if_neg hshort]
    exact h

theorem walk_steady {α : Type} {pad : Nat → Nat} {visit : Nat → Tag → α → Except Fault (α × Bool)}
    (hvisit : ∀ t a, Steady fun n => visit n t a) (k : Nat) : ∀ (n o : Nat) (a r : α),
      walk w i pad (visit k) n o a = .ok r → walk w i pad (visit (k + 1)) (n + 1) o a = .ok r
  | 0, o, a, r, h => by cases h
  | n + 1, o, a, r, h => by
    rw [walk] at h ⊢
    split at h
    next hin =>
      rw [if_pos hin]
      obtain ⟨kind, hkind, h⟩ := bind_ok.mp h
      obtain ⟨size, hsize, h⟩ := bind_ok.mp h
      refine bind_ok.mpr ⟨kind, hkind, bind_ok.mpr ⟨size, hsize, ?_⟩⟩
      split at h
      next hstop =>
        rw [if_pos hstop]
        exact h
      next hgo =>
        rw [if_neg hgo]
        obtain ⟨⟨b, more⟩, hb, h⟩ := bind_ok.mp h
        refine bind_ok.mpr ⟨⟨b, more⟩, hvisit _ _ k _ hb, ?_⟩
        cases more with
        | false => exact h
        | true => exact walk_steady hvisit k n _ b r h
    next hin =>
      rw [if_neg hin]
      exact h

theorem withTags_steady {α : Type} {pad : Nat → Nat} {visit : Nat → Tag → α → Except Fault (α × Bool)}
    (hvisit : ∀ t a, Steady fun n => visit n t a) (a : α) : Steady fun n => withTags w i pad (visit n) n a := by
  intro n r h
  dsimp only at h ⊢
  unfold withTags at h ⊢
  split at h
  next hbad =>
    rw [if_pos hbad]
    exact h
  next hgood =>
    rw [if_neg hgood]
    split at h
    next hinsane =>
      rw [if_pos hinsane]
      exact h
    next hsane =>
      rw [if_neg hsane]
      exact walk_steady hvisit n n 8 a r h

theorem memory_steady : Steady (memory w i) := by
  refine withTags_steady (fun t m n r h => ?_) _
  dsimp only [memoryTag] at h ⊢
  split at h
  next hmap =>
    rw [if_pos hmap]
    obtain ⟨version, hversion, h⟩ := bind_ok.mp h
    obtain ⟨b, hb, h⟩ := bind_ok.mp h
    exact bind_ok.mpr ⟨version, hversion, bind_ok.mpr ⟨b, mapEntries_steady countRam t m n b hb, h⟩⟩
  next hmap =>
    rw [if_neg hmap]
    exact h

theorem usableRam_steady : Steady (usableRam w i) := by
  refine withTags_steady (fun t found n r h => ?_) _
  dsimp only [usableTag] at h ⊢
  split at h
  next hmap =>
    rw [if_pos hmap]
    obtain ⟨b, hb, h⟩ := bind_ok.mp h
    exact bind_ok.mpr ⟨b, mapEntries_steady foundRam t found n b hb, h⟩
  next hmap =>
    rw [if_neg hmap]
    exact h

/-! ## The six walks -/

/-- A memory map is present. -/
def MapPresent (i : Info) : Prop := ∃ t ∈ tagsOf i, t.IsMap

/-- The six walks end and read inside the structure, and the total is the sum of what is reported. -/
structure Sound (w : Width) (i : Info) : Prop where
  framebuffer : ∃ r, Returns (framebuffer w i) r
  memory : ∃ r, Returns (memory w i) r
  usableRam : ∃ r, Returns (usableRam w i) r
  commandLine : ∃ r, Returns (commandLine w i) r
  modules : ∃ r, Returns (modules w i) r
  acpiRsdp : ∃ r, Returns (acpiRsdp w i) r
  agree : MapPresent i → ∀ m found, Returns (Multiboot.memory w i) m → Returns (Multiboot.usableRam w i) found →
    m.total = saturating (found.map Prod.snd)

/-- The first memory map alone decides the total: no coarse figure comes before it, and nothing that adds to it comes
after it, unless it reaches the largest sum by itself. -/
def MapAlone (i : Info) : Prop :=
  ∀ pre t post, tagsOf i = pre ++ t :: post → (∀ q ∈ pre, ¬q.IsMap) → t.IsMap →
    saturating (lengthsOf i t) = U64_MAX ∨
      (∀ q ∈ pre, basicOf i q = 0) ∧ ∀ q ∈ post, Quiet i (saturating (lengthsOf i t)) q

/-- While no sum wraps the walks are sound exactly if the first memory map alone decides the total. -/
theorem sound_iff_mapAlone (hnowrap : NoWrap w i) : Sound w i ↔ MapAlone i := by
  have hmemory := memory_eq hnowrap
  have husable := usableRam_eq hnowrap
  have htotal := @memory_total i (tagsOf i) ⟨0, 0⟩ (Nat.zero_le _)
  constructor
  · intro h pre t post htags hpre hmap
    have hpresent : MapPresent i := ⟨t, htags ▸ List.mem_append_right _ List.mem_cons_self, hmap⟩
    have hagree := h.agree hpresent _ _ ⟨ROUNDS, hmemory⟩ ⟨ROUNDS, husable⟩
    rw [htotal, htags, usable_map hpre hmap, usable_saturating] at hagree
    exact (totalOf_map hpre hmap).mp hagree
  · intro h
    refine ⟨?_, ⟨_, ROUNDS, hmemory⟩, ⟨_, ROUNDS, husable⟩, ?_, ?_, ?_, ?_⟩
    · obtain ⟨r, hr⟩ := withTags_ends hnowrap (fun _ => padded_eq) framebufferTag_ends none
      exact ⟨r, ROUNDS, hr⟩
    · obtain ⟨r, hr⟩ := withTags_ends hnowrap (fun _ => masked_eq) commandLineTag_ends none
      exact ⟨r, ROUNDS, hr⟩
    · obtain ⟨r, hr⟩ := withTags_ends hnowrap (fun _ => masked_eq) moduleTag_ends []
      exact ⟨r, ROUNDS, hr⟩
    · obtain ⟨r, hr⟩ := withTags_ends hnowrap (fun _ => padded_eq) acpiTag_ends none
      exact ⟨r, ROUNDS, hr⟩
    · intro hpresent m found hm hfound
      obtain rfl := memory_steady.returns_unique ⟨ROUNDS, hmemory⟩ hm
      obtain rfl := usableRam_steady.returns_unique ⟨ROUNDS, husable⟩ hfound
      obtain ⟨pre, t, post, htags, hpre, hmap⟩ := exists_first hpresent
      rw [htotal, htags, usable_map hpre hmap, usable_saturating]
      exact (totalOf_map hpre hmap).mpr (h pre t post htags hpre hmap)

/-! ## The usual order -/

/-- A coarse figure of 1663 KiB, and then a map with one range of 1 MiB. -/
def coarseFirst : Info where
  address := 0x10000
  bytes k := [72, 0, 0, 0, 0, 0, 0, 0,
    4, 0, 0, 0, 16, 0, 0, 0, 127, 2, 0, 0, 0, 4, 0, 0,
    6, 0, 0, 0, 40, 0, 0, 0, 24, 0, 0, 0, 0, 0, 0, 0,
    0, 0, 16, 0, 0, 0, 0, 0, 0, 0, 16, 0, 0, 0, 0, 0, 1, 0, 0, 0, 0, 0, 0, 0,
    0, 0, 0, 0, 8, 0, 0, 0].getD k 0

/-- The total is that of both, with either width of addresses. -/
theorem coarse_counted : ¬Sound .w32 coarseFirst ∧ ¬Sound .w64 coarseFirst := by
  have hpresent : MapPresent coarseFirst := ⟨⟨24, 6, 40⟩, by decide, by decide⟩
  constructor
  · intro h
    have hagree := h.agree hpresent ⟨2751488, 1⟩ [(0x100000, 0x100000)] (.of_toOption 8 (by decide +kernel))
      (.of_toOption 8 (by decide))
    exact absurd hagree (by decide)
  · intro h
    have hagree := h.agree hpresent ⟨2751488, 1⟩ [(0x100000, 0x100000)] (.of_toOption 8 (by decide +kernel))
      (.of_toOption 8 (by decide))
    exact absurd hagree (by decide)

/-- With 64 bits only the order decides. -/
theorem coarse_order : Sound .w64 coarseFirst ↔ MapAlone coarseFirst :=
  sound_iff_mapAlone (noWrap_w64 (by decide))

end NanoChrono.Multiboot
