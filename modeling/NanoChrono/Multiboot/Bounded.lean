import NanoChrono.Multiboot.Tags

/-! # The walks are bounded

While no sum wraps, the six walks visit the same tags, one after the other (`tagsFrom`), and read inside them. The sums
cannot wrap in 64 bits; in 32 bits a tag of nearly 4 GiB passes the check of its size. -/

namespace NanoChrono.Multiboot

open Framebuffer

variable {w : Width} {i : Info}

/-! ## The tags -/

def kindAt (i : Info) (o : Nat) : Nat := littleEndian i.bytes o 4

def sizeAt (i : Info) (o : Nat) : Nat := littleEndian i.bytes (o + 4) 4

/-- The size of an entry, as the memory map at an offset has it. -/
def entrySizeAt (i : Info) (o : Nat) : Nat := littleEndian i.bytes (o + 8) 4

/-- The tags from an offset on, up to the end of the list, to the end of the structure or to one that is corrupt. -/
@[grind =] def tagsFrom (i : Info) : Nat → Nat → List Tag
  | 0, _ => []
  | rounds + 1, o =>
    if o + 8 ≤ i.total then
      if kindAt i o = TAG_END ∨ sizeAt i o < 8 ∨ o + sizeAt i o > i.total then []
      else ⟨o, kindAt i o, sizeAt i o⟩ :: tagsFrom i rounds (o + (sizeAt i o + 7) / 8 * 8)
    else []

/-- Where a tag starts, when all before it fit. -/
inductive Reached (i : Info) : Nat → Prop
  | first : Reached i 8
  | next {o : Nat} (h : Reached i o) (hsize : 8 ≤ sizeAt i o) (hfits : o + sizeAt i o ≤ i.total) :
      Reached i (o + (sizeAt i o + 7) / 8 * 8)

/-- No sum over a tag that is reached wraps: that of its offset and its size, and that of the first entry's offset and
size. -/
def NoWrap (w : Width) (i : Info) : Prop :=
  ∀ o, Reached i o → o + 8 ≤ i.total → kindAt i o ≠ TAG_END → 8 ≤ sizeAt i o →
    o + sizeAt i o < 2 ^ w.bits ∧ (kindAt i o = TAG_MEMORY_MAP → 16 ≤ sizeAt i o → o + sizeAt i o ≤ i.total →
      o + 16 + entrySizeAt i o < 2 ^ w.bits)

/-- A tag that fits the structure. -/
structure Fits (w : Width) (i : Info) (t : Tag) : Prop where
  first : 8 ≤ t.offset
  size : 8 ≤ t.size
  stop : t.offset + t.size ≤ i.total
  small : i.total < 0x100000
  entry : t.kind = TAG_MEMORY_MAP → 16 ≤ t.size → t.offset + 16 + entrySizeAt i t.offset < 2 ^ w.bits

/-! ## Sums and reads -/

theorem two_pow_bits (w : Width) : 2 ^ 32 ≤ 2 ^ w.bits := by
  cases w with
  | w32 => exact Nat.le_refl _
  | w64 => exact Nat.pow_le_pow_right (by decide) (by decide)

theorem add_eq {a b : Nat} (h : a + b < 2 ^ w.bits) : w.add a b = a + b := Nat.mod_eq_of_lt h

theorem Fits.add {t : Tag} (h : Fits w i t) {k : Nat} (hk : k ≤ t.size) : w.add t.offset k = t.offset + k := by
  have hbits := two_pow_bits w
  have hstop := h.stop
  have hsmall := h.small
  exact add_eq (by omega)

theorem read_eq {o k : Nat} (h : o + k ≤ i.total) : i.read o k = .ok (littleEndian i.bytes o k) := if_pos h

/-- A field of a tag can be read. -/
theorem Fits.read {t : Tag} (h : Fits w i t) {o k : Nat} (hk : o + k ≤ t.size) :
    i.read (w.add t.offset o) k = .ok (littleEndian i.bytes (t.offset + o) k) := by
  have hstop := h.stop
  rw [h.add (by omega)]
  exact read_eq (by omega)

theorem littleEndian_lt (bytes : Nat → UInt8) (o : Nat) : ∀ k, littleEndian bytes o k < 256 ^ k := by
  have hfold : ∀ (l : List Nat), l.foldr (fun j n => (bytes (o + j)).toNat + 256 * n) 0 < 256 ^ l.length := by
    intro l
    induction l with
    | nil => exact Nat.one_pos
    | cons j l ih =>
      have hbyte := (bytes (o + j)).toNat_lt
      rw [List.foldr_cons, List.length_cons, Nat.pow_succ]
      omega
  intro k
  have hlt := hfold (List.range k)
  rwa [List.length_range] at hlt

/-- With 64 bits no sum wraps. -/
theorem noWrap_w64 (h : i.total < 0x100000) : NoWrap .w64 i := by
  intro o hreached hin hkind hsize
  have hs : sizeAt i o < 256 ^ 4 := littleEndian_lt _ _ _
  have he : entrySizeAt i o < 256 ^ 4 := littleEndian_lt _ _ _
  have hbits : 2 ^ Width.w64.bits = 2 ^ 64 := rfl
  rw [hbits]
  refine ⟨by omega, fun _ _ _ => by omega⟩

theorem padded_eq {size : Nat} (h : 8 + size < 2 ^ w.bits) : w.padded size = (size + 7) / 8 * 8 := by
  refine Nat.mod_eq_of_lt ?_
  omega

theorem masked_eq {size : Nat} (h : 8 + size < 2 ^ w.bits) : w.masked size = (size + 7) / 8 * 8 := by
  unfold Width.masked
  rw [Nat.mod_eq_of_lt (by omega)]

/-! ## The walk -/

/-- What a walk comes to, when what is done at each tag is known. -/
@[grind =] def foldTags {α : Type} (f : Tag → α → α × Bool) : List Tag → α → α
  | [], a => a
  | t :: ts, a => if (f t a).2 then foldTags f ts (f t a).1 else (f t a).1

theorem Reached.first_le {o : Nat} (h : Reached i o) : 8 ≤ o := by
  induction h with
  | first => exact Nat.le_refl 8
  | next _ _ _ ih => omega

theorem Reached.le {o : Nat} (h : Reached i o) (hsmall : i.total < 0x100000) : o < 0x100000 + 8 := by
  induction h with
  | first => omega
  | next _ _ _ _ => omega

/-- The walk visits the tags, in order. -/
theorem walk_tags {α : Type} {pad : Nat → Nat} {visit : Tag → α → Except Fault (α × Bool)} {f : Tag → α → α × Bool}
    (hsmall : i.total < 0x100000) (hnowrap : NoWrap w i)
    (hpad : ∀ size, 8 + size < 2 ^ w.bits → pad size = (size + 7) / 8 * 8)
    (hvisit : ∀ t a, Fits w i t → visit t a = .ok (f t a)) :
    ∀ (rounds : Nat) {o : Nat} (a : α), Reached i o → i.total < o + 8 + 8 * rounds →
      walk w i pad visit (rounds + 1) o a = .ok (foldTags f (tagsFrom i (rounds + 1) o) a) := by
  have hbits := two_pow_bits w
  intro rounds
  induction rounds with
  | zero =>
    -- The last round finds the end of the structure.
    intro o a hreached hrounds
    have hout : ¬w.add o 8 ≤ i.total := by
      intro hle
      by_cases hsum : o + 8 < 2 ^ w.bits
      · rw [add_eq hsum] at hle
        omega
      · have := hreached.le hsmall
        omega
    rw [walk, if_neg hout, tagsFrom, if_neg (by omega)]
    rfl
  | succ rounds ih =>
    intro o a hreached hrounds
    have hle := hreached.le hsmall
    rw [walk, tagsFrom, add_eq (by omega)]
    by_cases hin : o + 8 ≤ i.total
    · rw [if_pos hin, if_pos hin, read_eq (by omega), add_eq (by omega), read_eq (by omega)]
      change (if kindAt i o = TAG_END ∨ sizeAt i o < 8 ∨ w.add o (sizeAt i o) > i.total then pure a
        else (visit ⟨o, kindAt i o, sizeAt i o⟩ a >>= fun r =>
          if r.2 then walk w i pad visit (rounds + 1) (w.add o (pad (sizeAt i o))) r.1 else pure r.1)) = _
      by_cases hend : kindAt i o = TAG_END
      · rw [if_pos (.inl hend), if_pos (.inl hend)]
        rfl
      by_cases hshort : sizeAt i o < 8
      · rw [if_pos (.inr (.inl hshort)), if_pos (.inr (.inl hshort))]
        rfl
      · have hsize := Nat.le_of_not_lt hshort
        obtain ⟨hsum, hentry⟩ := hnowrap o hreached hin hend hsize
        rw [add_eq hsum]
        by_cases hover : o + sizeAt i o > i.total
        · rw [if_pos (.inr (.inr hover)), if_pos (.inr (.inr hover))]
          rfl
        · have hgo : ¬(kindAt i o = TAG_END ∨ sizeAt i o < 8 ∨ o + sizeAt i o > i.total) := by
            rintro (h | h | h)
            · exact hend h
            · exact hshort h
            · exact hover h
          rw [if_neg hgo, if_neg hgo]
          have hfits : Fits w i ⟨o, kindAt i o, sizeAt i o⟩ :=
            ⟨hreached.first_le, hsize, Nat.le_of_not_lt hover, hsmall,
              fun hmap hlong => hentry hmap hlong (Nat.le_of_not_lt hover)⟩
          have hfirst := hreached.first_le
          have hnext := Reached.next hreached hsize (Nat.le_of_not_lt hover)
          rw [hvisit _ a hfits, hpad _ (by omega), add_eq (by omega), foldTags]
          change (if (f _ a).2 then _ else _) = _
          split
          · exact ih _ hnext (by omega)
          · rfl
    · rw [if_neg hin, if_neg hin]
      rfl

/-- The rounds that any structure of a sane size needs. -/
def ROUNDS : Nat := 0x100000

/-- The tags of the structure. -/
def tagsOf (i : Info) : List Tag :=
  if i.address = 0 ∨ i.address % 8 ≠ 0 then [] else if i.total < 16 ∨ 0x100000 ≤ i.total then [] else tagsFrom i ROUNDS 8

theorem withTags_tags {α : Type} {pad : Nat → Nat} {visit : Tag → α → Except Fault (α × Bool)} {f : Tag → α → α × Bool}
    (hnowrap : NoWrap w i) (hpad : ∀ size, 8 + size < 2 ^ w.bits → pad size = (size + 7) / 8 * 8)
    (hvisit : ∀ t a, Fits w i t → visit t a = .ok (f t a)) (a : α) :
    withTags w i pad visit ROUNDS a = .ok (foldTags f (tagsOf i) a) := by
  unfold withTags tagsOf
  split
  · rfl
  · split
    · rfl
    next hsane =>
      have hsmall : i.total < 0x100000 := Nat.lt_of_not_le fun h => hsane (.inr h)
      exact walk_tags hsmall hnowrap hpad hvisit 0xFFFFF a .first (by omega)

/-- A walk ends when what is done at each tag does. -/
theorem withTags_ends {α : Type} {pad : Nat → Nat} {visit : Tag → α → Except Fault (α × Bool)}
    (hnowrap : NoWrap w i) (hpad : ∀ size, 8 + size < 2 ^ w.bits → pad size = (size + 7) / 8 * 8)
    (hvisit : ∀ t a, Fits w i t → ∃ r, visit t a = .ok r) (a : α) :
    ∃ r, withTags w i pad visit ROUNDS a = .ok r := by
  choose! f hf using hvisit
  exact ⟨_, withTags_tags hnowrap hpad hf a⟩

/-! ## What is done at a tag -/

theorem framebufferTag_ends (t : Tag) (fb : Option Surface) (h : Fits w i t) : ∃ r, framebufferTag w i t fb = .ok r := by
  unfold framebufferTag
  split
  next hlong =>
    have hsize := hlong.2
    rw [h.read (by omega), h.read (by omega), h.read (by omega), h.read (by omega), h.read (by omega), h.read (by omega)]
    dsimp only [bind, Except.bind]
    split
    · exact ⟨_, rfl⟩
    · exact ⟨_, rfl⟩
  · exact ⟨_, rfl⟩

theorem stringBytes_ends (hsmall : i.total < 0x100000) : ∀ (max start : Nat), start + max ≤ i.total →
    ∃ bytes, stringBytes w i max start = .ok bytes
  | 0, start, _ => ⟨_, rfl⟩
  | max + 1, start, h => by
    have hbits := two_pow_bits w
    rw [stringBytes, read_eq (by omega), add_eq (by omega)]
    obtain ⟨rest, hrest⟩ := stringBytes_ends hsmall max (start + 1) (by omega)
    dsimp only [bind, Except.bind]
    split
    · exact ⟨_, rfl⟩
    · rw [hrest]
      exact ⟨_, rfl⟩

theorem cStr_ends {t : Tag} (h : Fits w i t) {k : Nat} (hk : k ≤ t.size) :
    ∃ s, cStr w i (w.add t.offset k) (t.size - k) = .ok s := by
  have hstop := h.stop
  rw [h.add hk]
  obtain ⟨bytes, hbytes⟩ := stringBytes_ends (w := w) h.small (min (t.size - k) COMMAND_LINE_MAX) (t.offset + k)
    (by omega)
  unfold cStr
  rw [hbytes]
  exact ⟨_, rfl⟩

theorem commandLineTag_ends (t : Tag) (line : Option String) (h : Fits w i t) :
    ∃ r, commandLineTag w i t line = .ok r := by
  unfold commandLineTag
  split
  · obtain ⟨s, hs⟩ := cStr_ends h h.size
    rw [hs]
    exact ⟨_, rfl⟩
  · exact ⟨_, rfl⟩

theorem moduleTag_ends (t : Tag) (found : List Module) (h : Fits w i t) : ∃ r, moduleTag w i t found = .ok r := by
  unfold moduleTag
  split
  next hlong =>
    have hsize := hlong.2
    obtain ⟨s, hs⟩ := cStr_ends h hsize
    rw [h.read (by omega), h.read (by omega), hs]
    exact ⟨_, rfl⟩
  · exact ⟨_, rfl⟩

theorem byteSum_ends (hsmall : i.total < 0x100000) (start : Nat) : ∀ count, start + count ≤ i.total →
    ∃ sum, byteSum w i start count = .ok sum
  | 0, _ => ⟨_, rfl⟩
  | count + 1, h => by
    have hbits := two_pow_bits w
    obtain ⟨sum, hsum⟩ := byteSum_ends hsmall start count (by omega)
    rw [byteSum, hsum, add_eq (by omega), read_eq (by omega)]
    exact ⟨_, rfl⟩

theorem parseRsdp_ends (hsmall : i.total < 0x100000) (start length : Nat) (h : start + length ≤ i.total) :
    ∃ r, parseRsdp w i start length = .ok r := by
  have hbits := two_pow_bits w
  unfold parseRsdp
  split
  · exact ⟨_, rfl⟩
  next hlong =>
    obtain ⟨sum, hsum⟩ := byteSum_ends (w := w) hsmall start 20 (by omega)
    rw [read_eq (by omega), hsum, add_eq (by omega), add_eq (by omega), read_eq (by omega), read_eq (by omega)]
    dsimp only [bind, Except.bind]
    split
    · exact ⟨_, rfl⟩
    · split
      · exact ⟨_, rfl⟩
      · split
        next hnew =>
          obtain ⟨sum, hsum⟩ := byteSum_ends (w := w) hsmall start 36 (by omega)
          rw [hsum, add_eq (by omega), read_eq (by omega)]
          dsimp only
          split
          · exact ⟨_, rfl⟩
          · exact ⟨_, rfl⟩
        · exact ⟨_, rfl⟩

theorem acpiTag_ends (t : Tag) (best : Option Rsdp) (h : Fits w i t) : ∃ r, acpiTag w i t best = .ok r := by
  have hstop := h.stop
  have hsize := h.size
  unfold acpiTag
  split
  · rw [h.add hsize]
    obtain ⟨r, hr⟩ := parseRsdp_ends (w := w) h.small (t.offset + 8) (t.size - 8) (by omega)
    rw [hr]
    dsimp only [bind, Except.bind]
    split
    · exact ⟨_, rfl⟩
    · exact ⟨_, rfl⟩
  · exact ⟨_, rfl⟩

/-! ## The entries of a memory map -/

/-- The entries of a map, from where one may start to where the tag stops: base, length and region. -/
@[grind =] def entriesFrom (i : Info) (entrySize stop : Nat) : Nat → Nat → List (Nat × Nat × Nat)
  | 0, _ => []
  | rounds + 1, start =>
    if start + entrySize ≤ stop then
      (littleEndian i.bytes start 8, littleEndian i.bytes (start + 8) 8, littleEndian i.bytes (start + 16) 4) ::
        entriesFrom i entrySize stop rounds (start + entrySize)
    else []

def entriesOf (i : Info) (t : Tag) : List (Nat × Nat × Nat) :=
  if entrySizeAt i t.offset ≥ 24 then
    entriesFrom i (entrySizeAt i t.offset) (t.offset + t.size) ROUNDS (t.offset + 16)
  else []

theorem entries_eq {α : Type} (visit : Nat → Nat → Nat → α → α) {entrySize stop : Nat} (hsmall : i.total < 0x100000)
    (hstop : stop ≤ i.total) (hlong : 24 ≤ entrySize) :
    ∀ (rounds : Nat) {start : Nat} (a : α), start + entrySize < 2 ^ w.bits → stop < start + 24 + 24 * rounds →
      entries w i visit entrySize stop (rounds + 1) start a =
        .ok ((entriesFrom i entrySize stop (rounds + 1) start).foldl (fun a e => visit e.1 e.2.1 e.2.2 a) a) := by
  have hbits := two_pow_bits w
  intro rounds
  induction rounds with
  | zero =>
    intro start a hsum hrounds
    rw [entries, entriesFrom, add_eq hsum, if_neg (by omega), if_neg (by omega)]
    rfl
  | succ rounds ih =>
    intro start a hsum hrounds
    rw [entries, entriesFrom, add_eq hsum]
    by_cases hin : start + entrySize ≤ stop
    · rw [if_pos hin, if_pos hin, read_eq (by omega), add_eq (by omega), add_eq (by omega), read_eq (by omega),
        read_eq (by omega)]
      exact ih _ (by omega) (by omega)
    · rw [if_neg hin, if_neg hin]
      rfl

theorem mapEntries_eq {α : Type} (visit : Nat → Nat → Nat → α → α) {t : Tag} (h : Fits w i t)
    (hmap : t.kind = TAG_MEMORY_MAP ∧ t.size ≥ 16) (a : α) :
    mapEntries w i visit ROUNDS t a = .ok ((entriesOf i t).foldl (fun a e => visit e.1 e.2.1 e.2.2 a) a) := by
  have hsize := hmap.2
  have hsum := h.entry hmap.1 hmap.2
  have hstop := h.stop
  have hsmall := h.small
  unfold mapEntries entriesOf
  rw [h.read (by omega), h.add hsize, h.add (Nat.le_refl _)]
  change (if entrySizeAt i t.offset ≥ 24 then _ else _) = _
  split
  next hlong => exact entries_eq visit hsmall hstop hlong 0xFFFFF a hsum (by omega)
  · rfl

/-! ## Memory -/

def Tag.IsMap (t : Tag) : Prop := t.kind = TAG_MEMORY_MAP ∧ t.size ≥ 16

instance (t : Tag) : Decidable t.IsMap := inferInstanceAs (Decidable (_ ∧ _))

/-- What the coarse tag says; nothing, where a tag is not one. -/
def basicOf (i : Info) (t : Tag) : Nat :=
  if t.kind = TAG_BASIC_MEMORY ∧ t.size ≥ 16 then
    (littleEndian i.bytes (t.offset + 8) 4 + littleEndian i.bytes (t.offset + 12) 4) * 1024
  else 0

/-- What a tag adds to the sum. -/
def memoryStep (i : Info) (t : Tag) (m : RamTotal) : RamTotal :=
  if t.IsMap then (entriesOf i t).foldl (fun m e => countRam e.1 e.2.1 e.2.2 m) m
  else if t.kind = TAG_BASIC_MEMORY ∧ t.size ≥ 16 ∧ m.total = 0 then ⟨basicOf i t, m.regions⟩
  else m

theorem memoryTag_eq (t : Tag) (m : RamTotal) (h : Fits w i t) :
    memoryTag w i ROUNDS t m = .ok (memoryStep i t m, true) := by
  unfold memoryTag memoryStep
  by_cases hmap : t.IsMap
  · have hboth : t.kind = TAG_MEMORY_MAP ∧ t.size ≥ 16 := hmap
    have hsize := hmap.2
    rw [if_pos hboth, if_pos hmap, h.read (by omega), mapEntries_eq countRam h hboth]
    rfl
  · have hnot : ¬(t.kind = TAG_MEMORY_MAP ∧ t.size ≥ 16) := hmap
    rw [if_neg hnot, if_neg hmap]
    split
    next hbasic =>
      have hsize := hbasic.2.1
      rw [h.read (by omega), h.read (by omega), basicOf, if_pos ⟨hbasic.1, hbasic.2.1⟩]
      rfl
    · rfl

/-- What a tag reports. -/
def usableStep (i : Info) (t : Tag) (found : List (Nat × Nat)) : List (Nat × Nat) × Bool :=
  if t.IsMap then ((entriesOf i t).foldl (fun f e => foundRam e.1 e.2.1 e.2.2 f) found, false) else (found, true)

theorem usableTag_eq (t : Tag) (found : List (Nat × Nat)) (h : Fits w i t) :
    usableTag w i ROUNDS t found = .ok (usableStep i t found) := by
  unfold usableTag usableStep
  by_cases hmap : t.IsMap
  · have hboth : t.kind = TAG_MEMORY_MAP ∧ t.size ≥ 16 := hmap
    rw [if_pos hboth, if_pos hmap, mapEntries_eq foundRam h hboth]
    rfl
  · have hnot : ¬(t.kind = TAG_MEMORY_MAP ∧ t.size ≥ 16) := hmap
    rw [if_neg hnot, if_neg hmap]
    rfl

theorem memory_eq (hnowrap : NoWrap w i) :
    memory w i ROUNDS = .ok ((tagsOf i).foldl (fun m t => memoryStep i t m) ⟨0, 0⟩) := by
  have hfold : ∀ (ts : List Tag) (m : RamTotal),
      foldTags (fun t m => (memoryStep i t m, true)) ts m = ts.foldl (fun m t => memoryStep i t m) m := by
    intro ts
    induction ts with
    | nil => exact fun m => rfl
    | cons t ts ih => exact fun m => ih _
  rw [← hfold]
  exact withTags_tags hnowrap (fun _ => padded_eq) memoryTag_eq _

theorem usableRam_eq (hnowrap : NoWrap w i) :
    usableRam w i ROUNDS = .ok (foldTags (usableStep i) (tagsOf i) []) :=
  withTags_tags hnowrap (fun _ => padded_eq) usableTag_eq _

end NanoChrono.Multiboot
