import NanoChrono.Acpi.Tables

/-! # What a reader of tables may do

It may read inside the identity map, of a table its header or, once its checksum is verified, what it declares, and use a
table only where the firmware said it lies (`Firmware.Allowed`). The root table, its entries and the tables they name are
so read, given that the addresses followed fit a pointer. -/

namespace NanoChrono.Acpi

open Buffer Logs Logged Multiboot

namespace Firmware

variable (fw : Firmware)

/-! ## What is allowed -/

/-- A table whose declared length lies inside the map and sums to zero. -/
structure Verified (base : ℕ) : Prop where
  header : 36 ≤ fw.word base 4
  mapped : fw.mapped base (fw.word base 4)
  sums : fw.sums base (fw.word base 4)

/-- What a reader may do. -/
def Allowed : Event → Prop
  | .read base offset =>
    base + offset < fw.MAPPED_LIMIT ∧ (offset < 36 ∨ fw.Verified base ∧ offset < fw.word base 4)
  -- The sum itself is over what the table declares.
  | .check base offset => base + offset < fw.MAPPED_LIMIT ∧ (offset < 36 ∨ offset < fw.word base 4)
  | .follow given used => used = given
  | .offer base length => fw.Verified base ∧ length = fw.word base 4

variable {fw} {base offset n length : ℕ}

theorem limit_low : 0x00200000 ≤ fw.MAPPED_LIMIT := by
  unfold MAPPED_LIMIT
  cases fw.w <;> norm_num [Nat.shiftLeft_eq]

theorem mapped_iff : fw.mapped base length = true ↔ base ≠ 0 ∧ base < fw.MAPPED_LIMIT ∧ base + length ≤ fw.MAPPED_LIMIT := by
  simp only [mapped, Bool.and_eq_true, decide_eq_true_iff]
  omega

/-- An address that fits a pointer is cast to itself. -/
theorem usize_eq (h : base < 2 ^ fw.w.bits) : fw.usize base = base := Nat.mod_eq_of_lt h

theorem usize_lt (base : ℕ) : fw.usize base < 2 ^ fw.w.bits := Nat.mod_lt _ (by positivity)

/-- Reading the header of a table that is mapped. -/
theorem allowed_header (h : fw.mapped base 36) (hoffset : offset < 36) : fw.Allowed (.read base offset) := by
  obtain ⟨-, -, hle⟩ := mapped_iff.mp h
  exact ⟨by omega, .inl hoffset⟩

/-- Reading a verified table. -/
theorem Verified.allowed (h : fw.Verified base) (hoffset : offset < fw.word base 4) : fw.Allowed (.read base offset) := by
  obtain ⟨-, -, hle⟩ := mapped_iff.mp h.mapped
  exact ⟨by omega, .inr ⟨h, hoffset⟩⟩

/-! ## The primitive readers -/

theorem all_read_u8 : All fw.Allowed (fw.read_u8 base offset) ↔ fw.Allowed (.read base offset) := by
  simp [read_u8]

theorem all_read_bytes :
    All fw.Allowed (fw.read_bytes base offset n) ↔ ∀ k < n, fw.Allowed (.read base (offset + k)) := by
  simp [read_bytes]

theorem all_read_u32 : All fw.Allowed (fw.read_u32 base offset) ↔ ∀ k < 4, fw.Allowed (.read base (offset + k)) := by
  simp [read_u32]

theorem all_read_wide : All fw.Allowed (fw.read_wide base offset) ↔ ∀ k < 8, fw.Allowed (.read base (offset + k)) := by
  unfold read_wide
  simp only [all_bind, all_read_u32, all_pure, and_true]
  constructor
  · rintro ⟨hlow, hhigh⟩ k hk
    rcases Nat.lt_or_ge k 4 with h | h
    · exact hlow k h
    · have := hhigh (k - 4) (by omega)
      rwa [show offset + 4 + (k - 4) = offset + k by omega] at this
  · intro h
    exact ⟨fun k hk => h k (by omega), fun k hk => by rw [Nat.add_assoc]; exact h (4 + k) (by omega)⟩

/-- A sum is over a header, or over what its table declares. -/
theorem all_checksum_ok (h : length ≤ 36 ∨ length = fw.word base 4) : All fw.Allowed (fw.checksum_ok base length) := by
  unfold checksum_ok
  split_ifs with hskip
  · exact all_pure _
  · rw [all_noted]
    intro e he
    obtain ⟨i, hi, rfl⟩ := List.mem_map.mp he
    rw [List.mem_range] at hi
    have hmapped : fw.mapped base length = true := by
      by_contra hnot
      simp [hnot] at hskip
    obtain ⟨-, -, hle⟩ := mapped_iff.mp hmapped
    exact ⟨by omega, by omega⟩

/-- What a sum that is zero says. -/
theorem checksum_ok_value (h : (fw.checksum_ok base length).value = true) :
    fw.mapped base length ∧ fw.sums base length := by
  unfold checksum_ok at h
  split_ifs at h with hskip
  have hmapped : fw.mapped base length = true := by
    by_contra hnot
    simp [hnot] at hskip
  exact ⟨hmapped, h⟩

/-! ## The root table -/

/-- A root table that can be reached. -/
structure Reached (fw : Firmware) (root : Root) : Prop where
  mapped : fw.mapped root.address 36
  entry_bytes : root.entry_bytes = 4 ∨ root.entry_bytes = 8
  address : root.address = fw.usize root.given

/-- A search for the root table: what it finds can be reached and has been followed, and it does what is allowed if the
address that was given for it fits a pointer. -/
structure Sure (fw : Firmware) (x : Logged Event (Option Root)) : Prop where
  reached : ∀ root, x.value = some root → fw.Reached root
  followed : ∀ root, x.value = some root → .follow root.given root.address ∈ x.log
  allowed : (∀ root, x.value = some root → root.given < 2 ^ fw.w.bits) → All fw.Allowed x

theorem sure_none : fw.Sure (pure none) := ⟨by simp, by simp, fun _ => all_pure _⟩

/-- Reading before it does not change what is found. -/
theorem Sure.bind {α : Type} {x : Logged Event α} {f : α → Logged Event (Option Root)} (hx : All fw.Allowed x)
    (hf : fw.Sure (f x.value)) : fw.Sure (x >>= f) where
  reached := hf.reached
  followed root h := List.mem_append_right _ (hf.followed root h)
  allowed h := hx.bind (hf.allowed h)

theorem Sure.ite {c : Prop} [Decidable c] {x y : Logged Event (Option Root)} (hx : c → fw.Sure x)
    (hy : ¬ c → fw.Sure y) : fw.Sure (if c then x else y) := by
  split_ifs with hc
  · exact hx hc
  · exact hy hc

/-- The first of two searches. -/
theorem Sure.first {x y : Logged Event (Option Root)} (hx : fw.Sure x) (hy : fw.Sure y) : fw.Sure (.first x y) := by
  cases hvalue : x.value with
  | some root =>
    rw [first_of_some hvalue]
    exact ⟨fun r h => hx.reached r (hvalue.trans h), fun r h => hx.followed r (hvalue.trans h),
      fun h => hx.allowed fun r hr => h r (hvalue.symm.trans hr)⟩
  | none =>
    rw [first_of_none hvalue]
    refine ⟨hy.reached, fun r h => List.mem_append_right _ (hy.followed r h), fun h e he => ?_⟩
    rcases List.mem_append.mp he with he | he
    · exact hx.allowed (fun r hr => absurd (hvalue.symm.trans hr) (by simp)) e he
    · exact hy.allowed h e he

theorem sure_root_at (given : ℕ) {n : ℕ} (hn : n = 4 ∨ n = 8) : fw.Sure (fw.root_at given n) := by
  unfold root_at
  split_ifs with hroot
  · refine ⟨?_, ?_, ?_⟩
    · rintro root ⟨⟩
      exact ⟨hroot.2, hn, rfl⟩
    · rintro root ⟨⟩
      exact List.mem_singleton_self _
    · intro h
      exact All.bind ((all_note _).mpr (usize_eq (h _ rfl))) (all_pure _)
  · exact sure_none

/-- The fields of revision 2 lie inside the map. -/
theorem rsdp_extended_value (h : (fw.rsdp_extended base).value = true) : fw.mapped base 36 := by
  unfold rsdp_extended at h
  rw [value_bind] at h
  split_ifs at h
  exact (checksum_ok_value h).1

/-- A candidate whose signature is read lies inside the map; its fields are those that its sums cover. -/
theorem sure_rsdp_at (hbase : base + 8 ≤ fw.MAPPED_LIMIT) : fw.Sure (fw.rsdp_at base) := by
  unfold rsdp_at
  refine .bind (all_read_bytes.mpr fun k hk => ⟨by omega, .inl (by omega)⟩) (.ite (fun _ => sure_none) fun _ => ?_)
  refine .bind (all_checksum_ok (.inl (by norm_num))) (.ite (fun hok => ?_) fun _ => sure_none)
  obtain ⟨-, -, hfirst⟩ := mapped_iff.mp (checksum_ok_value hok).1
  unfold rsdp_root
  refine .bind ?_ (.first (.ite (fun hextended => ?_) fun _ => sure_none) ?_)
  · unfold rsdp_extended
    refine All.bind (all_read_u8.mpr ⟨by omega, .inl (by norm_num)⟩) (all_ite.mpr ⟨fun _ => ?_, fun _ => all_pure _⟩)
    exact all_checksum_ok (.inl le_rfl)
  · obtain ⟨-, -, hall⟩ := mapped_iff.mp (rsdp_extended_value hextended)
    exact .bind (all_read_wide.mpr fun k hk => ⟨by omega, .inl (by omega)⟩) (sure_root_at _ (.inr rfl))
  · exact .bind (all_read_u32.mpr fun k hk => ⟨by omega, .inl (by omega)⟩) (sure_root_at _ (.inl rfl))

theorem sure_rsdp_among {addresses : List ℕ} (h : ∀ a ∈ addresses, a + 8 ≤ fw.MAPPED_LIMIT) :
    fw.Sure (fw.rsdp_among addresses) := by
  induction addresses with
  | nil => exact sure_none
  | cons a rest ih =>
    exact .first (sure_rsdp_at (h a List.mem_cons_self)) (ih fun x hx => h x (List.mem_cons_of_mem _ hx))

/-- An area whose length is a multiple of sixteen is not left. -/
theorem sure_scan_area {start stop : ℕ} (h : 16 ∣ stop - start) : fw.Sure (fw.scan_area start stop) := by
  unfold scan_area
  refine .ite (fun _ => sure_none) fun hskip => sure_rsdp_among ?_
  intro a ha
  obtain ⟨i, hi, rfl⟩ := List.mem_map.mp ha
  rw [List.mem_range] at hi
  simp only [Bool.not_eq_true', not_or, Bool.not_eq_false] at hskip
  obtain ⟨-, -, hend⟩ := mapped_iff.mp hskip.2
  omega

/-- The root table is found inside the map, at the address given if that fits a pointer. -/
theorem sure_find_root : fw.Sure fw.find_root := by
  have hlow := @limit_low fw
  unfold find_root scan_for_rsdp
  refine .first (sure_root_at _ ?_) (.bind (all_read_bytes.mpr fun k hk => ⟨?_, .inl (by omega)⟩) (.first ?_ ?_))
  · split_ifs
    · exact .inr rfl
    · exact .inl rfl
  · unfold EBDA_POINTER
    omega
  · exact sure_scan_area ⟨64, by omega⟩
  · exact sure_scan_area ⟨8192, rfl⟩

/-! ## The entries -/

variable {root : Root} {i table : ℕ}

/-- The root table's own header is read, then what it declares is summed. -/
theorem all_entries (h : fw.Reached root) : All fw.Allowed (fw.entries root) := by
  unfold entries
  refine All.bind (all_read_u32.mpr fun k hk => allowed_header h.mapped (by omega)) ?_
  rw [all_ite]
  refine ⟨fun _ => all_pure _, fun _ => All.bind (all_checksum_ok (.inr rfl)) ?_⟩
  rw [all_ite]
  exact ⟨fun _ => all_pure _, fun _ => all_pure _⟩

/-- Entries are counted of a root table that is verified. -/
theorem entries_value (h : (fw.entries root).value = some n) :
    fw.Verified root.address ∧ n = (fw.word root.address 4 - 36) / root.entry_bytes := by
  unfold entries at h
  rw [value_bind] at h
  split_ifs at h with hbounds
  rw [value_bind] at h
  split_ifs at h with hok
  simp only [not_or, not_not, Bool.not_eq_true', Bool.not_eq_false] at hbounds
  exact ⟨⟨hbounds.1.1, hbounds.2, (checksum_ok_value hok).2⟩, (Option.some.inj h).symm⟩

/-- An entry lies inside what the root table declares. -/
theorem all_entry (h : fw.Reached root) (hn : (fw.entries root).value = some n) (hi : i < n) :
    All fw.Allowed (fw.entry root i) := by
  obtain ⟨hverified, rfl⟩ := entries_value hn
  have hend : 36 + i * root.entry_bytes + root.entry_bytes ≤ fw.word root.address 4 := by
    have hheader := hverified.header
    have hdiv := Nat.div_mul_le_self (fw.word root.address 4 - 36) root.entry_bytes
    have hmul := Nat.mul_le_mul_right root.entry_bytes (Nat.succ_le_of_lt hi)
    rw [Nat.succ_mul] at hmul
    omega
  unfold entry
  rcases h.entry_bytes with hbytes | hbytes
  · rw [if_neg (by simp [Root.is_xsdt, hbytes])]
    exact all_read_u32.mpr fun k hk => hverified.allowed (by omega)
  · rw [if_pos (by simp [Root.is_xsdt, hbytes])]
    exact all_read_wide.mpr fun k hk => hverified.allowed (by omega)

/-- A table found is verified. -/
theorem find_among_value {signature : List UInt8} {is : List ℕ}
    (h : (fw.find_among root signature is).value = some table) : fw.Verified table := by
  induction is with
  | nil => simp [find_among] at h
  | cons i rest ih =>
    unfold find_among at h
    rw [value_bind] at h
    dsimp only at h
    split_ifs at h with hmapped
    · exact ih h
    rw [value_bind, value_bind] at h
    split_ifs at h with hsignature
    · exact ih h
    rw [value_bind] at h
    split_ifs at h with hlength
    · rw [value_bind] at h
      split_ifs at h with hok
      · obtain rfl := Option.some.inj h
        obtain ⟨hmapped', hsums⟩ := checksum_ok_value hok
        exact ⟨hlength.1, hmapped', hsums⟩
      · exact ih h
    · exact ih h

/-- Every address among some entries that is followed fits a pointer. -/
def Followable (fw : Firmware) (root : Root) (is : List ℕ) : Prop :=
  ∀ i ∈ is, fw.mapped (fw.usize (fw.entry root i).value) 36 → (fw.entry root i).value < 2 ^ fw.w.bits

/-- Looking for a table. -/
theorem all_find_among {signature : List UInt8} {is : List ℕ} (h : ∀ i ∈ is, All fw.Allowed (fw.entry root i))
    (hfollow : fw.Followable root is) : All fw.Allowed (fw.find_among root signature is) := by
  induction is with
  | nil => exact all_pure _
  | cons i rest ih =>
    have hrest := ih (fun j hj => h j (List.mem_cons_of_mem _ hj)) fun j hj => hfollow j (List.mem_cons_of_mem _ hj)
    unfold find_among
    refine All.bind (h i List.mem_cons_self) ?_
    rw [all_ite]
    refine ⟨fun _ => hrest, fun hmapped => ?_⟩
    rw [Bool.not_eq_true', Bool.not_eq_false] at hmapped
    refine All.bind ((all_note _).mpr (usize_eq (hfollow i List.mem_cons_self hmapped))) ?_
    refine All.bind (all_read_bytes.mpr fun k hk => allowed_header hmapped (by omega)) ?_
    rw [all_ite]
    refine ⟨fun _ => hrest, fun _ => All.bind (all_read_u32.mpr fun k hk => allowed_header hmapped (by omega)) ?_⟩
    rw [all_ite]
    refine ⟨fun _ => hrest, fun _ => All.bind (all_checksum_ok (.inr rfl)) ?_⟩
    rw [all_ite]
    exact ⟨fun _ => all_pure _, fun _ => hrest⟩

/-- Visiting tables. -/
theorem all_visit_among {σ : Type} {visit : List UInt8 → σ → Bool × σ} {is : List ℕ}
    (h : ∀ i ∈ is, All fw.Allowed (fw.entry root i)) (hfollow : fw.Followable root is) (s : σ) :
    All fw.Allowed (fw.visit_among visit root is s) := by
  induction is generalizing s with
  | nil => exact all_pure _
  | cons i rest ih =>
    have hrest (s : σ) := ih (fun j hj => h j (List.mem_cons_of_mem _ hj))
      (fun j hj => hfollow j (List.mem_cons_of_mem _ hj)) s
    unfold visit_among
    refine All.bind (h i List.mem_cons_self) ?_
    rw [all_ite]
    refine ⟨fun _ => hrest s, fun hmapped => ?_⟩
    rw [Bool.not_eq_true', Bool.not_eq_false] at hmapped
    refine All.bind ((all_note _).mpr (usize_eq (hfollow i List.mem_cons_self hmapped))) ?_
    refine All.bind (all_read_bytes.mpr fun k hk => allowed_header hmapped (by omega)) ?_
    rw [all_ite]
    refine ⟨fun _ => hrest s, fun _ => All.bind (all_read_u32.mpr fun k hk => allowed_header hmapped (by omega)) ?_⟩
    rw [all_ite]
    refine ⟨fun _ => hrest s, fun hlength => All.bind (all_checksum_ok (.inr rfl)) ?_⟩
    rw [all_ite]
    refine ⟨fun hok => ?_, fun _ => hrest s⟩
    obtain ⟨hmapped', hsums⟩ := checksum_ok_value hok
    refine All.bind ((all_note _).mpr ⟨⟨(not_not.mp (not_or.mp hlength).1).1, hmapped', hsums⟩, rfl⟩) ?_
    rw [all_ite]
    exact ⟨fun _ => hrest _, fun _ => all_pure _⟩

/-- A visitor that does not stop sees every entry followed. -/
theorem visit_among_follows {is : List ℕ} {i : ℕ} (hi : i ∈ is)
    (hmapped : fw.mapped (fw.usize (fw.entry root i).value) 36) :
    .follow (fw.entry root i).value (fw.usize (fw.entry root i).value) ∈
      (fw.visit_among (fun _ s => (true, s)) root is ()).log := by
  induction is with
  | nil => exact absurd hi List.not_mem_nil
  | cons j rest ih =>
    unfold visit_among
    rw [log_bind]
    apply List.mem_append_right
    rcases List.mem_cons.mp hi with rfl | hi
    · rw [if_neg (by simp [hmapped]), log_bind]
      exact List.mem_append_left _ (List.mem_singleton_self _)
    · have hrest := ih hi
      -- Whatever becomes of the first, the rest is visited.
      by_cases hskip : (!fw.mapped (fw.usize (fw.entry root j).value) 36) = true
      · rwa [if_pos hskip]
      rw [if_neg hskip, log_bind, log_bind]
      refine List.mem_append_right _ (List.mem_append_right _ ?_)
      split_ifs
      · exact hrest
      rw [log_bind]
      apply List.mem_append_right
      split_ifs
      · exact hrest
      rw [log_bind]
      apply List.mem_append_right
      split_ifs
      · rw [log_bind]
        exact List.mem_append_right _ hrest
      · exact hrest

end Firmware

end NanoChrono.Acpi
