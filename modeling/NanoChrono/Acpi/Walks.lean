import NanoChrono.Acpi.Readers

/-! # Tables are walked inside their bounds

The walks do what is allowed just where every address they follow fits a pointer, the FADT covers the narrow field of the
DSDT's address, and the table that field names passes its checksum, which the scan for the sleep types does not ask
(`Firmware.walks_iff`). -/

namespace NanoChrono.Acpi

open Buffer Logs Logged Multiboot

namespace Firmware

variable {fw : Firmware} {root : Root} {fadt base length i : ℕ}

/-! ## The tables an entry names -/

/-- A table is looked for among the entries that the root table's length leaves room for. -/
theorem all_find_table {signature : List UInt8} (h : fw.Reached root)
    (hfollow : ∀ n, (fw.entries root).value = some n → fw.Followable root (List.range n)) :
    All fw.Allowed (fw.find_table root signature) := by
  unfold find_table
  refine All.bind (all_entries h) ?_
  cases hn : (fw.entries root).value with
  | none => exact all_pure _
  | some n => exact all_find_among (fun i hi => all_entry h hn (List.mem_range.mp hi)) (hfollow n hn)

/-- A table found is verified. -/
theorem find_table_value {signature : List UInt8} {table : ℕ}
    (h : (fw.find_table root signature).value = some table) : fw.Verified table := by
  unfold find_table at h
  rw [value_bind] at h
  cases hn : (fw.entries root).value with
  | none => simp [hn] at h
  | some n =>
    rw [hn] at h
    exact find_among_value h

/-- The FADT is verified. -/
theorem find_fadt_value (h : fw.find_fadt.value = some fadt) : fw.Verified fadt := by
  unfold find_fadt at h
  rw [value_bind] at h
  cases hroot : fw.find_root.value with
  | none => simp [hroot] at h
  | some root =>
    rw [hroot] at h
    exact find_table_value h

/-! ## The conditions -/

/-- Every address that is followed fits a pointer. -/
structure Reachable (fw : Firmware) : Prop where
  root : ∀ root, fw.find_root.value = some root → root.given < 2 ^ fw.w.bits
  entry : ∀ root n, fw.find_root.value = some root → (fw.entries root).value = some n →
    fw.Followable root (List.range n)
  dsdt : ∀ fadt, fw.find_fadt.value = some fadt → fw.mapped (fw.usize (fw.read_dsdt fadt).value) 36 →
    (fw.read_dsdt fadt).value < 2 ^ fw.w.bits

/-- The FADT covers the narrow field of the DSDT's address. -/
def Covered (fw : Firmware) : Prop := ∀ fadt, fw.find_fadt.value = some fadt → 44 ≤ fw.word fadt 4

/-- The table that the narrow field names passes its checksum, if it is scanned at all. -/
def Summed (fw : Firmware) : Prop :=
  ∀ fadt, fw.find_fadt.value = some fadt → 116 ≤ fw.word fadt 4 → fw.mapped (fw.word fadt 40) 36 →
    44 < fw.word (fw.word fadt 40) 4 → fw.word (fw.word fadt 40) 4 ≤ 0x100000 →
    fw.mapped (fw.word fadt 40) (fw.word (fw.word fadt 40) 4) →
    fw.sums (fw.word fadt 40) (fw.word (fw.word fadt 40) 4)

/-- The walks do what is allowed. -/
structure Walks (fw : Firmware) : Prop where
  find_root : All fw.Allowed fw.find_root
  find_table : ∀ root, fw.find_root.value = some root → ∀ signature, All fw.Allowed (fw.find_table root signature)
  for_each_ssdt : ∀ {σ : Type} (visit : List UInt8 → σ → Bool × σ) (s : σ), All fw.Allowed (fw.for_each_ssdt visit s)
  dsdt : All fw.Allowed fw.dsdt
  power_registers : All fw.Allowed fw.power_registers

/-! ## Where the conditions hold -/

theorem all_find_root (h : fw.Reachable) : All fw.Allowed fw.find_root := sure_find_root.allowed h.root

theorem all_find_fadt (h : fw.Reachable) : All fw.Allowed fw.find_fadt := by
  unfold find_fadt
  refine All.bind (all_find_root h) ?_
  cases hroot : fw.find_root.value with
  | none => exact all_pure _
  | some root => exact all_find_table (sure_find_root.reached root hroot) fun n => h.entry root n hroot

/-- Every SSDT, for any visitor. -/
theorem all_for_each_ssdt {σ : Type} (h : fw.Reachable) (visit : List UInt8 → σ → Bool × σ) (s : σ) :
    All fw.Allowed (fw.for_each_ssdt visit s) := by
  unfold for_each_ssdt
  refine All.bind (all_find_root h) ?_
  cases hroot : fw.find_root.value with
  | none => exact all_pure _
  | some root =>
    have hreached := sure_find_root.reached root hroot
    refine All.bind (all_entries hreached) ?_
    cases hn : (fw.entries root).value with
    | none => exact all_pure _
    | some n =>
      exact all_visit_among (fun i hi => all_entry hreached hn (List.mem_range.mp hi)) (h.entry root n hroot hn) s

/-- The DSDT's address is read inside a FADT that covers the narrow field. -/
theorem all_read_dsdt (h : fw.Verified fadt) (hcovered : 44 ≤ fw.word fadt 4) :
    All fw.Allowed (fw.read_dsdt fadt) := by
  unfold read_dsdt
  refine All.bind (all_read_u32.mpr fun k hk => h.allowed (by omega)) (All.bind ?_ ?_)
  · unfold read_wide_dsdt
    rw [all_ite]
    exact ⟨fun hlength => all_read_wide.mpr fun k hk => h.allowed (hlength.trans_lt' (by omega)), fun _ => all_pure _⟩
  · rw [all_ite]
    exact ⟨fun _ => all_pure _, fun _ => all_read_u32.mpr fun k hk => h.allowed (by omega)⟩

theorem all_dsdt_of (h : fw.Verified fadt) (hcovered : 44 ≤ fw.word fadt 4)
    (hfits : fw.mapped (fw.usize (fw.read_dsdt fadt).value) 36 → (fw.read_dsdt fadt).value < 2 ^ fw.w.bits) :
    All fw.Allowed (fw.dsdt_of fadt) := by
  unfold dsdt_of
  refine All.bind (all_read_dsdt h hcovered) ?_
  rw [all_ite]
  refine ⟨fun _ => all_pure _, fun hmapped => ?_⟩
  rw [Bool.not_eq_true', Bool.not_eq_false] at hmapped
  refine All.bind ((all_note _).mpr (usize_eq (hfits hmapped))) ?_
  refine All.bind (all_read_u32.mpr fun k hk => allowed_header hmapped (by omega)) ?_
  rw [all_ite]
  refine ⟨fun _ => all_pure _, fun hlength => All.bind (all_checksum_ok (.inr rfl)) ?_⟩
  rw [all_ite]
  refine ⟨fun hok => ?_, fun _ => all_pure _⟩
  obtain ⟨hmapped', hsums⟩ := checksum_ok_value hok
  refine All.bind ((all_note _).mpr ⟨⟨(not_not.mp (not_or.mp hlength).1).1, hmapped', hsums⟩, rfl⟩) (all_pure _)

theorem all_dsdt (h : fw.Reachable) (hcovered : fw.Covered) : All fw.Allowed fw.dsdt := by
  unfold dsdt
  refine All.bind (all_find_fadt h) ?_
  cases hfadt : fw.find_fadt.value with
  | none => exact all_pure _
  | some fadt => exact all_dsdt_of (find_fadt_value hfadt) (hcovered fadt hfadt) (h.dsdt fadt hfadt)

/-! ## The sleep types -/

/-- A constant takes at most two bytes. -/
theorem all_read_constant (h : fw.Verified base) (hroom : i + 2 ≤ fw.word base 4) :
    All fw.Allowed (fw.read_constant base i) ∧ (fw.read_constant base i).value.2 ≤ i + 2 := by
  unfold read_constant
  rw [all_bind, all_read_u8, value_bind]
  refine ⟨⟨h.allowed (by omega), ?_⟩, ?_⟩
  · simp only [all_ite, all_bind, all_read_u8, all_pure, implies_true, and_true, true_and]
    exact fun _ _ _ => h.allowed (by omega)
  · split_ifs <;> simp

theorem all_read_types (h : fw.Verified base) (hroom : i + 4 ≤ fw.word base 4) :
    All fw.Allowed (fw.read_types base i) := by
  unfold read_types
  obtain ⟨hfirst, hplace⟩ := all_read_constant h (i := i) (by omega)
  exact All.bind hfirst (All.bind (all_read_constant h (by omega)).1 (all_pure _))

/-- The scan stays in a table that is verified. -/
theorem all_scan_s5 (h : fw.Verified base) (i : ℕ) : All fw.Allowed (fw.scan_s5 base (fw.word base 4) i) := by
  induction hmeasure : fw.word base 4 - i using Nat.strong_induction_on generalizing i with
  | _ n ih =>
    unfold scan_s5
    split_ifs with hroom
    · have hnext := ih _ (by omega) (i + 1) rfl
      refine All.bind (all_read_bytes.mpr fun k hk => h.allowed (by omega)) ?_
      rw [all_ite]
      refine ⟨fun _ => hnext, fun _ => All.bind (all_read_u8.mpr (h.allowed (by omega))) ?_⟩
      rw [all_ite]
      refine ⟨fun _ => All.bind (all_read_u8.mpr (h.allowed (by omega))) ?_, fun _ => hnext⟩
      dsimp only
      rw [all_ite]
      exact ⟨fun _ => all_pure _, fun hfits => all_read_types h (by omega)⟩
    · exact all_pure _

/-- A table too short to hold the name is not scanned. -/
theorem scan_s5_short (h : length ≤ 44) : fw.scan_s5 base length 36 = pure (none, none) := by
  rw [scan_s5, dif_neg (by omega)]

theorem all_find_s5 (hmapped : fw.mapped base 36)
    (hsums : 44 < fw.word base 4 → fw.word base 4 ≤ 0x100000 → fw.mapped base (fw.word base 4) →
      fw.sums base (fw.word base 4)) : All fw.Allowed (fw.find_s5 base) := by
  unfold find_s5
  refine All.bind (all_read_u32.mpr fun k hk => allowed_header hmapped (by omega)) ?_
  rw [all_ite]
  refine ⟨fun _ => all_pure _, fun hlength => ?_⟩
  simp only [not_or, not_not, Bool.not_eq_true', Bool.not_eq_false] at hlength
  obtain ⟨⟨hheader, hmax⟩, hmapped'⟩ := hlength
  show All fw.Allowed (fw.scan_s5 base (fw.word base 4) 36)
  rcases Nat.lt_or_ge 44 (fw.word base 4) with hlong | hshort
  · exact all_scan_s5 ⟨hheader, hmapped', hsums hlong hmax hmapped'⟩ 36
  · rw [scan_s5_short hshort]
    exact all_pure _

/-! ## The registers -/

theorem all_read_timer (h : fw.Verified fadt) (hlength : 116 ≤ fw.word fadt 4) :
    All fw.Allowed (fw.read_timer fadt) := by
  unfold read_timer
  refine All.bind (all_read_u32.mpr fun k hk => h.allowed (by omega)) ?_
  rw [all_ite]
  refine ⟨fun _ => All.bind (all_read_u8.mpr (h.allowed (by omega))) ?_, fun _ => all_pure _⟩
  rw [all_ite]
  exact ⟨fun _ => All.bind (all_read_u32.mpr fun k hk => h.allowed (by omega)) (all_pure _), fun _ => all_pure _⟩

theorem all_read_reset (h : fw.Verified fadt) : All fw.Allowed (fw.read_reset fadt (fw.word fadt 4)) := by
  unfold read_reset
  rw [all_ite]
  refine ⟨fun hlength => All.bind (all_read_u32.mpr fun k hk => h.allowed (by omega)) ?_, fun _ => all_pure _⟩
  rw [all_ite]
  refine ⟨fun _ => All.bind (all_read_u8.mpr (h.allowed (by omega))) ?_, fun _ => all_pure _⟩
  rw [all_ite]
  refine ⟨fun _ => All.bind (all_read_u32.mpr fun k hk => h.allowed (by omega)) ?_, fun _ => all_pure _⟩
  exact All.bind (all_read_u8.mpr (h.allowed (by omega))) (all_pure _)

/-- The narrow field is used as it is. -/
theorem all_read_sleep (h : fw.Verified fadt) (hlength : 116 ≤ fw.word fadt 4)
    (hsums : fw.mapped (fw.word fadt 40) 36 → 44 < fw.word (fw.word fadt 40) 4 →
      fw.word (fw.word fadt 40) 4 ≤ 0x100000 → fw.mapped (fw.word fadt 40) (fw.word (fw.word fadt 40) 4) →
      fw.sums (fw.word fadt 40) (fw.word (fw.word fadt 40) 4)) : All fw.Allowed (fw.read_sleep fadt) := by
  unfold read_sleep
  refine All.bind (all_read_u32.mpr fun k hk => h.allowed (by omega)) ?_
  rw [all_ite]
  exact ⟨fun hmapped => All.bind ((all_note _).mpr rfl) (all_find_s5 hmapped (hsums hmapped)), fun _ => all_pure _⟩

theorem all_registers_of (h : fw.Verified fadt)
    (hsums : 116 ≤ fw.word fadt 4 → fw.mapped (fw.word fadt 40) 36 → 44 < fw.word (fw.word fadt 40) 4 →
      fw.word (fw.word fadt 40) 4 ≤ 0x100000 → fw.mapped (fw.word fadt 40) (fw.word (fw.word fadt 40) 4) →
      fw.sums (fw.word fadt 40) (fw.word (fw.word fadt 40) 4)) : All fw.Allowed (fw.registers_of fadt) := by
  have hheader := h.header
  have hlength : All fw.Allowed (fw.read_u32 fadt 4) := all_read_u32.mpr fun k hk => h.allowed (by omega)
  unfold registers_of
  refine All.bind hlength ?_
  rw [all_ite]
  refine ⟨fun _ => all_pure _, fun hdeclared => ?_⟩
  have hlong : 116 ≤ fw.word fadt 4 := Nat.le_of_not_lt hdeclared
  refine All.bind (all_read_u32.mpr fun k hk => h.allowed (by omega)) ?_
  refine All.bind (all_read_u32.mpr fun k hk => h.allowed (by omega)) ?_
  refine All.bind (all_read_timer h hlong) (All.bind hlength (All.bind (all_read_reset h) ?_))
  exact All.bind (all_read_sleep h hlong (hsums hlong)) (all_pure _)

theorem all_power_registers (h : fw.Reachable) (hsummed : fw.Summed) : All fw.Allowed fw.power_registers := by
  unfold power_registers
  refine All.bind (all_find_fadt h) ?_
  cases hfadt : fw.find_fadt.value with
  | none => exact all_pure _
  | some fadt => exact all_map.mpr (all_registers_of (find_fadt_value hfadt) (hsummed fadt hfadt))

/-! ## What the walks need -/

/-- An address that was followed and is used as it was given fits a pointer. -/
theorem lt_of_usize {given : ℕ} (h : fw.usize given = given) : given < 2 ^ fw.w.bits := h ▸ usize_lt given

/-- A FADT too short for the narrow field is read there all the same. -/
theorem Walks.covered (h : fw.Walks) : fw.Covered := by
  intro fadt hfadt
  by_contra hshort
  have hdsdt := h.dsdt
  rw [Firmware.dsdt, all_bind, hfadt] at hdsdt
  have haddress := (all_bind.mp hdsdt.2).1
  rw [read_dsdt, all_bind, all_bind, value_read_u32] at haddress
  -- Such a FADT has no wide field, so the narrow one is read.
  have hwide : (fw.read_wide_dsdt fadt (fw.word fadt 4)).value = 0 := by
    rw [read_wide_dsdt, if_neg (by omega), value_pure]
  have hnarrow := haddress.2.2
  rw [hwide, if_neg (by simp), all_read_u32] at hnarrow
  rcases (hnarrow 3 (by norm_num)).2 with hheader | hdeclared <;> omega

/-- The addresses followed are used as they were given. -/
theorem Walks.reachable (h : fw.Walks) : fw.Reachable where
  root root hroot := by
    have hfollow := h.find_root _ (sure_find_root.followed root hroot)
    rw [Allowed, (sure_find_root.reached root hroot).address] at hfollow
    exact lt_of_usize hfollow
  entry root n hroot hn i hi hmapped := by
    -- A visitor that does not stop comes to every entry.
    have hvisit := h.for_each_ssdt (fun _ s => (true, s)) ()
    rw [Firmware.for_each_ssdt, all_bind, hroot] at hvisit
    have hentries := hvisit.2
    rw [all_bind, hn] at hentries
    exact lt_of_usize (hentries.2 _ (visit_among_follows hi hmapped))
  dsdt fadt hfadt hmapped := by
    have hdsdt := h.dsdt
    rw [Firmware.dsdt, all_bind, hfadt] at hdsdt
    have htable : All fw.Allowed (fw.dsdt_of fadt) := hdsdt.2
    rw [dsdt_of, all_bind, if_neg (by simp [hmapped])] at htable
    have hfollow := (all_note _).mp (all_bind.mp htable.2).1
    exact lt_of_usize hfollow

/-- A table that is scanned is read past its header. -/
theorem Walks.summed (h : fw.Walks) : fw.Summed := by
  intro fadt hfadt hlength hmapped hlong hmax hmapped'
  have hregisters := h.power_registers
  rw [Firmware.power_registers, all_bind, hfadt] at hregisters
  have hof := all_map.mp hregisters.2
  rw [registers_of, all_bind, value_read_u32, if_neg (by omega)] at hof
  have hsleep := hof.2
  iterate 5 rw [all_bind] at hsleep
  obtain ⟨-, -, -, -, -, hsleep⟩ := hsleep
  have htypes := (all_bind.mp hsleep).1
  rw [read_sleep, all_bind, value_read_u32, if_pos hmapped, all_bind] at htypes
  have hscan := htypes.2.2
  rw [find_s5, all_bind, value_read_u32, if_neg] at hscan
  · have hname := hscan.2
    rw [scan_s5, dif_pos (by omega), all_bind] at hname
    rcases (all_read_bytes.mp hname.1 0 (by norm_num)).2 with hheader | hverified
    · omega
    · exact hverified.1.sums
  · simp only [not_or, not_not, Bool.not_eq_true', Bool.not_eq_false]
    exact ⟨⟨by omega, hmax⟩, hmapped'⟩

/-- The walks stay inside the map and inside what is verified, and use tables where the firmware said they lie, just where
every address followed fits a pointer, the FADT covers the narrow field, and the table it names passes its checksum. -/
theorem walks_iff (fw : Firmware) : fw.Walks ↔ fw.Reachable ∧ fw.Covered ∧ fw.Summed := by
  constructor
  · intro h
    exact ⟨h.reachable, h.covered, h.summed⟩
  · rintro ⟨hreachable, hcovered, hsummed⟩
    exact {
      find_root := all_find_root hreachable
      find_table := fun root hroot _ =>
        all_find_table (sure_find_root.reached root hroot) fun n => hreachable.entry root n hroot
      for_each_ssdt := all_for_each_ssdt hreachable
      dsdt := all_dsdt hreachable hcovered
      power_registers := all_power_registers hreachable hsummed }

/-! ## Tables where the walks stray -/

/-- Memory in which tables are laid out. -/
def laid_out : List (ℕ × List UInt8) → ℕ → UInt8
  | [], _ => 0
  | (base, table) :: rest, a => if a < base then laid_out rest a else (table[a - base]?).getD (laid_out rest a)

/-- A table without its checksum: its signature, its length, and what follows its header. -/
def headed (signature body : List UInt8) : List UInt8 :=
  signature ++ leBytes 4 (36 + body.length) ++ List.replicate 28 0 ++ body

/-- A table that sums to zero. -/
def balanced (signature body : List UInt8) : List UInt8 :=
  let table := headed signature body
  table.set 9 (0 - table.foldl (· + ·) 0)

/-- What follows the header of a FADT of ACPI 1.0 whose narrow field names a DSDT. -/
def fadt_body (dsdt : ℕ) : List UInt8 := leBytes 4 0 ++ leBytes 4 dsdt ++ List.replicate 72 0

/-- A machine whose loader names a root table of one entry, which is the FADT. -/
def machine (w : Width) (fadt dsdt : List UInt8) : Firmware where
  w
  mem := laid_out [(0x1000, balanced [0x52, 0x53, 0x44, 0x54] (leBytes 4 0x2000)), (0x2000, fadt), (0x3000, dsdt)]
  loader_rsdp := 0x1000
  loader_is_xsdt := false

/-- A DSDT of nine bytes with no checksum is scanned, a FADT of a header alone is read at its narrow field, and a root
table past four gigabytes is used where the low half of its address points. -/
theorem walks_stray :
    ¬ (machine .w64 (balanced FACP (fadt_body 0x3000)) (headed [0x44, 0x53, 0x44, 0x54] (List.replicate 9 0))).Walks ∧
      ¬ (machine .w64 (balanced FACP []) []).Walks ∧ ¬ (Firmware.mk .w32 (fun _ => 0) 0x100001000 true).Walks := by
  refine ⟨fun h => ?_, fun h => ?_, fun h => ?_⟩
  · exact absurd (h.summed 0x2000 (by decide +kernel) (by decide +kernel) (by decide +kernel) (by decide)
      (by decide) (by decide +kernel)) (by decide +kernel)
  · exact absurd (h.covered 0x2000 (by decide +kernel)) (by decide)
  · exact absurd (h.reachable.root ⟨0x1000, 8, 0x100001000⟩ (by decide)) (by decide)

end Firmware

end NanoChrono.Acpi
