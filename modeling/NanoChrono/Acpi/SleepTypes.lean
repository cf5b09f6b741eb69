import NanoChrono.Acpi.Walks
import NanoChrono.Aml.Encoded

/-! # The sleep types of the DSDT

The scan for the sleep types finds the first place of a table where `_S5_` is followed by a package, and reports its first
two elements if four bytes are left for them (`Firmware.scan_s5_value`). A table that declares the package as the grammar
writes it has such a place, whatever encoding the package's length uses. What is reported is then what the DSDT declares
just where the narrow field of a whole FADT names that table, it is not too long, and the four bytes are left
(`Firmware.soft_off_iff`). -/

namespace NanoChrono.Acpi

open Buffer Logs Logged Multiboot

/-! ## What a table declares -/

/-- The constants that the scan knows. -/
def constant : Aml.Arg → Option ℕ
  | .zero => some 0
  | .one => some 1
  | .byte v => some v.toNat
  | _ => none

/-- A table holds past its header the `Name` of a `Package`, the last segment of the name being the `_S5_` at place `i`
and the first two elements being constants. -/
def Declares (table : List UInt8) (i a b : ℕ) : Prop :=
  ∃ (before after rest : List UInt8) (n : Aml.NameString) (s : Aml.NameSeg) (width : ℕ) (count : UInt8) (x y : Aml.Arg),
    let contents := count :: (x.encode ++ (y.encode ++ rest))
    table = before ++ ((Aml.Term.name n (.package width false contents)).encode ++ after) ∧ 36 ≤ before.length ∧
      n.segs.getLast? = some s ∧ s.toList = S5 ∧ Aml.PackFits width contents ∧ constant x = some a ∧
      constant y = some b ∧ i + 4 = before.length + 1 + n.encode.length

/-- A name ends with its last segment. -/
theorem encode_leaf {n : Aml.NameString} {s : Aml.NameSeg} (h : n.segs.getLast? = some s) :
    ∃ start, n.encode = start ++ s.toList := by
  obtain ⟨root, path⟩ := n
  cases path with
  | null => simp [Aml.NameString.segs, Aml.NamePath.segs] at h
  | seg t =>
    obtain rfl : t.chars = s := by simpa [Aml.NameString.segs, Aml.NamePath.segs] using h
    exact ⟨root.encode, rfl⟩
  | dual t u =>
    obtain rfl : u.chars = s := by simpa [Aml.NameString.segs, Aml.NamePath.segs] using h
    refine ⟨root.encode ++ 0x2E :: t.encode, ?_⟩
    simp [Aml.NameString.encode, Aml.NamePath.encode, Aml.Seg.encode]
  | multi segs hlen =>
    rcases List.eq_nil_or_concat segs with rfl | ⟨init, last, rfl⟩
    · simp [Aml.NameString.segs, Aml.NamePath.segs] at h
    · obtain rfl : last.chars = s := by simpa [Aml.NameString.segs, Aml.NamePath.segs] using h
      refine ⟨root.encode ++ 0x2F :: .ofNat (init.concat last).length :: init.flatMap Aml.Seg.encode, ?_⟩
      simp [Aml.NameString.encode, Aml.NamePath.encode, Aml.Seg.encode]

/-- The first byte of a package's length says how many follow. -/
theorem pkgLength_lead {width total : ℕ} (h : Aml.PkgFits width total) :
    ∃ lead tail, Aml.pkgLength width total = lead :: tail ∧ tail.length = width ∧ (lead >>> 6).toNat = width := by
  unfold Aml.PkgFits at h
  unfold Aml.pkgLength
  split_ifs at h ⊢ with hwidth
  · refine ⟨_, [], rfl, hwidth.symm, ?_⟩
    simp [UInt8.toNat_shiftRight, Nat.shiftRight_eq_div_pow, Nat.mod_eq_of_lt (show total < 256 by omega), hwidth, h]
  · refine ⟨_, _, rfl, Aml.leBytes_length _ _, ?_⟩
    simp [UInt8.toNat_shiftRight, Nat.shiftRight_eq_div_pow]
    omega

namespace Firmware

variable {fw : Firmware} {base length i p a b : ℕ}

/-! ## Bytes that stand at a place -/

variable (fw) in
/-- Bytes stand at a place of a table. -/
def Stands (base i : ℕ) (l : List UInt8) : Prop := fw.bytes base i l.length = l

theorem bytes_succ (base i n : ℕ) : fw.bytes base i (n + 1) = fw.byte base i :: fw.bytes base (i + 1) n := by
  simp only [bytes, List.range_succ_eq_map, List.map_cons, List.map_map]
  refine congrArg₂ _ rfl (List.map_congr_left fun k _ => ?_)
  show fw.byte base (i + (k + 1)) = fw.byte base (i + 1 + k)
  rw [Nat.add_assoc, Nat.add_comm 1 k]

theorem stands_cons {c : UInt8} {l : List UInt8} :
    fw.Stands base i (c :: l) ↔ fw.byte base i = c ∧ fw.Stands base (i + 1) l := by
  rw [Stands, List.length_cons, bytes_succ, List.cons.injEq]
  rfl

theorem stands_append {l m : List UInt8} :
    fw.Stands base i (l ++ m) ↔ fw.Stands base i l ∧ fw.Stands base (i + l.length) m := by
  induction l generalizing i with
  | nil => simp [Stands, bytes]
  | cons c l ih => rw [List.cons_append, stands_cons, stands_cons, ih, List.length_cons, and_assoc, Nat.add_right_comm, Nat.add_assoc]

/-- A part of a table stands at its place. -/
theorem stands_part {u l v : List UInt8} (h : fw.bytes base 0 length = u ++ (l ++ v)) : fw.Stands base u.length l := by
  have hlen : length = (u ++ (l ++ v)).length := by rw [← h, bytes, List.length_map, List.length_range]
  have hall : fw.Stands base 0 (u ++ (l ++ v)) := by rw [Stands, ← hlen, h]
  rw [stands_append, stands_append, Nat.zero_add] at hall
  exact hall.2.1

/-! ## Constants -/

variable (fw) in
/-- A constant stands at `p`, with a value and the place after it. -/
inductive Constant (base p : ℕ) : ℕ → ℕ → Prop
  | zero (h : fw.byte base p = 0x00) : Constant base p 0 (p + 1)
  | one (h : fw.byte base p = 0x01) : Constant base p 1 (p + 1)
  | byte (h : fw.byte base p = 0x0A) : Constant base p (fw.byte base (p + 1)).toNat (p + 2)

variable (fw) in
/-- Two constants stand one after the other. -/
def Constants (base p a b : ℕ) : Prop := ∃ q r, fw.Constant base p a q ∧ fw.Constant base q b r

theorem read_constant_value {q : ℕ} :
    (fw.read_constant base p).value = (some a, q) ↔ fw.Constant base p a q := by
  unfold read_constant
  rw [value_bind, value_read_u8]
  constructor
  · intro h
    split_ifs at h with hzero hone hbyte
    · obtain ⟨rfl, rfl⟩ : 0 = a ∧ p + 1 = q := by simpa using h
      exact .zero hzero
    · obtain ⟨rfl, rfl⟩ : 1 = a ∧ p + 1 = q := by simpa using h
      exact .one hone
    · obtain ⟨rfl, rfl⟩ : (fw.byte base (p + 1)).toNat = a ∧ p + 2 = q := by simpa using h
      exact .byte hbyte
    · simp at h
  · rintro (h | h | h) <;> simp [h]

theorem read_types_value : (fw.read_types base p).value = (some a, some b) ↔ fw.Constants base p a b := by
  unfold read_types
  rw [value_bind, value_bind, value_pure, Prod.mk.injEq]
  constructor
  · rintro ⟨ha, hb⟩
    exact ⟨_, _, read_constant_value.mp (Prod.ext ha rfl), read_constant_value.mp (Prod.ext hb rfl)⟩
  · rintro ⟨q, r, ha, hb⟩
    rw [read_constant_value.mpr ha]
    exact ⟨rfl, congrArg Prod.fst (read_constant_value.mpr hb)⟩

/-- A constant as the grammar writes it. -/
theorem constant_of_stands {x : Aml.Arg} (hx : constant x = some a) (h : fw.Stands base p x.encode) :
    fw.Constant base p a (p + x.encode.length) := by
  unfold constant at hx
  split at hx
  · obtain rfl := Option.some.inj hx
    exact .zero (stands_cons.mp h).1
  · obtain rfl := Option.some.inj hx
    exact .one (stands_cons.mp h).1
  · rename_i v
    obtain rfl := Option.some.inj hx
    obtain ⟨hop, hvalue⟩ := stands_cons.mp h
    have hv : fw.byte base (p + 1) = v := by simpa [Aml.leBytes] using (stands_cons.mp hvalue).1
    rw [← hv]
    exact .byte hop
  · cases hx

/-! ## The scan -/

variable (fw) in
/-- `_S5_` stands at a place, followed by a package. -/
structure Pattern (base i : ℕ) : Prop where
  name : fw.bytes base i 4 = S5
  opcode : fw.byte base (i + 4) = 0x12

instance : Decidable (fw.Pattern base i) :=
  decidable_of_iff (fw.bytes base i 4 = S5 ∧ fw.byte base (i + 4) = 0x12)
    ⟨fun h => ⟨h.1, h.2⟩, fun h => ⟨h.1, h.2⟩⟩

variable (fw) in
/-- Where the first element of the package stands. -/
def first_element (base i : ℕ) : ℕ := i + 7 + (fw.byte base (i + 5) >>> 6).toNat

variable (fw) in
/-- The first place from `i` on where the pattern stands and a table has room for it. -/
structure First (base length i j : ℕ) : Prop where
  from_start : i ≤ j
  room : j + 8 < length
  pattern : fw.Pattern base j
  first : ∀ k, i ≤ k → k < j → ¬ fw.Pattern base k

/-- One place of the scan. -/
theorem scan_s5_step (h : i + 8 < length) : (fw.scan_s5 base length i).value =
    if fw.Pattern base i then
      if fw.first_element base i + 4 > length then (none, none)
      else (fw.read_types base (fw.first_element base i)).value
    else (fw.scan_s5 base length (i + 1)).value := by
  rw [scan_s5, dif_pos h, value_bind, value_read_bytes]
  by_cases hname : fw.bytes base i 4 = S5
  · rw [if_neg (not_not.mpr hname), value_bind, value_read_u8]
    by_cases hopcode : fw.byte base (i + 4) = 0x12
    · have hplace : i + 4 + (2 + (fw.byte base (i + 5) >>> 6).toNat) + 1 = fw.first_element base i := by
        unfold first_element
        omega
      rw [if_pos hopcode, if_pos ⟨hname, hopcode⟩, value_bind, value_read_u8]
      dsimp only
      rw [hplace]
      split_ifs <;> rfl
    · rw [if_neg hopcode, if_neg fun hp => hopcode hp.opcode]
  · rw [if_pos hname, if_neg fun hp => hname hp.name]

/-- The scan reports two constants just where they stand after the first pattern, with four bytes left for them. -/
theorem scan_s5_value (i : ℕ) : (fw.scan_s5 base length i).value = (some a, some b) ↔
    ∃ j, fw.First base length i j ∧ fw.first_element base j + 4 ≤ length ∧
      fw.Constants base (fw.first_element base j) a b := by
  induction hmeasure : length - i using Nat.strong_induction_on generalizing i with
  | _ n ih =>
    by_cases hroom : i + 8 < length
    · rw [scan_s5_step hroom]
      by_cases hpattern : fw.Pattern base i
      · -- The pattern stands here, so no later place is the first.
        have hhere : ∀ j, fw.First base length i j → j = i := fun j hj => by
          by_contra hne
          have := hj.from_start
          exact hj.first i le_rfl (by omega) hpattern
        rw [if_pos hpattern]
        constructor
        · intro h
          split_ifs at h with hleft
          · simp at h
          · exact ⟨i, ⟨le_rfl, hroom, hpattern, fun k _ _ => by omega⟩, by omega, read_types_value.mp h⟩
        · rintro ⟨j, hj, hleft, htypes⟩
          obtain rfl := hhere j hj
          rw [if_neg (by omega), read_types_value]
          exact htypes
      · rw [if_neg hpattern, ih _ (by omega) (i + 1) rfl]
        refine exists_congr fun j => and_congr_left fun _ => ?_
        constructor
        · intro hj
          refine ⟨(Nat.le_succ i).trans hj.from_start, hj.room, hj.pattern, fun k hk hkj => ?_⟩
          rcases hk.eq_or_lt with rfl | hk
          · exact hpattern
          · exact hj.first k hk hkj
        · intro hj
          refine ⟨?_, hj.room, hj.pattern, fun k hk => hj.first k (by omega)⟩
          refine Nat.lt_of_le_of_ne hj.from_start fun h => hpattern ?_
          rw [h]
          exact hj.pattern
    · rw [scan_s5, dif_neg hroom]
      constructor
      · intro h
        simp at h
      · rintro ⟨j, hj, -⟩
        have := hj.from_start
        have := hj.room
        omega

/-- What a table declares stands in it after the pattern. -/
theorem stands_of_declares (h : Declares (fw.bytes base 0 length) i a b) :
    36 ≤ i ∧ fw.Pattern base i ∧ fw.Constants base (fw.first_element base i) a b := by
  obtain ⟨before, after, rest, n, s, width, count, x, y, htable, hheader, hleaf, hs, hfits, hx, hy, hi⟩ := h
  obtain ⟨start, hn⟩ := encode_leaf hleaf
  rw [hs] at hn
  obtain ⟨lead, tail, hlength, rfl, hlead⟩ := pkgLength_lead hfits
  have hname : before.length + 1 + (start ++ S5).length = i + 4 := by rw [hi, hn]
  have hstart : before.length + 1 + start.length = i := by
    rw [List.length_append, show S5.length = 4 from rfl] at hname
    omega
  -- The name's last segment, the operator, the length, the count and the elements stand one after the other.
  have hwhole := stands_part htable
  rw [Aml.Term.encode, Aml.Arg.encode, if_neg (by simp), Aml.pack, hlength, hn, stands_cons, stands_append,
    stands_append, hstart, hname, stands_cons, stands_append, stands_cons, stands_cons, stands_append,
    stands_append] at hwhole
  obtain ⟨-, ⟨-, hsegment⟩, hopcode, ⟨hfirst, -⟩, -, hx', hy', -⟩ := hwhole
  have hplace : fw.first_element base i = i + 7 + tail.length := by
    unfold first_element
    rw [hfirst, hlead]
  have hend : i + 4 + 1 + (lead :: tail).length + 1 = i + 7 + tail.length := by
    rw [List.length_cons]
    omega
  rw [hend] at hx' hy'
  refine ⟨by omega, ⟨hsegment, hopcode⟩, ?_⟩
  rw [hplace]
  exact ⟨_, _, constant_of_stands hx hx', constant_of_stands hy hy'⟩

/-! ## What is reported -/

/-- The table at an address, as the scan for the sleep types reads it, gives two constants. -/
structure Scanned (fw : Firmware) (base a b : ℕ) : Prop where
  mapped : fw.mapped base 36
  header : 36 ≤ fw.word base 4
  short : fw.word base 4 ≤ 0x100000
  inside : fw.mapped base (fw.word base 4)
  named : ∃ j, fw.First base (fw.word base 4) 36 j ∧ fw.first_element base j + 4 ≤ fw.word base 4 ∧
    fw.Constants base (fw.first_element base j) a b

/-- The machine's power registers have two sleep types. -/
def Reports (fw : Firmware) (a b : ℕ) : Prop :=
  ∃ regs, fw.power_registers.value = some regs ∧ regs.slp_typ_a = some a ∧ regs.slp_typ_b = some b

theorem find_s5_value : (fw.find_s5 base).value = (some a, some b) ↔
    36 ≤ fw.word base 4 ∧ fw.word base 4 ≤ 0x100000 ∧ fw.mapped base (fw.word base 4) ∧
      (fw.scan_s5 base (fw.word base 4) 36).value = (some a, some b) := by
  unfold find_s5
  rw [value_bind, value_read_u32]
  split_ifs with hlength
  · constructor
    · intro h
      simp at h
    · rintro ⟨hheader, hshort, hinside, -⟩
      simp [hheader, hshort, hinside] at hlength
  · simp only [not_or, not_not, Bool.not_eq_true', Bool.not_eq_false] at hlength
    obtain ⟨⟨hheader, hshort⟩, hinside⟩ := hlength
    exact ⟨fun h => ⟨hheader, hshort, hinside, h⟩, fun h => h.2.2.2⟩

/-- The table of the narrow field gives the sleep types. -/
theorem read_sleep_value {fadt : ℕ} :
    (fw.read_sleep fadt).value = (some a, some b) ↔ fw.Scanned (fw.word fadt 40) a b := by
  unfold read_sleep
  rw [value_bind, value_read_u32]
  split_ifs with hmapped
  · rw [value_bind, find_s5_value, scan_s5_value]
    constructor
    · rintro ⟨hheader, hshort, hinside, hnamed⟩
      exact ⟨hmapped, hheader, hshort, hinside, hnamed⟩
    · intro h
      exact ⟨h.header, h.short, h.inside, h.named⟩
  · constructor
    · intro h
      simp at h
    · intro h
      exact absurd h.mapped hmapped

/-- What a FADT gives: a whole one, what the table of its narrow field gives. -/
theorem reports_iff {fadt : ℕ} (hfadt : fw.find_fadt.value = some fadt) :
    fw.Reports a b ↔ 116 ≤ fw.word fadt 4 ∧ fw.Scanned (fw.word fadt 40) a b := by
  have hvalue : fw.power_registers.value = some (fw.registers_of fadt).value := by
    rw [power_registers, value_bind, hfadt]
    rfl
  have htypes : fw.Reports a b ↔
      (fw.registers_of fadt).value.slp_typ_a = some a ∧ (fw.registers_of fadt).value.slp_typ_b = some b := by
    simp [Reports, hvalue]
  rw [htypes, registers_of, value_bind, value_read_u32]
  split_ifs with hdeclared
  · simp [PowerRegisters.default, Nat.not_le.mpr hdeclared]
  · simp only [value_bind, value_pure]
    rw [← Prod.mk.injEq, Prod.mk.eta, read_sleep_value]
    exact (and_iff_right (Nat.le_of_not_lt hdeclared)).symm

/-- The DSDT is named by a FADT, and its length is the one it declares. -/
theorem dsdt_value {address : ℕ} (h : fw.dsdt.value = some (address, length)) :
    ∃ fadt, fw.find_fadt.value = some fadt ∧ length = fw.word address 4 ∧ fw.mapped address 36 ∧
      fw.Verified address := by
  unfold dsdt at h
  rw [value_bind] at h
  cases hfadt : fw.find_fadt.value with
  | none => simp [hfadt] at h
  | some fadt =>
    rw [hfadt] at h
    have htable : (fw.dsdt_of fadt).value = some (address, length) := h
    unfold dsdt_of at htable
    rw [value_bind] at htable
    dsimp only at htable
    split_ifs at htable with hmapped
    rw [value_bind, value_bind, value_read_u32] at htable
    split_ifs at htable with hlength
    rw [value_bind] at htable
    split_ifs at htable with hok
    obtain ⟨rfl, rfl⟩ : _ = address ∧ _ = length := by simpa using htable
    simp only [not_or, not_not, Bool.not_eq_true', Bool.not_eq_false] at hlength hmapped
    exact ⟨fadt, rfl, rfl, hmapped, hlength.1.1, hlength.2, (checksum_ok_value hok).2⟩

/-- A narrow field that names the table itself: the table is at most a megabyte, and has four bytes from the first
constant on. -/
theorem reports_of_narrow {fadt : ℕ} (hfadt : fw.find_fadt.value = some fadt) (hnarrow : fw.word fadt 40 = base)
    (hmapped : fw.mapped base 36) (hverified : fw.Verified base) (hname : Declares (fw.bytes base 0 (fw.word base 4)) i a b)
    (hfirst : ∀ k, 36 ≤ k → k < i → ¬ fw.Pattern base k) :
    fw.Reports a b ↔
      116 ≤ fw.word fadt 4 ∧ fw.word base 4 ≤ 0x100000 ∧ fw.first_element base i + 4 ≤ fw.word base 4 := by
  obtain ⟨hi, hpattern, hconstants⟩ := stands_of_declares hname
  rw [reports_iff hfadt, hnarrow]
  refine and_congr_right fun _ => ?_
  constructor
  · intro h
    obtain ⟨j, hj, hleft, -⟩ := h.named
    -- The first pattern is the declaration's.
    have hle : j ≤ i := Nat.le_of_not_lt fun hlt => hj.first i hi hlt hpattern
    have hge : i ≤ j := Nat.le_of_not_lt fun hlt => hfirst j hj.from_start hlt hj.pattern
    obtain rfl := Nat.le_antisymm hle hge
    exact ⟨h.short, hleft⟩
  · rintro ⟨hshort, hleft⟩
    refine ⟨hmapped, hverified.header, hshort, hverified.mapped, i, ⟨hi, ?_, hpattern, hfirst⟩, hleft, hconstants⟩
    unfold first_element at hleft
    omega

/-- The sleep types that the DSDT declares are reported just where a whole FADT's narrow field names a table that gives
them; where it names the DSDT itself, and no earlier bytes of it look like the declaration, just where the table is at
most a megabyte and has four bytes from the first constant on. -/
theorem soft_off_iff (fw : Firmware) {address length i a b : ℕ} (hdsdt : fw.dsdt.value = some (address, length))
    (hname : Declares (fw.bytes address 0 length) i a b) :
    ∃ fadt, fw.find_fadt.value = some fadt ∧
      (fw.Reports a b ↔ 116 ≤ fw.word fadt 4 ∧ fw.Scanned (fw.word fadt 40) a b) ∧
      (fw.word fadt 40 = address → (∀ k, 36 ≤ k → k < i → ¬ fw.Pattern address k) →
        (fw.Reports a b ↔
          116 ≤ fw.word fadt 4 ∧ length ≤ 0x100000 ∧ fw.first_element address i + 4 ≤ length)) := by
  obtain ⟨fadt, hfadt, rfl, hmapped, hverified⟩ := dsdt_value hdsdt
  exact ⟨fadt, hfadt, reports_iff hfadt, fun hnarrow => reports_of_narrow hfadt hnarrow hmapped hverified hname⟩

/-! ## Declarations laid out -/

theorem s5_lead : Aml.isLead ((#v[0x5F, 0x53, 0x35, 0x5F] : Aml.NameSeg).get 0) = true := rfl

/-- The name `_S5_`, from the root. -/
def s5_name : Aml.NameString := ⟨.absolute, .seg ⟨#v[0x5F, 0x53, 0x35, 0x5F], s5_lead⟩⟩

/-- The package of two sleep types. -/
def soft_off (x y : Aml.Arg) : List UInt8 :=
  (Aml.Term.name s5_name (.package 0 false (2 :: (x.encode ++ (y.encode ++ []))))).encode

/-- A DSDT with the declaration, and some bytes after it. -/
def declaring (x y : Aml.Arg) (after : List UInt8) : List UInt8 :=
  balanced [0x44, 0x53, 0x44, 0x54] (soft_off x y ++ after)

/-- What follows the header of a FADT that names a DSDT by the wide field alone. -/
def wide_body (dsdt : ℕ) : List UInt8 := List.replicate 104 0 ++ leBytes 8 dsdt

/-- The narrow field names the DSDT, and bytes follow the declaration. -/
def narrow : Firmware :=
  machine .w64 (balanced FACP (fadt_body 0x3000)) (declaring (.byte 5) .zero (List.replicate 4 0))

/-- Only the wide field names the DSDT. -/
def wide : Firmware :=
  machine .w64 (balanced FACP (wide_body 0x3000)) (declaring (.byte 5) .zero (List.replicate 4 0))

/-- The declaration is the last of the DSDT. -/
def ending : Firmware := machine .w64 (balanced FACP (fadt_body 0x3000)) (declaring .zero .zero [])

theorem narrow_declares : Declares (narrow.bytes 0x3000 0 52) 38 5 0 := by
  refine ⟨narrow.bytes 0x3000 0 36, List.replicate 4 0, [], s5_name, #v[0x5F, 0x53, 0x35, 0x5F], 0, 2, .byte 5, .zero,
    ?_, ?_, ?_, ?_, ?_, ?_, ?_, ?_⟩ <;> decide

theorem wide_declares : Declares (wide.bytes 0x3000 0 52) 38 5 0 := by
  refine ⟨wide.bytes 0x3000 0 36, List.replicate 4 0, [], s5_name, #v[0x5F, 0x53, 0x35, 0x5F], 0, 2, .byte 5, .zero,
    ?_, ?_, ?_, ?_, ?_, ?_, ?_, ?_⟩ <;> decide

theorem ending_declares : Declares (ending.bytes 0x3000 0 47) 38 0 0 := by
  refine ⟨ending.bytes 0x3000 0 36, [], [], s5_name, #v[0x5F, 0x53, 0x35, 0x5F], 0, 2, .zero, .zero,
    ?_, ?_, ?_, ?_, ?_, ?_, ?_, ?_⟩ <;> decide

theorem soft_off_narrow : narrow.Reports 5 0 := by
  obtain ⟨fadt, hfadt, -, h⟩ := soft_off_iff narrow (by decide +kernel) narrow_declares
  obtain rfl : 0x2000 = fadt :=
    Option.some.inj ((show narrow.find_fadt.value = some 0x2000 by decide +kernel).symm.trans hfadt)
  refine (h (by decide) fun k hk hlt => ?_).mpr (by decide)
  interval_cases k <;> decide

/-- A DSDT that only the wide field names, and one that ends with a declaration of two zeros: each holds the declaration
once, and its sleep types are not reported. -/
theorem soft_off_lost :
    (wide.dsdt.value = some (0x3000, 52) ∧ Declares (wide.bytes 0x3000 0 52) 38 5 0 ∧
      (∀ k < 52, wide.Pattern 0x3000 k → k = 38) ∧ ¬ wide.Reports 5 0) ∧
    ending.dsdt.value = some (0x3000, 47) ∧ Declares (ending.bytes 0x3000 0 47) 38 0 0 ∧
      (∀ k < 47, ending.Pattern 0x3000 k → k = 38) ∧ ¬ ending.Reports 0 0 := by
  refine ⟨⟨by decide +kernel, wide_declares, by decide +kernel, fun h => ?_⟩, by decide +kernel, ending_declares,
    by decide +kernel, fun h => ?_⟩
  · have hmapped := ((reports_iff (show wide.find_fadt.value = some 0x2000 by decide +kernel)).mp h).2.mapped
    exact absurd hmapped (by decide)
  · obtain ⟨j, hj, hleft, -⟩ :=
      ((reports_iff (show ending.find_fadt.value = some 0x2000 by decide +kernel)).mp h).2.named
    have hplace : j < 47 := hj.room.trans_le' (Nat.le_add_right _ _) |>.trans_le (by decide)
    obtain rfl := (show ∀ k < 47, ending.Pattern (ending.word 0x2000 40) k → k = 38 by decide +kernel) j hplace hj.pattern
    exact absurd hleft (by decide)

end Firmware

end NanoChrono.Acpi
