import Mathlib.Data.BitVec
import Mathlib.Logic.Function.Basic
import Mathlib.Tactic.Linarith

/-! # Page tables and what they translate

A page-table entry is 64 bits: flags below bit 12, an address above. Tables live in memory, 512
entries each, and four levels of them translate an address; a large page at the second or third
level ends the walk early. An address is user-accessible, or writable, only if every entry on its
walk says so. -/

namespace NanoChrono.Paging

abbrev Entry := BitVec 64

def PRESENT : Entry := 0x1
def WRITABLE : Entry := 0x2
def USER : Entry := 0x4
def HUGE : Entry := 0x80
/-- The address bits of an entry. -/
def ADDR : Entry := 0x000FFFFFFFFFF000
/-- The address bits of a 2 MiB page's entry. -/
def FRAME : Entry := 0x000FFFFFFFE00000
/-- The address bits of a 1 GiB page's entry. -/
def GIGA_FRAME : Entry := 0x000FFFFFC0000000

namespace Entry

/-- The flag is set. -/
def Has (e flag : Entry) : Prop := e &&& flag ≠ 0#64

instance (e flag : Entry) : Decidable (Has e flag) := inferInstanceAs (Decidable (_ ≠ _))

/-- The address of the table, or of the 4 KiB page, an entry refers to. -/
def page (e : Entry) : Nat := (e &&& ADDR).toNat

/-- The address of the 2 MiB page an entry refers to. -/
def frame (e : Entry) : Nat := (e &&& FRAME).toNat

/-- Sets or clears a flag. -/
def setBit (e flag : Entry) (on : Bool) : Entry := if on then e ||| flag else e &&& ~~~flag

/-- Setting a flag leaves the bits outside it alone. -/
theorem setBit_and {flag mask : Entry} (h : flag &&& mask = 0#64) (e : Entry) (on : Bool) :
    e.setBit flag on &&& mask = e &&& mask := by
  have hbit : ∀ i, flag.getLsbD i = true → mask.getLsbD i = false := by
    intro i hi
    have := congrArg (BitVec.getLsbD · i) h
    simpa [hi] using this
  apply BitVec.eq_of_getLsbD_eq
  intro i hi
  cases on with
  | true =>
    simp only [setBit, if_true, BitVec.getLsbD_and, BitVec.getLsbD_or]
    cases hf : flag.getLsbD i with
    | false => rw [Bool.or_false]
    | true => rw [hbit i hf, Bool.and_false, Bool.and_false]
  | false =>
    simp only [setBit, Bool.false_eq_true, if_false, BitVec.getLsbD_and, BitVec.getLsbD_not, hi,
      decide_true, Bool.true_and]
    cases hf : flag.getLsbD i with
    | false => rw [Bool.not_false, Bool.and_true]
    | true => rw [hbit i hf, Bool.and_false, Bool.and_false]

theorem has_setBit_of_disjoint {flag other : Entry} (h : flag &&& other = 0#64) {e : Entry}
    {on : Bool} : Has (e.setBit flag on) other ↔ Has e other := by
  rw [Has, Has, setBit_and h]

theorem has_setBit {flag : Entry} (h : flag ≠ 0#64) {e : Entry} {on : Bool} :
    Has (e.setBit flag on) flag ↔ on = true := by
  cases on with
  | true =>
    have : (e ||| flag) &&& flag = flag := by
      rw [BitVec.and_or_distrib_right, BitVec.and_self]
      apply BitVec.eq_of_getLsbD_eq
      intro i _
      simp only [BitVec.getLsbD_or, BitVec.getLsbD_and]
      cases flag.getLsbD i <;> simp
    simpa [Has, setBit, this] using h
  | false =>
    have : e &&& ~~~flag &&& flag = 0#64 := by
      rw [BitVec.and_assoc]
      have : ~~~flag &&& flag = 0#64 := by
        apply BitVec.eq_of_getLsbD_eq
        intro i hi
        simp [hi]
      rw [this, BitVec.and_zero]
    simp [Has, setBit, this]

@[simp] theorem page_setBit {flag : Entry} (h : flag &&& ADDR = 0#64) (e : Entry) (on : Bool) :
    (e.setBit flag on).page = e.page := by
  rw [page, page, setBit_and h]

@[simp] theorem frame_setBit {flag : Entry} (h : flag &&& FRAME = 0#64) (e : Entry) (on : Bool) :
    (e.setBit flag on).frame = e.frame := by
  rw [frame, frame, setBit_and h]

/-! ## An address with flags below it -/

/-- A mask of the bits from `b` to 51 keeps an address aligned to `b` bits. -/
theorem ofNat_and_mask {mask : Entry} {b n : Nat}
    (hmask : ∀ i < 64, mask.getLsbD i = decide (b ≤ i ∧ i < 52)) (h : n % 2 ^ b = 0)
    (hn : n < 2 ^ 52) : (BitVec.ofNat 64 n) &&& mask = BitVec.ofNat 64 n := by
  apply BitVec.eq_of_getLsbD_eq
  intro i hi
  rw [BitVec.getLsbD_and, hmask i hi, BitVec.getLsbD_ofNat]
  by_cases hbit : n.testBit i = true
  · -- A set bit lies above the alignment and below the bound.
    have hlow : b ≤ i := by
      by_contra hlow
      have : (n % 2 ^ b).testBit i = true := by
        rw [Nat.testBit_mod_two_pow, hbit, decide_eq_true (by omega)]
        rfl
      rw [h] at this
      simp at this
    have hhigh : i < 52 := by
      by_contra hhigh
      have : n < 2 ^ i := lt_of_lt_of_le hn (Nat.pow_le_pow_right (by omega) (by omega))
      rw [Nat.testBit_lt_two_pow this] at hbit
      exact Bool.noConfusion hbit
    simp [hlow, hhigh]
  · simp [hbit]

theorem ofNat_and_addr {n : Nat} (h : n % 4096 = 0) (hn : n < 2 ^ 52) :
    (BitVec.ofNat 64 n) &&& ADDR = BitVec.ofNat 64 n :=
  ofNat_and_mask (b := 12) (by decide) h hn

theorem ofNat_and_frame {n : Nat} (h : n % 2 ^ 21 = 0) (hn : n < 2 ^ 52) :
    (BitVec.ofNat 64 n) &&& FRAME = BitVec.ofNat 64 n :=
  ofNat_and_mask (by decide) h hn

/-- A page-aligned address has no flags. -/
theorem ofNat_and_low {n : Nat} (h : n % 4096 = 0) {mask : Entry} (hm : mask.toNat < 4096) :
    (BitVec.ofNat 64 n) &&& mask = 0#64 := by
  apply BitVec.eq_of_getLsbD_eq
  intro i hi
  rw [BitVec.getLsbD_and, BitVec.getLsbD_ofNat, BitVec.getLsbD_zero]
  by_cases hlow : i < 12
  · have : n.testBit i = false := by
      have := congrArg (Nat.testBit · i) h
      simp only [show 4096 = 2 ^ 12 from rfl, Nat.testBit_mod_two_pow, Nat.zero_testBit,
        decide_eq_true hlow, Bool.true_and] at this
      exact this
    rw [this]
    simp
  · have : mask.getLsbD i = false := by
      apply Nat.testBit_lt_two_pow
      exact lt_of_lt_of_le hm (show 2 ^ 12 ≤ 2 ^ i from Nat.pow_le_pow_right (by omega) (by omega))
    rw [this]
    simp

section Made

variable {n : Nat} {flags : Entry}

/-- An entry made of a page-aligned address and flags refers to that address. -/
theorem page_made (h : n % 4096 = 0) (hn : n < 2 ^ 52) (hf : flags &&& ADDR = 0#64) :
    page (BitVec.ofNat 64 n ||| flags) = n := by
  rw [page, BitVec.and_or_distrib_right, hf, BitVec.or_zero, ofNat_and_addr h hn,
    BitVec.toNat_ofNat, Nat.mod_eq_of_lt (by omega)]

/-- The same of an address aligned to 2 MiB. -/
theorem frame_made (h : n % 2 ^ 21 = 0) (hn : n < 2 ^ 52) (hf : flags &&& FRAME = 0#64) :
    frame (BitVec.ofNat 64 n ||| flags) = n := by
  rw [frame, BitVec.and_or_distrib_right, hf, BitVec.or_zero, ofNat_and_frame h hn,
    BitVec.toNat_ofNat, Nat.mod_eq_of_lt (by omega)]

/-- An entry made of a page-aligned address and flags has just those flags. -/
theorem has_made (h : n % 4096 = 0) {flag : Entry} (hm : flag.toNat < 4096) :
    Has (BitVec.ofNat 64 n ||| flags) flag ↔ Has flags flag := by
  rw [Has, Has, BitVec.and_or_distrib_right, ofNat_and_low h hm, BitVec.zero_or]

end Made

end Entry

/-! ## Tables in memory -/

/-- The page tables in memory: an entry for each table's address and index. -/
abbrev Tables := Nat → Nat → Entry

namespace Tables

/-- Stores one entry. -/
def write (t : Tables) (page i : Nat) (e : Entry) : Tables :=
  fun p j => if p = page ∧ j = i then e else t p j

theorem write_apply (t : Tables) (page i : Nat) (e : Entry) (p j : Nat) :
    t.write page i e p j = if p = page ∧ j = i then e else t p j := rfl

@[simp] theorem write_self (t : Tables) (page i : Nat) (e : Entry) :
    t.write page i e page i = e := if_pos ⟨rfl, rfl⟩

/-- Other tables are not touched. -/
theorem write_of_page_ne {t : Tables} {page i p j : Nat} {e : Entry} (h : p ≠ page) :
    t.write page i e p j = t p j := if_neg fun hp => h hp.1

/-- Other entries of the table are not touched. -/
theorem write_of_index_ne {t : Tables} {page i p j : Nat} {e : Entry} (h : j ≠ i) :
    t.write page i e p j = t p j := if_neg fun hp => h hp.2

/-- The last store to an entry is the one that stays. -/
theorem write_write (t : Tables) (page i : Nat) (e e' : Entry) :
    (t.write page i e).write page i e' = t.write page i e' := by
  funext p j
  by_cases h : p = page ∧ j = i
  · simp only [write_apply, if_pos h]
  · simp only [write_apply, if_neg h]

end Tables

/-! ## Translation -/

/-- What an address is mapped to: the physical address, and what may be done there. -/
structure Mapping where
  phys : Nat
  writable : Bool
  user : Bool
deriving DecidableEq, Repr

/-- A mapping through the entries of a walk. -/
def Mapping.through (phys : Nat) (entries : List Entry) : Mapping :=
  ⟨phys, entries.all fun e => decide (e.Has WRITABLE), entries.all fun e => decide (e.Has USER)⟩

/-- The index an address has at the level that begins at a bit. -/
def index (bit a : Nat) : Nat := (a >>> bit) % 512

/-- The four-level walk from the tables' root. -/
def walk (t : Tables) (root a : Nat) : Option Mapping :=
  let e4 := t root (index 39 a)
  if ¬ e4.Has PRESENT then none else
  let e3 := t e4.page (index 30 a)
  if ¬ e3.Has PRESENT then none
  else if e3.Has HUGE then some (.through ((e3 &&& GIGA_FRAME).toNat + a % 2 ^ 30) [e4, e3])
  else
    let e2 := t e3.page (index 21 a)
    if ¬ e2.Has PRESENT then none
    else if e2.Has HUGE then some (.through (e2.frame + a % 2 ^ 21) [e4, e3, e2])
    else
      let e1 := t e2.page (index 12 a)
      if ¬ e1.Has PRESENT then none
      else some (.through (e1.page + a % 2 ^ 12) [e4, e3, e2, e1])

end NanoChrono.Paging
