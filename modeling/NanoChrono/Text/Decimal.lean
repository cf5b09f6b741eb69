import Mathlib.Tactic

/-! # Decimal numerals

A numeral is `Canonical` when it has digits only and no leading zero: those are the ones `Nat.toDigits`
writes, one for each number. Of two of them the longer is the larger, and of two of one length the one
that is larger at the first difference. -/

namespace NanoChrono.Decimal

/-- The number a numeral stands for. -/
def value (s : List Char) : Nat := Nat.ofDigitChars 10 s 0

/-- A digit's number. -/
def digit (c : Char) : Nat := c.toNat - '0'.toNat

/-- Digits only, without a leading zero. -/
structure Canonical (s : List Char) : Prop where
  ne_nil : s ≠ []
  digits : ∀ c ∈ s, c.isDigit = true
  head : 1 < s.length → s.head? ≠ some '0'

variable {s t : List Char} {c d : Char}

@[simp] theorem value_nil : value [] = 0 := rfl

theorem value_cons (c : Char) (s : List Char) : value (c :: s) = 10 ^ s.length * digit c + value s := by
  rw [value, Nat.ofDigitChars_cons, Nat.ofDigitChars_eq_ofDigitChars_zero, Nat.mul_zero, Nat.zero_add]
  rfl

theorem isDigit_iff : c.isDigit = true ↔ '0'.toNat ≤ c.toNat ∧ c.toNat ≤ '9'.toNat := by
  simp [Char.isDigit, UInt32.le_iff_toNat_le]

theorem digit_lt (h : c.isDigit = true) : digit c < 10 := by
  have hc := isDigit_iff.1 h
  rw [show '9'.toNat = 57 from rfl, show '0'.toNat = 48 from rfl] at hc
  rw [digit, show '0'.toNat = 48 from rfl]
  omega

theorem digit_pos (h : c.isDigit = true) (hne : c ≠ '0') : 0 < digit c := by
  have hc := isDigit_iff.1 h
  rw [show '9'.toNat = 57 from rfl, show '0'.toNat = 48 from rfl] at hc
  have hnat : c.toNat ≠ 48 := fun h0 => hne (Char.toNat_inj.1 h0)
  rw [digit, show '0'.toNat = 48 from rfl]
  omega

/-- A numeral is below the power of its length. -/
theorem value_lt (h : ∀ c ∈ s, c.isDigit = true) : value s < 10 ^ s.length := by
  induction s with
  | nil => decide
  | cons c s ih =>
    have hc := digit_lt (h c List.mem_cons_self)
    have hs := ih fun x hx => h x (List.mem_cons_of_mem c hx)
    calc value (c :: s) = 10 ^ s.length * digit c + value s := value_cons c s
      _ < 10 ^ s.length * digit c + 10 ^ s.length := by omega
      _ = 10 ^ s.length * (digit c + 1) := by ring
      _ ≤ 10 ^ s.length * 10 := Nat.mul_le_mul_left _ hc
      _ = 10 ^ (c :: s).length := by rw [List.length_cons, pow_succ]

/-- Without a leading zero a numeral reaches the power of its length less one. -/
theorem Canonical.le_value (h : Canonical s) (hlen : 1 < s.length) : 10 ^ (s.length - 1) ≤ value s := by
  cases s with
  | nil => exact absurd rfl h.ne_nil
  | cons c s =>
    have hc : 0 < digit c :=
      digit_pos (h.digits c List.mem_cons_self) fun h0 => h.head hlen (by rw [h0, List.head?_cons])
    rw [value_cons, List.length_cons, Nat.add_sub_cancel]
    exact (Nat.le_mul_of_pos_right _ hc).trans (Nat.le_add_right _ _)

/-- The shorter of two numerals is the smaller. -/
theorem value_lt_of_length (hs : Canonical s) (ht : Canonical t) (h : s.length < t.length) :
    value s < value t := by
  have hpos := List.length_pos_of_ne_nil hs.ne_nil
  calc value s < 10 ^ s.length := value_lt hs.digits
    _ ≤ 10 ^ (t.length - 1) := Nat.pow_le_pow_right (by decide) (by omega)
    _ ≤ value t := ht.le_value (by omega)

/-- Of two numerals of one length the first difference decides. -/
theorem value_lt_of_head (hs : ∀ x ∈ s, x.isDigit = true) (hlen : s.length = t.length)
    (h : c.toNat < d.toNat) (hc : c.isDigit = true) :
    value (c :: s) < value (d :: t) := by
  have hcd : digit c + 1 ≤ digit d := by
    have h0 := (isDigit_iff.1 hc).1
    rw [digit, digit]
    omega
  calc value (c :: s) = 10 ^ s.length * digit c + value s := value_cons c s
    _ < 10 ^ s.length * (digit c + 1) := by
        have := value_lt hs
        rw [Nat.mul_add]
        omega
    _ ≤ 10 ^ t.length * digit d := by
        rw [hlen]
        exact Nat.mul_le_mul_left _ hcd
    _ ≤ value (d :: t) := by
        rw [value_cons]
        exact Nat.le_add_right _ _

/-- Numerals of one length and one value are the same. -/
theorem eq_of_value_eq (hs : ∀ x ∈ s, x.isDigit = true) (ht : ∀ x ∈ t, x.isDigit = true)
    (hlen : s.length = t.length) (h : value s = value t) : s = t := by
  induction s generalizing t with
  | nil => exact (List.length_eq_zero_iff.1 hlen.symm).symm
  | cons c s ih =>
    cases t with
    | nil => cases hlen
    | cons d t =>
      have hlen' : s.length = t.length := Nat.succ.inj hlen
      have hs' : ∀ x ∈ s, x.isDigit = true := fun x hx => hs x (List.mem_cons_of_mem c hx)
      have ht' : ∀ x ∈ t, x.isDigit = true := fun x hx => ht x (List.mem_cons_of_mem d hx)
      have hc := hs c List.mem_cons_self
      have hd := ht d List.mem_cons_self
      rcases Nat.lt_trichotomy c.toNat d.toNat with hlt | heq | hgt
      · exact absurd h (value_lt_of_head hs' hlen' hlt hc).ne
      · obtain rfl := Char.toNat_inj.1 heq
        rw [value_cons, value_cons, hlen'] at h
        rw [ih hs' ht' hlen' (Nat.add_left_cancel h)]
      · exact absurd h (value_lt_of_head ht' hlen'.symm hgt hd).ne'

/-- A number has one numeral. -/
theorem Canonical.unique (hs : Canonical s) (ht : Canonical t) (h : value s = value t) : s = t := by
  rcases Nat.lt_trichotomy s.length t.length with hlt | heq | hgt
  · exact absurd h (value_lt_of_length hs ht hlt).ne
  · exact eq_of_value_eq hs.digits ht.digits heq h
  · exact absurd h (value_lt_of_length ht hs hgt).ne'

/-! ## What `Nat.toDigits` writes -/

@[simp] theorem value_toDigits (n : Nat) : value (Nat.toDigits 10 n) = n := Nat.ofDigitChars_ten_toDigits

theorem head_toDigits {n : Nat} (h : 0 < n) : (Nat.toDigits 10 n).head? ≠ some '0' := by
  induction n using Nat.strong_induction_on with
  | _ n ih =>
    by_cases hn : n < 10
    · rw [Nat.toDigits_of_lt_base hn]
      interval_cases n <;> decide
    · rw [Nat.toDigits_of_base_le (by decide) (by omega), List.head?_append,
        Option.or_of_isSome (by rw [List.isSome_head?]; exact Nat.toDigits_ne_nil)]
      exact ih (n / 10) (by omega) (by omega)

theorem canonical_toDigits (n : Nat) : Canonical (Nat.toDigits 10 n) where
  ne_nil := Nat.toDigits_ne_nil
  digits := fun _ hc => Nat.isDigit_of_mem_toDigits (by decide) (by decide) hc
  head := by
    intro hlen
    refine head_toDigits (Nat.pos_of_ne_zero ?_)
    rintro rfl
    rw [Nat.toDigits_zero] at hlen
    exact absurd hlen (by decide)

/-- A numeral is the one of its number. -/
theorem Canonical.toDigits_value (h : Canonical s) : Nat.toDigits 10 (value s) = s :=
  (canonical_toDigits _).unique h (value_toDigits _)

end NanoChrono.Decimal
