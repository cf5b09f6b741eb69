import NanoChrono.Ncpkg.Signatures

/-! # One spelling

Bytes are written in groups of four characters, and a group is read only in the way it is written: what
decodes is the encoding of what it decodes to. -/

namespace NanoChrono.Ncpkg.Base64

/-! ## Writing -/

/-- The characters of the alphabet, in the order of what they stand for. -/
def ALPHABET : Bytes := textBytes "ABCDEFGHIJKLMNOPQRSTUVWXYZabcdefghijklmnopqrstuvwxyz0123456789+/"

/-- The character that stands for a number below 64. -/
def digit (d : Nat) : UInt8 := ALPHABET.getD d 0

/-- The encoded length of `n` bytes. -/
def encodedLen (n : Nat) : Nat := (n + 2) / 3 * 4

/-- The group of `n` of three bytes. -/
def encodeChunk (n : Nat) (a b c : UInt8) : Bytes :=
  let acc := a.toNat * 2 ^ 16 + b.toNat * 2 ^ 8 + c.toNat
  (List.range 4).map fun j => if j ≤ n then digit (acc / 2 ^ (18 - 6 * j) % 64) else padding

/-- The groups of bytes. -/
@[grind =] def encodeChunks : Bytes → Bytes
  | a :: b :: c :: rest => encodeChunk 3 a b c ++ encodeChunks rest
  | [a, b] => encodeChunk 2 a b 0
  | [a] => encodeChunk 1 a 0 0
  | [] => []

/-- Encodes bytes into `room` characters, if they fit. All of them are ASCII. -/
def encode (data : Bytes) (room : Nat) : Option Bytes :=
  if encodedLen data.length ≤ room then some (encodeChunks data) else none

/-! ## Characters -/

/-- The letters, the digits and two more. -/
theorem ALPHABET_eq : ALPHABET =
    [0x41, 0x42, 0x43, 0x44, 0x45, 0x46, 0x47, 0x48, 0x49, 0x4A, 0x4B, 0x4C, 0x4D, 0x4E, 0x4F, 0x50,
      0x51, 0x52, 0x53, 0x54, 0x55, 0x56, 0x57, 0x58, 0x59, 0x5A, 0x61, 0x62, 0x63, 0x64, 0x65, 0x66,
      0x67, 0x68, 0x69, 0x6A, 0x6B, 0x6C, 0x6D, 0x6E, 0x6F, 0x70, 0x71, 0x72, 0x73, 0x74, 0x75, 0x76,
      0x77, 0x78, 0x79, 0x7A, 0x30, 0x31, 0x32, 0x33, 0x34, 0x35, 0x36, 0x37, 0x38, 0x39, 0x2B, 0x2F] := by
  rfl

theorem value_digit {d : Nat} (h : d < 64) : value (digit d) = some d := by
  have hall : (List.range 64).all (fun d => value (digit d) == some d) = true := by
    simp only [digit, ALPHABET_eq]
    rfl
  exact eq_of_beq (List.all_eq_true.1 hall d (List.mem_range.2 h))

theorem digit_ne_padding {d : Nat} (h : d < 64) : digit d ≠ padding := by
  intro heq
  have hvalue := value_digit h
  have hnone : value padding = none := by decide
  rw [heq, hnone] at hvalue
  cases hvalue

/-- The character that stands for a number, by the range the number is in. -/
theorem toNat_of_value {c : UInt8} {d : Nat} (h : value c = some d) : d < 64 ∧
    c.toNat = if d < 26 then d + 0x41 else if d < 52 then d - 26 + 0x61 else if d < 62 then d - 52 + 0x30
      else if d = 62 then 0x2B else 0x2F := by
  have hle : ∀ {m n : UInt8}, m ≤ n → m.toNat ≤ n.toNat := id
  unfold value at h
  split_ifs at h with hupper hlower hnumber hplus hslash
  · have h₁ : 0x41 ≤ c.toNat := hle hupper.1
    have h₂ : c.toNat ≤ 0x5A := hle hupper.2
    obtain rfl := Option.some.inj h
    split_ifs <;> omega
  · have h₁ : 0x61 ≤ c.toNat := hle hlower.1
    have h₂ : c.toNat ≤ 0x7A := hle hlower.2
    obtain rfl := Option.some.inj h
    split_ifs <;> omega
  · have h₁ : 0x30 ≤ c.toNat := hle hnumber.1
    have h₂ : c.toNat ≤ 0x39 := hle hnumber.2
    obtain rfl := Option.some.inj h
    split_ifs <;> omega
  · obtain rfl := Option.some.inj h
    exact ⟨by decide, congrArg UInt8.toNat hplus⟩
  · obtain rfl := Option.some.inj h
    exact ⟨by decide, congrArg UInt8.toNat hslash⟩

/-- A character stands for one number, and is the one that does. -/
theorem digit_of_value {c : UInt8} {d : Nat} (h : value c = some d) : d < 64 ∧ digit d = c := by
  obtain ⟨hd, hc⟩ := toNat_of_value h
  exact ⟨hd, UInt8.toNat_inj.1 ((toNat_of_value (value_digit hd)).2.trans hc.symm)⟩

/-! ## Groups -/

/-- The three bytes of 24 bits. -/
def bytesOf (acc : Nat) : Bytes := [.ofNat (acc / 2 ^ 16), .ofNat (acc / 2 ^ 8), .ofNat acc]

section Groups

variable {d₀ d₁ d₂ d₃ : Nat}

theorem decodeQuad_four (last : Bool) (h₀ : d₀ < 64) (h₁ : d₁ < 64) (h₂ : d₂ < 64) (h₃ : d₃ < 64) :
    decodeQuad last [digit d₀, digit d₁, digit d₂, digit d₃] =
      some (bytesOf (((d₀ * 64 + d₁) * 64 + d₂) * 64 + d₃)) := by
  have hcount : (if last then [digit d₀, digit d₁, digit d₂, digit d₃].count padding else 0) = 0 := by
    simp [digit_ne_padding, h₀, h₁, h₂, h₃]
  rw [decodeQuad, hcount]
  simp [value_digit, (digit_ne_padding _).symm, h₀, h₁, h₂, h₃, bytesOf, guard]

theorem decodeQuad_three (h₀ : d₀ < 64) (h₁ : d₁ < 64) (h₂ : d₂ < 64) :
    decodeQuad true [digit d₀, digit d₁, digit d₂, padding] =
      if UInt8.ofNat (((d₀ * 64 + d₁) * 64 + d₂) * 64) = 0 then
        some ((bytesOf (((d₀ * 64 + d₁) * 64 + d₂) * 64)).take 2)
      else none := by
  have hcount : [digit d₀, digit d₁, digit d₂, padding].count padding = 1 := by
    simp [digit_ne_padding, h₀, h₁, h₂]
  rw [decodeQuad, if_pos rfl, hcount]
  simp [value_digit, (digit_ne_padding _).symm, h₀, h₁, h₂, bytesOf, guard]
  split <;> rfl

theorem decodeQuad_two (h₀ : d₀ < 64) (h₁ : d₁ < 64) :
    decodeQuad true [digit d₀, digit d₁, padding, padding] =
      if UInt8.ofNat ((d₀ * 64 + d₁) * 64 ^ 2 / 2 ^ 8) = 0 ∧ UInt8.ofNat ((d₀ * 64 + d₁) * 64 ^ 2) = 0 then
        some ((bytesOf ((d₀ * 64 + d₁) * 64 ^ 2)).take 1)
      else none := by
  have hcount : [digit d₀, digit d₁, padding, padding].count padding = 2 := by
    simp [digit_ne_padding, h₀, h₁]
  rw [decodeQuad, if_pos rfl, hcount]
  simp [value_digit, (digit_ne_padding _).symm, h₀, h₁, bytesOf, guard]
  split <;> rfl

/-- Where all characters are read, each one stands for a number. -/
theorem value_of_mapM {text : Bytes} {digits : List Nat} (h : text.mapM value = some digits) :
    ∀ c ∈ text, ∃ d, value c = some d := by
  induction text generalizing digits with
  | nil => exact fun c hc => absurd hc List.not_mem_nil
  | cons c text ih =>
    rw [List.mapM_cons, Option.bind_eq_bind, Option.bind_eq_some_iff] at h
    obtain ⟨d, hd, h⟩ := h
    rw [Option.bind_eq_bind, Option.bind_eq_some_iff] at h
    obtain ⟨ds, hds, -⟩ := h
    exact List.forall_mem_cons.2 ⟨⟨d, hd⟩, ih hds⟩

/-- What is read of a group before its padding: characters of the alphabet. -/
theorem digits_of_decodeQuad {last : Bool} {quad bytes : Bytes} (h : decodeQuad last quad = some bytes) :
    (last = false → padding ∉ quad) ∧
      let kept := quad.take (4 - if last then quad.count padding else 0)
      padding ∉ kept ∧ ∀ c ∈ kept, ∃ d < 64, digit d = c := by
  rw [decodeQuad, Option.bind_eq_bind, Option.bind_eq_some_iff] at h
  obtain ⟨_, hguard, h⟩ := h
  rw [Option.bind_eq_bind, Option.bind_eq_some_iff] at h
  obtain ⟨digits, hdigits, -⟩ := h
  rw [Option.guard_eq_some', Bool.or_eq_true, not_or] at hguard
  obtain ⟨hmiddle, hkept⟩ := hguard
  refine ⟨fun hlast => by simpa [hlast] using hmiddle, by simpa using hkept, fun c hc => ?_⟩
  obtain ⟨d, hd⟩ := value_of_mapM hdigits c hc
  exact ⟨d, digit_of_value hd⟩

/-- A group that is read consists of characters of the alphabet and, in the last, of the padding after
them. -/
theorem decodeQuad_cases {last : Bool} {w x y z : UInt8} {bytes : Bytes}
    (h : decodeQuad last [w, x, y, z] = some bytes)
    (hpad : last = true → ¬(x = padding ∧ y = padding ∧ z = padding)) :
    ∃ d₀ < 64, ∃ d₁ < 64, digit d₀ = w ∧ digit d₁ = x ∧
      ((∃ d₂ < 64, ∃ d₃ < 64, digit d₂ = y ∧ digit d₃ = z) ∨
        (last = true ∧ z = padding ∧ ∃ d₂ < 64, digit d₂ = y) ∨
        (last = true ∧ y = padding ∧ z = padding)) := by
  obtain ⟨hmiddle, hkept, hdigits⟩ := digits_of_decodeQuad h
  have hcount : (if last then [w, x, y, z].count padding else 0) = [w, x, y, z].count padding := by
    cases last with
    | false => exact (List.count_eq_zero_of_not_mem (hmiddle rfl)).symm
    | true => rfl
  rw [hcount] at hkept hdigits
  -- As many characters are dropped as are padding, and none is among those kept.
  by_cases hz : z = padding
  · have hlast : last = true := by
      by_contra hne
      exact hmiddle (by simpa using hne) (by simp [hz])
    by_cases hy : y = padding
    · have hx : x ≠ padding := fun hx => hpad hlast ⟨hx, hy, hz⟩
      have hw : w ≠ padding := by
        rintro rfl
        simp [hx, hy, hz] at hkept
      simp [hw, hx, hy, hz] at hdigits
      obtain ⟨⟨d₀, h₀, hd₀⟩, d₁, h₁, hd₁⟩ := hdigits
      exact ⟨d₀, h₀, d₁, h₁, hd₀, hd₁, .inr (.inr ⟨hlast, hy, hz⟩)⟩
    · have hw : w ≠ padding := by
        rintro rfl
        by_cases hx : x = padding <;> simp [hx, hy, hz] at hkept
      have hx : x ≠ padding := by
        rintro rfl
        simp [hw, hy, hz] at hkept
      simp [hw, hx, hy, hz] at hdigits
      obtain ⟨⟨d₀, h₀, hd₀⟩, ⟨d₁, h₁, hd₁⟩, d₂, h₂, hd₂⟩ := hdigits
      exact ⟨d₀, h₀, d₁, h₁, hd₀, hd₁, .inr (.inl ⟨hlast, hz, d₂, h₂, hd₂⟩)⟩
  · have hw : w ≠ padding := by
      rintro rfl
      by_cases hx : x = padding <;> by_cases hy : y = padding <;> simp [hx, hy, hz] at hkept
    have hx : x ≠ padding := by
      rintro rfl
      by_cases hy : y = padding <;> simp [hw, hy, hz] at hkept
    have hy : y ≠ padding := by
      rintro rfl
      simp [hw, hx, hz] at hkept
    simp [hw, hx, hy, hz] at hdigits
    obtain ⟨⟨d₀, h₀, hd₀⟩, ⟨d₁, h₁, hd₁⟩, ⟨d₂, h₂, hd₂⟩, d₃, h₃, hd₃⟩ := hdigits
    exact ⟨d₀, h₀, d₁, h₁, hd₀, hd₁, .inl ⟨d₂, h₂, d₃, h₃, hd₂, hd₃⟩⟩

/-- The bits of three bytes, as digits. -/
theorem encodeChunk_three (a b c : UInt8) {acc : Nat}
    (hacc : acc = a.toNat * 2 ^ 16 + b.toNat * 2 ^ 8 + c.toNat) :
    encodeChunk 3 a b c = [digit (acc / 2 ^ 18 % 64), digit (acc / 2 ^ 12 % 64), digit (acc / 2 ^ 6 % 64),
      digit (acc % 64)] := by
  subst hacc
  simp [encodeChunk, List.range_succ]

theorem encodeChunk_two (a b : UInt8) {acc : Nat} (hacc : acc = a.toNat * 2 ^ 16 + b.toNat * 2 ^ 8) :
    encodeChunk 2 a b 0 =
      [digit (acc / 2 ^ 18 % 64), digit (acc / 2 ^ 12 % 64), digit (acc / 2 ^ 6 % 64), padding] := by
  subst hacc
  simp [encodeChunk, List.range_succ]

theorem encodeChunk_one (a : UInt8) {acc : Nat} (hacc : acc = a.toNat * 2 ^ 16) :
    encodeChunk 1 a 0 0 = [digit (acc / 2 ^ 18 % 64), digit (acc / 2 ^ 12 % 64), padding, padding] := by
  subst hacc
  simp [encodeChunk, List.range_succ]

/-- Three bytes are read from their bits. -/
theorem bytesOf_acc (a b c : UInt8) : bytesOf (a.toNat * 2 ^ 16 + b.toNat * 2 ^ 8 + c.toNat) = [a, b, c] := by
  have ha := a.toNat_lt
  have hb := b.toNat_lt
  have hc := c.toNat_lt
  have hfirst : UInt8.ofNat ((a.toNat * 2 ^ 16 + b.toNat * 2 ^ 8 + c.toNat) / 2 ^ 16) = a := by
    apply UInt8.toNat_inj.1
    rw [UInt8.toNat_ofNat']
    omega
  have hsecond : UInt8.ofNat ((a.toNat * 2 ^ 16 + b.toNat * 2 ^ 8 + c.toNat) / 2 ^ 8) = b := by
    apply UInt8.toNat_inj.1
    rw [UInt8.toNat_ofNat']
    omega
  have hthird : UInt8.ofNat (a.toNat * 2 ^ 16 + b.toNat * 2 ^ 8 + c.toNat) = c := by
    apply UInt8.toNat_inj.1
    rw [UInt8.toNat_ofNat']
    omega
  rw [bytesOf, hfirst, hsecond, hthird]

/-- The bits of the three bytes of 24 bits. -/
theorem acc_bytesOf {acc : Nat} (h : acc < 2 ^ 24) :
    acc = (UInt8.ofNat (acc / 2 ^ 16)).toNat * 2 ^ 16 + (UInt8.ofNat (acc / 2 ^ 8)).toNat * 2 ^ 8 +
      (UInt8.ofNat acc).toNat := by
  rw [UInt8.toNat_ofNat', UInt8.toNat_ofNat', UInt8.toNat_ofNat']
  omega

/-! ### A group and back -/

theorem mod_digit (n : Nat) : n % 64 < 64 := Nat.mod_lt n (Nat.zero_lt_succ 63)

theorem decodeQuad_encodeChunk_three (last : Bool) (a b c : UInt8) :
    decodeQuad last (encodeChunk 3 a b c) = some [a, b, c] := by
  have ha := a.toNat_lt
  rw [encodeChunk_three a b c rfl,
    decodeQuad_four last (mod_digit _) (mod_digit _) (mod_digit _) (mod_digit _), ← bytesOf_acc]
  have hb := b.toNat_lt
  have hc := c.toNat_lt
  congr 2
  omega

theorem decodeQuad_encodeChunk_two (a b : UInt8) :
    decodeQuad true (encodeChunk 2 a b 0) = some [a, b] := by
  have ha := a.toNat_lt
  have hb := b.toNat_lt
  have hacc : (((a.toNat * 2 ^ 16 + b.toNat * 2 ^ 8) / 2 ^ 18 % 64 * 64 +
      (a.toNat * 2 ^ 16 + b.toNat * 2 ^ 8) / 2 ^ 12 % 64) * 64 +
      (a.toNat * 2 ^ 16 + b.toNat * 2 ^ 8) / 2 ^ 6 % 64) * 64 =
      a.toNat * 2 ^ 16 + b.toNat * 2 ^ 8 + (0 : UInt8).toNat := by
    rw [UInt8.toNat_zero]
    omega
  have hzero : UInt8.ofNat (a.toNat * 2 ^ 16 + b.toNat * 2 ^ 8 + (0 : UInt8).toNat) = 0 := by
    apply UInt8.toNat_inj.1
    rw [UInt8.toNat_ofNat', UInt8.toNat_zero]
    omega
  rw [encodeChunk_two a b rfl, decodeQuad_three (mod_digit _) (mod_digit _) (mod_digit _), hacc, if_pos hzero,
    bytesOf_acc]
  rfl

theorem decodeQuad_encodeChunk_one (a : UInt8) :
    decodeQuad true (encodeChunk 1 a 0 0) = some [a] := by
  have ha := a.toNat_lt
  have hacc : (a.toNat * 2 ^ 16 / 2 ^ 18 % 64 * 64 + a.toNat * 2 ^ 16 / 2 ^ 12 % 64) * 64 ^ 2 =
      a.toNat * 2 ^ 16 + (0 : UInt8).toNat * 2 ^ 8 + (0 : UInt8).toNat := by
    rw [UInt8.toNat_zero]
    omega
  have hshift : a.toNat * 2 ^ 16 + (0 : UInt8).toNat * 2 ^ 8 + (0 : UInt8).toNat = a.toNat * 2 ^ 8 * 2 ^ 8 := by
    simp only [UInt8.toNat_zero, Nat.zero_mul, Nat.add_zero, Nat.mul_assoc, ← Nat.pow_add]
  have hzero : UInt8.ofNat ((a.toNat * 2 ^ 16 + (0 : UInt8).toNat * 2 ^ 8 + (0 : UInt8).toNat) / 2 ^ 8) = 0 ∧
      UInt8.ofNat (a.toNat * 2 ^ 16 + (0 : UInt8).toNat * 2 ^ 8 + (0 : UInt8).toNat) = 0 := by
    rw [hshift, Nat.mul_div_cancel _ (Nat.two_pow_pos 8)]
    constructor <;>
    · apply UInt8.toNat_inj.1
      rw [UInt8.toNat_ofNat', UInt8.toNat_zero]
      exact Nat.mul_mod_left _ _
  rw [encodeChunk_one a rfl, decodeQuad_two (mod_digit _) (mod_digit _), hacc, if_pos hzero, bytesOf_acc]
  rfl

/-- A group that is read is the one its bytes are written in. -/
theorem encodeChunk_of_decodeQuad {last : Bool} {w x y z : UInt8} {bytes : Bytes}
    (h : decodeQuad last [w, x, y, z] = some bytes)
    (hpad : last = true → ¬(x = padding ∧ y = padding ∧ z = padding)) :
    (∃ a b c, bytes = [a, b, c] ∧ encodeChunk 3 a b c = [w, x, y, z] ∧ z ≠ padding) ∨
      (last = true ∧ y ≠ padding ∧ z = padding ∧ ∃ a b, bytes = [a, b] ∧ encodeChunk 2 a b 0 = [w, x, y, z]) ∨
      (last = true ∧ y = padding ∧ z = padding ∧ ∃ a, bytes = [a] ∧ encodeChunk 1 a 0 0 = [w, x, y, z]) := by
  obtain ⟨d₀, h₀, d₁, h₁, rfl, rfl, hcases⟩ := decodeQuad_cases h hpad
  rcases hcases with ⟨d₂, h₂, d₃, h₃, rfl, rfl⟩ | ⟨rfl, rfl, d₂, h₂, rfl⟩ | ⟨rfl, rfl, rfl⟩
  · rw [decodeQuad_four last h₀ h₁ h₂ h₃] at h
    refine .inl ⟨_, _, _, (Option.some.inj h).symm, ?_, digit_ne_padding h₃⟩
    have hd₀ : (((d₀ * 64 + d₁) * 64 + d₂) * 64 + d₃) / 2 ^ 18 % 64 = d₀ := by omega
    have hd₁ : (((d₀ * 64 + d₁) * 64 + d₂) * 64 + d₃) / 2 ^ 12 % 64 = d₁ := by omega
    have hd₂ : (((d₀ * 64 + d₁) * 64 + d₂) * 64 + d₃) / 2 ^ 6 % 64 = d₂ := by omega
    have hd₃ : (((d₀ * 64 + d₁) * 64 + d₂) * 64 + d₃) % 64 = d₃ := by omega
    rw [encodeChunk_three _ _ _ (acc_bytesOf (by omega)), hd₀, hd₁, hd₂, hd₃]
  · rw [decodeQuad_three h₀ h₁ h₂] at h
    split at h
    case isFalse => cases h
    case isTrue hzero =>
      refine .inr (.inl ⟨rfl, digit_ne_padding h₂, rfl, _, _, (Option.some.inj h).symm, ?_⟩)
      have hacc := @acc_bytesOf (((d₀ * 64 + d₁) * 64 + d₂) * 64) (by omega)
      rw [hzero, UInt8.toNat_zero, Nat.add_zero] at hacc
      have hd₀ : ((d₀ * 64 + d₁) * 64 + d₂) * 64 / 2 ^ 18 % 64 = d₀ := by omega
      have hd₁ : ((d₀ * 64 + d₁) * 64 + d₂) * 64 / 2 ^ 12 % 64 = d₁ := by omega
      have hd₂ : ((d₀ * 64 + d₁) * 64 + d₂) * 64 / 2 ^ 6 % 64 = d₂ := by omega
      rw [encodeChunk_two _ _ hacc, hd₀, hd₁, hd₂]
  · rw [decodeQuad_two h₀ h₁] at h
    split at h
    case isFalse => cases h
    case isTrue hzero =>
      refine .inr (.inr ⟨rfl, rfl, rfl, _, (Option.some.inj h).symm, ?_⟩)
      have hacc := @acc_bytesOf ((d₀ * 64 + d₁) * 64 ^ 2) (by omega)
      rw [hzero.1, hzero.2, UInt8.toNat_zero, Nat.zero_mul, Nat.add_zero] at hacc
      have hd₀ : (d₀ * 64 + d₁) * 64 ^ 2 / 2 ^ 18 % 64 = d₀ := by omega
      have hd₁ : (d₀ * 64 + d₁) * 64 ^ 2 / 2 ^ 12 % 64 = d₁ := by omega
      rw [encodeChunk_one _ hacc, hd₀, hd₁]

end Groups

/-! ## Texts -/

/-- The padding at the end of a text. -/
def trailing (text : Bytes) : Nat := (text.reverse.takeWhile (· == padding)).length

theorem decodedLen_eq_some {text : Bytes} {n : Nat} :
    decodedLen text = some n ↔
      text.length % 4 = 0 ∧ trailing text ≤ 2 ∧ text.length / 4 * 3 - trailing text = n := by
  rw [decodedLen, trailing]
  split_ifs <;> simp <;> omega

/-- Padding goes on into what stands before a text of padding only. -/
theorem trailing_append (text rest : Bytes) :
    trailing (text ++ rest) =
      if trailing rest = rest.length then rest.length + trailing text else trailing rest := by
  unfold trailing
  rw [List.reverse_append, List.takeWhile_append, List.length_reverse]
  split_ifs <;> simp

theorem trailing_le_append (text rest : Bytes) : trailing rest ≤ trailing (text ++ rest) := by
  rw [trailing_append]
  split_ifs <;> omega

@[simp]
theorem length_encodeChunk (n : Nat) (a b c : UInt8) : (encodeChunk n a b c).length = 4 := by
  simp [encodeChunk]

theorem length_encodeChunks (data : Bytes) : (encodeChunks data).length = encodedLen data.length := by
  fun_induction encodeChunks data with
  | case1 a b c rest ih =>
    rw [List.length_append, length_encodeChunk, ih, encodedLen, encodedLen]
    simp only [List.length_cons]
    omega
  | case2 a b =>
    exact (length_encodeChunk _ _ _ _).trans (by simp [encodedLen])
  | case3 a =>
    exact (length_encodeChunk _ _ _ _).trans (by simp [encodedLen])
  | case4 => rfl

theorem digit_mod_ne_padding (n : Nat) : (digit (n % 64) == padding) = false :=
  beq_false_of_ne (digit_ne_padding (Nat.mod_lt n (by decide)))

theorem trailing_encodeChunk_three (a b c : UInt8) : trailing (encodeChunk 3 a b c) = 0 := by
  rw [encodeChunk_three a b c rfl, trailing]
  simp [digit_mod_ne_padding]

theorem trailing_encodeChunk_two (a b : UInt8) : trailing (encodeChunk 2 a b 0) = 1 := by
  rw [encodeChunk_two a b rfl, trailing]
  simp [digit_mod_ne_padding]

theorem trailing_encodeChunk_one (a : UInt8) : trailing (encodeChunk 1 a 0 0) = 2 := by
  rw [encodeChunk_one a rfl, trailing]
  simp [digit_mod_ne_padding]

/-- The last group is padded to four characters, and nothing else is. -/
theorem trailing_encodeChunks (data : Bytes) :
    trailing (encodeChunks data) = (3 - data.length % 3) % 3 := by
  fun_induction encodeChunks data with
  | case1 a b c rest ih =>
    have hlength := length_encodeChunks rest
    rw [encodedLen] at hlength
    rw [trailing_append, ih, trailing_encodeChunk_three]
    simp only [List.length_cons]
    -- Three more bytes change nothing, and a text that is not empty has a digit in it.
    split_ifs <;> omega
  | case2 a b => exact trailing_encodeChunk_two a b
  | case3 a => exact trailing_encodeChunk_one a
  | case4 => rfl

/-- The length of what a text is written from is known from the text. -/
theorem decodedLen_encodeChunks (data : Bytes) : decodedLen (encodeChunks data) = some data.length := by
  have hlength := length_encodeChunks data
  have htrailing := trailing_encodeChunks data
  rw [encodedLen] at hlength
  exact decodedLen_eq_some.2 ⟨by omega, by omega, by omega⟩

/-- A group and the groups after it. -/
theorem decodeQuads_append {room : Nat} {quad rest bytes tail : Bytes} (hlength : quad.length = 4)
    (hquad : decodeQuad rest.isEmpty quad = some bytes) (hrest : decodeQuads room rest = some tail) :
    decodeQuads (bytes.length + room) (quad ++ rest) = some (bytes ++ tail) := by
  obtain ⟨w, x, y, z, rfl⟩ := List.length_eq_four.1 hlength
  change decodeQuads _ (w :: x :: y :: z :: rest) = _
  rw [decodeQuads, hquad]
  simp [hrest, guard]

/-- The groups are read as they were written. -/
theorem decodeQuads_encodeChunks (data : Bytes) :
    decodeQuads data.length (encodeChunks data) = some data := by
  have hnil : decodeQuads 0 [] = some [] := rfl
  fun_induction encodeChunks data with
  | case1 a b c rest ih =>
    rw [List.length_cons, List.length_cons, List.length_cons, Nat.add_assoc, Nat.add_assoc, Nat.add_comm]
    exact decodeQuads_append (length_encodeChunk 3 a b c) (decodeQuad_encodeChunk_three _ a b c) ih
  | case2 a b =>
    rw [← List.append_nil (encodeChunk 2 a b 0)]
    exact @decodeQuads_append _ _ [] _ _ (length_encodeChunk 2 a b 0) (decodeQuad_encodeChunk_two a b) hnil
  | case3 a =>
    rw [← List.append_nil (encodeChunk 1 a 0 0)]
    exact @decodeQuads_append 0 _ [] [a] [] (length_encodeChunk 1 a 0 0) (decodeQuad_encodeChunk_one a) hnil
  | case4 => rfl

/-- What is read of groups is what they are written in. -/
theorem encodeChunks_of_decodeQuads {room : Nat} {text data : Bytes} (h : decodeQuads room text = some data)
    (hlength : text.length % 4 = 0) (hpad : trailing text ≤ 2) : encodeChunks data = text := by
  fun_induction decodeQuads room text generalizing data with
  | case1 room a b c d rest ih =>
    obtain ⟨quad, hquad, h⟩ := Option.bind_eq_some_iff.1 h
    obtain ⟨_, -, h⟩ := Option.bind_eq_some_iff.1 h
    obtain ⟨tail, htail, h⟩ := Option.bind_eq_some_iff.1 h
    obtain rfl := Option.some.inj h
    have hrest : encodeChunks tail = rest :=
      ih quad htail (by simp only [List.length_cons] at hlength; omega)
        ((trailing_le_append [a, b, c, d] rest).trans hpad)
    have hlast : rest.isEmpty = true → ¬(b = padding ∧ c = padding ∧ d = padding) := by
      rintro hempty ⟨rfl, rfl, rfl⟩
      rw [List.isEmpty_iff.1 hempty] at hpad
      by_cases ha : a = padding <;> simp [trailing, ha] at hpad
    rcases encodeChunk_of_decodeQuad hquad hlast with ⟨x, y, z, rfl, hchunk, -⟩ |
      ⟨hempty, -, -, x, y, rfl, hchunk⟩ | ⟨hempty, -, -, x, rfl, hchunk⟩
    · rw [List.cons_append, List.cons_append, List.cons_append, List.nil_append, encodeChunks, hchunk, hrest]
      rfl
    · -- A shorter group is the last.
      obtain rfl := List.isEmpty_iff.1 hempty
      obtain rfl : tail = [] := by simpa [decodeQuads] using htail.symm
      rw [List.append_nil, encodeChunks, hchunk]
    · obtain rfl := List.isEmpty_iff.1 hempty
      obtain rfl : tail = [] := by simpa [decodeQuads] using htail.symm
      rw [List.append_nil, encodeChunks, hchunk]
  | case2 text room hshort =>
    obtain rfl := Option.some.inj h
    rcases text with _ | ⟨w, _ | ⟨x, _ | ⟨y, _ | ⟨z, rest⟩⟩⟩⟩
    · rfl
    · simp at hlength
    · simp at hlength
    · simp at hlength
    · exact absurd rfl (hshort w x y z rest)

/-- A text that bytes are written in is read as these wherever they fit, and nowhere else. -/
theorem decode_encodeChunks (data : Bytes) (room : Nat) :
    decode (encodeChunks data) room = if data.length ≤ room then some data else none := by
  rw [decode, decodedLen_encodeChunks]
  split_ifs with hroom
  · simp [decodeQuads_encodeChunks, hroom, guard]
  · simp [hroom, guard]

/-- A text is decoded if it is what its bytes are written in, and these fit. -/
theorem decode_eq_some {text data : Bytes} {room : Nat} :
    decode text room = some data ↔ encodeChunks data = text ∧ data.length ≤ room := by
  constructor
  · intro h
    obtain ⟨n, hn, h⟩ := Option.bind_eq_some_iff.1 h
    obtain ⟨_, hroom, h⟩ := Option.bind_eq_some_iff.1 h
    rw [Option.guard_eq_some'] at hroom
    obtain ⟨hlength, hpad, -⟩ := decodedLen_eq_some.1 hn
    have htext := encodeChunks_of_decodeQuads h hlength hpad
    rw [← htext, decodedLen_encodeChunks, Option.some.injEq] at hn
    exact ⟨htext, hn.trans_le hroom⟩
  · rintro ⟨rfl, hroom⟩
    rw [decode_encodeChunks, if_pos hroom]

theorem encode_eq_some {data text : Bytes} {room : Nat} :
    encode data room = some text ↔ encodeChunks data = text ∧ text.length ≤ room := by
  rw [encode, Option.ite_none_right_eq_some, Option.some.injEq, ← length_encodeChunks]
  exact ⟨fun ⟨hroom, htext⟩ => ⟨htext, htext ▸ hroom⟩, fun ⟨htext, hroom⟩ => ⟨htext ▸ hroom, htext⟩⟩

/-- Bytes and texts stand for each other. What is encoded is decoded to the same bytes, and what is decoded
is encoded in the same text. A result that does not fit is refused, and is never shortened. -/
theorem canonical (data text : Bytes) :
    (encode data (encodedLen data.length)).isSome ∧
    (∀ room, encode data room = some text → text.length ≤ room ∧
      ∀ space, decode text space = if data.length ≤ space then some data else none) ∧
    ∀ room, decode text room = some data → data.length ≤ room ∧
      (∀ space, decode text space = if data.length ≤ space then some data else none) ∧
      ∀ space, encode data space = if text.length ≤ space then some text else none := by
  refine ⟨by simp [encode], fun room h => ?_, fun room h => ?_⟩
  · obtain ⟨rfl, hroom⟩ := encode_eq_some.1 h
    exact ⟨hroom, decode_encodeChunks data⟩
  · obtain ⟨rfl, hroom⟩ := decode_eq_some.1 h
    refine ⟨hroom, decode_encodeChunks data, fun space => ?_⟩
    rw [encode, length_encodeChunks]

/-- Four bytes, and the eight characters that are read as these only. -/
theorem canonical_foob :
    encode (textBytes "foob") 8 = some (textBytes "Zm9vYg==") ∧
      decode (textBytes "Zm9vYg==") 3 = none ∧ decode (textBytes "Zm9vYg==") 4 = some (textBytes "foob") := by
  have htext : encode (textBytes "foob") 8 = some (textBytes "Zm9vYg==") := by
    have hfoob : textBytes "foob" = [0x66, 0x6F, 0x6F, 0x62] := by rfl
    have hspelled : textBytes "Zm9vYg==" = [0x5A, 0x6D, 0x39, 0x76, 0x59, 0x67, 0x3D, 0x3D] := by rfl
    rw [hfoob, hspelled, encode, if_pos (by decide), encodeChunks, encodeChunks, encodeChunk_three _ _ _ rfl,
      encodeChunk_one _ rfl]
    simp [digit, ALPHABET_eq, padding]
  have hdecode := ((canonical (textBytes "foob") (textBytes "Zm9vYg==")).2.1 8 htext).2
  have hread := (hdecode 4).trans (if_pos (by decide))
  have hback := ((canonical (textBytes "foob") (textBytes "Zm9vYg==")).2.2 4 hread).2.1
  exact ⟨htext, (hback 3).trans (if_neg (by decide)), hread⟩

end NanoChrono.Ncpkg.Base64
