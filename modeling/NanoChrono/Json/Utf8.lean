import Mathlib.Tactic

/-! # UTF-8 over lists of bytes

`encode` writes characters, `decode` reads as many as it can. A text is UTF-8 when it is the encoding
of some characters, which are then the ones `decode` reads (`chars?_eq_some`). -/

namespace NanoChrono.Utf8

/-- The encoding of a text. -/
def encode (cs : List Char) : List UInt8 := cs.flatMap String.utf8EncodeChar

@[simp] theorem encode_nil : encode [] = [] := rfl

@[simp] theorem encode_cons (c : Char) (cs : List Char) :
    encode (c :: cs) = String.utf8EncodeChar c ++ encode cs := rfl

theorem encode_append (cs ds : List Char) : encode (cs ++ ds) = encode cs ++ encode ds :=
  List.flatMap_append

/-- The character whose encoding `t` starts with. -/
def head (t : List UInt8) : Option Char := (t.take 4).toByteArray.utf8DecodeChar? 0

/-- The characters `t` starts with, `n` at most, and the rest. -/
@[grind =] def decode : Nat → List UInt8 → List Char × List UInt8
  | 0, t => ([], t)
  | n + 1, t =>
    match head t with
    | none => ([], t)
    | some c => (c :: (decode n (t.drop c.utf8Size)).1, (decode n (t.drop c.utf8Size)).2)

/-- The characters of a text, if it is UTF-8. -/
def chars? (t : List UInt8) : Option (List Char) :=
  match decode t.length t with
  | (cs, []) => some cs
  | (_, _ :: _) => none

/-- The length of the longest start of `t` that is UTF-8. -/
def validUpTo (t : List UInt8) : Nat := t.length - (decode t.length t).2.length

variable {c : Char} {t r : List UInt8}

/-- An encoding is read back. -/
theorem head_append (c : Char) (t : List UInt8) : head (String.utf8EncodeChar c ++ t) = some c := by
  have hlen : (String.utf8EncodeChar c).length ≤ 4 := by
    rw [String.length_utf8EncodeChar]
    exact c.utf8Size_le_four
  rw [head, List.take_append, List.take_of_length_le hlen, List.toByteArray_append]
  exact ByteArray.utf8DecodeChar?_utf8EncodeChar_append

/-- What is read was encoded. -/
theorem of_head (h : head t = some c) : t = String.utf8EncodeChar c ++ t.drop c.utf8Size := by
  obtain ⟨l, hl⟩ := ByteArray.exists_of_utf8DecodeChar?_eq_some h
  have htake : t.take 4 = String.utf8EncodeChar c ++ l.data.toList := by
    rw [← List.toList_data_toByteArray (l := t.take 4), hl, ByteArray.data_append,
      Array.toList_append, List.toList_data_toByteArray]
  have hpre : String.utf8EncodeChar c <+: t :=
    (htake ▸ List.prefix_append _ _).trans (List.take_prefix 4 t)
  obtain ⟨r, rfl⟩ := hpre
  rw [List.drop_append, String.length_utf8EncodeChar, Nat.sub_self, List.drop_zero,
    List.drop_of_length_le (by rw [String.length_utf8EncodeChar]), List.nil_append]

theorem drop_append (c : Char) (t : List UInt8) :
    (String.utf8EncodeChar c ++ t).drop c.utf8Size = t := by
  rw [← String.length_utf8EncodeChar, List.drop_left]

theorem length_pos (c : Char) : 0 < (String.utf8EncodeChar c).length := by
  rw [String.length_utf8EncodeChar]
  exact c.utf8Size_pos

/-- Decoding reads an encoding back. -/
theorem decode_encode (cs : List Char) {n : Nat} (h : cs.length ≤ n) :
    decode n (encode cs) = (cs, []) := by
  induction cs generalizing n with
  | nil => cases n <;> rfl
  | cons c cs ih =>
    obtain _ | n := n
    · simp at h
    · rw [decode, encode_cons, head_append]
      dsimp only
      rw [drop_append, ih (Nat.le_of_succ_le_succ h)]

/-- What decoding reads is what the text starts with. -/
theorem encode_decode (n : Nat) (t : List UInt8) :
    encode (decode n t).1 ++ (decode n t).2 = t := by
  induction n generalizing t with
  | zero => rfl
  | succ n ih =>
    rw [decode]
    split
    · rfl
    · next c h =>
      dsimp only
      rw [encode_cons, List.append_assoc, ih]
      exact (of_head h).symm

theorem length_le_encode (cs : List Char) : cs.length ≤ (encode cs).length := by
  induction cs with
  | nil => rfl
  | cons c cs ih =>
    have := length_pos c
    rw [encode_cons, List.length_append, List.length_cons]
    omega

/-- The characters of a text are those it encodes. -/
theorem chars?_eq_some {cs : List Char} : chars? t = some cs ↔ t = encode cs := by
  constructor
  · intro h
    have henc := encode_decode t.length t
    unfold chars? at h
    split at h
    · next he =>
      rw [he, List.append_nil] at henc
      rw [← Option.some.inj h]
      exact henc.symm
    · cases h
  · rintro rfl
    rw [chars?, decode_encode cs (length_le_encode cs)]

theorem chars?_isSome : (chars? t).isSome = true ↔ ∃ cs, t = encode cs := by
  rw [Option.isSome_iff_exists]
  exact exists_congr fun _ => chars?_eq_some

theorem encode_injective {cs ds : List Char} (h : encode cs = encode ds) : cs = ds :=
  Option.some.inj ((chars?_eq_some.2 rfl).symm.trans (chars?_eq_some.2 h))

/-! ## Bytes -/

/-- An ASCII character is one byte. -/
theorem encode_ascii (h : c.toNat < 128) : String.utf8EncodeChar c = [UInt8.ofNat c.toNat] := by
  rw [String.utf8EncodeChar]
  exact if_pos (Nat.le_of_lt_succ h)

/-- The bytes of any other character are no ASCII. -/
theorem encode_wide (h : 128 ≤ c.toNat) : ∀ b ∈ String.utf8EncodeChar c, 128 ≤ b.toNat := by
  have hv : ¬ c.val.toNat ≤ 127 := by
    have : c.toNat = c.val.toNat := rfl
    omega
  have hbyte : ∀ n m k : Nat, 128 ≤ m → m + k ≤ 256 → n < k →
      128 ≤ (UInt8.ofNat (n + m)).toNat := by
    intro n m k hm hk hn
    rw [UInt8.toNat_ofNat', Nat.mod_eq_of_lt (by omega)]
    omega
  intro b hb
  unfold String.utf8EncodeChar at hb
  simp only [hv, if_false] at hb
  split at hb
  · simp only [List.mem_cons, List.not_mem_nil, or_false] at hb
    rcases hb with rfl | rfl
    · exact hbyte _ 192 32 (by omega) (by omega) (Nat.mod_lt _ (by omega))
    · exact hbyte _ 128 64 (by omega) (by omega) (Nat.mod_lt _ (by omega))
  · split at hb
    · simp only [List.mem_cons, List.not_mem_nil, or_false] at hb
      rcases hb with rfl | rfl | rfl
      · exact hbyte _ 224 16 (by omega) (by omega) (Nat.mod_lt _ (by omega))
      · exact hbyte _ 128 64 (by omega) (by omega) (Nat.mod_lt _ (by omega))
      · exact hbyte _ 128 64 (by omega) (by omega) (Nat.mod_lt _ (by omega))
    · simp only [List.mem_cons, List.not_mem_nil, or_false] at hb
      rcases hb with rfl | rfl | rfl | rfl
      · exact hbyte _ 240 8 (by omega) (by omega) (Nat.mod_lt _ (by omega))
      · exact hbyte _ 128 64 (by omega) (by omega) (Nat.mod_lt _ (by omega))
      · exact hbyte _ 128 64 (by omega) (by omega) (Nat.mod_lt _ (by omega))
      · exact hbyte _ 128 64 (by omega) (by omega) (Nat.mod_lt _ (by omega))

end NanoChrono.Utf8

/-! ## The bytes JSON is written in

Names for the ASCII characters of the syntax, their classes, and the code units of `\u` escapes. -/

namespace NanoChrono.Json

/-- Bytes of a text. -/
abbrev Bytes := List UInt8

@[match_pattern] abbrev quote : UInt8 := 0x22
@[match_pattern] abbrev plus : UInt8 := 0x2B
@[match_pattern] abbrev comma : UInt8 := 0x2C
@[match_pattern] abbrev minus : UInt8 := 0x2D
@[match_pattern] abbrev point : UInt8 := 0x2E
@[match_pattern] abbrev slash : UInt8 := 0x2F
@[match_pattern] abbrev zero : UInt8 := 0x30
@[match_pattern] abbrev colon : UInt8 := 0x3A
@[match_pattern] abbrev openBracket : UInt8 := 0x5B
@[match_pattern] abbrev backslash : UInt8 := 0x5C
@[match_pattern] abbrev closeBracket : UInt8 := 0x5D
@[match_pattern] abbrev letterB : UInt8 := 0x62
@[match_pattern] abbrev letterE : UInt8 := 0x65
@[match_pattern] abbrev letterF : UInt8 := 0x66
@[match_pattern] abbrev letterN : UInt8 := 0x6E
@[match_pattern] abbrev letterR : UInt8 := 0x72
@[match_pattern] abbrev letterT : UInt8 := 0x74
@[match_pattern] abbrev letterU : UInt8 := 0x75
@[match_pattern] abbrev openBrace : UInt8 := 0x7B
@[match_pattern] abbrev closeBrace : UInt8 := 0x7D

/-- A decimal digit. -/
def isDigit (c : UInt8) : Bool := 0x30 ≤ c && c ≤ 0x39

/-- White space between tokens. -/
def isWs (c : UInt8) : Bool := c == 0x20 || c == 0x09 || c == 0x0A || c == 0x0D

/-- The value of a hexadecimal digit. -/
def hexDigit (d : UInt8) : Option Nat :=
  if isDigit d then some (d.toNat - 0x30)
  else if 0x61 ≤ d && d ≤ 0x66 then some (d.toNat - 0x61 + 10)
  else if 0x41 ≤ d && d ≤ 0x46 then some (d.toNat - 0x41 + 10)
  else none

/-- The letters of the two-character escapes. -/
def isShort (c : UInt8) : Bool :=
  [quote, backslash, slash, letterB, letterF, letterN, letterR, letterT].contains c

/-- The value of four hexadecimal digits. -/
def hex4 (d₀ d₁ d₂ d₃ : UInt8) : Option Nat := do
  return ((((← hexDigit d₀) * 16 + (← hexDigit d₁)) * 16) + (← hexDigit d₂)) * 16 + (← hexDigit d₃)

/-- A high surrogate. -/
def isHigh (cp : Nat) : Bool := 0xD800 ≤ cp && cp < 0xDC00

/-- A low surrogate. -/
def isLow (cp : Nat) : Bool := 0xDC00 ≤ cp && cp < 0xE000

end NanoChrono.Json
