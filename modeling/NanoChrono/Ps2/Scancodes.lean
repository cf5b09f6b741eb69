import Mathlib.Data.List.TakeWhile
import NanoChrono.Keyboard.Changes

/-! # The keyboard bytes of the 8042

A keyboard port delivers scan codes of set 1, or of set 2 where the controller does not translate. Which of the two is not
configured but observed: a `0xF0` is taken for set 2's break prefix. Set 1 has releases of the same values as the prefixes
and the replies to commands, so that the keys come out as they were sent just where none of those is released; and set 2 is
read from the first break prefix on, unless that is Pause's (`decode_exact_iff`). -/

namespace NanoChrono.Ps2

open NanoChrono.Keyboard (Key byte_cases)

/-! ## The source -/

/-- The keyboard accepted a command. -/
def ACK : UInt8 := 0xFA
def RESEND : UInt8 := 0xFE
def ECHO : UInt8 := 0xEE
def EXTENDED_PREFIX : UInt8 := 0xE0
def PAUSE_PREFIX : UInt8 := 0xE1
/-- Set 2's break prefix. -/
def SET2_BREAK : UInt8 := 0xF0
def SCAN_LEFT_SHIFT : UInt8 := 0x2A
def SCAN_RIGHT_SHIFT : UInt8 := 0x36

/-- Set 2 scan code to set 1, indexed by the set 2 code. -/
def SET2_TO_SET1 : List UInt8 := [
  0xFF, 0x43, 0x41, 0x3F, 0x3D, 0x3B, 0x3C, 0x58, 0x64, 0x44, 0x42, 0x40, 0x3E, 0x0F, 0x29, 0x59,
  0x65, 0x38, 0x2A, 0x70, 0x1D, 0x10, 0x02, 0x5A, 0x66, 0x71, 0x2C, 0x1F, 0x1E, 0x11, 0x03, 0x5B,
  0x67, 0x2E, 0x2D, 0x20, 0x12, 0x05, 0x04, 0x5C, 0x68, 0x39, 0x2F, 0x21, 0x14, 0x13, 0x06, 0x5D,
  0x69, 0x31, 0x30, 0x23, 0x22, 0x15, 0x07, 0x5E, 0x6A, 0x72, 0x32, 0x24, 0x16, 0x08, 0x09, 0x5F,
  0x6B, 0x33, 0x25, 0x17, 0x18, 0x0B, 0x0A, 0x60, 0x6C, 0x34, 0x35, 0x26, 0x27, 0x19, 0x0C, 0x61,
  0x6D, 0x73, 0x28, 0x74, 0x1A, 0x0D, 0x62, 0x6E, 0x3A, 0x36, 0x1C, 0x1B, 0x75, 0x2B, 0x63, 0x76,
  0x55, 0x56, 0x77, 0x78, 0x79, 0x7A, 0x0E, 0x7B, 0x7C, 0x4F, 0x7D, 0x4B, 0x47, 0x7E, 0x7F, 0x6F,
  0x52, 0x53, 0x50, 0x4C, 0x4D, 0x48, 0x01, 0x45, 0x57, 0x4E, 0x51, 0x4A, 0x37, 0x49, 0x46, 0x54,
  0x80, 0x81, 0x82, 0x41]

/-- Maps a set 2 code to set 1, leaving anything outside the table alone. -/
def translateSet2 (code : UInt8) : UInt8 := SET2_TO_SET1[code.toNat]?.getD code

/-- What is remembered between bytes. -/
structure Decoder where
  /-- Set once a `0xF0` arrives: this controller delivers set 2. -/
  set2 : Bool
  /-- The next byte is a set 2 release. -/
  set2Break : Bool
  /-- An `0xE0` arrived: the next code is an extended key. -/
  extended : Bool
  /-- Bytes of a Pause sequence still to discard. -/
  skip : Nat
  deriving DecidableEq

/-- Turns one keyboard byte into an event, in whichever set arrives. -/
def keystroke (d : Decoder) (byte : UInt8) : Option Key × Decoder :=
  if 0 < d.skip then (none, { d with skip := d.skip - 1 })
  else if byte ∈ [0x00, 0xFF, ACK, RESEND, ECHO] then (none, d)
  else if byte = PAUSE_PREFIX then
    (none, { d with skip := if d.set2 then 7 else 5, extended := false, set2Break := false })
  else if byte = EXTENDED_PREFIX then (none, { d with extended := true })
  else if byte = SET2_BREAK then (none, { d with set2 := true, set2Break := true })
  else
    let scancode := if d.set2 then translateSet2 byte else byte &&& 0x7F
    let pressed := if d.set2 then !d.set2Break else byte &&& 0x80 == 0
    let rest := { d with extended := false, set2Break := if d.set2 then false else d.set2Break }
    if d.extended && (scancode == SCAN_LEFT_SHIFT || scancode == SCAN_RIGHT_SHIFT) then (none, rest)
    else (some ⟨scancode, pressed, d.extended⟩, rest)

/-- The keys that some bytes come to. -/
@[grind =] def decode : Decoder → List UInt8 → List Key × Decoder
  | d, [] => ([], d)
  | d, b :: bytes =>
    let (key, d) := keystroke d b
    let (keys, d) := decode d bytes
    (key.toList ++ keys, d)

/-- Nothing has arrived yet. -/
def Decoder.fresh : Decoder := ⟨false, false, false, 0⟩

/-! ## What keyboards send -/

/-- A key that goes down or up, behind a prefix or not, or Pause, which does not come up. -/
inductive Event (Code : Type) where
  | key (code : Code) (extended pressed : Bool)
  | pause
  deriving DecidableEq

/-- The make codes of set 1. -/
abbrev Code1 := { c : UInt8 // 1 ≤ c ∧ c ≤ 0x7F }

/-- The make codes of set 2. -/
abbrev Code2 := { c : UInt8 // 1 ≤ c ∧ c ≤ 0x83 }

/-- The bytes of the prefix of an extended key. -/
def prefixed (extended : Bool) (bytes : List UInt8) : List UInt8 := if extended then EXTENDED_PREFIX :: bytes else bytes

/-- The bytes of an event in set 1. -/
def Event.bytes1 : Event Code1 → List UInt8
  | key code extended pressed => prefixed extended [if pressed then code.val else code.val ||| 0x80]
  | pause => [0xE1, 0x1D, 0x45, 0xE1, 0x9D, 0xC5]

/-- The bytes of an event in set 2. -/
def Event.bytes2 : Event Code2 → List UInt8
  | key code extended pressed => prefixed extended (if pressed then [code.val] else [SET2_BREAK, code.val])
  | pause => [0xE1, 0x14, 0x77, 0xE1, 0xF0, 0x14, 0xF0, 0x77]

/-- The key of a scancode. A Shift behind a prefix is none: it is the keyboard undoing Num Lock or Shift around another. -/
def keyOf (scancode : UInt8) (extended pressed : Bool) : List Key :=
  if extended = true ∧ (scancode = SCAN_LEFT_SHIFT ∨ scancode = SCAN_RIGHT_SHIFT) then []
  else [⟨scancode, pressed, extended⟩]

def Event.keys1 : Event Code1 → List Key
  | key code extended pressed => keyOf code.val extended pressed
  | pause => []

def Event.keys2 : Event Code2 → List Key
  | key code extended pressed => keyOf (translateSet2 code.val) extended pressed
  | pause => []

/-- The make codes of set 1 whose release is a byte with another meaning. -/
def AMBIGUOUS : List UInt8 := [0x60, 0x61, 0x6E, 0x70, 0x7A, 0x7E, 0x7F]

/-- An event of set 1 whose byte is not that of a prefix, a reply or an overrun as well. -/
def Event.Distinct : Event Code1 → Prop
  | key code _ pressed => pressed = false → code.val ∉ AMBIGUOUS
  | pause => True

/-- Whether an event of set 2 is without a break prefix. -/
def Event.isPress : Event Code2 → Bool
  | key _ _ pressed => pressed
  | pause => false

/-- A set 1 keyboard's events come out as its keys, and the decoder still reads set 1. -/
def Exact1 (es : List (Event Code1)) : Prop :=
  (decode .fresh (es.flatMap Event.bytes1)).1 = es.flatMap Event.keys1 ∧
    (decode .fresh (es.flatMap Event.bytes1)).2.set2 = false

/-- From the first event of a set 2 keyboard with a break prefix on, its events come out as its keys. -/
def Exact2 (es : List (Event Code2)) : Prop :=
  (decode (decode .fresh ((es.takeWhile Event.isPress).flatMap Event.bytes2)).2
    ((es.dropWhile Event.isPress).flatMap Event.bytes2)).1 = (es.dropWhile Event.isPress).flatMap Event.keys2

/-! ## Bytes -/

theorem decode_cons (d : Decoder) (b : UInt8) (bytes : List UInt8) : decode d (b :: bytes) =
    ((keystroke d b).1.toList ++ (decode (keystroke d b).2 bytes).1, (decode (keystroke d b).2 bytes).2) := rfl

theorem decode_append (d : Decoder) (as bs : List UInt8) : decode d (as ++ bs) =
    ((decode d as).1 ++ (decode (decode d as).2 bs).1, (decode (decode d as).2 bs).2) := by
  induction as generalizing d with
  | nil => rfl
  | cons a as ih =>
    rw [List.cons_append, decode_cons, decode_cons, ih, List.append_assoc]

/-- The bytes that are no scan codes. -/
def SPECIAL : List UInt8 := [0x00, 0xFF, ACK, RESEND, ECHO, PAUSE_PREFIX, EXTENDED_PREFIX, SET2_BREAK]

/-- A code of set 1 has its top bit clear and its release has it set; which codes and releases are special; and what a byte
with its top bit set is a release of. -/
theorem byte_facts (b : UInt8) : (b ≤ 0x7F → b &&& 0x7F = b ∧ b &&& 0x80 = 0 ∧ (b ||| 0x80) &&& 0x7F = b ∧
      (b ||| 0x80) &&& 0x80 ≠ 0 ∧ (b ||| 0x80 ∈ SPECIAL ↔ b ∈ AMBIGUOUS)) ∧
    (1 ≤ b ∧ b ≤ 0x83 → b ∉ SPECIAL) ∧ (b &&& 0x80 ≠ 0 → b ∉ SPECIAL → b &&& 0x7F ∉ AMBIGUOUS) := by
  refine ⟨?_, ?_, ?_⟩ <;> revert b <;> refine byte_cases ?_ <;> decide +kernel

/-- A byte that is a scan code. -/
theorem keystroke_code {d : Decoder} (hskip : d.skip = 0) {b : UInt8} (hb : b ∉ SPECIAL) :
    (keystroke d b).1.toList = keyOf (if d.set2 then translateSet2 b else b &&& 0x7F) d.extended
        (if d.set2 then !d.set2Break else b &&& 0x80 == 0) ∧
      (keystroke d b).2 = { d with extended := false, set2Break := if d.set2 then false else d.set2Break } := by
  simp only [SPECIAL, List.mem_cons, List.not_mem_nil, or_false, not_or] at hb
  obtain ⟨h0, h1, h2, h3, h4, h5, h6, h7⟩ := hb
  rw [keystroke, if_neg (by omega), if_neg (by simp [h0, h1, h2, h3, h4]), if_neg h5, if_neg h6, if_neg h7, keyOf]
  dsimp only
  generalize (if d.set2 = true then translateSet2 b else b &&& 0x7F) = scancode
  by_cases hfake : d.extended = true ∧ (scancode = SCAN_LEFT_SHIFT ∨ scancode = SCAN_RIGHT_SHIFT)
  · rw [if_pos hfake, if_pos (by simpa using hfake)]
    exact ⟨rfl, rfl⟩
  · rw [if_neg hfake, if_neg (by simpa using hfake)]
    exact ⟨rfl, rfl⟩

/-- A byte that is a scan code, alone. -/
theorem decode_code {d : Decoder} (hskip : d.skip = 0) {b : UInt8} (hb : b ∉ SPECIAL) : decode d [b] =
    (keyOf (if d.set2 then translateSet2 b else b &&& 0x7F) d.extended (if d.set2 then !d.set2Break else b &&& 0x80 == 0),
      { d with extended := false, set2Break := if d.set2 then false else d.set2Break }) := by
  obtain ⟨hkey, hnext⟩ := keystroke_code hskip hb
  rw [decode_cons, hkey, hnext]
  exact Prod.ext (List.append_nil _) rfl

/-- The prefix of an extended key, which is remembered for the next byte. -/
theorem decode_prefixed {d : Decoder} (hskip : d.skip = 0) (hplain : d.extended = false) (extended : Bool)
    (bytes : List UInt8) : decode d (prefixed extended bytes) = decode { d with extended := extended } bytes := by
  obtain ⟨set2, set2Break, ext, skip⟩ := d
  obtain rfl : skip = 0 := hskip
  obtain rfl : ext = false := hplain
  cases extended <;> rfl

/-! ## Set 1 -/

/-- A distinct event comes out as its keys. -/
theorem decode_event1 {e : Event Code1} (h : e.Distinct) : decode .fresh e.bytes1 = (e.keys1, .fresh) := by
  cases e with
  | pause => rfl
  | key code extended pressed =>
    obtain ⟨hcode, hspecial, -⟩ := byte_facts code.val
    obtain ⟨hlow, hclear, hlow', hset, hrelease⟩ := hcode code.property.2
    have hpress : code.val ∉ SPECIAL :=
      hspecial ⟨code.property.1, UInt8.le_trans code.property.2 (by decide)⟩
    rw [Event.bytes1, decode_prefixed rfl rfl, Event.keys1]
    cases pressed with
    | true =>
      rw [if_pos rfl, decode_code rfl hpress]
      simp only [Decoder.fresh, Bool.false_eq_true, if_false, hlow, hclear, beq_self_eq_true]
    | false =>
      rw [if_neg Bool.false_ne_true, decode_code rfl (mt hrelease.1 (h rfl))]
      simp only [Decoder.fresh, Bool.false_eq_true, if_false, hlow', beq_eq_false_iff_ne.2 hset]

theorem decode_events1 {es : List (Event Code1)} (h : ∀ e ∈ es, e.Distinct) :
    decode .fresh (es.flatMap Event.bytes1) = (es.flatMap Event.keys1, .fresh) := by
  induction es with
  | nil => rfl
  | cons e es ih =>
    rw [List.flatMap_cons, decode_append, decode_event1 (h e List.mem_cons_self), List.flatMap_cons,
      ih fun e he => h e (List.mem_cons_of_mem _ he)]

/-- Once set 2 is observed it stays so. -/
theorem keystroke_set2 {d : Decoder} (b : UInt8) (h : d.set2 = true) : (keystroke d b).2.set2 = true := by
  rw [keystroke]
  split
  · exact h
  split
  · exact h
  split
  · exact h
  split
  · exact h
  split
  · rfl
  · dsimp only
    split <;> exact h

theorem decode_set2 {d : Decoder} (bytes : List UInt8) (h : d.set2 = true) : (decode d bytes).2.set2 = true := by
  induction bytes generalizing d with
  | nil => exact h
  | cons b bytes ih => exact ih (keystroke_set2 b h)

/-- What is released while set 1 is read is none of the codes whose releases are special bytes. -/
theorem keystroke_released {d : Decoder} (b : UInt8) (h : d.set2 = false) {k : Key} (hk : (keystroke d b).1 = some k)
    (hreleased : k.pressed = false) : k.scancode ∉ AMBIGUOUS := by
  rw [keystroke] at hk
  split at hk
  · cases hk
  split at hk
  · cases hk
  next hreply =>
  split at hk
  · cases hk
  next hpause =>
  split at hk
  · cases hk
  next hprefix =>
  split at hk
  · cases hk
  next hbreak =>
  rw [h] at hk
  simp only [Bool.false_eq_true, if_false] at hk
  split at hk
  · cases hk
  · obtain rfl := Option.some.inj hk
    refine (byte_facts b).2.2 (by simpa using hreleased) ?_
    simp only [SPECIAL, List.mem_cons, List.not_mem_nil, or_false, not_or] at hreply ⊢
    tauto

theorem decode_released {d : Decoder} (bytes : List UInt8) (h : (decode d bytes).2.set2 = false) :
    ∀ k ∈ (decode d bytes).1, k.pressed = false → k.scancode ∉ AMBIGUOUS := by
  induction bytes generalizing d with
  | nil => exact fun k hk => absurd hk List.not_mem_nil
  | cons b bytes ih =>
    have hbefore : d.set2 = false := by
      by_contra hset
      rw [decode_set2 (b :: bytes) (by simpa using hset)] at h
      cases h
    rw [decode_cons] at h ⊢
    intro k hk
    rcases List.mem_append.1 hk with hk | hk
    · exact keystroke_released b hbefore (Option.mem_toList.1 hk)
    · exact ih h k hk

/-- Set 1 is exact just for distinct events. -/
theorem exact1_iff (es : List (Event Code1)) : Exact1 es ↔ ∀ e ∈ es, e.Distinct := by
  constructor
  · rintro ⟨hkeys, hset⟩ e he
    cases e with
    | pause => trivial
    | key code extended pressed =>
      rintro rfl hmem
      have hshift : ¬(code.val = SCAN_LEFT_SHIFT ∨ code.val = SCAN_RIGHT_SHIFT) := by
        rintro (h | h) <;> rw [h] at hmem <;> exact absurd hmem (by decide)
      have hkey : (⟨code.val, false, extended⟩ : Key) ∈ es.flatMap Event.keys1 := by
        refine List.mem_flatMap.2 ⟨_, he, ?_⟩
        rw [Event.keys1, keyOf, if_neg fun h => hshift h.2]
        exact List.mem_singleton_self _
      rw [← hkeys] at hkey
      exact decode_released _ hset _ hkey rfl hmem
  · intro h
    rw [Exact1, decode_events1 h]
    exact ⟨rfl, rfl⟩

/-! ## Set 2 -/

/-- No make code of set 2 is a special byte. -/
theorem code2_special (c : Code2) : c.val ∉ SPECIAL :=
  (byte_facts c.val).2.1 c.property

/-- Set 2 was observed, and nothing is remembered besides. -/
def Decoder.second : Decoder := ⟨true, false, false, 0⟩

/-- A press before set 2 is observed leaves nothing to be remembered. -/
theorem decode_press {e : Event Code2} (h : e.isPress = true) : (decode .fresh e.bytes2).2 = .fresh := by
  cases e with
  | pause => cases h
  | key code extended pressed =>
    obtain rfl : pressed = true := h
    rw [Event.bytes2, decode_prefixed rfl rfl, if_pos rfl, decode_code rfl (code2_special code)]
    rfl

theorem decode_presses {es : List (Event Code2)} (h : ∀ e ∈ es, e.isPress = true) :
    (decode .fresh (es.flatMap Event.bytes2)).2 = .fresh := by
  induction es with
  | nil => rfl
  | cons e es ih =>
    rw [List.flatMap_cons, decode_append, decode_press (h e List.mem_cons_self)]
    exact ih fun e he => h e (List.mem_cons_of_mem _ he)

/-- Once set 2 is observed every event comes out as its keys. -/
theorem decode_event2 (e : Event Code2) : decode .second e.bytes2 = (e.keys2, .second) := by
  cases e with
  | pause => rfl
  | key code extended pressed =>
    rw [Event.bytes2, decode_prefixed rfl rfl, Event.keys2]
    cases pressed with
    | true =>
      rw [if_pos rfl, decode_code rfl (code2_special code)]
      rfl
    | false =>
      rw [if_neg Bool.false_ne_true, decode_cons]
      change (_ ++ (decode ⟨true, true, extended, 0⟩ [code.val]).1, (decode ⟨true, true, extended, 0⟩ [code.val]).2) = _
      rw [decode_code rfl (code2_special code)]
      rfl

theorem decode_events2 (es : List (Event Code2)) :
    decode .second (es.flatMap Event.bytes2) = (es.flatMap Event.keys2, .second) := by
  induction es with
  | nil => rfl
  | cons e es ih => rw [List.flatMap_cons, decode_append, decode_event2, List.flatMap_cons, ih]

/-- The first release is read as one, whatever was read before. -/
theorem decode_release (code : Code2) (extended : Bool) :
    decode .fresh (Event.key code extended false).bytes2 = ((Event.key code extended false).keys2, .second) := by
  rw [Event.bytes2, decode_prefixed rfl rfl, Event.keys2, if_neg Bool.false_ne_true, decode_cons]
  change (_ ++ (decode ⟨true, true, extended, 0⟩ [code.val]).1, (decode ⟨true, true, extended, 0⟩ [code.val]).2) = _
  rw [decode_code rfl (code2_special code)]
  rfl

/-- Set 2 is exact from the first break prefix on just where that is not Pause's. -/
theorem exact2_iff (es : List (Event Code2)) : Exact2 es ↔ (es.dropWhile Event.isPress).head? ≠ some .pause := by
  have hpresses := @decode_presses (es.takeWhile Event.isPress) fun e he => List.mem_takeWhile_imp he
  have hfirst := List.head?_dropWhile_not Event.isPress es
  rw [Exact2, hpresses]
  generalize es.dropWhile Event.isPress = rest at hfirst
  cases rest with
  | nil => exact iff_of_true rfl nofun
  | cons e rest =>
    rw [List.flatMap_cons, decode_append, List.head?_cons]
    cases e with
    | pause =>
      -- Five of its bytes are skipped for set 1's, and the last release among the rest is a key.
      refine iff_of_false (fun h => ?_) (by simp)
      have hpause : decode .fresh (.pause : Event Code2).bytes2 = ([⟨0x45, false, false⟩], .second) := rfl
      rw [hpause, decode_events2] at h
      have hlength := congrArg List.length h
      simp [Event.keys2] at hlength
    | key code extended pressed =>
      obtain rfl : pressed = false := by simpa [Event.isPress] using hfirst
      rw [decode_release, decode_events2]
      exact iff_of_true rfl (by simp)

/-- Set 1 is exact where no key is released whose release is a byte of another meaning, set 2 where its first break prefix is
a key's, and neither elsewhere. -/
theorem decode_exact_iff (es : List (Event Code1)) (es' : List (Event Code2)) :
    (Exact1 es ↔ ∀ e ∈ es, e.Distinct) ∧
      (Exact2 es' ↔ (es'.dropWhile Event.isPress).head? ≠ some .pause) :=
  ⟨exact1_iff es, exact2_iff es'⟩

theorem katakana_range : 1 ≤ (0x70 : UInt8) ∧ (0x70 : UInt8) ≤ 0x7F := by decide

/-- A key of Japanese keyboards, next to the space bar. -/
def katakana : Code1 := ⟨0x70, katakana_range⟩

/-- Its release is no key, and the set is 2 from then on. A set 2 keyboard's Pause, before any release, releases a key that
was not pressed. -/
theorem decode_inexact : ¬Exact1 [.key katakana false true, .key katakana false false] ∧ ¬Exact2 [.pause] :=
  ⟨fun h => absurd h.2 (by decide), fun h => absurd (congrArg List.length h) (by decide)⟩

end NanoChrono.Ps2
