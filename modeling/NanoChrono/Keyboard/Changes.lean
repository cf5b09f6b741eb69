import Mathlib.Tactic

/-! # Key events between two keyboard reports

A boot-protocol keyboard sends the keys that are held: a byte of modifier bits and six slots of key codes. The
interface wants events, and takes them one at a time from the difference between the report it has delivered so far
and the latest one, folding each into the former (`nextKeyChange`) until nothing differs (`drain`). -/

namespace NanoChrono.Keyboard

/-- A key press or release, as a set 1 scancode. -/
structure Key where
  scancode : UInt8
  pressed : Bool
  extended : Bool
deriving DecidableEq, Repr

/-- A report: modifier bits, a reserved byte, and the codes of the keys that are held. -/
@[ext]
structure Report where
  modifiers : UInt8
  reserved : UInt8
  slots : List UInt8
  six : slots.length = 6
deriving DecidableEq

/-- The report with nothing held. -/
def Report.zero : Report := ⟨0, 0, List.replicate 6 0, rfl⟩

/-! ## Scancodes -/

/-- The set 1 scancodes of the usages from 0x04 on. -/
def HID_TO_SET1 : List UInt8 := [
  0x1E, 0x30, 0x2E, 0x20, 0x12, 0x21, 0x22, 0x23,
  0x17, 0x24, 0x25, 0x26, 0x32, 0x31, 0x18, 0x19,
  0x10, 0x13, 0x1F, 0x14, 0x16, 0x2F, 0x11, 0x2D,
  0x15, 0x2C,
  0x02, 0x03, 0x04, 0x05, 0x06, 0x07, 0x08, 0x09, 0x0A, 0x0B,
  0x1C, 0x01, 0x0E, 0x0F, 0x39,
  0x0C, 0x0D, 0x1A, 0x1B, 0x2B, 0x2B, 0x27, 0x28, 0x29, 0x33, 0x34, 0x35,
  0x3A,
  0x3B, 0x3C, 0x3D, 0x3E, 0x3F, 0x40, 0x41, 0x42, 0x43, 0x44, 0x57, 0x58,
  0x00, 0x46, 0x00, 0x52, 0x47, 0x49, 0x53, 0x4F, 0x51,
  0x4D, 0x4B, 0x50, 0x48,
  0x45,
  0x35, 0x37, 0x4A, 0x4E, 0x1C, 0x4F, 0x50, 0x51,
  0x4B, 0x4C, 0x4D, 0x47, 0x48, 0x49, 0x52, 0x53,
  0x56, 0x5D]

/-- The first usage the table covers. -/
def HID_FIRST_USAGE : UInt8 := 0x04

/-- Translates a usage to a set 1 scancode, or to zero. -/
def hidToScancode (usage : UInt8) : UInt8 := HID_TO_SET1[(usage - HID_FIRST_USAGE).toNat]?.getD 0

/-- Whether set 1 sends the key behind a prefix. -/
def hidExtended (usage : UInt8) : Bool :=
  (0x49 ≤ usage && usage ≤ 0x52) || usage = 0x54 || usage = 0x58 || usage = 0x65

/-- The scancodes of the modifier bits, and whether each comes behind a prefix. -/
def HID_MODIFIERS : Vector (UInt8 × Bool) 8 :=
  #v[(0x1D, false), (0x2A, false), (0x38, false), (0x5B, true), (0x1D, true), (0x36, false), (0x38, true), (0x5C, true)]

/-- What changed: a modifier bit, or a key code. -/
inductive Change where
  | modifier (bit : Fin 8) (pressed : Bool)
  | code (usage : UInt8) (pressed : Bool)
deriving DecidableEq

/-- The event of a change. -/
def Change.key : Change → Key
  | .modifier bit pressed =>
    let entry := HID_MODIFIERS.get bit
    ⟨entry.1, pressed, entry.2⟩
  | .code usage pressed => ⟨hidToScancode usage, pressed, hidExtended usage⟩

/-! ## Differences -/

/-- Whether a byte has a bit set. -/
def hasBit (b : UInt8) (bit : Fin 8) : Bool := b.toNat.testBit bit.val

/-- A byte of one bit. -/
def oneBit (bit : Fin 8) : UInt8 := 1 <<< UInt8.ofNat bit.val

/-- The lowest bit that is set. -/
def trailingZeros (b : UInt8) : Option (Fin 8) := (List.finRange 8).find? (hasBit b)

/-- The first modifier that changed between two reports' modifier bytes, as a key event. -/
def modifierChanged (previous current : UInt8) : Option Key :=
  (trailingZeros (previous ^^^ current)).map fun bit => (Change.modifier bit (hasBit current bit)).key

/-- Whether a slot holds a code that the slots of the other report do not. -/
def gone (other : List UInt8) (code : UInt8) : Bool := code ≠ 0 && !other.contains code

/-- Turns a change between two reports into one event: modifiers first, and releases before presses. -/
def keysChanged (previous current : Report) : Option Key :=
  match modifierChanged previous.modifiers current.modifiers with
  | some key => some key
  | none =>
    match previous.slots.find? (gone current.slots) with
    | some code => some (Change.code code false).key
    | none => (current.slots.find? (gone previous.slots)).map fun code => (Change.code code true).key

/-- Puts a value into the first slot with a property, if there is one. -/
@[grind =] def setFirst (p : UInt8 → Bool) (value : UInt8) : List UInt8 → Option (List UInt8)
  | [] => none
  | slot :: slots => if p slot then some (value :: slots) else (setFirst p value slots).map (slot :: ·)

theorem setFirst_length {p : UInt8 → Bool} {value : UInt8} : ∀ {slots slots' : List UInt8},
    setFirst p value slots = some slots' → slots'.length = slots.length
  | [], _, h => by cases h
  | slot :: slots, slots', h => by
    rw [setFirst] at h
    split at h
    · obtain rfl := Option.some.inj h
      rfl
    · obtain ⟨rest, hrest, rfl⟩ := Option.map_eq_some_iff.mp h
      exact congrArg (· + 1) (setFirst_length hrest)

/-- A report with a value in the first slot with a property, or another report if there is none. -/
@[grind =] def Report.setFirst (r : Report) (p : UInt8 → Bool) (value : UInt8) (instead : Report) : Report :=
  match h : Keyboard.setFirst p value r.slots with
  | some slots => ⟨r.modifiers, r.reserved, slots, (setFirst_length h).trans r.six⟩
  | none => instead

/-- Folds one delivered change into the previous report. -/
def advance (previous current : Report) (delivered : Key) : Report :=
  match trailingZeros (previous.modifiers ^^^ current.modifiers) with
  | some bit => { previous with modifiers := previous.modifiers ^^^ oneBit bit }
  | none =>
    if !delivered.pressed then previous.setFirst (gone current.slots) 0 current
    else
      match current.slots.find? (gone previous.slots) with
      -- Without a free slot the two are made equal, whatever else had changed.
      | some code => previous.setFirst (· = 0) code current
      | none => current

/-- The next event between what was delivered and the latest report, with the former advanced past it; none, and the
two made equal, once nothing differs. -/
def nextKeyChange (previous latest : Report) : Option Key × Report :=
  match keysChanged previous latest with
  | some key => (some key, advance previous latest key)
  | none => (none, latest)

/-- Takes events until there is none: what was delivered, and the report then. -/
@[grind =] def drain : Nat → Report → Report → Option (List Key × Report)
  | 0, _, _ => none
  | fuel + 1, previous, latest =>
    match nextKeyChange previous latest with
    | (some key, next) => (drain fuel next latest).map fun out => (key :: out.1, out.2)
    | (none, next) => some ([], next)

/-- Every report drained before the next is read. -/
@[grind =] def session (fuel : Nat) : Report → List Report → Option (List (List Key) × Report)
  | previous, [] => some ([], previous)
  | previous, latest :: reports =>
    (drain fuel previous latest).bind fun out =>
      (session fuel out.2 reports).map fun rest => (out.1 :: rest.1, rest.2)

/-! ## Modifiers -/

/-- The modifier bits that changed, lowest first. -/
def changedBits (changed : UInt8) : List (Fin 8) := (List.finRange 8).filter (hasBit changed)

/-- The changes between two modifier bytes. -/
def modifierLog (previous current : UInt8) : List Change :=
  (changedBits (previous ^^^ current)).map fun bit => .modifier bit (hasBit current bit)

/-- What holds of every byte is checked for each. -/
theorem byte_cases {P : UInt8 → Prop} (h : ∀ n < 256, P (.ofNat n)) (b : UInt8) : P b := by
  have hb := h b.toNat b.toNat_lt
  rwa [UInt8.ofNat_toNat] at hb

/-- The lowest bit is the first one that changed, and without it the others are left. -/
theorem changedBits_eq (changed : UInt8) : changedBits changed =
    match trailingZeros changed with
    | some bit => bit :: changedBits (changed ^^^ oneBit bit)
    | none => [] := by
  revert changed
  refine byte_cases ?_
  decide +kernel

theorem changed_flip (previous current bit : UInt8) :
    (previous ^^^ bit) ^^^ current = (previous ^^^ current) ^^^ bit := by
  rw [UInt8.xor_assoc, UInt8.xor_comm bit current, ← UInt8.xor_assoc]

/-- No modifier changed where the bytes are the same. -/
theorem modifiers_same {previous current : UInt8} (h : trailingZeros (previous ^^^ current) = none) :
    previous = current := by
  have hzero : ∀ changed : UInt8, trailingZeros changed = none → changed = 0 := by
    refine byte_cases ?_
    decide +kernel
  exact UInt8.xor_eq_zero_iff.mp (hzero _ h)

theorem drain_step {fuel : Nat} {previous latest next : Report} {key : Key}
    (h : nextKeyChange previous latest = (some key, next)) :
    drain (fuel + 1) previous latest = (drain fuel next latest).map fun out => (key :: out.1, out.2) := by
  rw [drain, h]

/-- The modifiers that changed are delivered first. -/
theorem drain_modifiers {latest : Report} (fuel : Nat) : ∀ (n : Nat) (previous : Report),
    (changedBits (previous.modifiers ^^^ latest.modifiers)).length = n →
    drain (fuel + n) previous latest =
      (drain fuel { previous with modifiers := latest.modifiers } latest).map fun out =>
        ((modifierLog previous.modifiers latest.modifiers).map Change.key ++ out.1, out.2) := by
  intro n
  induction n with
  | zero =>
    intro previous hn
    have hbits := List.length_eq_zero_iff.mp hn
    have hsame : previous.modifiers = latest.modifiers := by
      refine modifiers_same ?_
      rw [changedBits_eq] at hbits
      split at hbits
      · cases hbits
      next h => exact h
    have hprevious : { previous with modifiers := latest.modifiers } = previous := by
      ext1
      · exact hsame.symm
      · rfl
      · rfl
    rw [hprevious, modifierLog, hbits]
    simp
  | succ n ih =>
    intro previous hn
    have hbits := changedBits_eq (previous.modifiers ^^^ latest.modifiers)
    cases hfirst : trailingZeros (previous.modifiers ^^^ latest.modifiers) with
    | none =>
      rw [hfirst] at hbits
      rw [hbits] at hn
      cases hn
    | some bit =>
      rw [hfirst] at hbits
      dsimp only at hbits
      have hnext : nextKeyChange previous latest = (some (Change.modifier bit (hasBit latest.modifiers bit)).key,
          { previous with modifiers := previous.modifiers ^^^ oneBit bit }) := by
        unfold nextKeyChange keysChanged modifierChanged advance
        rw [hfirst]
        rfl
      rw [hbits, List.length_cons, Nat.add_right_cancel_iff] at hn
      have hrest := ih { previous with modifiers := previous.modifiers ^^^ oneBit bit }
        (by rw [← hn, changed_flip])
      rw [← Nat.add_assoc, drain_step hnext, hrest, modifierLog, modifierLog, hbits, changed_flip, Option.map_map]
      rfl

end NanoChrono.Keyboard
