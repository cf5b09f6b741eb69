import NanoChrono.Keyboard.Changes

/-! # Keyboard layouts and their modifiers

Key events become characters and editing keys under a layout, through flags for the modifiers and the locks. A key held is a
key whose last event was its press. The flags are those of the keys held in every state of a run (`run_reflects_iff`) just where
no Alt is released while the other is held under a layout for which both are Alt, and the layout does not change while right
Alt is held. -/

namespace NanoChrono.Typing

open NanoChrono.Keyboard (Key)

/-! ## The source -/

/-- A keyboard layout. -/
inductive Layout where
  | us | es
  deriving DecidableEq

/-- What one key press means to a text consumer. -/
inductive KeyInput where
  | char (ch : Char)
  /-- Ctrl with a letter or one of the signs around them. -/
  | ctrl (ch : Char)
  | enter | backspace | delete | tab | backTab | escape | up | down | left | right | home | end | pageUp | pageDown | insert
  | function (n : UInt8)
  deriving DecidableEq

/-- The modifier and lock state, and a pending dead key. -/
structure Keyboard where
  layout : Layout
  leftShift : Bool
  rightShift : Bool
  ctrlLeft : Bool
  ctrlRight : Bool
  altFlag : Bool
  altgr : Bool
  gui : Bool
  caps : Bool
  num : Bool
  dead : Option Char
  deriving DecidableEq

/-- `(scancode, plain, shifted, altgr)`; `NUL` where a level types nothing. -/
structure Row where
  code : UInt8
  plain : Char
  shifted : Char
  altgr : Char

/-- What a level without a character has. -/
def NUL : Char := Char.ofNat 0

def US : List Row := [
  ⟨0x29, Char.ofNat 0x60, '~', NUL⟩,
  ⟨0x02, '1', '!', NUL⟩, ⟨0x03, '2', '@', NUL⟩, ⟨0x04, '3', '#', NUL⟩, ⟨0x05, '4', '$', NUL⟩,
  ⟨0x06, '5', '%', NUL⟩, ⟨0x07, '6', '^', NUL⟩, ⟨0x08, '7', '&', NUL⟩, ⟨0x09, '8', '*', NUL⟩,
  ⟨0x0A, '9', '(', NUL⟩, ⟨0x0B, '0', ')', NUL⟩, ⟨0x0C, '-', '_', NUL⟩, ⟨0x0D, '=', '+', NUL⟩,
  ⟨0x10, 'q', 'Q', NUL⟩, ⟨0x11, 'w', 'W', NUL⟩, ⟨0x12, 'e', 'E', NUL⟩, ⟨0x13, 'r', 'R', NUL⟩,
  ⟨0x14, 't', 'T', NUL⟩, ⟨0x15, 'y', 'Y', NUL⟩, ⟨0x16, 'u', 'U', NUL⟩, ⟨0x17, 'i', 'I', NUL⟩,
  ⟨0x18, 'o', 'O', NUL⟩, ⟨0x19, 'p', 'P', NUL⟩, ⟨0x1A, '[', Char.ofNat 0x7B, NUL⟩, ⟨0x1B, ']', Char.ofNat 0x7D, NUL⟩,
  ⟨0x1E, 'a', 'A', NUL⟩, ⟨0x1F, 's', 'S', NUL⟩, ⟨0x20, 'd', 'D', NUL⟩, ⟨0x21, 'f', 'F', NUL⟩,
  ⟨0x22, 'g', 'G', NUL⟩, ⟨0x23, 'h', 'H', NUL⟩, ⟨0x24, 'j', 'J', NUL⟩, ⟨0x25, 'k', 'K', NUL⟩,
  ⟨0x26, 'l', 'L', NUL⟩, ⟨0x27, ';', ':', NUL⟩, ⟨0x28, Char.ofNat 0x27, Char.ofNat 0x22, NUL⟩,
  ⟨0x2B, Char.ofNat 0x5C, '|', NUL⟩, ⟨0x56, Char.ofNat 0x5C, '|', NUL⟩,
  ⟨0x2C, 'z', 'Z', NUL⟩, ⟨0x2D, 'x', 'X', NUL⟩, ⟨0x2E, 'c', 'C', NUL⟩, ⟨0x2F, 'v', 'V', NUL⟩,
  ⟨0x30, 'b', 'B', NUL⟩, ⟨0x31, 'n', 'N', NUL⟩, ⟨0x32, 'm', 'M', NUL⟩, ⟨0x33, ',', '<', NUL⟩,
  ⟨0x34, '.', '>', NUL⟩, ⟨0x35, '/', '?', NUL⟩]

/-- Spain, ISO. The acute accent and the diaeresis (0x28), the grave accent and the circumflex (0x1A) are dead keys. -/
def ES : List Row := [
  ⟨0x29, 'º', 'ª', Char.ofNat 0x5C⟩,
  ⟨0x02, '1', '!', '|'⟩, ⟨0x03, '2', Char.ofNat 0x22, '@'⟩, ⟨0x04, '3', '·', '#'⟩, ⟨0x05, '4', '$', '~'⟩,
  ⟨0x06, '5', '%', '€'⟩, ⟨0x07, '6', '&', '¬'⟩, ⟨0x08, '7', '/', NUL⟩, ⟨0x09, '8', '(', NUL⟩,
  ⟨0x0A, '9', ')', NUL⟩, ⟨0x0B, '0', '=', NUL⟩, ⟨0x0C, Char.ofNat 0x27, '?', NUL⟩, ⟨0x0D, '¡', '¿', NUL⟩,
  ⟨0x10, 'q', 'Q', NUL⟩, ⟨0x11, 'w', 'W', NUL⟩, ⟨0x12, 'e', 'E', '€'⟩, ⟨0x13, 'r', 'R', NUL⟩,
  ⟨0x14, 't', 'T', NUL⟩, ⟨0x15, 'y', 'Y', NUL⟩, ⟨0x16, 'u', 'U', NUL⟩, ⟨0x17, 'i', 'I', NUL⟩,
  ⟨0x18, 'o', 'O', NUL⟩, ⟨0x19, 'p', 'P', NUL⟩, ⟨0x1A, Char.ofNat 0x60, '^', '['⟩, ⟨0x1B, '+', '*', ']'⟩,
  ⟨0x1E, 'a', 'A', NUL⟩, ⟨0x1F, 's', 'S', NUL⟩, ⟨0x20, 'd', 'D', NUL⟩, ⟨0x21, 'f', 'F', NUL⟩,
  ⟨0x22, 'g', 'G', NUL⟩, ⟨0x23, 'h', 'H', NUL⟩, ⟨0x24, 'j', 'J', NUL⟩, ⟨0x25, 'k', 'K', NUL⟩,
  ⟨0x26, 'l', 'L', NUL⟩, ⟨0x27, 'ñ', 'Ñ', NUL⟩, ⟨0x28, '´', '¨', Char.ofNat 0x7B⟩, ⟨0x2B, 'ç', 'Ç', Char.ofNat 0x7D⟩,
  ⟨0x56, '<', '>', NUL⟩,
  ⟨0x2C, 'z', 'Z', NUL⟩, ⟨0x2D, 'x', 'X', NUL⟩, ⟨0x2E, 'c', 'C', NUL⟩, ⟨0x2F, 'v', 'V', NUL⟩,
  ⟨0x30, 'b', 'B', NUL⟩, ⟨0x31, 'n', 'N', NUL⟩, ⟨0x32, 'm', 'M', NUL⟩, ⟨0x33, ',', ';', NUL⟩,
  ⟨0x34, '.', ':', NUL⟩, ⟨0x35, '-', '_', NUL⟩]

/-- Whether a character, as typed on a layout, is a dead key, and which accent. -/
def deadKey (layout : Layout) (ch : Char) : Option Char :=
  if layout = .es ∧ ch ∈ ['´', Char.ofNat 0x60, '^', '¨'] then some ch else none

/-- The accent on its own, for a dead key followed by Space (or itself). -/
def spacingAccent (accent : Char) : Char := accent

/-- The accents, the letters they go on, and what comes of it. -/
def composeTable : List (Char × List Char × List Char) := [
  ('´', "aeiouyAEIOUY".toList, "áéíóúýÁÉÍÓÚÝ".toList),
  (Char.ofNat 0x60, "aeiouAEIOU".toList, "àèìòùÀÈÌÒÙ".toList),
  ('^', "aeiouAEIOU".toList, "âêîôûÂÊÎÔÛ".toList),
  ('¨', "aeiouyAEIOU".toList, "äëïöüÿÄËÏÖÜ".toList)]

/-- A dead key's accent on a base letter, where Latin-1 has the result. -/
def compose (accent base : Char) : Option Char := do
  let (_, letters, composed) ← composeTable.find? (·.1 == accent)
  let i ← letters.findIdx? (· == base)
  composed[i]?

namespace Keyboard

def new (layout : Layout) : Keyboard where
  layout := layout
  leftShift := false
  rightShift := false
  ctrlLeft := false
  ctrlRight := false
  altFlag := false
  altgr := false
  gui := false
  caps := false
  -- A keypad types digits until Num Lock says otherwise.
  num := true
  dead := none

def shift (kb : Keyboard) : Bool := kb.leftShift || kb.rightShift

def ctrl (kb : Keyboard) : Bool := kb.ctrlLeft || kb.ctrlRight

def alt (kb : Keyboard) : Bool := kb.altFlag

/-- The editing and navigation keys, which mean the same on every layout. -/
def named (kb : Keyboard) (code : UInt8) (ext : Bool) : Option KeyInput :=
  -- The keypad's navigation half, when Num Lock is off.
  let nav := ext || !kb.num
  if code = 0x1C then some .enter
  else if code = 0x0E then some .backspace
  else if code = 0x0F then some (if kb.shift then .backTab else .tab)
  else if code = 0x01 then some .escape
  else if code = 0x48 ∧ nav then some .up
  else if code = 0x50 ∧ nav then some .down
  else if code = 0x4B ∧ nav then some .left
  else if code = 0x4D ∧ nav then some .right
  else if code = 0x47 ∧ nav then some .home
  else if code = 0x4F ∧ nav then some .end
  else if code = 0x49 ∧ nav then some .pageUp
  else if code = 0x51 ∧ nav then some .pageDown
  else if code = 0x52 ∧ nav then some .insert
  else if code = 0x53 ∧ nav then some .delete
  else if 0x3B ≤ code ∧ code ≤ 0x44 then some (.function (code - 0x3A))
  else if code = 0x57 then some (.function 11)
  else if code = 0x58 then some (.function 12)
  else none

/-- The keypad with Num Lock on, the same on both layouts but for its point. -/
def keypad (layout : Layout) (code : UInt8) : Option Char :=
  ([(0x47, '7'), (0x48, '8'), (0x49, '9'), (0x4A, '-'), (0x4B, '4'), (0x4C, '5'), (0x4D, '6'), (0x4E, '+'), (0x4F, '1'),
    (0x50, '2'), (0x51, '3'), (0x52, '0'), (0x53, if layout = .es then ',' else '.'), (0x37, '*')] :
      List (UInt8 × Char)).lookup code

/-- The character of a key, at the level that the modifiers choose. -/
def character (kb : Keyboard) (code : UInt8) (ext : Bool) : Option Char :=
  if ext then if code = 0x35 then some '/' else none
  else
    match keypad kb.layout code with
    | some ch => some ch
    | none =>
      if code = 0x39 then some ' '
      else do
        let entry ← (if kb.layout = .us then US else ES).find? (·.code == code)
        let letter := entry.plain.isAlpha || entry.plain == 'ñ' || entry.plain == 'ç'
        -- Caps Lock shifts letters only, and Shift undoes it.
        let shifted := if letter then kb.shift != kb.caps else kb.shift
        if kb.altgr then if entry.altgr ≠ NUL then some entry.altgr else none
        else some (if shifted then entry.shifted else entry.plain)

/-- The flag of a modifier key follows the key. -/
def modify (kb : Keyboard) (key : Key) : Keyboard :=
  match key.scancode, key.extended with
  | 0x2A, false => { kb with leftShift := key.pressed }
  | 0x36, false => { kb with rightShift := key.pressed }
  | 0x1D, false => { kb with ctrlLeft := key.pressed }
  | 0x1D, true => { kb with ctrlRight := key.pressed }
  | 0x38, false => { kb with altFlag := key.pressed }
  -- AltGr on a layout that has one, Alt on one that does not.
  | 0x38, true => if kb.layout = .us then { kb with altFlag := key.pressed } else { kb with altgr := key.pressed }
  | 0x5B, true => { kb with gui := key.pressed }
  | 0x5C, true => { kb with gui := key.pressed }
  | _, _ => kb

/-- What a character types, after Ctrl and the dead keys. -/
def accented (kb : Keyboard) (ch : Char) : Option KeyInput × Keyboard :=
  let lower := ch.toLower
  if kb.ctrl && !kb.altgr && (lower.isLower || ['[', Char.ofNat 0x5C, ']', '^', '_', ' '].contains lower) then
    (some (.ctrl lower), { kb with dead := none })
  else
    match deadKey kb.layout ch, kb.dead with
    -- Twice in a row types the accent itself.
    | some _, some pending => (some (.char (spacingAccent pending)), { kb with dead := none })
    | some accent, none => (none, { kb with dead := some accent })
    | none, some accent =>
      (some (.char (if ch = ' ' then spacingAccent accent else (compose accent ch).getD ch)), { kb with dead := none })
    | none, none => (some (.char ch), kb)

/-- Feeds one key event: what it typed, if anything. Releases, modifiers and lock keys type nothing. -/
def feed (kb : Keyboard) (key : Key) : Option KeyInput × Keyboard :=
  let kb := kb.modify key
  let code := key.scancode
  let ext := key.extended
  if !key.pressed then (none, kb)
  else if code = 0x3A ∧ ext = false then (none, { kb with caps := !kb.caps })
  else if code = 0x45 ∧ ext = false then (none, { kb with num := !kb.num })
  else if code ∈ [0x2A, 0x36, 0x1D, 0x38] ∨ (code ∈ [0x5B, 0x5C] ∧ ext = true) then (none, kb)
  else
    match kb.named code ext with
    | some input => (some input, { kb with dead := none })
    | none =>
      match kb.character code ext with
      | none => (none, kb)
      | some ch => kb.accented ch

end Keyboard

/-! ## The keys held -/

/-- What the flags stand for. -/
inductive Modifier where
  | shift | ctrl | alt | altgr
  deriving DecidableEq

def Keyboard.flag (kb : Keyboard) : Modifier → Bool
  | .shift => kb.shift
  | .ctrl => kb.ctrl
  | .alt => kb.alt
  | .altgr => kb.altgr

/-- A key: its scancode, and whether it is behind a prefix. -/
abbrev Place := UInt8 × Bool

def LEFT_ALT : Place := (0x38, false)

def RIGHT_ALT : Place := (0x38, true)

/-- The keys that a layout assigns to a modifier. -/
def Layout.keys : Layout → Modifier → List Place
  | _, .shift => [(0x2A, false), (0x36, false)]
  | _, .ctrl => [(0x1D, false), (0x1D, true)]
  | .us, .alt => [LEFT_ALT, RIGHT_ALT]
  | .es, .alt => [LEFT_ALT]
  | .us, .altgr => []
  | .es, .altgr => [RIGHT_ALT]

/-- What happens to a keyboard: a key goes down or up, or the layout is changed. -/
inductive Event where
  | key (key : Key)
  | layout (layout : Layout)

/-- A keyboard, and the keys whose last event was their press. -/
structure State where
  kb : Keyboard
  held : Place → Bool

namespace State

def start (layout : Layout) : State := ⟨.new layout, fun _ => false⟩

def step (s : State) : Event → State
  | .key key => ⟨(s.kb.feed key).2, Function.update s.held (key.scancode, key.extended) key.pressed⟩
  | .layout layout => ⟨{ s.kb with layout := layout }, s.held⟩

def run (s : State) (es : List Event) : State := es.foldl step s

/-- Each modifier is on exactly while a key is held that the layout assigns to it. -/
def Reflects (s : State) : Prop := ∀ m, s.kb.flag m = (s.kb.layout.keys m).any s.held

/-- No Alt is released while the other is held and both are Alt, and the layout stays while right Alt is held. -/
def Allowed (s : State) : Event → Prop
  | .key key => s.kb.layout = .us → key.scancode = 0x38 → key.pressed = false → s.held (0x38, !key.extended) = false
  | .layout layout => layout = s.kb.layout ∨ s.held RIGHT_ALT = false

/-- With no key held, no modifier is on. -/
theorem Reflects.released {s : State} (h : s.Reflects) (hnone : ∀ p, s.held p = false) (m : Modifier) :
    s.kb.flag m = false := by
  rw [h m, List.any_eq_false]
  intro p _
  rw [hnone p]
  exact Bool.false_ne_true

end State

/-! ## What an event changes -/

/-- Two keyboards with the same layout and the same modifier flags. -/
structure Keyboard.Alike (a b : Keyboard) : Prop where
  layout : a.layout = b.layout
  leftShift : a.leftShift = b.leftShift
  rightShift : a.rightShift = b.rightShift
  ctrlLeft : a.ctrlLeft = b.ctrlLeft
  ctrlRight : a.ctrlRight = b.ctrlRight
  alt : a.altFlag = b.altFlag
  altgr : a.altgr = b.altgr

/-- The locks and the pending accent are not among them. -/
theorem Keyboard.locks_alike (kb : Keyboard) (gui caps num : Bool) (dead : Option Char) :
    { kb with gui := gui, caps := caps, num := num, dead := dead }.Alike kb :=
  ⟨rfl, rfl, rfl, rfl, rfl, rfl, rfl⟩

theorem Keyboard.accented_alike (kb : Keyboard) (ch : Char) : (kb.accented ch).2.Alike kb := by
  rw [accented]
  split
  · exact kb.locks_alike _ _ _ _
  · split <;> exact kb.locks_alike _ _ _ _

/-- Typing leaves the modifiers as the key's own flag was set. -/
theorem Keyboard.feed_alike (kb : Keyboard) (key : Key) : (kb.feed key).2.Alike (kb.modify key) := by
  rw [feed]
  generalize kb.modify key = kb
  split
  · exact kb.locks_alike _ _ _ _
  split
  · exact kb.locks_alike _ _ _ _
  split
  · exact kb.locks_alike _ _ _ _
  split
  · exact kb.locks_alike _ _ _ _
  split
  · exact kb.locks_alike _ _ _ _
  split
  · exact kb.locks_alike _ _ _ _
  · exact kb.accented_alike _

/-- Each flag follows its key; the flag of Alt follows right Alt too where the layout has no AltGr. -/
theorem Keyboard.modify_alike (kb : Keyboard) (key : Key) : (kb.modify key).Alike { kb with
    leftShift := if (0x2A, false) = (key.scancode, key.extended) then key.pressed else kb.leftShift
    rightShift := if (0x36, false) = (key.scancode, key.extended) then key.pressed else kb.rightShift
    ctrlLeft := if (0x1D, false) = (key.scancode, key.extended) then key.pressed else kb.ctrlLeft
    ctrlRight := if (0x1D, true) = (key.scancode, key.extended) then key.pressed else kb.ctrlRight
    altFlag := if LEFT_ALT = (key.scancode, key.extended) ∨ RIGHT_ALT = (key.scancode, key.extended) ∧ kb.layout = .us
      then key.pressed else kb.altFlag
    altgr := if RIGHT_ALT = (key.scancode, key.extended) ∧ kb.layout ≠ .us then key.pressed else kb.altgr } := by
  obtain ⟨code, pressed, ext⟩ := key
  rw [modify, LEFT_ALT, RIGHT_ALT]
  dsimp only
  split
  case h_6 =>
    split
    next h => constructor <;> simp [h]
    next h => constructor <;> simp [h]
  case h_9 => constructor <;> grind
  all_goals constructor <;> simp

/-- The flags of the keys that have one of their own. -/
structure State.Tracked (s : State) : Prop where
  leftShift : s.kb.leftShift = s.held (0x2A, false)
  rightShift : s.kb.rightShift = s.held (0x36, false)
  ctrlLeft : s.kb.ctrlLeft = s.held (0x1D, false)
  ctrlRight : s.kb.ctrlRight = s.held (0x1D, true)

namespace State

theorem Tracked.start (layout : Layout) : (State.start layout).Tracked := ⟨rfl, rfl, rfl, rfl⟩

/-- Where the tracked flags are the keys', only the two Alts are left to be looked at. -/
theorem Tracked.reflects_iff {s : State} (h : s.Tracked) : s.Reflects ↔
    s.kb.altFlag = (s.kb.layout.keys .alt).any s.held ∧ s.kb.altgr = (s.kb.layout.keys .altgr).any s.held := by
  constructor
  · exact fun hr => ⟨hr .alt, hr .altgr⟩
  · rintro ⟨halt, haltgr⟩ m
    cases m with
    | shift => cases s.kb.layout <;> simp [Keyboard.flag, Keyboard.shift, Layout.keys, h.leftShift, h.rightShift]
    | ctrl => cases s.kb.layout <;> simp [Keyboard.flag, Keyboard.ctrl, Layout.keys, h.ctrlLeft, h.ctrlRight]
    | alt => exact halt
    | altgr => exact haltgr

/-- A step keeps track. -/
theorem Tracked.step {s : State} (h : s.Tracked) (e : Event) : (s.step e).Tracked := by
  cases e with
  | layout layout => exact ⟨h.leftShift, h.rightShift, h.ctrlLeft, h.ctrlRight⟩
  | key key =>
    have hfeed := s.kb.feed_alike key
    have hmodify := s.kb.modify_alike key
    constructor <;> refine Eq.trans ?_ (Function.update_apply s.held _ _ _).symm
    · exact (hfeed.leftShift.trans hmodify.leftShift).trans (by rw [h.leftShift])
    · exact (hfeed.rightShift.trans hmodify.rightShift).trans (by rw [h.rightShift])
    · exact (hfeed.ctrlLeft.trans hmodify.ctrlLeft).trans (by rw [h.ctrlLeft])
    · exact (hfeed.ctrlRight.trans hmodify.ctrlRight).trans (by rw [h.ctrlRight])

/-- A step from a state whose modifiers are those of the keys held leads to another just where it is allowed. -/
theorem Reflects.step_iff {s : State} (h : s.Tracked) (hr : s.Reflects) (e : Event) :
    (s.step e).Reflects ↔ s.Allowed e := by
  obtain ⟨halt, haltgr⟩ := h.reflects_iff.1 hr
  rw [(h.step e).reflects_iff]
  cases e with
  | layout layout =>
    change s.kb.altFlag = (layout.keys .alt).any s.held ∧ s.kb.altgr = (layout.keys .altgr).any s.held ↔
      layout = s.kb.layout ∨ s.held RIGHT_ALT = false
    rw [halt, haltgr]
    cases layout <;> cases s.kb.layout <;> cases hright : s.held RIGHT_ALT <;> simp [Layout.keys, hright]
  | key key =>
    have hfeed := s.kb.feed_alike key
    have hmodify := s.kb.modify_alike key
    have hheld : ∀ p, (s.step (.key key)).held p =
        if p = (key.scancode, key.extended) then key.pressed else s.held p := fun p => Function.update_apply s.held _ _ _
    have hlayout : (s.step (.key key)).kb.layout = s.kb.layout := hfeed.layout.trans hmodify.layout
    have haltFlag : (s.step (.key key)).kb.altFlag = _ := hfeed.alt.trans hmodify.alt
    have haltgrFlag : (s.step (.key key)).kb.altgr = _ := hfeed.altgr.trans hmodify.altgr
    rw [haltFlag, haltgrFlag, hlayout, Allowed, halt, haltgr]
    obtain ⟨code, pressed, ext⟩ := key
    dsimp only at hheld ⊢
    cases hl : s.kb.layout with
    | es => simp [Layout.keys, hheld, LEFT_ALT, RIGHT_ALT]
    | us =>
      by_cases hcode : code = 0x38
      · -- A release clears the one flag of both Alts.
        subst hcode
        cases ext <;> cases pressed <;> simp [Layout.keys, hheld, LEFT_ALT, RIGHT_ALT]
      · simp [Layout.keys, hheld, LEFT_ALT, RIGHT_ALT, hcode, Ne.symm hcode]

theorem Tracked.run {s : State} (h : s.Tracked) (es : List Event) : (s.run es).Tracked := by
  induction es generalizing s with
  | nil => exact h
  | cons e es ih => exact ih (h.step e)

theorem run_snoc (s : State) (es : List Event) (e : Event) : s.run (es ++ [e]) = (s.run es).step e := by
  rw [run, List.foldl_concat]
  rfl

theorem start_reflects (layout : Layout) : (State.start layout).Reflects := by
  intro m
  cases m <;> cases layout <;> rfl

/-- In every state of a run the modifiers are those of the keys held, just where every step of it is allowed. -/
theorem run_reflects_iff (layout : Layout) (es : List Event) :
    (∀ past, past <+: es → ((State.start layout).run past).Reflects) ↔
      ∀ past e, past ++ [e] <+: es → ((State.start layout).run past).Allowed e := by
  constructor
  · intro h past e hpast
    have hnext := h (past ++ [e]) hpast
    rw [run_snoc] at hnext
    exact (Reflects.step_iff ((Tracked.start layout).run past) (h past ((List.prefix_append _ _).trans hpast)) e).1 hnext
  · intro h past hpast
    induction past using List.reverseRecOn with
    | nil => exact start_reflects layout
    | append_singleton past e ih =>
      have hbefore := ih ((List.prefix_append _ _).trans hpast)
      rw [run_snoc]
      exact (Reflects.step_iff ((Tracked.start layout).run past) hbefore e).2 (h past e hpast)

/-- Both Alts are held on an American keyboard, and the right one is released. -/
def oneAltLeft : State :=
  (State.start .us).run [.key ⟨0x38, true, false⟩, .key ⟨0x38, true, true⟩, .key ⟨0x38, false, true⟩]

/-- Right Alt is held while the layout changes, and then released. -/
def changedUnderAlt : State := (State.start .us).run [.key ⟨0x38, true, true⟩, .layout .es, .key ⟨0x38, false, true⟩]

/-- Alt is off though the left one is held, and on though no key is. -/
theorem alt_astray : (oneAltLeft.held LEFT_ALT = true ∧ oneAltLeft.kb.alt = false ∧ ¬oneAltLeft.Reflects) ∧
    (∀ p, changedUnderAlt.held p = false) ∧ changedUnderAlt.kb.alt = true ∧ ¬changedUnderAlt.Reflects := by
  refine ⟨⟨by decide, by decide, fun h => absurd (h .alt) (by decide)⟩, ?_⟩
  have hnone : ∀ p, changedUnderAlt.held p = false := by
    intro p
    change Function.update (Function.update (fun _ => false) RIGHT_ALT true) RIGHT_ALT false p = false
    rw [Function.update_idem, Function.update_apply, ite_self]
  have hstuck : changedUnderAlt.kb.alt = true := by decide
  refine ⟨hnone, hstuck, fun h => ?_⟩
  have hoff := h.released hnone .alt
  rw [Keyboard.flag, hstuck] at hoff
  cases hoff

end State

end NanoChrono.Typing
