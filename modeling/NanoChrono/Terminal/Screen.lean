import NanoChrono.Buffer.Cells

/-! # The terminal

A grid of character cells in a slice that the owner provides, and the parser of the characters and ANSI sequences
that are written to it. Every function is translated as it stands; where it indexes the slice it says which cells it
uses, and where it would panic it has no result. -/

namespace NanoChrono.Terminal

open Buffer

/-! ## Cells and colours -/

/-- The widest and tallest grid any terminal has. -/
def MAX_COLS : Nat := 240
def MAX_ROWS : Nat := 90

def FLAG_BOLD : UInt8 := 1
def FLAG_DIM : UInt8 := 2
def FLAG_UNDERLINE : UInt8 := 4
def FLAG_INVERSE : UInt8 := 8

/-- The default colour; a palette index is stored one higher. -/
def DEFAULT : Nat := 0

def U16_MAX : Nat := 65535

/-- One character cell. -/
structure Cell where
  ch : Char
  fg : Nat
  bg : Nat
  flags : UInt8
deriving DecidableEq, Repr

def BLANK : Cell := ⟨Char.ofNat 0, DEFAULT, DEFAULT, 0⟩

/-- A palette index as a cell stores it. -/
def ink (index : Nat) : Nat := index + 1

def absDiff (x y : Nat) : Nat := max x y - min x y

/-- The 256-colour palette entry nearest an RGB colour. -/
def nearest256 (r g b : Nat) : Nat :=
  let toLevel := fun v => if v < 48 then 0 else if v < 115 then 1 else min ((v - 35) / 40) 5
  if absDiff r g < 8 ∧ absDiff g b < 8 then
    let avg := (r + g + b) / 3
    if avg < 8 then 16
    else if avg > 238 then 231
    else 232 + min ((avg - 8) / 10) 23
  else 16 + 36 * toLevel r + 6 * toLevel g + toLevel b

/-- The colours and flags that characters are printed in. -/
structure Pen where
  fg : Nat
  bg : Nat
  flags : UInt8
deriving DecidableEq, Repr

/-! ## The state -/

theorem params_pos : 0 < 16 := Nat.succ_pos 15

theorem params_two : 1 < 16 := Nat.succ_lt_succ (Nat.succ_pos 14)

theorem counts_pos : 0 < 17 := Nat.succ_pos 16

theorem counts_two : 1 < 17 := Nat.succ_lt_succ (Nat.succ_pos 15)

theorem utf8_pos : 0 < 4 := Nat.succ_pos 3

theorem utf8_counts_pos : 0 < 5 := Nat.succ_pos 4

/-- No parameters. -/
def noParams : Fin 17 := ⟨0, counts_pos⟩

/-- The places of the first two parameters. -/
def param0 : Fin 16 := ⟨0, params_pos⟩
def param1 : Fin 16 := ⟨1, params_two⟩

/-- A sequence with nothing assembled. -/
def noBytes : Fin 5 := ⟨0, utf8_counts_pos⟩

inductive Parse where
  | ground
  | escape
  | csi
  /-- An OSC string, skipped to its terminator. -/
  | osc
deriving DecidableEq, Repr

/-- A terminal over cells it was given. -/
structure Term where
  cells : Cells Cell
  cols : Nat
  rows : Nat
  cx : Nat
  cy : Nat
  fg : Nat
  bg : Nat
  flags : UInt8
  saved : Nat × Nat
  state : Parse
  params : Vector Nat 16
  nparams : Fin 17
  priv : Bool
  /-- A character was written into the last column: the next one wraps first. -/
  wrapPending : Bool
  cursorVisible : Bool
  /-- Rows to redraw, one bit each. -/
  dirty : BitVec 128
  /-- Rows scrolled since the last render. -/
  scrolled : Nat
  /-- Where the cursor was last drawn. -/
  drawnCursor : Option (Nat × Nat)
  /-- Bytes of a UTF-8 sequence arriving byte by byte. -/
  utf8 : Vector UInt8 4
  utf8Len : Fin 5

namespace Term

/-! ## Rows and the grid's size -/

def mark (t : Term) (row : Nat) : Term :=
  if row < 128 then { t with dirty := t.dirty ||| 1#128 <<< row } else t

def isDirty (t : Term) (row : Nat) : Bool := row < 128 && t.dirty.getLsbD row

/-- Redraw everything at the next render. -/
def invalidate (t : Term) : Term := { t with dirty := BitVec.allOnes 128, scrolled := 0 }

def cell (t : Term) (col row : Nat) : Cell :=
  let i := row * t.cols + col
  if i < t.cells.len then t.cells.cell i else BLANK

def blank (t : Term) : Cell := ⟨' ', t.fg, t.bg, 0⟩

/-- One row of the old grid, into its place in the new one. -/
def copyRow (cells : Cells Cell) (firstOld oldCols cols r : Nat) : Ran (Cells Cell) := do
  let src := (firstOld + r) * oldCols
  let read ← cells.readEach src (min cols oldCols)
  let line := fun c => if c < oldCols then read c else BLANK
  cells.copyFromSlice (r * cols) cols line

/-- The width of a grid as `resize` takes it. -/
def clampCols (cols : Nat) : Nat := min (max cols 1) MAX_COLS

/-- The height, for the cells there are. -/
def clampRows (cap cols rows : Nat) : Nat := max (min (min (max rows 1) MAX_ROWS) (cap / cols)) 1

/-- Lays the cells out for another size: the bottom of the old contents is kept, which is where the prompt is. -/
def relayout (t : Term) (cols rows : Nat) : Ran Term :=
  if cols ≠ t.cols ∨ rows ≠ t.rows then do
    let keep := min t.rows rows
    let firstOld := t.rows - keep
    let cells ← (List.range keep).foldlM (fun cells r => copyRow cells firstOld t.cols cols r) t.cells
    let cells ← cells.fillSlice (keep * cols) (rows * cols) BLANK
    pure { t with cells, cy := min (t.cy + keep - t.rows) (rows - 1), cols, rows }
  else pure t

/-- Changes the grid's size, keeping what fits and clearing the rest. -/
def resize (t : Term) (cols rows : Nat) : Ran Term := do
  let cap := t.cells.len
  let cols := clampCols cols
  let rows := clampRows cap cols rows
  let t ← t.relayout cols rows
  pure { t with
    cx := min t.cx (t.cols - 1)
    cy := min t.cy (t.rows - 1)
    dirty := BitVec.allOnes 128
    scrolled := 0
    drawnCursor := none }

/-- A terminal of `cols x rows` over `cells`. -/
def new (cells : Cells Cell) (cols rows : Nat) : Ran Term :=
  resize
    { cells, cols := 1, rows := 1, cx := 0, cy := 0, fg := DEFAULT, bg := DEFAULT, flags := 0, saved := (0, 0)
      state := .ground, params := Vector.replicate 16 0, nparams := noParams, priv := false
      wrapPending := false, cursorVisible := true, dirty := BitVec.allOnes 128, scrolled := 0, drawnCursor := none
      utf8 := Vector.replicate 4 0, utf8Len := noBytes }
    cols rows

/-! ## Printing -/

def put (t : Term) (col row : Nat) (cell : Cell) : Ran Term :=
  if col < t.cols ∧ row < t.rows then do
    let cells ← t.cells.set (row * t.cols + col) cell
    pure (mark { t with cells } row)
  else pure t

/-- Clears the screen and homes the cursor. -/
def clear (t : Term) : Ran Term := do
  let cells ← t.cells.fillSlice 0 (t.cols * t.rows) BLANK
  pure (invalidate { t with cells, cx := 0, cy := 0, wrapPending := false })

def scrollUp (t : Term) (n : Nat) : Ran Term := do
  let n := min n t.rows
  let cols := t.cols
  let cells ← t.cells.copyWithin (n * cols) (t.rows * cols) 0
  let cells ← cells.fillSlice ((t.rows - n) * cols) (t.rows * cols) t.blank
  -- A dirty row moves with its content.
  let moved := (List.range' n (t.rows - n)).foldl
    (fun moved r => if t.isDirty r then moved ||| 1#128 <<< (r - n) else moved) 0#128
  let t := { t with cells, dirty := moved }
  let t := (List.range' (t.rows - n) n).foldl mark t
  pure { t with
    scrolled := min (t.scrolled + n) t.rows
    drawnCursor := t.drawnCursor.bind fun (x, y) => if n ≤ y then some (x, y - n) else none }

def newline (t : Term) : Ran Term :=
  if t.cy + 1 ≥ t.rows then t.scrollUp 1 else pure { t with cy := t.cy + 1 }

/-- The wrap that a character in the last column left pending. -/
def wrap (t : Term) : Ran Term :=
  if t.wrapPending then newline { t with wrapPending := false, cx := 0 } else pure t

def print (t : Term) (ch : Char) : Ran Term := do
  let t ← t.wrap
  let t ← t.put t.cx t.cy ⟨ch, t.fg, t.bg, t.flags⟩
  pure (if t.cx + 1 ≥ t.cols then { t with wrapPending := true } else { t with cx := t.cx + 1 })

/-! ## Escape sequences -/

/-- A parameter, or the default where it is missing or zero. -/
def param (t : Term) (i : Fin 16) (default : Nat) : Nat :=
  if i.val < t.nparams.val ∧ t.params.get i ≠ 0 then t.params.get i else default

/-- What one attribute parameter does to the colours and flags. -/
def penAttribute (pen : Pen) (p : Nat) : Pen :=
  if p = 0 then { fg := DEFAULT, bg := DEFAULT, flags := 0 }
  else if p = 1 then { pen with flags := pen.flags ||| FLAG_BOLD }
  else if p = 2 then { pen with flags := pen.flags ||| FLAG_DIM }
  else if p = 4 then { pen with flags := pen.flags ||| FLAG_UNDERLINE }
  else if p = 7 then { pen with flags := pen.flags ||| FLAG_INVERSE }
  else if p = 22 then { pen with flags := pen.flags &&& ~~~(FLAG_BOLD ||| FLAG_DIM) }
  else if p = 24 then { pen with flags := pen.flags &&& ~~~FLAG_UNDERLINE }
  else if p = 27 then { pen with flags := pen.flags &&& ~~~FLAG_INVERSE }
  else if 30 ≤ p ∧ p ≤ 37 then { pen with fg := ink (p - 30) }
  else if p = 39 then { pen with fg := DEFAULT }
  else if 40 ≤ p ∧ p ≤ 47 then { pen with bg := ink (p - 40) }
  else if p = 49 then { pen with bg := DEFAULT }
  else if 90 ≤ p ∧ p ≤ 97 then { pen with fg := ink (p - 90 + 8) }
  else if 100 ≤ p ∧ p ≤ 107 then { pen with bg := ink (p - 100 + 8) }
  else pen

/-- The foreground for 38, the background for 48. -/
def penColour (pen : Pen) (p colour : Nat) : Pen :=
  if p = 38 then { pen with fg := ink colour } else { pen with bg := ink colour }

/-- The attributes of the parameters from `i` on. -/
def sgrFrom (params : Vector Nat 16) (nparams : Fin 17) (pen : Pen) (i : Nat) : Pen :=
  if h : i < nparams.val then
    let p := params.get ⟨i, Nat.lt_of_lt_of_le h (Nat.le_of_lt_succ nparams.isLt)⟩
    -- 38;5;n or 38;2;r;g;b (and 48 for the background).
    if p = 38 ∨ p = 48 then
      match params[i + 1]? with
      | some 5 => sgrFrom params nparams (penColour pen p (min (params[i + 2]?.getD 0) 255)) (i + 3)
      | some 2 =>
        let c := fun k => min (params[i + k]?.getD 0) 255
        sgrFrom params nparams (penColour pen p (nearest256 (c 2) (c 3) (c 4))) (i + 5)
      | _ => sgrFrom params nparams pen (i + 1)
    else sgrFrom params nparams (penAttribute pen p) (i + 1)
  else pen
termination_by nparams.val - i

def sgr (t : Term) : Term :=
  let pen := if t.nparams.val = 0 then { fg := DEFAULT, bg := DEFAULT, flags := 0 }
    else sgrFrom t.params t.nparams ⟨t.fg, t.bg, t.flags⟩ 0
  { t with fg := pen.fg, bg := pen.bg, flags := pen.flags }

/-- `for c in from..to { self.put(c, self.cy, blank) }`. -/
def putEach (t : Term) (start stop : Nat) (cell : Cell) : Ran Term :=
  (List.range' start (stop - start)).foldlM (fun u c => u.put c u.cy cell) t

/-- What an erase covers, by its parameter: from the cursor on, up to it, or all. -/
def eraseRange (mode cursor stop : Nat) : Nat × Nat :=
  match mode with
  | 0 => (cursor, stop)
  | 1 => (0, cursor + 1)
  | _ => (0, stop)

/-- Erases in the display. -/
def eraseDisplay (t : Term) : Ran Term := do
  let range := eraseRange (t.param param0 0) (t.cy * t.cols + t.cx) (t.rows * t.cols)
  let cells ← t.cells.fillEach range.1 (min range.2 t.cells.len) t.blank
  let first := range.1 / t.cols
  let last := min ((range.2 + t.cols - 1) / t.cols) t.rows
  pure ((List.range' first (last - first)).foldl mark { t with cells })

/-- Erases in the line. -/
def eraseLine (t : Term) : Ran Term :=
  let range := eraseRange (t.param param0 0) t.cx t.cols
  t.putEach range.1 (min range.2 t.cols) t.blank

/-- Deletes `n` characters: the rest of the line moves left. -/
def deleteChars (t : Term) (n : Nat) : Ran Term :=
  let row := t.cy * t.cols
  -- The subtraction panics past the last column.
  if t.cx ≤ t.cols then do
    let n := min n (t.cols - t.cx)
    let cells ← t.cells.copyWithin (row + t.cx + n) (row + t.cols) (row + t.cx)
    let cells ← cells.fillEach (row + (t.cols - n)) (row + t.cols) t.blank
    pure (mark { t with cells } t.cy)
  else WriterT.mk none

/-- Inserts `n` blanks: the rest of the line moves right. -/
def insertChars (t : Term) (n : Nat) : Ran Term :=
  let row := t.cy * t.cols
  if t.cx ≤ t.cols then do
    let n := min n (t.cols - t.cx)
    let cells ← t.cells.copyWithin (row + t.cx) (row + t.cols - n) (row + t.cx + n)
    let cells ← cells.fillEach (row + t.cx) (row + (t.cx + n)) t.blank
    pure (mark { t with cells } t.cy)
  else WriterT.mk none

def csi (t : Term) (finalByte : Char) : Ran Term :=
  let n := t.param param0 1
  match finalByte, t.priv with
  | 'm', false => pure t.sgr
  | 'H', false => pure (position t)
  | 'f', false => pure (position t)
  | 'A', false => pure { t with cy := t.cy - n }
  | 'B', false => pure { t with cy := min (t.cy + n) (t.rows - 1) }
  | 'C', false => pure { t with cx := min (t.cx + n) (t.cols - 1) }
  | 'D', false => pure { t with cx := t.cx - n, wrapPending := false }
  | 'G', false => pure { t with cx := min (n - 1) (t.cols - 1) }
  | 'd', false => pure { t with cy := min (n - 1) (t.rows - 1) }
  | 'J', false => t.eraseDisplay
  | 'K', false => t.eraseLine
  | 'X', false => t.putEach t.cx (min (t.cx + n) t.cols) t.blank
  | 'P', false => t.deleteChars n
  | '@', false => t.insertChars n
  | 's', false => pure { t with saved := (t.cx, t.cy) }
  | 'u', false => pure { t with cx := t.saved.1, cy := t.saved.2 }
  | 'h', true => pure (visible t true)
  | 'l', true => pure (visible t false)
  | _, _ => pure t
where
  position (t : Term) : Term :=
    { t with
      cy := min (t.param param0 1 - 1) (t.rows - 1)
      cx := min (t.param param1 1 - 1) (t.cols - 1)
      wrapPending := false }
  visible (t : Term) (shown : Bool) : Term :=
    if t.param param0 0 = 25 then mark { t with cursorVisible := shown } t.cy else t

/-! ## Characters and bytes -/

/-- The number of parameters once one has begun. -/
def begun (t : Term) : Fin 17 :=
  if t.nparams.val = 0 then ⟨1, counts_two⟩ else t.nparams

/-- One digit more of the parameter that is being read. -/
def digit (t : Term) (ch : Char) : Term :=
  let last := t.begun.val - 1
  let p := t.params[last]?.getD 0
  { t with
    nparams := t.begun
    params := t.params.setIfInBounds last (min (min (p * 10) U16_MAX + (ch.toNat - 48)) U16_MAX) }

/-- The next parameter, if there is room. -/
def nextParam (t : Term) : Term :=
  { t with nparams := if h : t.begun.val < 16 then ⟨t.begun.val + 1, Nat.succ_lt_succ h⟩ else t.begun }

/-- Feeds one character through the escape-sequence parser. -/
def feed (t : Term) (ch : Char) : Ran Term :=
  match t.state with
  | .ground =>
    if ch = '\x1b' then pure { t with state := .escape }
    else if ch = '\r' then pure { t with cx := 0, wrapPending := false }
    else if ch = '\n' then newline { t with wrapPending := false }
    else if ch = '\t' then pure { t with cx := min ((t.cx / 8 + 1) * 8) (t.cols - 1) }
    else if ch = '\x08' then pure { t with wrapPending := false, cx := t.cx - 1 }
    else if ch.toNat < 0x20 then pure t
    else t.print ch
  | .escape =>
    let t := { t with state := .ground }
    if ch = '[' then
      pure { t with
        state := .csi, params := Vector.replicate 16 0, nparams := noParams, priv := false }
    else if ch = ']' then pure { t with state := .osc }
    else if ch = '7' then pure { t with saved := (t.cx, t.cy) }
    else if ch = '8' then pure { t with cx := t.saved.1, cy := t.saved.2 }
    else if ch = 'c' then clear { t with fg := DEFAULT, bg := DEFAULT, flags := 0 }
    else pure t
  | .osc =>
    -- To BEL, or to ST, whose backslash lands in the ground state.
    if ch = '\x07' ∨ ch = '\x1b' then pure { t with state := .ground } else pure t
  | .csi =>
    if '0' ≤ ch ∧ ch ≤ '9' then pure (t.digit ch)
    else if ch = ';' then pure t.nextParam
    else if ch = '?' ∨ ch = '>' ∨ ch = '=' then pure { t with priv := true }
    else if '\x40' ≤ ch ∧ ch ≤ '\x7e' then csi { t with state := .ground } ch
    else pure t

/-- The first character of some bytes, if they are UTF-8. -/
def firstChar? (bytes : List UInt8) : Option Char :=
  (ByteArray.mk bytes.toArray).utf8Decode?.bind fun chars => chars[0]?

/-- Takes one byte into the sequence that is being assembled, and the character it ends. -/
def assemble (utf8 : Vector UInt8 4) (utf8Len : Fin 5) (byte : UInt8) : (Vector UInt8 4 × Fin 5) × Option Char :=
  if byte < 0x80 then ((utf8, noBytes), some (Char.ofNat byte.toNat))
  else
    let utf8Len := if byte &&& 0xC0 ≠ 0x80 then noBytes else utf8Len
    let seq : Vector UInt8 4 × Fin 5 := if h : utf8Len.val < 4 then
        (utf8.set utf8Len.val byte h, ⟨utf8Len.val + 1, Nat.succ_lt_succ h⟩)
      else (utf8, utf8Len)
    let lead := seq.1.get ⟨0, utf8_pos⟩
    let need? : Option Nat :=
      if 0xC0 ≤ lead ∧ lead ≤ 0xDF then some 2
      else if 0xE0 ≤ lead ∧ lead ≤ 0xEF then some 3
      else if 0xF0 ≤ lead ∧ lead ≤ 0xF7 then some 4
      else none
    match need? with
    | none => ((seq.1, noBytes), none)
    | some need =>
      if seq.2.val = need then ((seq.1, noBytes), some ((firstChar? (seq.1.toList.take need)).getD '?'))
      else (seq, none)

/-- Feeds one byte, from a byte stream or a serial line. -/
def writeByte (t : Term) (byte : UInt8) : Ran Term :=
  let a := assemble t.utf8 t.utf8Len byte
  let t := { t with utf8 := a.1.1, utf8Len := a.1.2 }
  match a.2 with
  | none => pure t
  | some ch => t.feed ch

end Term

end NanoChrono.Terminal
