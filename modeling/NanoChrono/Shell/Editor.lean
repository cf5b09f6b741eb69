import NanoChrono.Shell.Words
import NanoChrono.Typing.Keyboard

/-! # The line editor

The shell's line, its cursor and its history. Every edit copies the line character by character
into a new bounded text, so a line that grows past its bytes loses what does not fit. Only the
keys that edit are here; what they draw is not, and a job that runs takes the keys first. -/

namespace NanoChrono.Editor

open NanoChrono.Shell
open NanoChrono.Typing (KeyInput)

/-- How many lines are remembered. -/
def HISTORY : ℕ := 32

theorem slot_lt (i : ℕ) : i % HISTORY < HISTORY := Nat.mod_lt i (Nat.succ_pos 31)

/-- The place of the `i`th line in the ring. -/
def slot (i : ℕ) : Fin HISTORY := ⟨i % HISTORY, slot_lt i⟩

/-- What the editor has of the shell's state. -/
structure Shell where
  line : Text LINE
  /-- In characters. -/
  cursor : ℕ
  history : Fin HISTORY → Text LINE
  history_len : ℕ
  browse : Option ℕ
  stash : Text LINE
  /-- A job is running. -/
  job : Bool

/-- What the rest of the machine answers to a key: the entries of a directory, named as it is
typed, with whether each is a directory; whether the line entered starts a job; whether the key
ends the job that runs. -/
structure World where
  listing : List Char → List (List Char × Bool)
  starts : Bool
  stops : Bool

/-- The arms of `input`. -/
inductive Edit
  | char (c : Char)
  | enter | backspace | delete | left | right | home | end
  /-- Ctrl-U, Ctrl-K and Ctrl-W. -/
  | clearBefore | clearAfter | clearWord
  /-- Ctrl-C. -/
  | abandon
  | back | forward | complete
  /-- Ctrl-L and the keys that edit nothing. -/
  | other
deriving DecidableEq

/-- The arm a key takes. -/
def edit : KeyInput → Edit
  | .char c => .char c
  | .enter => .enter
  | .backspace => .backspace
  | .delete => .delete
  | .left => .left
  | .right => .right
  | .home => .home
  | .end => .end
  | .up => .back
  | .down => .forward
  | .tab => .complete
  | .ctrl c =>
    if c = 'd' then .delete
    else if c = 'b' then .left
    else if c = 'f' then .right
    else if c = 'a' then .home
    else if c = 'e' then .end
    else if c = 'u' then .clearBefore
    else if c = 'k' then .clearAfter
    else if c = 'w' then .clearWord
    else if c = 'c' then .abandon
    else if c = 'p' then .back
    else if c = 'n' then .forward
    else .other
  | _ => .other

/-! ## Completion -/

/-- `builtins::names`. -/
def names : List (List Char) :=
  ["help", "nanochrono", "stopwatch", "top", "ps", "free", "uptime", "date", "uname", "hostname",
   "whoami", "echo", "clear", "ls", "cd", "pwd", "cat", "hexdump", "dmesg", "lscpu", "cpuctl",
   "lspci", "hypervisor", "selftest", "bench", "loadkeys", "color", "apps", "ncpkg", "sudo",
   "history", "sleep", "gui", "classic", "reboot", "poweroff", "true", "false", "exit", "shutdown",
   "cpuinfo", "halt", "desktop"].map String.toList

/-- `&text[k..]`; `none` where the index is no character's and the slice panics. -/
@[grind =] def slice_from : List Char → ℕ → Option (List Char)
  | text, 0 => some text
  | [], _ + 1 => none
  | c :: text, k + 1 => if c.utf8Size ≤ k + 1 then slice_from text (k + 1 - c.utf8Size) else none

/-- `&text[..k]`. -/
@[grind =] def slice_to : List Char → ℕ → Option (List Char)
  | _, 0 => some []
  | [], _ + 1 => none
  | c :: text, k + 1 =>
    if c.utf8Size ≤ k + 1 then (slice_to text (k + 1 - c.utf8Size)).map (c :: ·) else none

/-- The candidates for the word that ends `upto`: the commands it begins, or the entries of the
directory it names, as far as they go into 128 bytes; the first thirty-two of them. -/
def candidates (upto : List Char) (w : World) : List (Text 128) :=
  let word := upto.rtakeWhile (· ≠ ' ')
  let before := upto.rdropWhile (· ≠ ' ')
  let found :=
    if before.all is_whitespace then
      (names.filter fun name => word.isPrefixOf name).map Text.new.str
    else
      let dir_typed := word.rdropWhile (· ≠ '/')
      let stem := word.rtakeWhile (· ≠ '/')
      ((w.listing dir_typed).filter fun entry => stem.isPrefixOf entry.1).map fun entry =>
        let cand := ((Text.new : Text 128).str dir_typed).str entry.1
        let cand := if entry.2 then cand.str ['/'] else cand
        Text.new.str cand.as_str
  found.take 32

/-- The bytes two candidates have in common. -/
def common_len (a b : List Char) : ℕ :=
  bytes (((a.zip b).takeWhile fun pair => pair.1 = pair.2).map Prod.fst)

/-- One turn of the loop over the candidates. -/
def narrow (common m : Text 128) : Option (Text 128) :=
  (slice_to common.as_str (common_len common.as_str m.as_str)).map Text.new.str

namespace Shell

/-- `Shell::new`. -/
def new : Shell := ⟨Text.new, 0, fun _ => Text.new, 0, none, Text.new, false⟩

/-- `chars`. -/
def chars (s : Shell) : ℕ := s.line.as_str.length

/-- `char_at`. -/
def char_at (s : Shell) (i : ℕ) : Option Char := s.line.as_str[i]?

/-- The text completion inserts; `none` where it panics. -/
def completion (s : Shell) (w : World) : Option (List Char) :=
  let upto : Text LINE := Text.build (s.line.as_str.take s.cursor)
  let word := upto.as_str.rtakeWhile (· ≠ ' ')
  match candidates upto.as_str w with
  | [] => some []
  | first :: others =>
    (others.foldlM narrow first).bind fun common =>
      (slice_from common.as_str (min (bytes word) common.len)).map fun addition =>
        addition ++ if others = [] ∧ common.as_str.getLast? ≠ some '/' then [' '] else []

/-! ## Edits -/

/-- `insert`. -/
def insert (s : Shell) (c : Char) : Shell :=
  let next := s.line.as_str.zipIdx.foldl
    (fun next entry => (if entry.2 = s.cursor then Text.char next c else next).char entry.1) Text.new
  { s with
    line := if s.cursor ≥ s.chars then next.char c else next
    cursor := s.cursor + 1 }

/-- `remove_at`. -/
def remove_at (s : Shell) (at_ : ℕ) : Shell :=
  { s with
    line := s.line.as_str.zipIdx.foldl
      (fun next entry => if entry.2 = at_ then next else Text.char next entry.1) Text.new }

/-- The body of Backspace and of the loops of Ctrl-U and Ctrl-W. -/
def erase (s : Shell) : Shell := { s with cursor := s.cursor - 1 }.remove_at (s.cursor - 1)

/-- The loops of Ctrl-U and Ctrl-W: they erase while the character before the cursor is one
that `p` asks for. Each turn moves the cursor, so there are no more turns than it has places. -/
@[grind =] def erase_while (p : Option Char → Bool) : ℕ → Shell → Shell
  | 0, s => s
  | turns + 1, s =>
    if s.cursor > 0 ∧ p (s.char_at (s.cursor - 1)) then erase_while p turns s.erase else s

/-- The loop of Ctrl-K. Each turn takes a character of the line. -/
@[grind =] def clear_after : ℕ → Shell → Shell
  | 0, s => s
  | turns + 1, s => if s.cursor < s.chars then clear_after turns (s.remove_at s.cursor) else s

/-- `remember`. -/
def remember (s : Shell) (text : List Char) : Shell :=
  let text := trim text
  if text = [] then s
  else if s.history_len > 0 ∧ (s.history (slot (s.history_len - 1))).as_str = text then s
  else
    { s with
      history := Function.update s.history (slot s.history_len) (Text.new.str text)
      history_len := s.history_len + 1 }

/-- `history_step`. -/
def history_step (s : Shell) (back : Bool) : Shell :=
  let available := min s.history_len HISTORY
  if available = 0 then s
  else
    let next :=
      match s.browse, back with
      | none, true => some 1
      | none, false => none
      | some n, true => some (min (n + 1) available)
      | some n, false => if n = 1 then none else some (n - 1)
    let stash := if s.browse = none ∧ back = true then s.line else s.stash
    let line :=
      match next with
      | some n => s.history (slot (s.history_len - n))
      | none => stash
    { s with browse := next, stash := stash, line := line, cursor := line.as_str.length }

/-- `prompt`. -/
def prompt (s : Shell) : Shell := { s with line := Text.new, cursor := 0, browse := none }

/-- `complete`. -/
def complete (s : Shell) (w : World) : Option Shell :=
  (s.completion w).map fun text => text.foldl insert s

/-- `input`; `none` is a panic. -/
def input (s : Shell) (key : KeyInput) (w : World) : Option Shell :=
  if s.job then some (if w.stops then { s with job := false }.prompt else s)
  else
    match edit key with
    | .char c => some (if s.line.has_room_for c.utf8Size then s.insert c else s)
    | .enter =>
      let s := { s.remember s.line.as_str with job := w.starts }
      some (if w.starts then s else s.prompt)
    | .backspace => some (if s.cursor > 0 then s.erase else s)
    | .delete => some (if s.cursor < s.chars then s.remove_at s.cursor else s)
    | .left => some { s with cursor := s.cursor - 1 }
    | .right => some { s with cursor := min (s.cursor + 1) s.chars }
    | .home => some { s with cursor := 0 }
    | .end => some { s with cursor := s.chars }
    | .clearBefore => some (s.erase_while (fun _ => true) s.cursor)
    | .clearAfter => some (s.clear_after s.chars)
    | .clearWord =>
      let s := s.erase_while (· = some ' ') s.cursor
      some (s.erase_while (· ≠ some ' ') s.cursor)
    | .abandon => some s.prompt
    | .back => some (s.history_step true)
    | .forward => some (s.history_step false)
    | .complete => s.complete w
    | .other => some s

end Shell

/-- What the editor is told: a key, with what the rest of the machine answers to it, or a tick
of the job, with whether the job is done. -/
inductive Event
  | key (key : KeyInput) (w : World)
  | tick (done : Bool)

/-- One event. -/
def Shell.step (s : Shell) : Event → Option Shell
  | .key key w => s.input key w
  | .tick done => some (if s.job ∧ done then { s with job := false }.prompt else s)

end NanoChrono.Editor
