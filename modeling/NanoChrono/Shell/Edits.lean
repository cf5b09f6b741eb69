import NanoChrono.Shell.Editor

/-! # What the line editor edits

A list of characters with a cursor, and the remembered lines above it. The code's editor follows
it in every run, but for two keys: Down where no remembered line is shown brings back a stashed
line over the one being typed, and Tab inserts past the end of the line's bytes. -/

namespace NanoChrono.Editor

open NanoChrono.Shell
open NanoChrono.Typing (KeyInput)

/-! ## The model -/

/-- A line with a cursor, the remembered lines, the newest first, and, while one of them is
shown, which one and the line that was being typed. -/
structure Model where
  text : List Char
  cursor : ℕ
  remembered : List (List Char)
  shown : Option (ℕ × List Char)
  /-- A job has the keys. -/
  job : Bool

namespace Model

/-- Text goes in at the cursor. -/
def type (m : Model) (text : List Char) : Model :=
  { m with
    text := m.text.take m.cursor ++ text ++ m.text.drop m.cursor
    cursor := m.cursor + text.length }

/-- Typing one text after another is typing both. -/
theorem type_type {m : Model} (h : m.cursor ≤ m.text.length) (a b : List Char) :
    (m.type a).type b = m.type (a ++ b) := by
  have hlen : (m.text.take m.cursor ++ a).length = m.cursor + a.length := by
    rw [List.length_append, List.length_take, min_eq_left h]
  simp only [type]
  rw [← hlen, List.take_left, List.drop_left, hlen, List.length_append]
  simp [Nat.add_assoc]

/-- The text before the cursor becomes `before`. -/
def keep (m : Model) (before : List Char) : Model :=
  { m with text := before ++ m.text.drop m.cursor, cursor := before.length }

/-- Keeping less of what is kept. -/
theorem keep_keep (m : Model) (a b : List Char) : (m.keep a).keep b = m.keep b := by
  simp only [keep]
  rw [List.drop_left]

theorem keep_before (m : Model) (a : List Char) : (m.keep a).text.take (m.keep a).cursor = a := by
  simp only [keep]
  rw [List.take_left]

/-- Keeping all changes nothing. -/
theorem keep_self {m : Model} (h : m.cursor ≤ m.text.length) : m.keep (m.text.take m.cursor) = m := by
  rw [keep, List.take_append_drop, List.length_take, min_eq_left h]

/-- Another line is shown, with the cursor at its end. -/
def display (m : Model) (shown : Option (ℕ × List Char)) (text : List Char) : Model :=
  { m with text := text, cursor := text.length, shown := shown }

/-- An empty line. -/
def fresh (m : Model) : Model := { m with text := [], cursor := 0, shown := none }

/-- A line is remembered without the blanks around it, unless it is empty or the newest one. -/
def remember (m : Model) : Model :=
  let text := trim m.text
  if text = [] ∨ m.remembered.head? = some text then m
  else { m with remembered := (text :: m.remembered).take HISTORY }

/-- The edits. Up goes to the next older line and stays at the oldest; Down comes back to the
line that was being typed, and does nothing there. -/
def apply (m : Model) (w : World) : Edit → Model
  | .char c => if bytes m.text + c.utf8Size ≤ LINE then m.type [c] else m
  | .enter =>
    let m := { m.remember with job := w.starts }
    if w.starts then m else m.fresh
  | .backspace => m.keep (m.text.take m.cursor).dropLast
  | .delete => { m with text := m.text.take m.cursor ++ m.text.drop (m.cursor + 1) }
  | .left => { m with cursor := m.cursor - 1 }
  | .right => { m with cursor := min (m.cursor + 1) m.text.length }
  | .home => { m with cursor := 0 }
  | .end => { m with cursor := m.text.length }
  | .clearBefore => m.keep []
  | .clearAfter => { m with text := m.text.take m.cursor }
  | .clearWord => m.keep (((m.text.take m.cursor).rdropWhile (· = ' ')).rdropWhile (· ≠ ' '))
  | .abandon => m.fresh
  | .back =>
    let far := min (m.shown.elim 0 Prod.fst + 1) m.remembered.length
    let typed := m.shown.elim m.text Prod.snd
    (m.remembered[far - 1]?).elim m fun text => m.display (some (far, typed)) text
  | .forward =>
    m.shown.elim m fun shown =>
      if shown.1 = 1 then m.display none shown.2
      else (m.remembered[shown.1 - 2]?).elim m fun text => m.display (some (shown.1 - 1, shown.2)) text
  | .complete => m
  | .other => m

/-- What an event may make of the model: completion inserts some text at the cursor. -/
def Follows (m m' : Model) : Event → Prop
  | .key key w =>
    if m.job = true then m' = if w.stops then { m with job := false }.fresh else m
    else if edit key = .complete then ∃ text, m' = m.type text
    else m' = m.apply w (edit key)
  | .tick done => m' = if m.job ∧ done then { m with job := false }.fresh else m

end Model

/-! ## The code's editor as the model -/

namespace Shell

/-- The remembered lines, the newest first. -/
def recent (s : Shell) : List (List Char) :=
  (List.range (min s.history_len HISTORY)).map fun i =>
    (s.history (slot (s.history_len - (i + 1)))).as_str

/-- The model's view of the editor. -/
def view (s : Shell) : Model where
  text := s.line.as_str
  cursor := s.cursor
  remembered := s.recent
  shown := s.browse.map fun n => (n, s.stash.as_str)
  job := s.job

/-- No line ends in a character that is cut, the cursor is in the line, and a line that is shown
is one of those remembered. -/
structure Sound (s : Shell) : Prop where
  line : s.line.cut = 0
  stash : s.stash.cut = 0
  history : ∀ i, (s.history i).cut = 0
  cursor : s.cursor ≤ s.chars
  browse : ∀ n, s.browse = some n → 0 < n ∧ n ≤ min s.history_len HISTORY

/-- The two keys that need care: Down is pressed while a remembered line is shown, or there is
none, or the stashed line is the one being typed and the cursor stands at its end; and what Tab
inserts fits the line. -/
def Careful (s : Shell) : Event → Prop
  | .key key w =>
    s.job = true ∨
      (edit key = .forward → s.browse ≠ none ∨ s.history_len = 0 ∨
        (s.stash.as_str = s.line.as_str ∧ s.cursor = s.chars)) ∧
      (edit key = .complete → ∀ text, s.completion w = some text →
        bytes s.line.as_str + bytes text ≤ LINE)
  | .tick _ => True

/-- Every step of a run does what the model may do, and leaves the cursor in the line. -/
@[grind =] def Refines : Shell → List Event → Prop
  | _, [] => True
  | s, e :: es =>
    ∃ s', s.step e = some s' ∧ s'.cursor ≤ s'.chars ∧ s.view.Follows s'.view e ∧ s'.Refines es

/-- Every step of a run is careful. -/
@[grind =] def Meets : Shell → List Event → Prop
  | _, [] => True
  | s, e :: es => s.Careful e ∧ ∀ s', s.step e = some s' → s'.Meets es

end Shell

/-! ## Copying the line -/

/-- The loop of `insert`: the character goes in before the one whose place it takes. -/
theorem foldl_insert (c : Char) (at_ : ℕ) (l : List Char) (k : ℕ) (t : Text LINE) :
    ((l.zipIdx k).foldl
      (fun next entry => (if entry.2 = at_ then Text.char next c else next).char entry.1) t) =
      if k ≤ at_ ∧ at_ < k + l.length then
        (l.take (at_ - k) ++ c :: l.drop (at_ - k)).foldl Text.char t
      else l.foldl Text.char t := by
  induction l generalizing k t with
  | nil =>
    rw [if_neg]
    · rfl
    · simp
  | cons d l ih =>
    rw [List.zipIdx_cons, List.foldl_cons, ih]
    rcases lt_trichotomy k at_ with hlt | rfl | hgt
    · have hd : at_ - k = at_ - (k + 1) + 1 := by omega
      rw [if_neg hlt.ne, hd]
      by_cases hin : at_ < k + (d :: l).length
      · rw [List.length_cons] at hin
        rw [if_pos ⟨hlt, by omega⟩, if_pos ⟨hlt.le, by rw [List.length_cons]; omega⟩]
        rfl
      · rw [List.length_cons] at hin
        rw [if_neg (by omega), if_neg (by rw [List.length_cons]; omega)]
        rfl
    · rw [if_pos rfl, if_neg (by omega), if_pos ⟨le_rfl, by simp⟩]
      simp
    · rw [if_neg hgt.ne', if_neg (by omega), if_neg (by omega)]
      rfl

/-- The loop of `remove_at` leaves one character out. -/
theorem foldl_remove (at_ : ℕ) (l : List Char) (k : ℕ) (t : Text LINE) :
    ((l.zipIdx k).foldl
      (fun next entry => if entry.2 = at_ then next else Text.char next entry.1) t) =
      if k ≤ at_ then (l.eraseIdx (at_ - k)).foldl Text.char t else l.foldl Text.char t := by
  induction l generalizing k t with
  | nil =>
    split
    · rfl
    · rfl
  | cons d l ih =>
    rw [List.zipIdx_cons, List.foldl_cons, ih]
    rcases lt_trichotomy k at_ with hlt | rfl | hgt
    · have hd : at_ - k = at_ - (k + 1) + 1 := by omega
      rw [if_neg hlt.ne, if_pos (Nat.succ_le_of_lt hlt), if_pos hlt.le, hd]
      rfl
    · rw [if_pos rfl, if_neg (by omega), if_pos le_rfl]
      simp
    · rw [if_neg hgt.ne', if_neg (by omega), if_neg (by omega)]
      rfl

namespace Shell

variable {s : Shell}

/-- `insert` builds the line again with the character at the cursor, or at the end when the
cursor is past it. -/
theorem insert_eq (s : Shell) (c : Char) :
    s.insert c =
      { s with
        line := Text.build (s.line.as_str.take s.cursor ++ c :: s.line.as_str.drop s.cursor)
        cursor := s.cursor + 1 } := by
  have hloop := foldl_insert c s.cursor s.line.as_str 0 Text.new
  rw [insert, hloop, chars]
  by_cases hend : s.cursor ≥ s.line.as_str.length
  · rw [if_pos hend, if_neg (by omega), List.take_of_length_le hend, List.drop_eq_nil_of_le hend]
    rw [Text.build, List.foldl_append]
    rfl
  · rw [if_neg hend, if_pos ⟨Nat.zero_le _, by omega⟩]
    rfl

/-- `remove_at` builds the line again without the character. -/
theorem remove_at_eq (s : Shell) (at_ : ℕ) :
    s.remove_at at_ = { s with line := Text.build (s.line.as_str.eraseIdx at_) } := by
  have hloop := foldl_remove at_ s.line.as_str 0 Text.new
  rw [remove_at, hloop, if_pos (Nat.zero_le _)]
  rfl

/-- The line with another text and another cursor. -/
def put (s : Shell) (text : List Char) (cursor : ℕ) : Shell :=
  { s with line := Text.build text, cursor := cursor }

/-- A text that fits is what the model sees. -/
theorem view_put {text : List Char} {cursor : ℕ} (h : bytes text ≤ LINE) :
    (s.put text cursor).view = { s.view with text := text, cursor := cursor } := by
  rw [view, put, Text.build_of_fits h]
  rfl

theorem Sound.put (h : s.Sound) {text : List Char} {cursor : ℕ} (hfits : bytes text ≤ LINE)
    (hcursor : cursor ≤ text.length) : (s.put text cursor).Sound := by
  refine ⟨Text.cut_build _, h.stash, h.history, ?_, h.browse⟩
  rw [chars, Shell.put, Text.build_of_fits hfits]
  exact hcursor

/-- The line is inside its bytes. -/
theorem bytes_line (s : Shell) : bytes s.line.as_str ≤ LINE :=
  (Nat.le_add_right _ _).trans s.line.fits

/-- The bytes on both sides of the cursor are those of the line. -/
theorem bytes_take_drop (text : List Char) (k : ℕ) :
    bytes (text.take k) + bytes (text.drop k) = bytes text := by
  rw [← bytes_append, List.take_append_drop]

/-! ## Typing -/

theorem insert_put (s : Shell) (c : Char) :
    s.insert c = s.put (s.line.as_str.take s.cursor ++ c :: s.line.as_str.drop s.cursor)
      (s.cursor + 1) := s.insert_eq c

/-- A character that fits goes in at the cursor. -/
theorem insert_fits (h : s.Sound) {c : Char} (hfits : bytes s.line.as_str + c.utf8Size ≤ LINE) :
    (s.insert c).view = s.view.type [c] ∧ (s.insert c).Sound := by
  have hsplit := bytes_take_drop s.line.as_str s.cursor
  have hbytes : bytes (s.line.as_str.take s.cursor ++ c :: s.line.as_str.drop s.cursor) ≤ LINE := by
    rw [bytes_append, bytes_cons]
    omega
  have hcursor := h.cursor
  rw [chars] at hcursor
  rw [insert_put]
  refine ⟨?_, h.put hbytes ?_⟩
  · rw [view_put hbytes, Model.type, List.append_assoc]
    rfl
  · rw [List.length_append, List.length_take, List.length_cons, List.length_drop]
    omega

/-- Text that fits goes in at the cursor, character by character. -/
theorem foldl_insert_fits (text : List Char) {s : Shell} (h : s.Sound)
    (hfits : bytes s.line.as_str + bytes text ≤ LINE) :
    (text.foldl insert s).view = s.view.type text ∧ (text.foldl insert s).Sound := by
  induction text generalizing s with
  | nil =>
    refine ⟨?_, h⟩
    rw [Model.type, List.append_nil, List.take_append_drop]
    rfl
  | cons c text ih =>
    rw [bytes_cons] at hfits
    obtain ⟨hview, hsound⟩ := insert_fits h (c := c) (by omega)
    have htext : (s.insert c).line.as_str =
        s.line.as_str.take s.cursor ++ [c] ++ s.line.as_str.drop s.cursor :=
      congrArg Model.text hview
    have hcursor : s.cursor ≤ s.line.as_str.length := h.cursor
    have hsplit := bytes_take_drop s.line.as_str s.cursor
    obtain ⟨hview', hsound'⟩ := ih hsound (by
      rw [htext, bytes_append, bytes_append, bytes_cons, bytes_nil]
      omega)
    refine ⟨hview'.trans ?_, hsound'⟩
    rw [hview, Model.type_type hcursor, List.singleton_append]

/-- However much of a text goes in, the cursor moves by all of it, and the line grows by all of
it only where it fits. -/
theorem foldl_insert_length (text : List Char) (s : Shell) :
    (text.foldl insert s).cursor = s.cursor + text.length ∧
      (text.foldl insert s).chars ≤ s.chars + text.length ∧
      ((text.foldl insert s).chars = s.chars + text.length →
        bytes s.line.as_str + bytes text ≤ LINE) := by
  induction text generalizing s with
  | nil => exact ⟨rfl, le_rfl, fun _ => s.bytes_line⟩
  | cons c text ih =>
    obtain ⟨hcursor, hle, hfits⟩ := ih (s.insert c)
    have hlen : (s.line.as_str.take s.cursor ++ c :: s.line.as_str.drop s.cursor).length =
        s.chars + 1 := by
      rw [List.length_append, List.length_cons, ← Nat.add_assoc, ← List.length_append,
        List.take_append_drop]
      rfl
    have hsplit := bytes_take_drop s.line.as_str s.cursor
    have hone : (s.insert c).chars ≤ s.chars + 1 := by
      rw [chars, insert_eq, ← hlen]
      exact (Text.build_facts _).1.length_le
    rw [List.foldl_cons, hcursor, List.length_cons, bytes_cons]
    refine ⟨by rw [insert_eq]; simp only; omega, by omega, fun hall => ?_⟩
    -- the first character has gone in too
    have hall' : (s.insert c).chars = s.chars + 1 := by omega
    have hroom : bytes (s.line.as_str.take s.cursor ++ c :: s.line.as_str.drop s.cursor) ≤ LINE := by
      by_contra hno
      have hshort := Text.build_shorter hno
      rw [chars, insert_eq] at hall'
      simp only at hall'
      omega
    have hrest := hfits (by omega)
    rw [insert_eq] at hrest
    simp only at hrest
    rw [Text.build_of_fits hroom, bytes_append, bytes_cons] at hrest
    omega

/-! ## Erasing -/

/-- Backspace takes the character before the cursor. -/
theorem erase_keeps (h : s.Sound) (hpos : 0 < s.cursor) :
    s.erase.view = s.view.keep (s.line.as_str.take s.cursor).dropLast ∧ s.erase.Sound := by
  have hcursor := h.cursor
  rw [chars] at hcursor
  have htext : s.line.as_str.eraseIdx (s.cursor - 1) =
      (s.line.as_str.take s.cursor).dropLast ++ s.line.as_str.drop s.cursor := by
    rw [List.eraseIdx_eq_take_drop_succ, Nat.sub_add_cancel hpos, List.dropLast_eq_take,
      List.length_take, min_eq_left hcursor, List.take_take, min_eq_left (Nat.sub_le _ _)]
  have hbytes : bytes (s.line.as_str.eraseIdx (s.cursor - 1)) ≤ LINE :=
    (bytes_le_of_sublist (List.eraseIdx_sublist _ _)).trans s.bytes_line
  have hput : s.erase = s.put (s.line.as_str.eraseIdx (s.cursor - 1)) (s.cursor - 1) := by
    rw [erase, remove_at_eq]
    rfl
  rw [hput]
  refine ⟨?_, h.put hbytes ?_⟩
  · rw [view_put hbytes, htext, Model.keep, List.length_dropLast, List.length_take,
      min_eq_left hcursor]
    rfl
  · rw [List.length_eraseIdx]
    split <;> omega

/-- A run of erasing takes what `p` asks for from the end of the text before the cursor. -/
theorem erase_while_keeps (p : Option Char → Bool) (turns : ℕ) {s : Shell} (h : s.Sound)
    (hturns : s.cursor ≤ turns) :
    (s.erase_while p turns).view =
        s.view.keep ((s.line.as_str.take s.cursor).rdropWhile fun c => p (some c)) ∧
      (s.erase_while p turns).Sound := by
  induction turns generalizing s with
  | zero =>
    have hzero : s.cursor = 0 := Nat.le_zero.mp hturns
    refine ⟨?_, h⟩
    rw [erase_while, hzero, List.take_zero, List.rdropWhile_nil]
    simp [Model.keep, view, hzero]
  | succ turns ih =>
    have hcursor := h.cursor
    rw [chars] at hcursor
    by_cases hpos : 0 < s.cursor
    · -- the character before the cursor
      obtain ⟨before, d, hbefore⟩ : ∃ before d, s.line.as_str.take s.cursor = before ++ [d] := by
        cases List.eq_nil_or_concat (s.line.as_str.take s.cursor) with
        | inl hnil =>
          have hlen := congrArg List.length hnil
          rw [List.length_take, List.length_nil] at hlen
          omega
        | inr hconcat =>
          obtain ⟨before, d, heq⟩ := hconcat
          exact ⟨before, d, heq.trans (List.concat_eq_append)⟩
      have hlen : before.length + 1 = s.cursor := by
        have := congrArg List.length hbefore
        rw [List.length_take, min_eq_left hcursor, List.length_append] at this
        exact this.symm
      have hat : s.char_at (s.cursor - 1) = some d := by
        have hin : (s.line.as_str.take s.cursor)[s.cursor - 1]? = some d := by
          rw [hbefore, ← hlen]
          simp
        rwa [List.getElem?_take_of_lt (by omega)] at hin
      rw [erase_while, hat, hbefore, List.rdropWhile_concat]
      by_cases hp : p (some d) = true
      · rw [if_pos ⟨hpos, hp⟩, if_pos hp]
        obtain ⟨hview, hsound⟩ := erase_keeps h hpos
        rw [hbefore, List.dropLast_concat] at hview
        have htake : s.erase.line.as_str.take s.erase.cursor = before := by
          have := Model.keep_before s.view before
          rwa [← hview] at this
        obtain ⟨hview', hsound'⟩ := ih hsound (by
          have : s.erase.cursor = before.length := congrArg Model.cursor hview
          omega)
        rw [htake] at hview'
        exact ⟨by rw [hview', hview, Model.keep_keep], hsound'⟩
      · rw [if_neg fun hboth => hp hboth.2, if_neg hp]
        refine ⟨?_, h⟩
        rw [← hbefore]
        exact (Model.keep_self hcursor).symm
    · have hzero : s.cursor = 0 := Nat.le_zero.mp (Nat.not_lt.mp hpos)
      refine ⟨?_, by rwa [erase_while, if_neg fun hboth => hpos hboth.1]⟩
      rw [erase_while, if_neg fun hboth => hpos hboth.1, hzero, List.take_zero, List.rdropWhile_nil]
      simp [Model.keep, view, hzero]

/-- Delete takes the character at the cursor. -/
theorem remove_at_keeps (h : s.Sound) :
    (s.remove_at s.cursor).view =
        { s.view with text := s.line.as_str.take s.cursor ++ s.line.as_str.drop (s.cursor + 1) } ∧
      (s.remove_at s.cursor).Sound := by
  have hcursor := h.cursor
  rw [chars] at hcursor
  have hbytes : bytes (s.line.as_str.eraseIdx s.cursor) ≤ LINE :=
    (bytes_le_of_sublist (List.eraseIdx_sublist _ _)).trans s.bytes_line
  have hput : s.remove_at s.cursor = s.put (s.line.as_str.eraseIdx s.cursor) s.cursor :=
    s.remove_at_eq s.cursor
  rw [hput]
  refine ⟨?_, h.put hbytes ?_⟩
  · rw [view_put hbytes, List.eraseIdx_eq_take_drop_succ]
    rfl
  · rw [List.length_eraseIdx]
    split <;> omega

/-- Ctrl-K takes all from the cursor on. -/
theorem clear_after_keeps (turns : ℕ) {s : Shell} (h : s.Sound) (hturns : s.chars ≤ s.cursor + turns) :
    (s.clear_after turns).view = { s.view with text := s.line.as_str.take s.cursor } ∧
      (s.clear_after turns).Sound := by
  induction turns generalizing s with
  | zero =>
    rw [chars, Nat.add_zero] at hturns
    refine ⟨?_, h⟩
    rw [clear_after, List.take_of_length_le hturns]
    rfl
  | succ turns ih =>
    rw [clear_after]
    have hcursor := h.cursor
    rw [chars] at hcursor hturns
    by_cases hlt : s.cursor < s.chars
    · rw [if_pos hlt]
      obtain ⟨hview, hsound⟩ := remove_at_keeps h
      have htext : (s.remove_at s.cursor).line.as_str =
          s.line.as_str.take s.cursor ++ s.line.as_str.drop (s.cursor + 1) :=
        congrArg Model.text hview
      have hsame : (s.remove_at s.cursor).cursor = s.cursor := congrArg Model.cursor hview
      obtain ⟨hview', hsound'⟩ := ih hsound (by
        rw [chars, htext, hsame, List.length_append, List.length_take, List.length_drop]
        omega)
      refine ⟨?_, hsound'⟩
      have hlen : (s.line.as_str.take s.cursor).length = s.cursor := by
        rw [List.length_take, min_eq_left hcursor]
      rw [hview', htext, hsame, hview, List.take_left' hlen]
    · rw [if_neg hlt]
      refine ⟨?_, h⟩
      rw [chars, not_lt] at hlt
      rw [List.take_of_length_le hlt]
      rfl

/-! ## The history -/

/-- Two places of the ring differ where the lines are less than a ring apart. -/
theorem slot_ne {i j : ℕ} (hlt : i < j) (hnear : j < i + HISTORY) : slot i ≠ slot j := by
  intro h
  have hmod : i % HISTORY = j % HISTORY := congrArg Fin.val h
  rw [HISTORY] at hmod hnear
  omega

/-- The lines that can be shown. -/
theorem length_recent (s : Shell) : s.recent.length = min s.history_len HISTORY := by
  rw [recent, List.length_map, List.length_range]

theorem recent_get {n : ℕ} (hpos : 0 < n) (hle : n ≤ min s.history_len HISTORY) :
    s.recent[n - 1]? = some (s.history (slot (s.history_len - n))).as_str := by
  rw [recent, List.getElem?_map, List.getElem?_range (by omega), Option.map_some,
    Nat.sub_add_cancel hpos]

/-- A remembered line goes before the others, and the oldest goes when the ring is full. -/
theorem recent_update (s : Shell) (t : Text LINE) :
    ({ s with history := Function.update s.history (slot s.history_len) t
              history_len := s.history_len + 1 } : Shell).recent =
      (t.as_str :: s.recent).take HISTORY := by
  have hpos : 0 < HISTORY := Nat.succ_pos 31
  refine List.ext_getElem? fun i => ?_
  by_cases hi : i < min (s.history_len + 1) HISTORY
  · have hin : i < HISTORY := by omega
    rw [recent, List.getElem?_map, List.getElem?_range hi, List.getElem?_take_of_lt hin,
      Option.map_some]
    cases i with
    | zero => simp
    | succ i =>
      -- an older line is in another place
      have hne : slot (s.history_len + 1 - (i + 1 + 1)) ≠ slot s.history_len :=
        slot_ne (by omega) (by omega)
      have hold := s.recent_get (n := i + 1) (Nat.succ_pos i) (by omega)
      change some ((Function.update s.history (slot s.history_len) t)
        (slot (s.history_len + 1 - (i + 1 + 1)))).as_str = _
      rw [Function.update_of_ne hne, List.getElem?_cons_succ]
      rw [Nat.add_sub_cancel] at hold
      rw [hold, show s.history_len + 1 - (i + 1 + 1) = s.history_len - (i + 1) by omega]
  · rw [List.getElem?_eq_none, List.getElem?_eq_none]
    · rw [List.length_take, List.length_cons, length_recent]
      omega
    · rw [length_recent]
      simp only
      omega

/-- A line that is remembered is one the model remembers. -/
theorem remember_view (h : s.Sound) :
    (s.remember s.line.as_str).view = s.view.remember ∧ (s.remember s.line.as_str).Sound := by
  have hsub : (trim s.line.as_str).Sublist s.line.as_str :=
    (List.rdropWhile_prefix _ _).sublist.trans (List.dropWhile_sublist _)
  have hfits : bytes (trim s.line.as_str) ≤ LINE := (bytes_le_of_sublist hsub).trans s.bytes_line
  have hnewest : (s.history_len > 0 ∧
      (s.history (slot (s.history_len - 1))).as_str = trim s.line.as_str) ↔
      s.recent.head? = some (trim s.line.as_str) := by
    rw [List.head?_eq_getElem?]
    by_cases hlen : 0 < s.history_len
    · have hget := s.recent_get (n := 1) Nat.one_pos
        (by have : 0 < HISTORY := Nat.succ_pos 31
            omega)
      rw [Nat.sub_self] at hget
      rw [hget]
      simp [hlen]
    · have hnil : s.recent = [] := by
        rw [← List.length_eq_zero_iff, length_recent]
        omega
      simp [hnil, hlen]
  have hmodel : s.view.remember =
      if trim s.line.as_str = [] ∨ s.recent.head? = some (trim s.line.as_str) then s.view
      else { s.view with remembered := (trim s.line.as_str :: s.recent).take HISTORY } := rfl
  rw [hmodel, remember]
  by_cases hempty : trim s.line.as_str = []
  · rw [if_pos hempty, if_pos (.inl hempty)]
    exact ⟨rfl, h⟩
  · rw [if_neg hempty]
    by_cases hsame : s.recent.head? = some (trim s.line.as_str)
    · rw [if_pos (hnewest.mpr hsame), if_pos (.inr hsame)]
      exact ⟨rfl, h⟩
    · rw [if_neg fun hno => hsame (hnewest.mp hno),
        if_neg fun hno => hno.elim hempty hsame]
      obtain ⟨htext, hlen⟩ := Text.str_of_fits (t := (Text.new : Text LINE))
        (s := trim s.line.as_str) (by simpa [Text.len] using hfits)
      rw [Text.as_str_new, List.nil_append] at htext
      refine ⟨?_, h.line, h.stash, fun i => ?_, h.cursor, fun n hn => ?_⟩
      · have hrecent := s.recent_update (Text.new.str (trim s.line.as_str))
        rw [htext] at hrecent
        simp only [view]
        rw [hrecent]
      · by_cases hi : i = slot s.history_len
        · subst hi
          simp only [Function.update_self]
          have : (Text.new.str (trim s.line.as_str) : Text LINE).len =
            bytes (trim s.line.as_str) + (Text.new.str (trim s.line.as_str) : Text LINE).cut := by
            rw [Text.len, htext]
          rw [hlen] at this
          simp only [Text.len, Text.as_str_new, bytes_nil, Text.cut_new] at this
          omega
        · simp only [Function.update_of_ne hi]
          exact h.history i
      · have := h.browse n hn
        simp only
        omega

/-- The `n`th line of the history comes up, over `stash`. -/
def bring (s : Shell) (n : ℕ) (stash : Text LINE) : Shell :=
  { s with
    browse := some n, stash := stash, line := s.history (slot (s.history_len - n))
    cursor := (s.history (slot (s.history_len - n))).as_str.length }

/-- It comes up as the model shows it. -/
theorem bring_view (h : s.Sound) {n : ℕ} (hpos : 0 < n) (hle : n ≤ min s.history_len HISTORY)
    {stash : Text LINE} (hstash : stash.cut = 0) :
    (∃ text, s.view.remembered[n - 1]? = some text ∧
      (s.bring n stash).view = s.view.display (some (n, stash.as_str)) text) ∧ (s.bring n stash).Sound := by
  refine ⟨⟨_, s.recent_get hpos hle, rfl⟩, h.history _, hstash, h.history, le_rfl, fun k hk => ?_⟩
  obtain rfl := Option.some.inj hk
  exact ⟨hpos, hle⟩

/-- Up. -/
theorem back_view (h : s.Sound) (w : World) :
    (s.history_step true).view = s.view.apply w .back ∧ (s.history_step true).Sound := by
  have hlen : s.view.remembered.length = min s.history_len HISTORY := s.length_recent
  by_cases hnone : min s.history_len HISTORY = 0
  · have hnil : s.view.remembered = [] := by rw [← List.length_eq_zero_iff, hlen, hnone]
    have hstep : s.history_step true = s := by
      unfold history_step
      rw [if_pos hnone]
    rw [hstep]
    refine ⟨?_, h⟩
    simp [Model.apply, hnil]
  · cases hb : s.browse with
    | none =>
      have hstep : s.history_step true = s.bring 1 s.line := by
        unfold history_step
        rw [if_neg hnone]
        simp [hb, bring]
      have hshown : s.view.shown = none := by rw [view, hb]; rfl
      obtain ⟨⟨text, hget, hview⟩, hsound⟩ := bring_view h Nat.one_pos (by omega) h.line
      refine ⟨?_, hstep ▸ hsound⟩
      rw [hstep, hview, Model.apply, hshown, hlen, Option.elim_none, Option.elim_none,
        show min (0 + 1) (min s.history_len HISTORY) = 1 by omega, hget]
      rfl
    | some n =>
      obtain ⟨hpos, hle⟩ := h.browse n hb
      have hstep : s.history_step true = s.bring (min (n + 1) (min s.history_len HISTORY)) s.stash := by
        unfold history_step
        rw [if_neg hnone]
        simp [hb, bring]
      have hshown : s.view.shown = some (n, s.stash.as_str) := by rw [view, hb]; rfl
      obtain ⟨⟨text, hget, hview⟩, hsound⟩ := bring_view h
        (n := min (n + 1) (min s.history_len HISTORY)) (by omega) (min_le_right _ _) h.stash
      refine ⟨?_, hstep ▸ hsound⟩
      rw [hstep, hview, Model.apply, hshown, hlen, Option.elim_some, Option.elim_some, hget]
      rfl

/-- Down is the model's Down unless it brings back a stale stash. -/
theorem forward_view (h : s.Sound) (w : World) :
    ((s.history_step false).view = s.view.apply w .forward ↔
      (s.browse ≠ none ∨ s.history_len = 0 ∨
        (s.stash.as_str = s.line.as_str ∧ s.cursor = s.chars))) ∧ (s.history_step false).Sound := by
  by_cases hnone : min s.history_len HISTORY = 0
  · have hzero : s.history_len = 0 := by
      rw [HISTORY] at hnone
      omega
    have hb : s.browse = none := by
      cases hb : s.browse with
      | none => rfl
      | some n =>
        have := h.browse n hb
        omega
    have hstep : s.history_step false = s := by
      unfold history_step
      rw [if_pos hnone]
    rw [hstep]
    refine ⟨?_, h⟩
    have hshown : s.view.shown = none := by rw [view, hb]; rfl
    simp [Model.apply, hshown, hzero]
  · have hsome : s.history_len ≠ 0 := by omega
    cases hb : s.browse with
    | none =>
      -- no line is shown: the stash takes the place of the line
      have hstep : s.history_step false =
          { s with line := s.stash, cursor := s.stash.as_str.length } := by
        unfold history_step
        rw [if_neg hnone]
        simp [hb]
      have hshown : s.view.shown = none := by rw [view, hb]; rfl
      rw [hstep]
      refine ⟨?_, h.stash, h.stash, h.history, le_rfl, h.browse⟩
      rw [Model.apply, hshown, Option.elim_none]
      constructor
      · intro heq
        have htext : s.stash.as_str = s.line.as_str := congrArg Model.text heq
        have hcursor : s.stash.as_str.length = s.cursor := congrArg Model.cursor heq
        exact .inr (.inr ⟨htext, by rw [← hcursor, htext]; rfl⟩)
      · rintro (hno | hno | ⟨htext, hcursor⟩)
        · exact absurd rfl hno
        · exact absurd hno hsome
        · rw [chars, ← htext] at hcursor
          simp only [view]
          rw [htext, hcursor, htext]
          rfl
    | some n =>
      obtain ⟨hpos, hle⟩ := h.browse n hb
      have hshown : s.view.shown = some (n, s.stash.as_str) := by rw [view, hb]; rfl
      have hcare : some n ≠ none ∨ s.history_len = 0 ∨
          (s.stash.as_str = s.line.as_str ∧ s.cursor = s.chars) := .inl (by simp)
      rw [Model.apply, hshown, Option.elim_some]
      by_cases hone : n = 1
      · -- back to the line that was being typed
        have hstep : s.history_step false =
            { s with browse := none, line := s.stash, cursor := s.stash.as_str.length } := by
          unfold history_step
          rw [if_neg hnone]
          simp [hb, hone]
        rw [hstep, if_pos hone]
        exact ⟨iff_of_true rfl hcare, h.stash, h.stash, h.history, le_rfl, by simp⟩
      · have hstep : s.history_step false = s.bring (n - 1) s.stash := by
          unfold history_step
          rw [if_neg hnone]
          simp [hb, hone, bring]
        obtain ⟨⟨text, hget, hview⟩, hsound⟩ := bring_view h (n := n - 1) (by omega) (by omega) h.stash
        refine ⟨iff_of_true ?_ hcare, hstep ▸ hsound⟩
        rw [hstep, hview, if_neg hone, show n - 2 = n - 1 - 1 by omega, hget]
        rfl

end Shell

/-! ## Completion -/

/-- A slice up to the end of a character does not panic. -/
theorem slice_to_bytes (p r : List Char) : slice_to (p ++ r) (bytes p) = some p := by
  induction p with
  | nil =>
    cases r <;> rfl
  | cons c p ih =>
    have hsize := c.utf8Size_pos
    obtain ⟨k, hk⟩ : ∃ k, bytes (c :: p) = k + 1 := ⟨bytes (c :: p) - 1, by rw [bytes_cons]; omega⟩
    have hrest : k + 1 - c.utf8Size = bytes p := by
      rw [← hk, bytes_cons]
      omega
    rw [hk, List.cons_append, slice_to, if_pos (by rw [← hk, bytes_cons]; omega), hrest, ih]
    rfl

theorem slice_from_bytes (p r : List Char) : slice_from (p ++ r) (bytes p) = some r := by
  induction p with
  | nil => cases r <;> rfl
  | cons c p ih =>
    have hsize := c.utf8Size_pos
    obtain ⟨k, hk⟩ : ∃ k, bytes (c :: p) = k + 1 := ⟨bytes (c :: p) - 1, by rw [bytes_cons]; omega⟩
    have hrest : k + 1 - c.utf8Size = bytes p := by
      rw [← hk, bytes_cons]
      omega
    rw [hk, List.cons_append, slice_from, if_pos (by rw [← hk, bytes_cons]; omega), hrest, ih]

/-- What two candidates have in common begins the first. -/
theorem common_starts (a b : List Char) :
    ((a.zip b).takeWhile fun pair => pair.1 = pair.2).map Prod.fst <+: a := by
  induction a generalizing b with
  | nil => simp
  | cons c a ih =>
    cases b with
    | nil => simp
    | cons d b =>
      rw [List.zip_cons_cons, List.takeWhile_cons]
      split
      · exact (List.prefix_cons_inj c).mpr (ih b)
      · exact List.nil_prefix

/-- Every command's name fits a candidate. -/
theorem bytes_names : names.all (fun name => bytes name ≤ 128) = true := by decide

/-- Text that fits an empty buffer is all of it. -/
theorem str_new {N : ℕ} {text : List Char} (h : bytes text ≤ N) :
    (Text.new.str text : Text N).as_str = text ∧ (Text.new.str text : Text N).cut = 0 := by
  obtain ⟨htext, hlen⟩ := Text.str_of_fits (t := (Text.new : Text N)) (s := text)
    (by simpa [Text.len] using h)
  rw [Text.as_str_new, List.nil_append] at htext
  refine ⟨htext, ?_⟩
  simp only [Text.len, htext, Text.as_str_new, bytes_nil, Text.cut_new] at hlen
  omega

/-- A candidate and the word it is for begin one text, which the candidate shows as far as it
goes, without a character cut at its end. -/
theorem candidates_start {upto : List Char} {w : World} {m : Text 128} (hm : m ∈ candidates upto w) :
    m.cut = 0 ∧ ∃ full, upto.rtakeWhile (· ≠ ' ') <+: full ∧ m.as_str <+: full := by
  rw [candidates] at hm
  have hm := List.mem_of_mem_take hm
  split at hm
  · obtain ⟨name, hname, rfl⟩ := List.mem_map.mp hm
    obtain ⟨hmem, hword⟩ := List.mem_filter.mp hname
    have hsize : bytes name ≤ 128 := by
      have := List.all_eq_true.mp bytes_names name hmem
      simpa using this
    obtain ⟨htext, hcut⟩ := str_new hsize
    exact ⟨hcut, name, List.isPrefixOf_iff_prefix.mp hword, by rw [htext]⟩
  · obtain ⟨entry, hentry, rfl⟩ := List.mem_map.mp hm
    obtain ⟨-, hstem⟩ := List.mem_filter.mp hentry
    generalize hword : upto.rtakeWhile (· ≠ ' ') = word at *
    generalize hdir : word.rdropWhile (· ≠ '/') = dir_typed at *
    -- the buffer shows the beginning of the directory, the name and the slash in one
    obtain ⟨slash, hcand⟩ : ∃ slash, (if entry.2 = true then
        ((((Text.new : Text 128).str dir_typed).str entry.1).str ['/']) else
        (((Text.new : Text 128).str dir_typed).str entry.1)) =
          (Text.new : Text 128).str (dir_typed ++ entry.1 ++ slash) := by
      split
      · exact ⟨['/'], by simp only [Text.str, List.foldl_append]⟩
      · exact ⟨[], by simp only [Text.str, List.foldl_append, List.append_nil]⟩
    simp only [hcand]
    generalize hfull : dir_typed ++ entry.1 ++ slash = full
    obtain ⟨shown, hshown, heq⟩ := Text.str_shortened full (Text.new : Text 128)
    rw [Text.as_str_new, List.nil_append] at heq
    have hfits : bytes ((Text.new : Text 128).str full).as_str ≤ 128 :=
      (Nat.le_add_right _ _).trans ((Text.new : Text 128).str full).fits
    obtain ⟨htext, hcut⟩ := str_new hfits
    refine ⟨hcut, full, ?_, by rw [htext, heq]; exact hshown⟩
    have hsplit : word = dir_typed ++ word.rtakeWhile (· ≠ '/') := by
      rw [← hdir, List.rdropWhile_append_rtakeWhile]
    rw [hsplit, ← hfull, List.append_assoc]
    exact (List.prefix_append_right_inj _).mpr
      ((List.isPrefixOf_iff_prefix.mp hstem).trans (List.prefix_append _ _))

/-- Narrowing keeps a beginning of the first candidate, and does not panic. -/
theorem foldlM_narrow (others : List (Text 128)) (first : Text 128) (hcut : first.cut = 0) :
    ∃ common, others.foldlM narrow first = some common ∧ common.as_str <+: first.as_str ∧
      common.cut = 0 := by
  induction others generalizing first with
  | nil => exact ⟨first, rfl, List.prefix_rfl, hcut⟩
  | cons m others ih =>
    obtain ⟨r, hr⟩ := common_starts first.as_str m.as_str
    generalize hp : ((first.as_str.zip m.as_str).takeWhile fun pair => pair.1 = pair.2).map Prod.fst
      = p at hr
    have hslice : slice_to first.as_str (common_len first.as_str m.as_str) = some p := by
      rw [common_len, hp, ← hr, slice_to_bytes]
    have hfits : bytes p ≤ 128 := by
      have hle : bytes first.as_str ≤ 128 := (Nat.le_add_right _ _).trans first.fits
      rw [← hr, bytes_append] at hle
      omega
    obtain ⟨htext, hcut'⟩ := str_new hfits
    obtain ⟨common, hcommon, hstart, hcommonCut⟩ := ih (Text.new.str p) hcut'
    refine ⟨common, ?_, hstart.trans (by rw [htext, ← hr]; exact List.prefix_append p r), hcommonCut⟩
    rw [List.foldlM_cons, narrow, hslice]
    exact hcommon

namespace Shell

variable {s : Shell}

/-- Tab never panics. -/
theorem completion_some (s : Shell) (w : World) : ∃ text, s.completion w = some text := by
  rw [completion]
  generalize hupto : (Text.build (s.line.as_str.take s.cursor) : Text LINE).as_str = upto
  cases hc : candidates upto w with
  | nil => exact ⟨[], rfl⟩
  | cons first others =>
    obtain ⟨hcut, full, hword, hfirst⟩ := candidates_start (hc ▸ List.mem_cons_self : first ∈ _)
    obtain ⟨common, hcommon, hstart, hcommonCut⟩ := foldlM_narrow others first hcut
    have hlen : common.len = bytes common.as_str := by rw [Text.len, hcommonCut, Nat.add_zero]
    -- the word and the common part begin one text, so one begins the other
    have hslice : ∃ addition, slice_from common.as_str
        (min (bytes (upto.rtakeWhile (· ≠ ' '))) common.len) = some addition := by
      rw [hlen]
      rcases List.prefix_or_prefix_of_prefix hword (hstart.trans hfirst) with ⟨r, hr⟩ | ⟨r, hr⟩
      · refine ⟨r, ?_⟩
        rw [← hr, bytes_append, min_eq_left (Nat.le_add_right _ _), slice_from_bytes]
      · refine ⟨[], ?_⟩
        rw [← hr, bytes_append, min_eq_right (Nat.le_add_right _ _)]
        have := slice_from_bytes common.as_str []
        rwa [List.append_nil] at this
    obtain ⟨addition, haddition⟩ := hslice
    exact ⟨_, by simp only [hcommon, Option.bind_some, haddition, Option.map_some]; rfl⟩

/-- Tab is the model's completion exactly where what it inserts fits. -/
theorem complete_view (h : s.Sound) (w : World) : ∃ s', s.complete w = some s' ∧
    ((∃ text, s'.view = s.view.type text) ↔
      ∀ text, s.completion w = some text → bytes s.line.as_str + bytes text ≤ LINE) ∧
    ((∀ text, s.completion w = some text → bytes s.line.as_str + bytes text ≤ LINE) → s'.Sound) := by
  obtain ⟨text, htext⟩ := s.completion_some w
  have hall : (∀ t, s.completion w = some t → bytes s.line.as_str + bytes t ≤ LINE) ↔
      bytes s.line.as_str + bytes text ≤ LINE := by
    rw [htext]
    constructor
    · exact fun hfits => hfits text rfl
    · exact fun hfits t ht => Option.some.inj ht ▸ hfits
  refine ⟨text.foldl insert s, by rw [complete, htext]; rfl, ?_⟩
  rw [hall]
  refine ⟨⟨?_, fun hfits => ⟨text, (foldl_insert_fits text h hfits).1⟩⟩,
    fun hfits => (foldl_insert_fits text h hfits).2⟩
  rintro ⟨t, ht⟩
  obtain ⟨hcursor, -, hfits⟩ := foldl_insert_length text s
  -- the cursor has moved by the whole text, so the line must have grown by as much
  have hlen : t.length = text.length := by
    have hmoved : (text.foldl insert s).cursor = s.cursor + t.length := congrArg Model.cursor ht
    omega
  refine hfits ?_
  have hline : (text.foldl insert s).line.as_str =
      s.line.as_str.take s.cursor ++ t ++ s.line.as_str.drop s.cursor := congrArg Model.text ht
  have hsplit := congrArg List.length (List.take_append_drop s.cursor s.line.as_str)
  rw [List.length_append] at hsplit
  rw [chars, chars, hline, List.length_append, List.length_append]
  omega

/-! ## Steps and runs -/

theorem prompt_view (h : s.Sound) (job : Bool) :
    ({ s with job := job }.prompt).view = { s.view with job := job }.fresh ∧
      ({ s with job := job }.prompt).Sound :=
  ⟨rfl, rfl, h.stash, h.history, Nat.zero_le _, by simp [prompt]⟩

/-- The edits that need no care do what the model's do. -/
theorem input_view (h : s.Sound) (hjob : s.job = false) (key : KeyInput) (w : World)
    (hforward : edit key ≠ .forward) (hcomplete : edit key ≠ .complete) :
    ∃ s', s.input key w = some s' ∧ s'.view = s.view.apply w (edit key) ∧ s'.Sound := by
  have hcursor : s.cursor ≤ s.line.as_str.length := h.cursor
  have hlen : s.line.len = bytes s.line.as_str := by rw [Text.len, h.line, Nat.add_zero]
  rw [input, if_neg (by simp [hjob])]
  cases hedit : edit key with
  | char c =>
    refine ⟨_, rfl, ?_⟩
    rw [Text.has_room_for, hlen]
    by_cases hroom : bytes s.line.as_str + c.utf8Size ≤ LINE
    · rw [if_pos (decide_eq_true hroom)]
      obtain ⟨hview, hsound⟩ := insert_fits h hroom
      exact ⟨hview.trans (if_pos hroom).symm, hsound⟩
    · rw [if_neg (by simpa using hroom)]
      exact ⟨(if_neg hroom).symm, h⟩
  | enter =>
    obtain ⟨hview, hsound⟩ := remember_view h
    refine ⟨_, rfl, ?_⟩
    have hmodel : s.view.apply w .enter =
        if w.starts then { s.view.remember with job := w.starts }
        else { s.view.remember with job := w.starts }.fresh := rfl
    rw [hmodel, ← hview]
    split
    · exact ⟨rfl, hsound.line, hsound.stash, hsound.history, hsound.cursor, hsound.browse⟩
    · exact prompt_view hsound w.starts
  | backspace =>
    refine ⟨_, rfl, ?_⟩
    by_cases hpos : 0 < s.cursor
    · rw [if_pos hpos]
      exact erase_keeps h hpos
    · rw [if_neg hpos]
      have hzero : s.cursor = 0 := Nat.le_zero.mp (Nat.not_lt.mp hpos)
      refine ⟨?_, h⟩
      simp [Model.apply, Model.keep, view, hzero]
  | delete =>
    refine ⟨_, rfl, ?_⟩
    by_cases hlt : s.cursor < s.chars
    · rw [if_pos hlt]
      exact remove_at_keeps h
    · rw [if_neg hlt]
      rw [chars, not_lt] at hlt
      refine ⟨?_, h⟩
      simp only [Model.apply, view]
      rw [List.take_of_length_le hlt, List.drop_eq_nil_of_le (by omega), List.append_nil]
  | left => exact ⟨_, rfl, rfl, h.line, h.stash, h.history, (Nat.sub_le _ _).trans h.cursor, h.browse⟩
  | right => exact ⟨_, rfl, rfl, h.line, h.stash, h.history, min_le_right _ _, h.browse⟩
  | home => exact ⟨_, rfl, rfl, h.line, h.stash, h.history, Nat.zero_le _, h.browse⟩
  | «end» => exact ⟨_, rfl, rfl, h.line, h.stash, h.history, le_rfl, h.browse⟩
  | clearBefore =>
    obtain ⟨hview, hsound⟩ := erase_while_keeps (fun _ => true) s.cursor h le_rfl
    refine ⟨_, rfl, hview.trans ?_, hsound⟩
    have hnil : (s.line.as_str.take s.cursor).rdropWhile (fun _ => true) = [] := by
      rw [List.rdropWhile_eq_nil_iff]
      exact fun _ _ => rfl
    rw [hnil]
    rfl
  | clearAfter =>
    obtain ⟨hview, hsound⟩ := clear_after_keeps s.chars h (Nat.le_add_left _ _)
    exact ⟨_, rfl, hview, hsound⟩
  | clearWord =>
    obtain ⟨hview, hsound⟩ := erase_while_keeps (fun c => c = some ' ') s.cursor h le_rfl
    obtain ⟨hview', hsound'⟩ := erase_while_keeps (fun c => c ≠ some ' ') _ hsound le_rfl
    refine ⟨_, rfl, hview'.trans ?_, hsound'⟩
    have hbefore := Model.keep_before s.view
      ((s.line.as_str.take s.cursor).rdropWhile fun c => decide (some c = some ' '))
    rw [← hview] at hbefore
    have hmodel : s.view.apply w .clearWord = s.view.keep
        (((s.line.as_str.take s.cursor).rdropWhile (· = ' ')).rdropWhile (· ≠ ' ')) := rfl
    rw [hmodel, hview, Model.keep_keep]
    rw [show ∀ t : Shell, t.line.as_str.take t.cursor = t.view.text.take t.view.cursor from
      fun _ => rfl, hbefore]
    simp
  | abandon => exact ⟨_, rfl, prompt_view h s.job⟩
  | back => exact ⟨_, rfl, back_view h w⟩
  | forward => exact absurd hedit hforward
  | complete => exact absurd hedit hcomplete
  | other => exact ⟨_, rfl, rfl, h⟩

/-- **One step.** No step panics; it is one of the model's exactly where it is careful, and a
careful one leaves the editor sound. -/
theorem step_follows (h : s.Sound) (e : Event) : ∃ s', s.step e = some s' ∧
    (s.view.Follows s'.view e ↔ s.Careful e) ∧ (s.Careful e → s'.Sound) := by
  cases e with
  | tick done =>
    refine ⟨_, rfl, iff_of_true ?_ trivial, fun _ => ?_⟩
    · rw [Model.Follows]
      by_cases hd : s.job = true ∧ done = true
      · rw [if_pos hd, if_pos (show s.view.job = true ∧ done = true from hd)]
        exact (prompt_view h false).1
      · rw [if_neg hd, if_neg (show ¬(s.view.job = true ∧ done = true) from hd)]
    · split
      · exact (prompt_view h false).2
      · exact h
  | key key w =>
    by_cases hjob : s.job = true
    · -- the job has the key
      refine ⟨if w.stops then { s with job := false }.prompt else s, by simp [step, input, hjob],
        iff_of_true ?_ (.inl hjob), fun _ => ?_⟩
      · rw [Model.Follows, if_pos (show s.view.job = true from hjob)]
        split
        · exact (prompt_view h false).1
        · rfl
      · split
        · exact (prompt_view h false).2
        · exact h
    · have hview : ¬s.view.job = true := hjob
      simp only [Model.Follows, Careful, if_neg hview, hjob, false_or, Bool.false_eq_true]
      by_cases hcomplete : edit key = .complete
      · obtain ⟨s', hs', hiff, hsound⟩ := complete_view h w
        refine ⟨s', by simp [step, input, hjob, hcomplete, hs'], ?_, fun hcare => hsound (hcare.2 hcomplete)⟩
        rw [if_pos hcomplete, hiff]
        exact ⟨fun hfits => ⟨fun hf => by simp [hf] at hcomplete, fun _ => hfits⟩,
          fun hcare => hcare.2 hcomplete⟩
      · by_cases hforward : edit key = .forward
        · obtain ⟨hiff, hsound⟩ := forward_view h w
          refine ⟨s.history_step false, by simp [step, input, hjob, hforward], ?_, fun _ => hsound⟩
          rw [if_neg hcomplete, hforward, hiff]
          exact ⟨fun hcare => ⟨fun _ => hcare, fun hno => by simp at hno⟩, fun hcare => hcare.1 rfl⟩
        · obtain ⟨s', hs', hsame, hsound⟩ := input_view h (by simpa using hjob) key w hforward hcomplete
          refine ⟨s', hs', ?_, fun _ => hsound⟩
          rw [if_neg hcomplete]
          exact iff_of_true hsame ⟨fun hf => absurd hf hforward, fun hc => absurd hc hcomplete⟩

theorem new_sound : Shell.new.Sound := ⟨rfl, rfl, fun _ => rfl, le_rfl, by simp [Shell.new]⟩

/-- **The line editor.** In every run from a new shell, whatever the file tree and the commands
answer, no step panics, the cursor stays in the line and every step is one of the model's, as
long as the steps are careful; and no run does so that has a step which is not. -/
theorem refines_iff (es : List Event) : Shell.new.Refines es ↔ Shell.new.Meets es := by
  suffices hrun : ∀ s : Shell, s.Sound → (s.Refines es ↔ s.Meets es) from hrun _ new_sound
  induction es with
  | nil => exact fun s _ => Iff.rfl
  | cons e es ih =>
    intro s h
    obtain ⟨s', hs', hiff, hsound⟩ := step_follows h e
    simp only [Refines, Meets, hs', Option.some.injEq, exists_eq_left', forall_eq']
    constructor
    · rintro ⟨-, hfollows, hrest⟩
      have hcare := hiff.mp hfollows
      exact ⟨hcare, (ih s' (hsound hcare)).mp hrest⟩
    · rintro ⟨hcare, hrest⟩
      exact ⟨(hsound hcare).cursor, hiff.mpr hcare, (ih s' (hsound hcare)).mpr hrest⟩

end Shell

/-- A machine whose file tree is empty and whose commands start no job. -/
def idle : World := ⟨fun _ => [], false, false⟩

/-- After one command has been entered, Down takes away the line that is being typed. -/
theorem typed_line_lost :
    ([Event.key (.char 'a') idle, .key .enter idle, .key (.char 'b') idle].foldlM Shell.step
        Shell.new).map (fun s : Shell => s.line.as_str) = some ['b'] ∧
      ([Event.key (.char 'a') idle, .key .enter idle, .key (.char 'b') idle,
        .key .down idle].foldlM Shell.step Shell.new).map (fun s : Shell => s.line.as_str) =
          some [] := by
  decide

end NanoChrono.Editor
