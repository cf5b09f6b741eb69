import Mathlib.Data.List.DropRight
import NanoChrono.Shell.Text

/-! # The words of a shell command

`run_command` copies the unquoted text of a command into a scratch buffer of one line and
keeps the words as at most thirty-two spans of it. Beside it stands the grammar's own word
reader, which has no buffer and no table; the code reads the same words exactly where the
command stays inside the two bounds. -/

namespace NanoChrono.Shell

/-- A word is the text of it, quotes removed. -/
abbrev Word := List Char

/-! ## Characters -/

/-- `char::is_whitespace`: Unicode's `White_Space`. -/
def is_whitespace (c : Char) : Bool :=
  (9 ≤ c.toNat && c.toNat ≤ 13) || c.toNat = 0x20 || c.toNat = 0x85 || c.toNat = 0xA0 ||
    c.toNat = 0x1680 || (0x2000 ≤ c.toNat && c.toNat ≤ 0x200A) || c.toNat = 0x2028 ||
    c.toNat = 0x2029 || c.toNat = 0x202F || c.toNat = 0x205F || c.toNat = 0x3000

/-- The two quotes, `"` and `'`. -/
def isQuote (c : Char) : Bool := c.toNat = 0x22 || c.toNat = 0x27

/-- No quote is a blank. -/
theorem is_whitespace_of_isQuote {c : Char} (h : isQuote c = true) : is_whitespace c = false := by
  simp only [isQuote, Bool.or_eq_true, decide_eq_true_eq] at h
  rcases h with h | h <;> simp [is_whitespace, h]

/-- `str::trim`. -/
def trim (text : List Char) : List Char :=
  (text.dropWhile is_whitespace).rdropWhile is_whitespace

/-! ## The grammar's words -/

/-- The quote that is open after `c`. -/
def quoted : Option Char → Char → Option Char
  | some q, c => if c = q then none else some q
  | none, c => if isQuote c then some c else none

/-- The quote that is open at the end of `text`, when none is at its start. -/
def quoteAfter (text : List Char) : Option Char := text.foldl quoted none

/-- The word reader: the open quote, the word being read, and the words before it. -/
structure Lexer where
  quote : Option Char
  word : Option Word
  words : List Word
deriving DecidableEq

namespace Lexer

/-- Nothing read yet. -/
def start : Lexer := ⟨none, none, []⟩

/-- A quote begins or continues a word and is no part of it; a blank outside quotes ends the
word; every other character belongs to it. -/
def read (l : Lexer) (c : Char) : Lexer :=
  if (quoted l.quote c).isSome ≠ l.quote.isSome then
    { l with quote := quoted l.quote c, word := some (l.word.getD []) }
  else if l.quote = none ∧ is_whitespace c = true then
    ⟨none, none, l.words ++ l.word.toList⟩
  else
    { l with word := some (l.word.getD [] ++ [c]) }

/-- The words read, the last one included. -/
def all (l : Lexer) : List Word := l.words ++ l.word.toList

end Lexer

/-- The words of a command. -/
def words (text : List Char) : List Word := (text.foldl Lexer.read Lexer.start).all

/-! ## The code's words -/

/-- How many words a command may have. -/
def MAX_ARGS : Nat := 32

/-- How many bytes a line has. -/
def LINE : Nat := 512

/-- The locals of the loop of `run_command`: the positions of a span count the scratch text's
characters, all of which are whole. -/
structure Splitter where
  in_quote : Option Char
  start : Option Nat
  scratch : List Char
  spans : List (Nat × Nat)
deriving DecidableEq

namespace Splitter

def init : Splitter := ⟨none, none, [], []⟩

/-- `scratch.char(c)`: the whole character, or nothing when it does not fit. -/
def char (p : Splitter) (c : Char) : Splitter :=
  if bytes p.scratch + c.utf8Size ≤ LINE then { p with scratch := p.scratch ++ [c] } else p

/-- `start.get_or_insert(scratch.len())`. -/
def get_or_insert (p : Splitter) : Splitter :=
  { p with start := some (p.start.getD p.scratch.length) }

/-- Ends the word that has started, if the table has a place for it. -/
def take (p : Splitter) : Splitter :=
  match p.start with
  | some s =>
    if p.spans.length < MAX_ARGS then
      { p with start := none, spans := p.spans ++ [(s, p.scratch.length)] }
    else { p with start := none }
  | none => p

/-- One character of the line: the arms of the source's `match (in_quote, c)`. -/
def step (p : Splitter) (c : Char) : Splitter :=
  match p.in_quote with
  | none =>
    if isQuote c then { p with in_quote := some c }.get_or_insert
    else if is_whitespace c then p.take
    else p.get_or_insert.char c
  | some q =>
    if c = q then { p with in_quote := none }
    else p.get_or_insert.char c

/-- The words the spans cut out of the scratch text. -/
def argv (p : Splitter) : List Word :=
  p.spans.map fun span => (p.scratch.drop span.1).take (span.2 - span.1)

end Splitter

/-- The words `run_command` hands to `dispatch`. -/
def split_words (line : List Char) : List Word := (line.foldl Splitter.step Splitter.init).take.argv

/-! ## What the word reader keeps

The three kinds of character have one equation each; what follows about `read` is read off
them. -/

namespace Lexer

/-- The bytes of the words read so far. -/
def size (l : Lexer) : Nat := bytes l.words.flatten + bytes (l.word.getD [])

/-- A quote that opens or closes. -/
theorem read_quote {l : Lexer} {c : Char} (h : (quoted l.quote c).isSome ≠ l.quote.isSome) :
    l.read c = { l with quote := quoted l.quote c, word := some (l.word.getD []) } := by
  simp only [read, if_pos h]

/-- A blank between words. -/
theorem read_blank {l : Lexer} {c : Char} (hq : l.quote = none) (hw : is_whitespace c = true) :
    l.read c = ⟨none, none, l.words ++ l.word.toList⟩ := by
  have hc : isQuote c = false := by
    cases h : isQuote c with
    | false => rfl
    | true => simp [is_whitespace_of_isQuote h] at hw
  simp [read, hq, quoted, hc, hw]

/-- A character of a word. -/
theorem read_char {l : Lexer} {c : Char} (hq : (quoted l.quote c).isSome = l.quote.isSome)
    (hw : l.quote = none → is_whitespace c = false) :
    l.read c = { l with word := some (l.word.getD [] ++ [c]) } := by
  rw [read, if_neg (by simp [hq]), if_neg]
  rintro ⟨hn, hb⟩
  simp [hw hn] at hb

/-- The cases of one character, with what each leaves. -/
theorem read_cases (l : Lexer) (c : Char) :
    (l.read c = { l with quote := quoted l.quote c, word := some (l.word.getD []) }) ∨
      (l.quote = none ∧ is_whitespace c = true ∧
        l.read c = ⟨none, none, l.words ++ l.word.toList⟩) ∨
      (quoted l.quote c = l.quote ∧ l.read c = { l with word := some (l.word.getD [] ++ [c]) }) := by
  by_cases hq : (quoted l.quote c).isSome = l.quote.isSome
  · by_cases hw : l.quote = none ∧ is_whitespace c = true
    · exact .inr (.inl ⟨hw.1, hw.2, read_blank hw.1 hw.2⟩)
    · refine .inr (.inr ⟨?_, read_char hq fun hn => ?_⟩)
      · cases h : l.quote with
        | none => simpa [h] using hq
        | some q =>
          simp only [h, quoted] at hq ⊢
          split at hq
          · simp at hq
          · rw [if_neg ‹_›]
      · simpa [hn] using hw
  · exact .inl (read_quote hq)

/-- The open quote is the one the characters leave open. -/
theorem read_open (l : Lexer) (c : Char) : (l.read c).quote = quoted l.quote c := by
  rcases l.read_cases c with h | ⟨hq, hw, h⟩ | ⟨hq, h⟩
  · rw [h]
  · have hc : isQuote c = false := by
      cases h' : isQuote c with
      | false => rfl
      | true => simp [is_whitespace_of_isQuote h'] at hw
    simp [h, hq, quoted, hc]
  · rw [h, hq]

theorem foldl_open (text : List Char) (l : Lexer) :
    (text.foldl read l).quote = text.foldl quoted l.quote := by
  induction text generalizing l with
  | nil => rfl
  | cons c text ih => rw [List.foldl_cons, ih, read_open, List.foldl_cons]

/-- No character takes bytes away. -/
theorem size_le_read (l : Lexer) (c : Char) : l.size ≤ (l.read c).size := by
  rcases l.read_cases c with h | ⟨-, -, h⟩ | ⟨-, h⟩
  · simp [h, size]
  · cases hw : l.word <;> simp [h, size, hw]
  · simp only [h, size, Option.getD_some, bytes_append]
    omega

/-- No character takes words away. -/
theorem length_le_read (l : Lexer) (c : Char) : l.all.length ≤ (l.read c).all.length := by
  rcases l.read_cases c with h | ⟨-, -, h⟩ | ⟨-, h⟩
  · cases hw : l.word <;> simp [h, all, hw]
  · cases hw : l.word <;> simp [h, all, hw]
  · cases hw : l.word <;> simp [h, all, hw]

theorem size_le_foldl (text : List Char) (l : Lexer) : l.size ≤ (text.foldl read l).size := by
  induction text generalizing l with
  | nil => exact le_rfl
  | cons c text ih => exact (l.size_le_read c).trans (ih _)

theorem length_le_foldl (text : List Char) (l : Lexer) :
    l.all.length ≤ (text.foldl read l).all.length := by
  induction text generalizing l with
  | nil => exact le_rfl
  | cons c text ih => exact (l.length_le_read c).trans (ih _)

/-- An open quote has begun a word. -/
def Begun (l : Lexer) : Prop := l.quote.isSome = true → l.word.isSome = true

theorem begun_closed {l : Lexer} (h : l.quote = none) : l.Begun := by simp [Begun, h]

theorem begun_read (l : Lexer) (c : Char) : (l.read c).Begun := by
  rcases l.read_cases c with hr | ⟨-, -, hr⟩ | ⟨-, hr⟩ <;> rw [hr]
  · exact fun _ => rfl
  · exact fun hq => by simp at hq
  · exact fun _ => rfl

theorem Begun.foldl (text : List Char) {l : Lexer} (h : l.Begun) :
    (text.foldl Lexer.read l).Begun := by
  induction text generalizing l with
  | nil => exact h
  | cons c text ih => exact ih (l.begun_read c)

/-- The bytes of the words are the bytes read. -/
theorem bytes_all (l : Lexer) : bytes l.all.flatten = l.size := by
  cases hw : l.word <;> simp [all, size, hw]

end Lexer

/-! ## Inside the bounds the code reads the grammar's words -/

namespace Splitter

/-- The code's locals hold what the grammar has read. -/
structure Follows (p : Splitter) (l : Lexer) : Prop where
  quote : p.in_quote = l.quote
  start : p.start = l.word.map fun _ => l.words.flatten.length
  scratch : p.scratch = l.words.flatten ++ l.word.getD []
  spans : ∀ span ∈ p.spans, span.2 ≤ l.words.flatten.length
  argv : p.argv = l.words
  begun : l.Begun

theorem init_follows : init.Follows Lexer.start :=
  ⟨rfl, rfl, rfl, by simp [init], rfl, Lexer.begun_closed rfl⟩

/-- What the spans cut out stays when the scratch text grows. -/
theorem argv_append {p : Splitter} (more : List Char)
    (h : ∀ span ∈ p.spans, span.2 ≤ p.scratch.length) :
    { p with scratch := p.scratch ++ more }.argv = p.argv := by
  refine List.map_congr_left fun span hspan => ?_
  have hend := h span hspan
  simp only [List.drop_append]
  rw [List.take_append_of_le_length]
  rw [List.length_drop]
  omega

/-- The table has a row for each word that has ended. -/
theorem Follows.length {p : Splitter} {l : Lexer} (h : p.Follows l) :
    p.spans.length = l.words.length := by
  rw [← h.argv, Splitter.argv, List.length_map]

/-- A word begins or goes on. -/
theorem Follows.get_or_insert {p : Splitter} {l : Lexer} (h : p.Follows l) (q : Option Char) :
    ({ p with in_quote := q }.get_or_insert).Follows
      { l with quote := q, word := some (l.word.getD []) } := by
  refine ⟨rfl, ?_, ?_, h.spans, h.argv, fun _ => rfl⟩
  · have hs := h.start
    cases hw : l.word <;> simp [Splitter.get_or_insert, h.start, h.scratch, hw]
  · simp [Splitter.get_or_insert, h.scratch]

/-- A character that fits joins the word. -/
theorem Follows.char {p : Splitter} {l : Lexer} {w : Word} (h : p.Follows l) (c : Char)
    (hw : l.word = some w) (hfits : l.size + c.utf8Size ≤ LINE) :
    (p.char c).Follows { l with word := some (w ++ [c]) } := by
  have hroom : bytes p.scratch + c.utf8Size ≤ LINE := by
    rw [h.scratch, bytes_append]
    exact hfits
  have hends : ∀ span ∈ p.spans, span.2 ≤ p.scratch.length := fun span hspan => by
    have := h.spans span hspan
    rw [h.scratch, List.length_append]
    omega
  rw [Splitter.char, if_pos hroom]
  refine ⟨h.quote, ?_, ?_, h.spans, ?_, fun _ => rfl⟩
  · simp [h.start, hw]
  · simp [h.scratch, hw]
  · rw [argv_append [c] hends]
    exact h.argv

/-- A word that ends gets its row when there is one. -/
theorem Follows.take {p : Splitter} {l : Lexer} (h : p.Follows l) (hq : l.quote = none)
    (hrows : l.all.length ≤ MAX_ARGS) : p.take.Follows ⟨none, none, l.all⟩ := by
  have hin : p.in_quote = none := h.quote.trans hq
  cases hw : l.word with
  | none =>
    have hs : p.start = none := by rw [h.start, hw]; rfl
    have hall : l.all = l.words := by simp [Lexer.all, hw]
    rw [Splitter.take, hs, hall]
    exact ⟨hin, hs, by simpa [hw] using h.scratch, h.spans, h.argv, Lexer.begun_closed rfl⟩
  | some w =>
    have hs : p.start = some l.words.flatten.length := by rw [h.start, hw]; rfl
    have hall : l.all = l.words ++ [w] := by simp [Lexer.all, hw]
    have hscratch : p.scratch = l.words.flatten ++ w := by simpa [hw] using h.scratch
    have hrow : p.spans.length < MAX_ARGS := by
      rw [h.length]
      rw [hall, List.length_append] at hrows
      exact hrows
    rw [Splitter.take, hs, hall]
    simp only [if_pos hrow]
    refine ⟨hin, rfl, by simp [hscratch], ?_, ?_, Lexer.begun_closed rfl⟩
    · intro span hspan
      rw [List.flatten_append, List.length_append]
      rcases List.mem_append.mp hspan with hold | hnew
      · exact (h.spans span hold).trans (Nat.le_add_right _ _)
      · simp [List.mem_singleton.mp hnew, hscratch]
    · have hargv := h.argv
      simp only [Splitter.argv] at hargv ⊢
      rw [List.map_append, hargv]
      simp [hscratch]

/-- One character, inside the bounds. -/
theorem Follows.step {p : Splitter} {l : Lexer} (h : p.Follows l) (c : Char)
    (hsize : (l.read c).size ≤ LINE) (hrows : (l.read c).all.length ≤ MAX_ARGS) :
    (p.step c).Follows (l.read c) := by
  have hget : p.get_or_insert.Follows { l with word := some (l.word.getD []) } := by
    have := h.get_or_insert p.in_quote
    rw [← h.quote]
    exact this
  have hjoin : l.read c = { l with word := some (l.word.getD [] ++ [c]) } →
      (p.get_or_insert.char c).Follows (l.read c) := fun hread => by
    rw [hread] at hsize ⊢
    refine hget.char c rfl ?_
    simp only [Lexer.size, Option.getD_some, bytes_append, bytes_cons, bytes_nil] at hsize ⊢
    omega
  cases hq : l.quote with
  | none =>
    have hin : p.in_quote = none := h.quote.trans hq
    simp only [Splitter.step, hin]
    by_cases hc : isQuote c = true
    · rw [if_pos hc, Lexer.read_quote (by simp [hq, quoted, hc])]
      simpa [hq, quoted, hc] using h.get_or_insert (some c)
    · rw [if_neg hc]
      by_cases hw : is_whitespace c = true
      · have hread := Lexer.read_blank hq hw
        rw [if_pos hw, hread]
        have hlen : l.all.length ≤ MAX_ARGS := by
          simpa [hread, Lexer.all] using hrows
        exact h.take hq hlen
      · rw [if_neg hw]
        exact hjoin (Lexer.read_char (by simp [hq, quoted, hc]) fun _ => by simpa using hw)
  | some q =>
    have hin : p.in_quote = some q := h.quote.trans hq
    simp only [Splitter.step, hin]
    by_cases hc : c = q
    · obtain ⟨w, hw⟩ := Option.isSome_iff_exists.mp (h.begun (by rw [hq]; rfl))
      have hread : l.read c = { l with quote := none } := by
        rw [Lexer.read_quote (by simp [hq, quoted, hc])]
        simp [hq, quoted, hc, hw]
      rw [if_pos hc, hread]
      exact ⟨rfl, h.start, h.scratch, h.spans, h.argv, Lexer.begun_closed rfl⟩
    · rw [if_neg hc]
      exact hjoin (Lexer.read_char (by simp [hq, quoted, hc]) fun hn => by simp [hq] at hn)

/-- A run of characters, inside the bounds. -/
theorem Follows.foldl (text : List Char) {p : Splitter} {l : Lexer} (h : p.Follows l)
    (hsize : (text.foldl Lexer.read l).size ≤ LINE)
    (hrows : (text.foldl Lexer.read l).all.length ≤ MAX_ARGS) :
    (text.foldl Splitter.step p).Follows (text.foldl Lexer.read l) := by
  induction text generalizing p l with
  | nil => exact h
  | cons c text ih =>
    have hsize' := (Lexer.size_le_foldl text (l.read c)).trans hsize
    have hrows' := (Lexer.length_le_foldl text (l.read c)).trans hrows
    exact ih (h.step c hsize' hrows') hsize hrows

/-- The last word, which nothing ends but the end of the line. -/
theorem Follows.argv_take {p : Splitter} {l : Lexer} (h : p.Follows l)
    (hrows : l.all.length ≤ MAX_ARGS) : p.take.argv = l.all := by
  -- an open quote does not keep the word from its row
  have hclosed : ({ p with in_quote := none } : Splitter).Follows { l with quote := none } :=
    ⟨rfl, h.start, h.scratch, h.spans, h.argv, Lexer.begun_closed rfl⟩
  have htake : p.take.argv = ({ p with in_quote := none } : Splitter).take.argv := by
    simp only [Splitter.take]
    cases p.start with
    | none => rfl
    | some s =>
      simp only
      split <;> rfl
  rw [htake]
  exact (hclosed.take rfl hrows).argv

/-! ## Outside the bounds it cannot -/

/-- The spans cut disjoint pieces out of a scratch text of one line. -/
structure Tidy (p : Splitter) (done : Nat) : Prop where
  done_le : done ≤ p.scratch.length
  ends : ∀ span ∈ p.spans, span.2 ≤ done
  pieces : p.argv.flatten.Sublist (p.scratch.take done)
  start : ∀ s, p.start = some s → done ≤ s ∧ s ≤ p.scratch.length
  rows : p.spans.length ≤ MAX_ARGS
  room : bytes p.scratch ≤ LINE

theorem init_tidy : init.Tidy 0 :=
  ⟨le_rfl, by simp [init], by simp [init, argv], by simp [init], by simp [init],
    by simp [init]⟩

theorem Tidy.get_or_insert {p : Splitter} {done : Nat} (h : p.Tidy done) (q : Option Char) :
    ({ p with in_quote := q }.get_or_insert).Tidy done := by
  refine ⟨h.done_le, h.ends, h.pieces, fun s hs => ?_, h.rows, h.room⟩
  cases hp : p.start with
  | none =>
    simp only [Splitter.get_or_insert, hp, Option.getD_none, Option.some.injEq] at hs
    exact ⟨hs ▸ h.done_le, hs.ge⟩
  | some t =>
    simp only [Splitter.get_or_insert, hp, Option.getD_some, Option.some.injEq] at hs
    exact hs ▸ h.start t hp

theorem Tidy.char {p : Splitter} {done : Nat} (h : p.Tidy done) (c : Char) :
    (p.char c).Tidy done := by
  rw [Splitter.char]
  split
  · next hroom =>
    have hle := h.done_le
    refine ⟨?_, h.ends, ?_, fun s hs => ?_, h.rows, ?_⟩
    · simpa using hle.trans (Nat.le_succ _)
    · rw [argv_append [c] fun span hspan => (h.ends span hspan).trans hle]
      rw [List.take_append_of_le_length hle]
      exact h.pieces
    · have := h.start s hs
      simp only [List.length_append]
      omega
    · simpa using hroom
  · exact h

theorem Tidy.take {p : Splitter} {done : Nat} (h : p.Tidy done) : ∃ done', p.take.Tidy done' := by
  rw [Splitter.take]
  cases hs : p.start with
  | none => exact ⟨done, h⟩
  | some s =>
    simp only
    split
    · next hrow =>
      obtain ⟨hfrom, hto⟩ := h.start s hs
      refine ⟨p.scratch.length, le_rfl, ?_, ?_, by simp, ?_, h.room⟩
      · intro span hspan
        rcases List.mem_append.mp hspan with hold | hnew
        · exact (h.ends span hold).trans h.done_le
        · simp [List.mem_singleton.mp hnew]
      · have hsplit : p.scratch.take p.scratch.length = p.scratch.take s ++ p.scratch.drop s := by
          rw [List.take_length, List.take_append_drop]
        have hpiece : (p.scratch.drop s).take (p.scratch.length - s) = p.scratch.drop s :=
          List.take_of_length_le (by rw [List.length_drop])
        have hbefore : p.argv.flatten.Sublist (p.scratch.take s) :=
          h.pieces.trans (List.take_sublist_take_left hfrom)
        simp only [Splitter.argv] at hbefore ⊢
        rw [hsplit, List.map_append, List.flatten_append]
        refine hbefore.append ?_
        simp [hpiece]
      · rw [List.length_append]
        exact hrow
    · exact ⟨done, h.done_le, h.ends, h.pieces, by simp, h.rows, h.room⟩

theorem Tidy.step {p : Splitter} {done : Nat} (h : p.Tidy done) (c : Char) :
    ∃ done', (p.step c).Tidy done' := by
  have hjoin : (p.get_or_insert.char c).Tidy done := (h.get_or_insert p.in_quote).char c
  simp only [Splitter.step]
  split
  · split_ifs
    · exact ⟨done, h.get_or_insert (some c)⟩
    · exact h.take
    · exact ⟨done, hjoin⟩
  · split_ifs
    · exact ⟨done, h.done_le, h.ends, h.pieces, h.start, h.rows, h.room⟩
    · exact ⟨done, hjoin⟩

theorem Tidy.foldl (text : List Char) {p : Splitter} {done : Nat} (h : p.Tidy done) :
    ∃ done', (text.foldl Splitter.step p).Tidy done' := by
  induction text generalizing p done with
  | nil => exact ⟨done, h⟩
  | cons c text ih =>
    obtain ⟨done', h'⟩ := h.step c
    exact ih h'

end Splitter

/-- The code's words are at most thirty-two, of one line's bytes together. -/
theorem split_words_bounded (line : List Char) :
    (split_words line).length ≤ MAX_ARGS ∧ bytes (split_words line).flatten ≤ LINE := by
  obtain ⟨done, h⟩ := Splitter.init_tidy.foldl line
  obtain ⟨done', h'⟩ := h.take
  refine ⟨by rw [split_words, Splitter.argv, List.length_map]; exact h'.rows, ?_⟩
  have hpart := h'.pieces.trans (List.take_sublist _ _)
  exact (bytes_le_of_sublist hpart).trans h'.room

/-- **The code reads the grammar's words exactly where they are inside its two bounds.** -/
theorem split_words_eq_iff (line : List Char) :
    split_words line = words line ↔
      (words line).length ≤ MAX_ARGS ∧ bytes (words line).flatten ≤ LINE := by
  constructor
  · intro heq
    rw [← heq]
    exact split_words_bounded line
  · rintro ⟨hrows, hbytes⟩
    rw [words, Lexer.bytes_all] at hbytes
    exact (Splitter.init_follows.foldl line hbytes hrows).argv_take hrows

/-! ## Blanks around a command

The code trims a command before it reads its words. Outside quotes a blank is no part of a
word, so the trim shows only where a quote is still open at the end. -/

namespace Lexer

/-- The characters of the words read so far. -/
def count (l : Lexer) : Nat := l.words.flatten.length + (l.word.getD []).length

theorem length_all (l : Lexer) : l.all.flatten.length = l.count := by
  cases hw : l.word <;> simp [all, count, hw]

/-- No character takes characters away. -/
theorem count_le_read (l : Lexer) (c : Char) : l.count ≤ (l.read c).count := by
  rcases l.read_cases c with h | ⟨-, -, h⟩ | ⟨-, h⟩
  · simp [h, count]
  · cases hw : l.word <;> simp [h, count, hw]
  · simp only [h, count, Option.getD_some, List.length_append]
    omega

theorem count_le_foldl (text : List Char) (l : Lexer) : l.count ≤ (text.foldl read l).count := by
  induction text generalizing l with
  | nil => exact le_rfl
  | cons c text ih => exact (l.count_le_read c).trans (ih _)

/-- Inside a quote every character but the closing one is text. -/
theorem count_read_quoted {l : Lexer} {q c : Char} (hq : l.quote = some q) (hc : c ≠ q) :
    (l.read c).quote = some q ∧ (l.read c).count = l.count + 1 := by
  rw [read_char (by simp [hq, quoted, hc]) fun hn => by simp [hq] at hn]
  refine ⟨hq, ?_⟩
  simp [count]
  omega

end Lexer

/-- Only a quote opens a quote. -/
theorem isQuote_of_quoted {q : Option Char} {c d : Char} (hq : ∀ d, q = some d → isQuote d = true)
    (h : quoted q c = some d) : isQuote d = true := by
  cases q with
  | none =>
    simp only [quoted] at h
    split at h
    · next hc => exact Option.some.inj h ▸ hc
    · exact absurd h (by simp)
  | some q =>
    simp only [quoted] at h
    split at h
    · simp at h
    · exact Option.some.inj h ▸ hq q rfl

theorem isQuote_foldl (text : List Char) {q : Option Char} {d : Char}
    (hq : ∀ d, q = some d → isQuote d = true) (h : text.foldl quoted q = some d) :
    isQuote d = true := by
  induction text generalizing q with
  | nil => exact hq d h
  | cons c text ih => exact ih (fun e he => isQuote_of_quoted hq he) h

/-- A blank opens and closes no quote. -/
theorem quoted_blank {q : Option Char} {c : Char} (hq : ∀ d, q = some d → isQuote d = true)
    (hc : is_whitespace c = true) : quoted q c = q := by
  have hno : isQuote c = false := by
    cases h : isQuote c with
    | false => rfl
    | true => simp [is_whitespace_of_isQuote h] at hc
  cases q with
  | none => simp [quoted, hno]
  | some q =>
    have hne : c ≠ q := fun heq => by simp [heq, hq q rfl] at hno
    simp [quoted, hne]

theorem foldl_quoted_blanks {q : Option Char} (hq : ∀ d, q = some d → isQuote d = true)
    {blanks : List Char} (hb : ∀ c ∈ blanks, is_whitespace c = true) : blanks.foldl quoted q = q := by
  induction blanks with
  | nil => rfl
  | cons c blanks ih =>
    rw [List.foldl_cons, quoted_blank hq (hb c List.mem_cons_self)]
    exact ih fun d hd => hb d (List.mem_cons_of_mem c hd)

/-- Blanks outside quotes change no word. -/
theorem all_blanks {l : Lexer} (hq : l.quote = none) {blanks : List Char}
    (hb : ∀ c ∈ blanks, is_whitespace c = true) : (blanks.foldl Lexer.read l).all = l.all := by
  induction blanks generalizing l with
  | nil => rfl
  | cons c blanks ih =>
    rw [List.foldl_cons, Lexer.read_blank hq (hb c List.mem_cons_self),
      ih rfl fun d hd => hb d (List.mem_cons_of_mem c hd)]
    simp [Lexer.all]

/-- Blanks inside a quote are text. -/
theorem count_blanks {l : Lexer} {q : Char} (hl : l.quote = some q) (hq : isQuote q = true)
    {blanks : List Char} (hb : ∀ c ∈ blanks, is_whitespace c = true) :
    (blanks.foldl Lexer.read l).count = l.count + blanks.length := by
  induction blanks generalizing l with
  | nil => rfl
  | cons c blanks ih =>
    have hne : c ≠ q := fun heq => by
      have := hb c List.mem_cons_self
      rw [heq, is_whitespace_of_isQuote hq] at this
      exact Bool.false_ne_true this
    obtain ⟨hquote, hcount⟩ := Lexer.count_read_quoted hl hne
    rw [List.foldl_cons, ih hquote fun d hd => hb d (List.mem_cons_of_mem c hd), hcount,
      List.length_cons]
    omega

/-- The words after the leading blanks are gone. -/
theorem foldl_read_blanks {before : List Char} (hb : ∀ c ∈ before, is_whitespace c = true) :
    before.foldl Lexer.read Lexer.start = Lexer.start := by
  induction before with
  | nil => rfl
  | cons c before ih =>
    rw [List.foldl_cons, Lexer.read_blank rfl (hb c List.mem_cons_self)]
    exact ih fun d hd => hb d (List.mem_cons_of_mem c hd)

/-- What the trim takes away is blank: it leaves the quotes as they are, and only the blanks at
the end can reach a word. -/
theorem trim_parts (text : List Char) : ∃ before after,
    text = before ++ trim text ++ after ∧ (∀ c ∈ after, is_whitespace c = true) ∧
      text.foldl Lexer.read Lexer.start =
        after.foldl Lexer.read ((trim text).foldl Lexer.read Lexer.start) ∧
      quoteAfter (trim text) = quoteAfter text := by
  let before := text.takeWhile is_whitespace
  let after := (text.dropWhile is_whitespace).rtakeWhile is_whitespace
  have hbefore : ∀ c ∈ before, is_whitespace c = true := fun c hc => List.mem_takeWhile_imp hc
  have hafter : ∀ c ∈ after, is_whitespace c = true := fun c hc => List.mem_rtakeWhile_imp hc
  have hsplit : text = before ++ trim text ++ after := by
    rw [trim, List.append_assoc, List.rdropWhile_append_rtakeWhile,
      List.takeWhile_append_dropWhile]
  refine ⟨before, after, hsplit, hafter, ?_, ?_⟩
  · conv_lhs => rw [hsplit]
    rw [List.foldl_append, List.foldl_append, foldl_read_blanks hbefore]
  · simp only [quoteAfter]
    conv_rhs => rw [hsplit]
    rw [List.foldl_append, List.foldl_append, foldl_quoted_blanks (by simp) hbefore,
      foldl_quoted_blanks (fun d hd => isQuote_foldl _ (by simp) hd) hafter]

/-- A trimmed command ends in no blank. -/
theorem trim_last {text : List Char} {c : Char} (h : (trim text).getLast? = some c) :
    is_whitespace c = false := by
  have hne : trim text ≠ [] := fun hnil => by simp [hnil] at h
  have := List.rdropWhile_last_not is_whitespace (text.dropWhile is_whitespace) hne
  rw [List.getLast?_eq_some_getLast hne, Option.some.injEq] at h
  simpa [← h, trim] using this

/-- **Where the quotes of a command are closed, or it does not end in a blank, the trim takes
no word and no character from it.** -/
theorem words_trim {text : List Char}
    (h : quoteAfter text = none ∨ ∀ c, text.getLast? = some c → is_whitespace c = false) :
    words (trim text) = words text := by
  obtain ⟨before, after, hsplit, hafter, hread, hquote⟩ := trim_parts text
  rcases h with hnone | hlast
  · rw [words, words, hread]
    refine (all_blanks ?_ hafter).symm
    rw [Lexer.foldl_open]
    exact hquote.trans hnone
  · cases hd : after.getLast? with
    | none =>
      rw [List.getLast?_eq_none_iff] at hd
      rw [words, words, hread, hd]
      rfl
    | some c =>
      have hend : text.getLast? = some c := by
        rw [hsplit, List.getLast?_append, hd]
        rfl
      have := hafter c (List.mem_of_getLast? hd)
      rw [hlast c hend] at this
      exact absurd this Bool.false_ne_true

/-- **Blanks at the end of a command whose quote is still open are text, and the trim takes
them.** -/
theorem words_trim_lt {text : List Char} {q c : Char} (hq : quoteAfter text = some q)
    (hc : text.getLast? = some c) (hblank : is_whitespace c = true) :
    (words (trim text)).flatten.length < (words text).flatten.length := by
  obtain ⟨before, after, hsplit, hafter, hread, hquote⟩ := trim_parts text
  have hopen : (trim text).foldl quoted none = some q := hquote.trans hq
  have hlexer : ((trim text).foldl Lexer.read Lexer.start).quote = some q := by
    rw [Lexer.foldl_open]
    exact hopen
  -- a trimmed command that ends as the text does would end in a blank
  have hne : after ≠ [] := by
    rintro rfl
    rw [List.append_nil] at hsplit
    have hsome : (trim text).getLast? = some c := by
      cases ht : (trim text).getLast? with
      | none =>
        rw [List.getLast?_eq_none_iff] at ht
        simp [ht] at hopen
      | some d =>
        rw [hsplit, List.getLast?_append, ht] at hc
        exact hc
    rw [trim_last hsome] at hblank
    exact Bool.false_ne_true hblank
  have hpos : 0 < after.length := List.length_pos_iff.mpr hne
  rw [words, words, Lexer.length_all, Lexer.length_all, hread,
    count_blanks hlexer (isQuote_foldl _ (by simp) hopen) hafter]
  omega

/-! ## Commands of no words -/

/-- A command with an open quote has a word. -/
theorem words_ne_nil_of_open {text : List Char} (h : quoteAfter text ≠ none) : words text ≠ [] := by
  have hbegun : (text.foldl Lexer.read Lexer.start).Begun :=
    (Lexer.begun_closed rfl).foldl text
  have hopen : (text.foldl Lexer.read Lexer.start).quote = quoteAfter text := Lexer.foldl_open text _
  obtain ⟨w, hw⟩ := Option.isSome_iff_exists.mp
    (hbegun (by rw [hopen]; exact Option.isSome_iff_ne_none.mpr h))
  simp [words, Lexer.all, hw]

/-- A command that begins with one that has words has words. -/
theorem words_append_ne_nil {text : List Char} (more : List Char) (h : words text ≠ []) :
    words (text ++ more) ≠ [] := by
  rw [words, List.foldl_append, ← List.length_pos_iff]
  exact (List.length_pos_iff.mpr h).trans_le (Lexer.length_le_foldl more _)

/-- The code's locals have a word exactly when the grammar's reader has one. -/
def Splitter.Starts (p : Splitter) (l : Lexer) : Prop :=
  p.in_quote = l.quote ∧ p.start.isSome = l.word.isSome ∧ (p.spans = [] ↔ l.words = [])

theorem Splitter.Starts.step {p : Splitter} {l : Lexer} (h : p.Starts l) (hl : l.Begun) (c : Char) :
    (p.step c).Starts (l.read c) := by
  obtain ⟨hq, hstart, hspans⟩ := h
  have hchar : ∀ p : Splitter, (p.char c).in_quote = p.in_quote ∧ (p.char c).start = p.start ∧
      (p.char c).spans = p.spans := fun p => by
    rw [Splitter.char]
    split <;> exact ⟨rfl, rfl, rfl⟩
  -- a character of a word
  have hjoin : l.read c = { l with word := some (l.word.getD [] ++ [c]) } →
      (p.get_or_insert.char c).Starts (l.read c) := fun hread => by
    obtain ⟨h1, h2, h3⟩ := hchar p.get_or_insert
    rw [hread, Splitter.Starts, h1, h2, h3]
    exact ⟨hq, rfl, hspans⟩
  cases hlq : l.quote with
  | none =>
    simp only [Splitter.step, hq.trans hlq]
    split_ifs with hc hw
    · rw [Lexer.read_quote (by simp [hlq, quoted, hc])]
      exact ⟨by simp [Splitter.get_or_insert, hlq, quoted, hc], rfl, hspans⟩
    · rw [Lexer.read_blank hlq hw]
      cases hs : p.start with
      | none =>
        have hword : l.word = none := by simpa [hs] using hstart
        simp [Splitter.take, hs, Splitter.Starts, hq, hlq, hword, hspans]
      | some t =>
        obtain ⟨w, hword⟩ := Option.isSome_iff_exists.mp (hstart.symm.trans (by rw [hs]; rfl))
        simp only [Splitter.take, hs]
        split
        · simp [Splitter.Starts, hq, hlq, hword]
        · next hrow =>
          -- a full table is not empty
          have hne : p.spans ≠ [] := fun hnil => hrow (by simp [hnil, MAX_ARGS])
          simp [Splitter.Starts, hq, hlq, hword, hne]
    · exact hjoin (Lexer.read_char (by simp [hlq, quoted, hc]) fun _ => by simpa using hw)
  | some q =>
    simp only [Splitter.step, hq.trans hlq]
    split_ifs with hc
    · rw [Lexer.read_quote (by simp [hlq, quoted, hc])]
      have hword : l.word.isSome = true := hl (by rw [hlq]; rfl)
      exact ⟨by simp [hlq, quoted, hc], by simp [hstart, hword], hspans⟩
    · exact hjoin (Lexer.read_char (by simp [hlq, quoted, hc]) fun hn => by simp [hlq] at hn)

theorem Splitter.Starts.foldl (text : List Char) {p : Splitter} {l : Lexer} (h : p.Starts l)
    (hl : l.Begun) : (text.foldl Splitter.step p).Starts (text.foldl Lexer.read l) := by
  induction text generalizing p l with
  | nil => exact h
  | cons c text ih => exact ih (h.step hl c) (l.begun_read c)

/-- The code finds a word wherever the grammar does. -/
theorem split_words_ne_nil {line : List Char} (h : words line ≠ []) : split_words line ≠ [] := by
  have hinit : Splitter.init.Starts Lexer.start := ⟨rfl, rfl, by simp [Splitter.init, Lexer.start]⟩
  obtain ⟨-, hstart, hspans⟩ := hinit.foldl line (Lexer.begun_closed rfl)
  rw [split_words, Splitter.argv, Ne, List.map_eq_nil_iff]
  intro hnil
  refine h ?_
  cases hs : (line.foldl Splitter.step Splitter.init).start with
  | none =>
    rw [hs] at hstart
    rw [Splitter.take, hs] at hnil
    have hword : (line.foldl Lexer.read Lexer.start).word = none := by simpa using hstart.symm
    simp [words, Lexer.all, hword, hspans.mp hnil]
  | some t =>
    rw [Splitter.take, hs] at hnil
    simp only at hnil
    split at hnil
    · simp at hnil
    · next hrow => exact absurd (by rw [hnil]; decide) hrow

/-! ## Longer commands -/

/-- Every measure of `a` is at most that of `b`. -/
structure Fewer (a b : List Word) : Prop where
  rows : a.length ≤ b.length
  bytes : bytes a.flatten ≤ bytes b.flatten
  chars : a.flatten.length ≤ b.flatten.length

theorem Fewer.trans {a b c : List Word} (h : Fewer a b) (h' : Fewer b c) : Fewer a c :=
  ⟨h.rows.trans h'.rows, h.bytes.trans h'.bytes, h.chars.trans h'.chars⟩

theorem fewer_foldl (text : List Char) (l : Lexer) : Fewer l.all (text.foldl Lexer.read l).all :=
  ⟨l.length_le_foldl text, by simpa only [Lexer.bytes_all] using l.size_le_foldl text,
    by simpa only [Lexer.length_all] using l.count_le_foldl text⟩

/-- More text, more words. -/
theorem fewer_append (text more : List Char) : Fewer (words text) (words (text ++ more)) := by
  rw [words, words, List.foldl_append]
  exact fewer_foldl more _

/-- The trim adds nothing. -/
theorem fewer_trim (text : List Char) : Fewer (words (trim text)) (words text) := by
  obtain ⟨-, after, -, -, hread, -⟩ := trim_parts text
  rw [words, words, hread]
  exact fewer_foldl after _

/-- Where the code reads of one command what the grammar reads of a longer one, it has kept all
of its own. -/
theorem split_words_eq_of_fewer {line : List Char} {b : List Word} (h : split_words line = b)
    (hfewer : Fewer (words line) b) : words line = b := by
  obtain ⟨hrows, hbytes⟩ := split_words_bounded line
  rw [h] at hrows hbytes
  exact (split_words_eq_iff line).mpr ⟨hfewer.rows.trans hrows, hfewer.bytes.trans hbytes⟩ ▸ h

end NanoChrono.Shell
