import Mathlib

/-! # Bounded text

`Text<N>` is a buffer of `N` bytes that drops what does not fit. Its bytes are those of whole
characters, up to the end of the buffer, where `str` may cut one: the leading bytes of that
character stay in the buffer and in its length, and `as_str` does not show them. -/

namespace NanoChrono.Shell

/-! ## Bytes -/

/-- The bytes of a text in UTF-8. -/
def bytes (text : List Char) : Nat := (text.map Char.utf8Size).sum

@[simp] theorem bytes_nil : bytes [] = 0 := rfl

@[simp] theorem bytes_append (a b : List Char) : bytes (a ++ b) = bytes a + bytes b := by
  simp [bytes]

@[simp] theorem bytes_cons (c : Char) (a : List Char) : bytes (c :: a) = c.utf8Size + bytes a := by
  simp [bytes]

/-- A part of a text has no more bytes than the whole. -/
theorem bytes_le_of_sublist {a b : List Char} (h : a.Sublist b) : bytes a ≤ bytes b :=
  (h.map Char.utf8Size).sum_le_sum fun _ _ => Nat.zero_le _

/-! ## The buffer -/

/-- A text of at most `N` bytes: its whole characters, and how many bytes of a cut one follow. -/
structure Text (N : Nat) where
  as_str : List Char
  cut : Nat
  fits : bytes as_str + cut ≤ N
  /-- Only the end of the buffer cuts a character. -/
  full : cut ≠ 0 → bytes as_str + cut = N

namespace Text

variable {N : Nat}

/-- `Text::new`. -/
def new : Text N := ⟨[], 0, Nat.zero_le N, fun h => absurd rfl h⟩

@[simp] theorem as_str_new : (new : Text N).as_str = [] := rfl

@[simp] theorem cut_new : (new : Text N).cut = 0 := rfl

/-- `Text::len`: the bytes written. -/
def len (t : Text N) : Nat := bytes t.as_str + t.cut

/-- `Text::is_empty`. -/
def is_empty (t : Text N) : Bool := t.len = 0

/-- `Text::has_room_for`. -/
def has_room_for (t : Text N) (count : Nat) : Bool := t.len + count ≤ N

/-- No character is cut where there is room for another. -/
theorem cut_eq_zero {t : Text N} {c : Char} (h : t.len + c.utf8Size ≤ N) : t.cut = 0 := by
  by_contra hcut
  have hfull := t.full hcut
  have hsize := c.utf8Size_pos
  rw [len] at h
  omega

/-- `Text::char`: the whole character, or nothing. -/
def char (t : Text N) (c : Char) : Text N :=
  if h : t.len + c.utf8Size ≤ N then
    { as_str := t.as_str ++ [c]
      cut := 0
      fits := by
        have hcut := cut_eq_zero h
        simpa [len, hcut] using h
      full := fun hne => absurd rfl hne }
  else t

/-- What `Text::str` writes of one character: all of it, the bytes that still fit, or nothing. -/
def push (t : Text N) (c : Char) : Text N :=
  if t.len + c.utf8Size ≤ N then t.char c
  else
    { as_str := t.as_str
      cut := N - bytes t.as_str
      fits := by
        have := t.fits
        omega
      full := fun _ => by
        have := t.fits
        omega }

/-- `Text::str`. -/
def str (t : Text N) (s : List Char) : Text N := s.foldl push t

/-- A character that fits is appended. -/
theorem as_str_char {t : Text N} {c : Char} (h : t.len + c.utf8Size ≤ N) :
    (t.char c).as_str = t.as_str ++ [c] := by rw [char, dif_pos h]

theorem cut_char {t : Text N} {c : Char} (h : t.len + c.utf8Size ≤ N) : (t.char c).cut = 0 := by
  rw [char, dif_pos h]

/-- A character that does not fit changes nothing. -/
theorem char_of_full {t : Text N} {c : Char} (h : ¬t.len + c.utf8Size ≤ N) : t.char c = t := by
  rw [char, dif_neg h]

theorem len_char {t : Text N} {c : Char} (h : t.len + c.utf8Size ≤ N) :
    (t.char c).len = t.len + c.utf8Size := by
  have hcut := cut_eq_zero h
  simp [len, as_str_char h, cut_char h, hcut]

/-- Text that fits is appended whole. -/
theorem str_of_fits {s : List Char} {t : Text N} (h : t.len + bytes s ≤ N) :
    (t.str s).as_str = t.as_str ++ s ∧ (t.str s).len = t.len + bytes s := by
  induction s generalizing t with
  | nil => simp [str]
  | cons c s ih =>
    rw [bytes_cons] at h
    have hroom : t.len + c.utf8Size ≤ N := by omega
    have hpush : t.push c = t.char c := if_pos hroom
    obtain ⟨htext, hlen⟩ := ih (t := t.char c) (by rw [len_char hroom]; omega)
    rw [str, List.foldl_cons, hpush]
    refine ⟨htext.trans ?_, hlen.trans ?_⟩
    · rw [as_str_char hroom, List.append_assoc, List.singleton_append]
    · rw [len_char hroom, bytes_cons]
      omega

/-- Text that may not fit is appended as far as it does. -/
theorem str_shortened (s : List Char) (t : Text N) :
    ∃ shown, shown <+: s ∧ (t.str s).as_str = t.as_str ++ shown := by
  induction s generalizing t with
  | nil => exact ⟨[], List.prefix_rfl, by simp [str]⟩
  | cons c s ih =>
    by_cases hroom : t.len + c.utf8Size ≤ N
    · obtain ⟨shown, hshown, heq⟩ := ih (t.char c)
      refine ⟨c :: shown, (List.prefix_cons_inj c).mpr hshown, ?_⟩
      have hpush : t.push c = t.char c := if_pos hroom
      rw [str, List.foldl_cons, hpush]
      rw [str] at heq
      rw [heq, as_str_char hroom, List.append_assoc, List.singleton_append]
    · -- nothing goes in behind a character that is cut
      have hfull : ∀ s : List Char, ∀ u : Text N, u.len = N → (u.str s).as_str = u.as_str := by
        intro s
        induction s with
        | nil => exact fun u _ => rfl
        | cons d s ih' =>
          intro u hu
          have hsize := d.utf8Size_pos
          have hpush : (u.push d).as_str = u.as_str ∧ (u.push d).len = N := by
            rw [push, if_neg (by omega)]
            have := u.fits
            exact ⟨rfl, by simp [len]; omega⟩
          rw [str, List.foldl_cons]
          exact (ih' _ hpush.2).trans hpush.1
      refine ⟨[], List.nil_prefix, ?_⟩
      have hpush : (t.push c).as_str = t.as_str ∧ (t.push c).len = N := by
        rw [push, if_neg hroom]
        have := t.fits
        exact ⟨rfl, by simp [len]; omega⟩
      rw [str, List.foldl_cons, List.append_nil]
      exact (hfull s _ hpush.2).trans hpush.1

/-! ## A text built character by character -/

/-- The text of a loop that appends each character of a list. -/
def build (run : List Char) : Text N := run.foldl char new

theorem build_append (run : List Char) (d : Char) :
    (build (run ++ [d]) : Text N) = (build run).char d := by
  rw [build, List.foldl_append]
  rfl

/-- Characters are dropped once the buffer is full, and a text that fits is kept. -/
theorem build_facts (run : List Char) :
    (build run : Text N).as_str.Sublist run ∧ (build run : Text N).cut = 0 ∧
      ((build run : Text N).as_str = run ↔ bytes run ≤ N) := by
  induction run using List.reverseRecOn with
  | nil => exact ⟨List.Sublist.refl _, rfl, by simp [build]⟩
  | append_singleton run d ih =>
    obtain ⟨hsub, hcut, hfits⟩ := ih
    rw [build_append]
    have hlen : (build run : Text N).len = bytes (build run : Text N).as_str := by
      rw [len, hcut, Nat.add_zero]
    have hsize := d.utf8Size_pos
    by_cases hroom : (build run : Text N).len + d.utf8Size ≤ N
    · rw [as_str_char hroom, cut_char hroom]
      refine ⟨hsub.append (List.Sublist.refl _), rfl, ?_⟩
      rw [List.append_left_inj, hfits, bytes_append, bytes_cons, bytes_nil]
      constructor
      · intro hle
        rw [hlen, hfits.mpr hle] at hroom
        simpa using hroom
      · intro hle
        omega
    · rw [char_of_full hroom]
      refine ⟨hsub.trans (List.sublist_append_left _ _), hcut, ?_⟩
      constructor
      · intro heq
        have hlong := hsub.length_le
        rw [heq] at hlong
        simp at hlong
      · intro hle
        rw [bytes_append, bytes_cons, bytes_nil] at hle
        have hall := hfits.mpr (by omega)
        rw [hlen, hall] at hroom
        omega

/-- A text that fits is built whole. -/
theorem build_of_fits {run : List Char} (h : bytes run ≤ N) : (build run : Text N).as_str = run :=
  (build_facts run).2.2.mpr h

@[simp] theorem cut_build (run : List Char) : (build run : Text N).cut = 0 := (build_facts run).2.1

/-- A text that does not fit is built shorter. -/
theorem build_shorter {run : List Char} (h : ¬bytes run ≤ N) :
    (build run : Text N).as_str.length < run.length := by
  obtain ⟨hsub, -, hfits⟩ := build_facts (N := N) run
  refine lt_of_le_of_ne hsub.length_le fun heq => h (hfits.mp (hsub.eq_of_length heq))

end Text

end NanoChrono.Shell
