import Mathlib.Data.List.TakeWhile
import NanoChrono.Json.Grammar
import NanoChrono.Json.Scan

/-! # White space, words and numbers

`number_append` runs the validator over a number the grammar derives, `number_ok` reads its parts
back from one it accepted. What follows a value, white space or a comma or a closing bracket
(`Ends`), belongs to no number. -/

namespace NanoChrono.Json

/-- What may follow a value. -/
def Ends (r : Bytes) : Prop :=
  ∀ (c : UInt8) (r' : Bytes), r = c :: r' → isWs c = true ∨ c = comma ∨ c = closeBracket ∨ c = closeBrace

section Scanner

variable {n : Nat} {t r b w : Bytes} {c : UInt8}

theorem Ends.nil : Ends [] := fun _ _ h => by cases h

theorem Ends.cons (h : isWs c = true ∨ c = comma ∨ c = closeBracket ∨ c = closeBrace) :
    Ends (c :: r) := by
  rintro d r' he
  rw [← (List.cons.inj he).1]
  exact h

theorem IsWs.ends (hw : IsWs w) (h : Ends r) : Ends (w ++ r) := by
  cases w with
  | nil => exact h
  | cons c w => exact .cons (.inl (hw c (by simp)))

/-- What follows a value is no part of a number. -/
theorem Ends.not_number (h : Ends (c :: r)) :
    isDigit c = false ∧ c ≠ point ∧ c ≠ letterE ∧ c ≠ 0x45 := by
  have hc := h c r rfl
  simp only [isWs, Bool.or_eq_true, beq_iff_eq] at hc
  rcases hc with (((rfl | rfl) | rfl) | rfl) | rfl | rfl | rfl <;> decide

/-! ## White space -/

theorem skipWs_append (hw : IsWs w) (hr : ∀ c r', r = c :: r' → isWs c = false) :
    skipWs (w ++ r) = r := by
  rw [skipWs, List.dropWhile_append_of_pos hw]
  cases r with
  | nil => rfl
  | cons c r => rw [List.dropWhile_cons_of_neg (by simp [hr c r rfl])]

theorem skipWs_cons (hw : IsWs w) (hc : isWs c = false) : skipWs (w ++ c :: r) = c :: r :=
  skipWs_append hw fun d r' he => by rw [← (List.cons.inj he).1, hc]

theorem skipWs_all (hw : IsWs w) : skipWs w = [] := by
  have := skipWs_append (r := []) hw (by simp)
  rwa [List.append_nil] at this

/-- What is skipped is white space. -/
theorem skipWs_split (t : Bytes) : ∃ w, IsWs w ∧ t = w ++ skipWs t :=
  ⟨t.takeWhile isWs, fun _ hc => List.mem_takeWhile_imp hc, (List.takeWhile_append_dropWhile).symm⟩

/-- What is not skipped is none. -/
theorem skipWs_head (h : skipWs t = c :: r) : isWs c = false := by
  have := List.head?_dropWhile_not isWs t
  rw [show t.dropWhile isWs = c :: r from h] at this
  simpa using this

theorem skipWs_length_le (t : Bytes) : (skipWs t).length ≤ t.length :=
  (List.dropWhile_suffix isWs).length_le

/-! ## Words -/

theorem literal_append (word r : Bytes) : literal n word (word ++ r) = .ok r := by
  rw [literal, List.take_left, if_pos rfl, List.drop_left]

theorem literal_ok {word : Bytes} (h : literal n word t = .ok r) : t = word ++ r := by
  unfold literal at h
  split at h
  · next he =>
    rw [← Except.ok.inj h]
    exact (List.take_append_drop word.length t).symm.trans (by rw [he])
  · cases h

/-! ## Numbers -/

theorem digits_append (hb : IsDigits b) (hr : ∀ c r', r = c :: r' → isDigit c = false) :
    digits (b ++ r) = r := by
  rw [digits, List.dropWhile_append_of_pos hb]
  cases r with
  | nil => rfl
  | cons c r => rw [List.dropWhile_cons_of_neg (by simp [hr c r rfl])]

theorem digits_split (t : Bytes) : ∃ b, IsDigits b ∧ t = b ++ digits t :=
  ⟨t.takeWhile isDigit, fun _ hc => List.mem_takeWhile_imp hc,
    (List.takeWhile_append_dropWhile).symm⟩

theorem someDigits_append (hb : IsDigits b) (hne : b ≠ [])
    (hr : ∀ c r', r = c :: r' → isDigit c = false) : someDigits (b ++ r) = some r := by
  have hpos := List.length_pos_iff.2 hne
  rw [someDigits, digits_append hb hr, if_pos (by rw [List.length_append]; omega)]

theorem someDigits_some (h : someDigits t = some r) : ∃ b, b ≠ [] ∧ IsDigits b ∧ t = b ++ r := by
  unfold someDigits at h
  split at h
  · next hlt =>
    obtain ⟨b, hb, he⟩ := digits_split t
    rw [← Option.some.inj h]
    refine ⟨b, ?_, hb, he⟩
    rintro rfl
    rw [List.nil_append] at he
    rw [← he] at hlt
    omega
  · cases h

/-- The exponent, if there is one. -/
theorem exponent_some (h : exponent t = some r) : ∃ x, t = x ++ r ∧
    (x = [] ∨ ∃ e sign ds, x = e :: (sign ++ ds) ∧ (e = letterE ∨ e = 0x45) ∧
      (sign = [] ∨ sign = [plus] ∨ sign = [minus]) ∧ ds ≠ [] ∧ IsDigits ds) := by
  unfold exponent at h
  split at h
  · rw [← Option.some.inj h]
    exact ⟨[], rfl, .inl rfl⟩
  next c t =>
  split at h
  · next hc =>
    obtain ⟨ds, hne, hds, he⟩ := someDigits_some h
    have hsign : ∃ s, t = s ++ sign t ∧ (s = [] ∨ s = [plus] ∨ s = [minus]) := by
      unfold sign
      split
      · exact ⟨[], rfl, .inl rfl⟩
      next d t =>
      split
      · next hd =>
        refine ⟨[d], rfl, .inr ?_⟩
        rcases hd with rfl | rfl
        · exact .inl rfl
        · exact .inr rfl
      · exact ⟨[], rfl, .inl rfl⟩
    obtain ⟨s, hs, hs'⟩ := hsign
    refine ⟨c :: (s ++ ds), ?_, .inr ⟨c, s, ds, rfl, hc, hs', hne, hds⟩⟩
    rw [List.cons_append, List.append_assoc, ← he, ← hs]
  · rw [← Option.some.inj h]
    exact ⟨[], rfl, .inl rfl⟩

theorem fraction_some (h : fraction t = some r) : ∃ x, t = x ++ r ∧
    (x = [] ∨ ∃ ds, x = point :: ds ∧ ds ≠ [] ∧ IsDigits ds) := by
  unfold fraction at h
  split at h
  · rw [← Option.some.inj h]
    exact ⟨[], rfl, .inl rfl⟩
  next c t =>
  split at h
  · next hc =>
    obtain ⟨ds, hne, hds, he⟩ := someDigits_some h
    exact ⟨c :: ds, by rw [he]; rfl, .inr ⟨ds, by rw [hc], hne, hds⟩⟩
  · rw [← Option.some.inj h]
    exact ⟨[], rfl, .inl rfl⟩

theorem integer_some (h : integer t = some r) : ∃ x, t = x ++ r ∧
    (x = [zero] ∨ ∃ d ds, x = d :: ds ∧ isDigit d = true ∧ d ≠ zero ∧ IsDigits ds) := by
  unfold integer at h
  split at h
  · cases h
  next c t =>
  split at h
  · next hc =>
    rw [← Option.some.inj h, hc]
    exact ⟨[zero], rfl, .inl rfl⟩
  next hc =>
  split at h
  · next hd =>
    obtain ⟨ds, hds, he⟩ := digits_split t
    rw [← Option.some.inj h]
    exact ⟨c :: ds, by rw [List.cons_append, ← he], .inr ⟨c, ds, rfl, hd, hc, hds⟩⟩
  · cases h

theorem negative_split (t : Bytes) : ∃ x, t = x ++ negative t ∧ (x = [] ∨ x = [minus]) := by
  unfold negative
  split
  · exact ⟨[], rfl, .inl rfl⟩
  next c t =>
  split
  · next hc => exact ⟨[c], rfl, .inr (by rw [hc])⟩
  · exact ⟨[], rfl, .inl rfl⟩

/-- What is accepted, the grammar derives. -/
theorem number_ok (h : number n t = .ok r) : ∃ b, IsNumber b ∧ b.length ≤ 64 ∧ t = b ++ r := by
  unfold number at h
  split at h
  · next r' hparts =>
    simp only [Option.bind_eq_bind, Option.bind_eq_some_iff] at hparts
    obtain ⟨t₂, ⟨t₁, hint, hfrac⟩, hexp⟩ := hparts
    split at h
    · cases h
    next hlen =>
    obtain rfl := Except.ok.inj h
    obtain ⟨m, hm, hm'⟩ := negative_split t
    obtain ⟨i, hi, hi'⟩ := integer_some hint
    obtain ⟨f, hf, hf'⟩ := fraction_some hfrac
    obtain ⟨x, hx, hx'⟩ := exponent_some hexp
    have ht : t = (m ++ (i ++ (f ++ x))) ++ r' := by
      simp only [List.append_assoc, ← hx, ← hf, ← hi, ← hm]
    refine ⟨_, ⟨⟨m, i, f, x⟩, ⟨hm', hi', hf', hx'⟩, rfl⟩, ?_, ht⟩
    have := congrArg List.length ht
    rw [List.length_append] at this
    dsimp only
    omega
  · cases h

theorem isDigit_ne {d : UInt8} (h : isDigit d = true) :
    d ≠ minus ∧ d ≠ plus ∧ d ≠ point ∧ d ≠ letterE ∧ d ≠ 0x45 := by
  refine ⟨?_, ?_, ?_, ?_, ?_⟩ <;>
  · rintro rfl
    exact absurd h (by decide)

/-- What the grammar derives is accepted. -/
theorem number_append (hb : IsNumber b) (hlen : b.length ≤ 64) (hr : Ends r) :
    number n (b ++ r) = .ok r := by
  obtain ⟨⟨m, i, f, x⟩, ⟨hm, hi, hf, hx⟩, rfl⟩ := hb
  dsimp only at *
  have hend : ∀ c r', r = c :: r' → isDigit c = false := fun c r' he =>
    (Ends.not_number (he ▸ hr)).1
  -- From the end of the number to its start.
  have hexp : exponent (x ++ r) = some r := by
    rcases hx with rfl | ⟨e, s, ds, rfl, he, hs, hne, hds⟩
    · rcases r with _ | ⟨c, r⟩
      · rfl
      · rw [List.nil_append, exponent, if_neg (by simp [hr.not_number])]
    · have hsign : sign (s ++ (ds ++ r)) = ds ++ r := by
        rcases hs with rfl | rfl | rfl
        · obtain _ | ⟨d, ds⟩ := ds
          · exact absurd rfl hne
          · have hd := isDigit_ne (hds d (by simp))
            rw [List.nil_append, List.cons_append, sign, if_neg (by simp [hd])]
        · rfl
        · rfl
      rw [List.cons_append, List.append_assoc, exponent, if_pos he, hsign,
        someDigits_append hds hne hend]
  have hx0 : ∀ c r', x ++ r = c :: r' → isDigit c = false ∧ c ≠ point := by
    intro c r' he
    rcases hx with rfl | ⟨e, s, ds, rfl, he', -, -, -⟩
    · rw [List.nil_append] at he
      have := (he ▸ hr).not_number
      exact ⟨this.1, this.2.1⟩
    · rw [List.cons_append] at he
      rw [← (List.cons.inj he).1]
      rcases he' with rfl | rfl <;> decide
  have hfrac : fraction (f ++ (x ++ r)) = some (x ++ r) := by
    rcases hf with rfl | ⟨ds, rfl, hne, hds⟩
    · rw [List.nil_append]
      rcases hxr : x ++ r with _ | ⟨c, r'⟩
      · rfl
      · rw [fraction, if_neg (hx0 c r' hxr).2]
    · rw [List.cons_append, fraction, if_pos rfl,
        someDigits_append hds hne fun c r' he => (hx0 c r' he).1]
  have hf0 : ∀ c r', f ++ (x ++ r) = c :: r' → isDigit c = false := by
    intro c r' he
    rcases hf with rfl | ⟨ds, rfl, -, -⟩
    · exact (hx0 c r' he).1
    · rw [List.cons_append] at he
      rw [← (List.cons.inj he).1]
      decide
  have hint : integer (i ++ (f ++ (x ++ r))) = some (f ++ (x ++ r)) := by
    rcases hi with rfl | ⟨d, ds, rfl, hd, hz, hds⟩
    · rfl
    · rw [List.cons_append, integer, if_neg hz, if_pos hd, digits_append hds hf0]
  have hneg : negative (m ++ (i ++ (f ++ (x ++ r)))) = i ++ (f ++ (x ++ r)) := by
    rcases hm with rfl | rfl
    · rcases hi with rfl | ⟨d, ds, rfl, hd, -, -⟩
      · rfl
      · rw [List.nil_append, List.cons_append, negative, if_neg (isDigit_ne hd).1]
    · rfl
  rw [number, show m ++ (i ++ (f ++ x)) ++ r = m ++ (i ++ (f ++ (x ++ r))) by simp, hneg]
  simp only [hint, hfrac, hexp, Option.bind_eq_bind, Option.bind_some]
  rw [if_neg]
  simp only [List.length_append] at hlen ⊢
  omega

/-- The first byte of a number. -/
theorem IsNumber.head (hb : IsNumber b) : ∃ c b', b = c :: b' ∧ (c = minus ∨ isDigit c = true) := by
  obtain ⟨⟨m, i, f, x⟩, ⟨hm, hi, -, -⟩, rfl⟩ := hb
  dsimp only at *
  rcases hm with rfl | rfl
  · rcases hi with rfl | ⟨d, ds, rfl, hd, -, -⟩
    · exact ⟨zero, _, rfl, .inr rfl⟩
    · exact ⟨d, _, rfl, .inr hd⟩
  · exact ⟨minus, _, rfl, .inl rfl⟩

/-- The bytes of a number. -/
def isNumeric (c : UInt8) : Bool :=
  isDigit c || c == minus || c == plus || c == point || c == letterE || c == 0x45

theorem IsDigits.numeric (h : IsDigits b) : ∀ c ∈ b, isNumeric c = true := by
  intro c hc
  rw [isNumeric, h c hc]
  rfl

theorem IsNumber.numeric (hb : IsNumber b) : ∀ c ∈ b, isNumeric c = true := by
  obtain ⟨⟨m, i, f, x⟩, ⟨hm, hi, hf, hx⟩, rfl⟩ := hb
  dsimp only at *
  intro c hc
  simp only [List.mem_append] at hc
  rcases hc with hc | hc | hc | hc
  · rcases hm with rfl | rfl
    · cases hc
    · rw [List.mem_singleton.1 hc]
      rfl
  · rcases hi with rfl | ⟨d, ds, rfl, hd, -, hds⟩
    · rw [List.mem_singleton.1 hc]
      rfl
    · rcases List.mem_cons.1 hc with rfl | hc
      · rw [isNumeric, hd]
        rfl
      · exact hds.numeric c hc
  · rcases hf with rfl | ⟨ds, rfl, -, hds⟩
    · cases hc
    · rcases List.mem_cons.1 hc with rfl | hc
      · rfl
      · exact hds.numeric c hc
  · rcases hx with rfl | ⟨e, s, ds, rfl, he, hs, -, hds⟩
    · cases hc
    · simp only [List.mem_cons, List.mem_append] at hc
      rcases hc with rfl | hc | hc
      · rcases he with rfl | rfl <;> rfl
      · rcases hs with rfl | rfl | rfl
        · cases hc
        · rw [List.mem_singleton.1 hc]
          rfl
        · rw [List.mem_singleton.1 hc]
          rfl
      · exact hds.numeric c hc

end Scanner

end NanoChrono.Json
