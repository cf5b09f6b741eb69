import Mathlib.Data.List.TakeWhile
import Mathlib.Algebra.BigOperators.Group.List.Basic
import Mathlib.Tactic.Linarith

/-! # SGR sequences

A sequence that sets colours and attributes is `ESC [`, parameters and `m`. `plain` is a text
without them. Two texts one after the other lose what each loses, unless a sequence begins in
the one and ends in the other; then the text as a whole loses more, which a weight of its
characters shows. -/

namespace NanoChrono.Shell

/-- The escape character. -/
def ESC : Char := Char.ofNat 0x1B

/-- A parameter byte: a digit or one of `: ; < = > ?`. -/
def isParam (c : Char) : Bool := 0x30 ≤ c.toNat && c.toNat ≤ 0x3F

/-- A whole sequence. -/
def IsSgr (t : List Char) : Prop :=
  ∃ params, t = ESC :: '[' :: params ++ ['m'] ∧ ∀ c ∈ params, isParam c = true

/-- A sequence begins here. -/
def startsSgr : List Char → Bool
  | e :: b :: rest => e = ESC && b = '[' && (rest.dropWhile isParam).head? = some 'm'
  | _ => false

/-- The text without its sequences; `skipping` is set inside one. -/
@[grind =] def plainFrom : Bool → List Char → List Char
  | _, [] => []
  | true, c :: rest => plainFrom (c ≠ 'm') rest
  | false, c :: rest =>
    if startsSgr (c :: rest) then plainFrom true rest else c :: plainFrom false rest

/-- A text without its SGR sequences. -/
def plain (text : List Char) : List Char := plainFrom false text

@[simp] theorem plain_nil : plain [] = [] := rfl

theorem isParam_ne_m {c : Char} (h : isParam c = true) : c ≠ 'm' := by
  rintro rfl
  exact absurd h (by decide)

theorem isParam_ne_esc {c : Char} (h : isParam c = true) : c ≠ ESC := by
  rintro rfl
  exact absurd h (by decide)

/-- A sequence begins where the text begins with one. -/
theorem startsSgr_iff (text : List Char) :
    startsSgr text = true ↔ ∃ t rest, IsSgr t ∧ text = t ++ rest := by
  constructor
  · intro h
    obtain ⟨e, b, rest, rfl⟩ : ∃ e b rest, text = e :: b :: rest := by
      match text with
      | [] => simp [startsSgr] at h
      | [_] => simp [startsSgr] at h
      | e :: b :: rest => exact ⟨e, b, rest, rfl⟩
    simp only [startsSgr, Bool.and_eq_true, decide_eq_true_eq] at h
    obtain ⟨⟨rfl, rfl⟩, hm⟩ := h
    obtain ⟨tail, htail⟩ : ∃ tail, rest.dropWhile isParam = 'm' :: tail := by
      cases hd : rest.dropWhile isParam with
      | nil => simp [hd] at hm
      | cons c tail => exact ⟨tail, by simpa [hd] using hm⟩
    refine ⟨ESC :: '[' :: rest.takeWhile isParam ++ ['m'], tail,
      ⟨_, rfl, fun c hc => List.mem_takeWhile_imp hc⟩, ?_⟩
    conv_lhs => rw [← List.takeWhile_append_dropWhile (p := isParam) (l := rest), htail]
    simp
  · rintro ⟨t, rest, ⟨params, rfl, hparams⟩, rfl⟩
    have hdrop : (params ++ 'm' :: rest).dropWhile isParam = 'm' :: rest := by
      rw [List.dropWhile_append_of_pos hparams, List.dropWhile_cons_of_neg (by decide)]
    simp [startsSgr, hdrop]

/-- Inside a sequence everything up to its `m` goes. -/
theorem plainFrom_skip {t : List Char} (rest : List Char) (h : 'm' ∉ t) :
    plainFrom true (t ++ 'm' :: rest) = plain rest := by
  induction t with
  | nil => rfl
  | cons c t ih =>
    have hc : c ≠ 'm' := fun heq => h (heq ▸ List.mem_cons_self)
    rw [List.cons_append, plainFrom, decide_eq_true hc]
    exact ih fun hm => h (List.mem_cons_of_mem c hm)

/-- A sequence is taken away whole. -/
theorem plain_sgr {t : List Char} (rest : List Char) (h : IsSgr t) : plain (t ++ rest) = plain rest := by
  have hstarts : startsSgr (t ++ rest) = true := (startsSgr_iff _).mpr ⟨t, rest, h, rfl⟩
  obtain ⟨params, rfl, hparams⟩ := h
  have hskip : 'm' ∉ '[' :: params := by
    simp only [List.mem_cons, not_or]
    exact ⟨by decide, fun hm => isParam_ne_m (hparams _ hm) rfl⟩
  rw [plain, show ESC :: '[' :: params ++ ['m'] ++ rest = ESC :: ('[' :: params ++ 'm' :: rest) by simp]
    at *
  rw [plainFrom, if_pos hstarts]
  exact plainFrom_skip rest hskip

/-- Every other character stays. -/
theorem plain_cons {c : Char} {rest : List Char} (h : startsSgr (c :: rest) = false) :
    plain (c :: rest) = c :: plain rest := by
  rw [plain, plainFrom, if_neg (by simp [h])]
  rfl

/-- A text without an `m` has no sequence. -/
theorem plain_of_no_m {t : List Char} (h : 'm' ∉ t) : plain t = t := by
  induction t with
  | nil => rfl
  | cons c t ih =>
    have hno : startsSgr (c :: t) = false := by
      rw [Bool.eq_false_iff, Ne, startsSgr_iff]
      rintro ⟨_, rest, ⟨params, rfl, -⟩, heq⟩
      exact h (by rw [heq]; simp)
    rw [plain_cons hno, ih fun hm => h (List.mem_cons_of_mem c hm)]

/-- Before a text that no escape begins, a text without one stays. -/
theorem plain_append_of_no_esc {t : List Char} (rest : List Char) (h : ESC ∉ t) :
    plain (t ++ rest) = t ++ plain rest := by
  induction t with
  | nil => rfl
  | cons c t ih =>
    have hc : c ≠ ESC := fun heq => h (heq ▸ List.mem_cons_self)
    have hno : startsSgr (c :: (t ++ rest)) = false := by
      rw [Bool.eq_false_iff, Ne, startsSgr_iff]
      rintro ⟨_, _, ⟨params, rfl, -⟩, heq⟩
      exact hc (List.cons.inj heq).1
    rw [List.cons_append, plain_cons hno, ih fun hm => h (List.mem_cons_of_mem c hm),
      List.cons_append]

/-! ## Where a text is cut -/

/-- A sequence begins in `a` and ends in `b`. -/
def Cut (a b : List Char) : Prop :=
  ∃ p q, p ≠ [] ∧ q ≠ [] ∧ p <:+ a ∧ q <+: b ∧ IsSgr (p ++ q)

/-- The weight of a character: the `m` outweighs the escape and the bracket of its sequence. -/
def weight (c : Char) : Int := if c = 'm' then -5 else if isParam c then 0 else 2

/-- The weight of a text. -/
def total (t : List Char) : Int := (t.map weight).sum

@[simp] theorem total_nil : total [] = 0 := rfl

@[simp] theorem total_cons (c : Char) (t : List Char) : total (c :: t) = weight c + total t := by
  simp [total]

@[simp] theorem total_append (a b : List Char) : total (a ++ b) = total a + total b := by
  simp [total]

/-- Without an `m` no text weighs less than nothing. -/
theorem total_nonneg {t : List Char} (h : 'm' ∉ t) : 0 ≤ total t := by
  induction t with
  | nil => exact le_rfl
  | cons c t ih =>
    have hc : c ≠ 'm' := fun heq => h (heq ▸ List.mem_cons_self)
    have hrest := ih fun hm => h (List.mem_cons_of_mem c hm)
    rw [total_cons, weight, if_neg hc]
    split_ifs <;> omega

theorem total_params {t : List Char} (h : ∀ c ∈ t, isParam c = true) : total t = 0 := by
  induction t with
  | nil => rfl
  | cons c t ih =>
    have hc := h c List.mem_cons_self
    rw [total_cons, ih fun d hd => h d (List.mem_cons_of_mem c hd), weight,
      if_neg (isParam_ne_m hc), if_pos hc]
    rfl

/-- A sequence weighs less than nothing. -/
theorem total_sgr {t : List Char} (h : IsSgr t) : total t = -1 := by
  obtain ⟨params, rfl, hparams⟩ := h
  simp only [total_append, total_cons, total_params hparams, total_nil]
  decide

/-- The `m` of a sequence is its last character. -/
theorem IsSgr.no_m {x y : List Char} (h : IsSgr (x ++ y)) (hy : y ≠ []) : 'm' ∉ x := by
  obtain ⟨params, heq, hparams⟩ := h
  obtain ⟨y', d, rfl⟩ := List.eq_nil_or_concat y |>.resolve_left hy
  rw [List.concat_eq_append, ← List.append_assoc] at heq
  obtain ⟨hx, -⟩ := List.append_inj' heq rfl
  intro hm
  have hbody : 'm' ∈ ESC :: '[' :: params := hx ▸ List.mem_append_left _ hm
  simp only [List.mem_cons] at hbody
  rcases hbody with h | h | h
  · exact absurd h (by decide)
  · exact absurd h (by decide)
  · exact isParam_ne_m (hparams _ h) rfl

/-- The escape of a sequence is its first character. -/
theorem IsSgr.no_esc {x y : List Char} (h : IsSgr (x ++ y)) (hx : x ≠ []) : ESC ∉ y := by
  obtain ⟨params, heq, hparams⟩ := h
  obtain ⟨c, x', rfl⟩ := List.exists_cons_of_ne_nil hx
  have htail : x' ++ y = '[' :: params ++ ['m'] := (List.cons.inj heq).2
  intro hm
  have hbody : ESC ∈ '[' :: params ++ ['m'] := htail ▸ List.mem_append_right _ hm
  simp only [List.cons_append, List.mem_cons, List.mem_append, List.not_mem_nil, or_false] at hbody
  rcases hbody with h | h | h
  · exact absurd h (by decide)
  · exact isParam_ne_esc (hparams _ h) rfl
  · exact absurd h (by decide)

theorem IsSgr.ne_nil {t : List Char} (h : IsSgr t) : t ≠ [] := by
  obtain ⟨params, rfl, -⟩ := h
  simp

/-- A cut behind a whole sequence is a cut of what follows it. -/
theorem cut_sgr_append {t a b : List Char} (ht : IsSgr t) : Cut (t ++ a) b ↔ Cut a b := by
  constructor
  · rintro ⟨p, q, hp, hq, hpa, hqb, h⟩
    refine ⟨p, q, hp, hq, ?_, hqb, h⟩
    rcases List.suffix_or_suffix_of_suffix hpa (List.suffix_append t a) with hsuffix | ⟨t', rfl⟩
    · exact hsuffix
    · cases t' with
      | nil => exact List.suffix_rfl
      | cons d t' =>
        -- the part would hold the sequence's `m` before its own end
        obtain ⟨u, hu⟩ := hpa
        rw [← List.append_assoc, List.append_left_inj] at hu
        obtain ⟨params, rfl, -⟩ := ht
        have hlast : (d :: t').getLast? = some 'm' := by
          have := congrArg List.getLast? hu
          rwa [List.getLast?_append_cons, List.getLast?_append_cons] at this
        exact absurd (List.mem_append_left a (List.mem_of_getLast? hlast)) (h.no_m hq)
  · rintro ⟨p, q, hp, hq, hpa, hqb, h⟩
    exact ⟨p, q, hp, hq, hpa.trans (List.suffix_append t a), hqb, h⟩

/-- A cut behind a character that begins no sequence is a cut of what follows it. -/
theorem cut_cons {c : Char} {a b : List Char} (hno : startsSgr (c :: (a ++ b)) = false) :
    Cut (c :: a) b ↔ Cut a b := by
  constructor
  · rintro ⟨p, q, hp, hq, hpa, hqb, h⟩
    refine ⟨p, q, hp, hq, ?_, hqb, h⟩
    rcases List.suffix_cons_iff.mp hpa with rfl | hsuffix
    · obtain ⟨rest, rfl⟩ := hqb
      rw [Bool.eq_false_iff, Ne, startsSgr_iff] at hno
      exact absurd ⟨_, rest, h, by simp⟩ hno
    · exact hsuffix
  · rintro ⟨p, q, hp, hq, hpa, hqb, h⟩
    exact ⟨p, q, hp, hq, hpa.trans (List.suffix_cons c a), hqb, h⟩

/-- **Two texts.** Either no sequence is cut and each loses its own, or one is, and the text as
a whole weighs more than its two parts. -/
theorem plain_append (a b : List Char) :
    (¬Cut a b ∧ plain (a ++ b) = plain a ++ plain b) ∨
      (Cut a b ∧ total (plain a) + total (plain b) < total (plain (a ++ b))) := by
  induction hn : a.length using Nat.strong_induction_on generalizing a with
  | _ n ih =>
    cases a with
    | nil =>
      refine .inl ⟨?_, rfl⟩
      rintro ⟨p, q, hp, -, hpa, -⟩
      exact hp (List.suffix_nil.mp hpa)
    | cons c a =>
      by_cases hin : startsSgr (c :: a) = true
      · -- a whole sequence in the first text
        obtain ⟨t, rest, ht, heq⟩ := (startsSgr_iff _).mp hin
        have hshort : rest.length < n := by
          have hlen := congrArg List.length heq
          have hpos := List.length_pos_iff.mpr ht.ne_nil
          simp only [List.length_append] at hlen
          omega
        rw [heq, List.append_assoc, plain_sgr _ ht, plain_sgr _ ht, cut_sgr_append ht]
        exact ih _ hshort rest rfl
      · by_cases hcut : startsSgr (c :: (a ++ b)) = true
        · -- the sequence that begins here ends in the second text
          obtain ⟨t, rest, ht, heq⟩ := (startsSgr_iff _).mp hcut
          obtain ⟨q, hq, rfl, rfl⟩ : ∃ q, q ≠ [] ∧ t = c :: a ++ q ∧ b = q ++ rest := by
            rw [← List.cons_append, List.append_eq_append_iff] at heq
            rcases heq with ⟨q, hqt, hqb⟩ | ⟨r, hra, hrb⟩
            · refine ⟨q, ?_, hqt, hqb⟩
              rintro rfl
              rw [List.append_nil] at hqt
              exact hin ((startsSgr_iff _).mpr ⟨t, [], ht, by simp [hqt]⟩)
            · exact absurd ((startsSgr_iff _).mpr ⟨t, r, ht, hra⟩) hin
          refine .inr ⟨⟨c :: a, q, by simp, hq, List.suffix_rfl, List.prefix_append q rest, ht⟩, ?_⟩
          have hweight := total_sgr ht
          rw [total_append] at hweight
          rw [plain_of_no_m (ht.no_m hq), plain_append_of_no_esc rest (ht.no_esc (by simp)),
            show c :: a ++ (q ++ rest) = c :: a ++ q ++ rest by simp, plain_sgr rest ht, total_append]
          omega
        · rw [Bool.not_eq_true] at hin hcut
          rw [cut_cons hcut, List.cons_append, plain_cons hcut, plain_cons hin]
          rcases ih a.length (by simp [← hn]) a rfl with ⟨hno, h⟩ | ⟨hyes, h⟩
          · exact .inl ⟨hno, by rw [h, List.cons_append]⟩
          · refine .inr ⟨hyes, ?_⟩
            rw [total_cons, total_cons]
            omega

end NanoChrono.Shell
