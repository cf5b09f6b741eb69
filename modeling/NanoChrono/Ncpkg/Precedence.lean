import Mathlib.Data.List.TakeWhile
import NanoChrono.Ncpkg.Version
import NanoChrono.Text.Decimal

/-! # The order of versions

A version's place in SemVer's order (section 11) is its `key`: its three numbers, then a release above
its pre-releases, whose identifiers are compared one by one, numbers below texts and a list below its
continuations. `precedence` compares the keys of versions that were parsed (`precedence_compares`), and
is a total preorder on all versions. A version that was parsed prints as the text it came from
(`display_parse`). -/

namespace NanoChrono.Ncpkg

/-! ## Comparing in steps -/

section Compares

variable {α β : Type} {o o' : Ordering}

theorem compares_compare (m n : Nat) : (compare m n).Compares m n := by
  rcases Nat.lt_trichotomy m n with h | h | h
  · rw [Nat.compare_eq_lt.2 h]
    exact h
  · rw [Nat.compare_eq_eq.2 h]
    exact h
  · rw [Nat.compare_eq_gt.2 h]
    exact h

/-- The first component decides, then the second. -/
theorem compares_lex [Preorder α] [Preorder β] {a b : α} {x y : β} (h : o.Compares a b)
    (h' : o'.Compares x y) : (o.then o').Compares (toLex (a, x)) (toLex (b, y)) := by
  cases o with
  | lt => exact Prod.Lex.toLex_lt_toLex.2 (.inl h)
  | gt => exact Prod.Lex.toLex_lt_toLex.2 (.inl h)
  | eq =>
    obtain rfl : a = b := h
    cases o' with
    | lt => exact Prod.Lex.toLex_lt_toLex.2 (.inr ⟨rfl, h'⟩)
    | gt => exact Prod.Lex.toLex_lt_toLex.2 (.inr ⟨rfl, h'⟩)
    | eq => exact congrArg (fun z => toLex (a, z)) h'

/-- The first difference decides. -/
theorem compares_cons [LinearOrder α] {a b : α} {l m : List α} (h : o.Compares a b)
    (h' : o'.Compares l m) : (o.then o').Compares (a :: l) (b :: m) := by
  cases o with
  | lt => exact List.cons_lt_cons_iff.2 (.inl h)
  | gt => exact List.cons_lt_cons_iff.2 (.inl h)
  | eq =>
    obtain rfl : a = b := h
    cases o' with
    | lt => exact List.cons_lt_cons_iff.2 (.inr ⟨rfl, h'⟩)
    | gt => exact List.cons_lt_cons_iff.2 (.inr ⟨rfl, h'⟩)
    | eq => exact congrArg (a :: ·) h'

end Compares

/-! ## Keys

The order of two numeric identifiers is a parameter `num`: their numbers, which only numerals without a
leading zero compare by, or their length and text, which any do. -/

section Keys

variable {α : Type} [LinearOrder α] (num : List Char → α)

/-- The place of an identifier: numbers in their order, then texts in ASCII order. -/
def identifierKey (id : List Char) : α ⊕ₗ List ℕ :=
  if id.all Char.isDigit then Sum.inlₗ (num id) else Sum.inrₗ (id.map Char.toNat)

/-- The place of a pre-release among those of its release, itself above all of them. -/
def preKey (pre : List Char) : WithTop (List (α ⊕ₗ List ℕ)) :=
  if pre = [] then ⊤ else WithTop.some ((pre.splitOn '.').map (identifierKey num))

/-- The place of a version. -/
def Version.keyBy (v : Version) : ℕ ×ₗ ℕ ×ₗ ℕ ×ₗ WithTop (List (α ⊕ₗ List ℕ)) :=
  toLex (v.major, toLex (v.minor, toLex (v.patch, preKey num v.pre)))

end Keys

/-- The place of a version in SemVer's order. -/
def Version.key (v : Version) : ℕ ×ₗ ℕ ×ₗ ℕ ×ₗ WithTop (List (ℕ ⊕ₗ List ℕ)) :=
  v.keyBy Decimal.value

/-- A pre-release as it is parsed. -/
def IsPre (pre : List Char) : Prop := pre = [] ∨ identifiers pre true = true

theorem cmpText_compares (p q : List Char) :
    (cmpText p q).Compares (p.map Char.toNat) (q.map Char.toNat) := by
  induction p generalizing q with
  | nil =>
    cases q with
    | nil => rfl
    | cons d q => exact List.nil_lt_cons _ _
  | cons c p ih =>
    cases q with
    | nil => exact List.nil_lt_cons _ _
    | cons d q => exact compares_cons (compares_compare _ _) (ih q)

/-- Numerals of one length compare as texts. -/
theorem cmpText_numerals {p q : List Char} (hp : ∀ c ∈ p, c.isDigit = true)
    (hq : ∀ c ∈ q, c.isDigit = true) (hlen : p.length = q.length) :
    (cmpText p q).Compares (Decimal.value p) (Decimal.value q) := by
  induction p generalizing q with
  | nil =>
    obtain rfl := List.length_eq_zero_iff.1 hlen.symm
    rfl
  | cons c p ih =>
    cases q with
    | nil => cases hlen
    | cons d q =>
      have hlen' : p.length = q.length := Nat.succ.inj hlen
      have hp' : ∀ x ∈ p, x.isDigit = true := fun x hx => hp x (List.mem_cons_of_mem c hx)
      have hq' : ∀ x ∈ q, x.isDigit = true := fun x hx => hq x (List.mem_cons_of_mem d hx)
      rw [cmpText]
      rcases Nat.lt_trichotomy c.toNat d.toNat with h | h | h
      · rw [Nat.compare_eq_lt.2 h]
        exact Decimal.value_lt_of_head hp' hlen' h (hp c List.mem_cons_self)
      · obtain rfl := Char.toNat_inj.1 h
        rw [Nat.compare_eq_eq.2 rfl, Ordering.then, Decimal.value_cons, Decimal.value_cons, hlen']
        have hrest := ih hp' hq' hlen'
        cases ho : cmpText p q with
        | lt =>
          rw [ho] at hrest
          exact Nat.add_lt_add_left hrest _
        | eq =>
          rw [ho] at hrest
          exact congrArg _ hrest
        | gt =>
          rw [ho] at hrest
          exact Nat.add_lt_add_left hrest _
      · rw [Nat.compare_eq_gt.2 h]
        exact Decimal.value_lt_of_head hq' hlen'.symm h (hq d List.mem_cons_self)

/-- Numeric identifiers of any length compare as their numbers. -/
theorem cmpNumeric_compares {p q : List Char} (hp : Decimal.Canonical p) (hq : Decimal.Canonical q) :
    (cmpNumeric p q).Compares (Decimal.value p) (Decimal.value q) := by
  rw [cmpNumeric]
  rcases Nat.lt_trichotomy p.length q.length with h | h | h
  · rw [Nat.compare_eq_lt.2 h]
    exact Decimal.value_lt_of_length hp hq h
  · rw [Nat.compare_eq_eq.2 h]
    exact cmpText_numerals hp.digits hq.digits h
  · rw [Nat.compare_eq_gt.2 h]
    exact Decimal.value_lt_of_length hq hp h

/-- An identifier as it is parsed. -/
structure IsIdentifier (id : List Char) : Prop where
  ne_nil : id ≠ []
  alphabet : ∀ c ∈ id, c.isAlphanum = true ∨ c = '-'
  numeric : id.all Char.isDigit = true → Decimal.Canonical id

theorem identifiers_split {pre : List Char} (h : identifiers pre true = true) :
    ∀ id ∈ pre.splitOn '.', IsIdentifier id := by
  intro id hid
  simp only [identifiers, Bool.and_eq_true, List.all_eq_true, Bool.not_eq_true',
    Bool.or_eq_true, beq_iff_eq] at h
  obtain ⟨⟨hne, halpha⟩, hstrict⟩ := h.2 id hid
  refine ⟨by simpa using hne, halpha, fun hdigits => ⟨by simpa using hne, ?_, ?_⟩⟩
  · simpa using hdigits
  · intro hlen hhead
    rw [hhead, hdigits, decide_eq_true hlen] at hstrict
    simp at hstrict

section Keys

variable {α : Type} [LinearOrder α] {num : List Char → α}

theorem cmpIdentifier_compares {p q : List Char} (h : p.all Char.isDigit = true →
    q.all Char.isDigit = true → (cmpNumeric p q).Compares (num p) (num q)) :
    (cmpIdentifier p q).Compares (identifierKey num p) (identifierKey num q) := by
  rw [cmpIdentifier, identifierKey, identifierKey]
  rcases hpn : p.all Char.isDigit with _ | _ <;> rcases hqn : q.all Char.isDigit with _ | _
  · have h := cmpText_compares p q
    simp only [Bool.false_eq_true, if_false]
    cases ho : cmpText p q with
    | lt => rw [ho] at h; exact Sum.Lex.inr_lt_inr_iff.2 h
    | eq => rw [ho] at h; exact congrArg Sum.inrₗ h
    | gt => rw [ho] at h; exact Sum.Lex.inr_lt_inr_iff.2 h
  · exact Sum.Lex.inl_lt_inr _ _
  · exact Sum.Lex.inl_lt_inr _ _
  · have h := h hpn hqn
    simp only [if_true]
    cases ho : cmpNumeric p q with
    | lt => rw [ho] at h; exact Sum.Lex.inl_lt_inl_iff.2 h
    | eq => rw [ho] at h; exact congrArg Sum.inlₗ h
    | gt => rw [ho] at h; exact Sum.Lex.inl_lt_inl_iff.2 h

theorem cmpIdentifiers_compares {x y : List (List Char)} (h : ∀ p ∈ x, ∀ q ∈ y,
    p.all Char.isDigit = true → q.all Char.isDigit = true → (cmpNumeric p q).Compares (num p) (num q)) :
    (cmpIdentifiers x y).Compares (x.map (identifierKey num)) (y.map (identifierKey num)) := by
  induction x generalizing y with
  | nil =>
    cases y with
    | nil => rfl
    | cons q y => exact List.nil_lt_cons _ _
  | cons p x ih =>
    cases y with
    | nil => exact List.nil_lt_cons _ _
    | cons q y =>
      have hhead := cmpIdentifier_compares (h p List.mem_cons_self q List.mem_cons_self)
      exact compares_cons hhead (ih fun p' hp' q' hq' =>
        h p' (List.mem_cons_of_mem p hp') q' (List.mem_cons_of_mem q hq'))

theorem cmpPre_compares {a b : List Char} (h : a ≠ [] → b ≠ [] → ∀ p ∈ a.splitOn '.',
    ∀ q ∈ b.splitOn '.', p.all Char.isDigit = true → q.all Char.isDigit = true →
      (cmpNumeric p q).Compares (num p) (num q)) :
    (cmpPre a b).Compares (preKey num a) (preKey num b) := by
  rw [cmpPre, preKey, preKey]
  by_cases hna : a = [] <;> by_cases hnb : b = []
  · rw [if_pos hna, if_pos hnb, hna, hnb]
    rfl
  · rw [if_pos hna, if_neg hnb, hna, List.isEmpty_eq_false_iff.2 hnb]
    exact WithTop.coe_lt_top _
  · rw [if_neg hna, if_pos hnb, hnb, List.isEmpty_eq_false_iff.2 hna]
    exact WithTop.coe_lt_top _
  · rw [if_neg hna, if_neg hnb, List.isEmpty_eq_false_iff.2 hna, List.isEmpty_eq_false_iff.2 hnb]
    have h := cmpIdentifiers_compares (h hna hnb)
    dsimp only
    cases ho : cmpIdentifiers (a.splitOn '.') (b.splitOn '.') with
    | lt => rw [ho] at h; exact WithTop.coe_lt_coe.2 h
    | eq => rw [ho] at h; exact congrArg WithTop.some h
    | gt => rw [ho] at h; exact WithTop.coe_lt_coe.2 h

/-- The numbers decide, then the pre-releases. -/
theorem precedence_keyBy {v w : Version}
    (h : (cmpPre v.pre w.pre).Compares (preKey num v.pre) (preKey num w.pre)) :
    (v.precedence w).Compares (v.keyBy num) (w.keyBy num) :=
  compares_lex (compares_compare _ _) (compares_lex (compares_compare _ _)
    (compares_lex (compares_compare _ _) h))

end Keys

/-- Precedence is SemVer's order. -/
theorem precedence_compares {v w : Version} (hv : IsPre v.pre) (hw : IsPre w.pre) :
    (v.precedence w).Compares v.key w.key := by
  refine precedence_keyBy (cmpPre_compares fun hnv hnw p hp q hq hpn hqn => ?_)
  have hp := identifiers_split (hv.resolve_left hnv) p hp
  have hq := identifiers_split (hw.resolve_left hnw) q hq
  exact cmpNumeric_compares (hp.numeric hpn) (hq.numeric hqn)

/-! ## A total preorder -/

/-- The place of any version, numeric identifiers by their length and text. -/
def Version.textKey (v : Version) : ℕ ×ₗ ℕ ×ₗ ℕ ×ₗ WithTop (List ((ℕ ×ₗ List ℕ) ⊕ₗ List ℕ)) :=
  v.keyBy fun id => toLex (id.length, id.map Char.toNat)

/-- Any two versions are in the order of their places. -/
theorem precedence_textKey (v w : Version) : (v.precedence w).Compares v.textKey w.textKey :=
  precedence_keyBy (cmpPre_compares fun _ _ p _ q _ _ _ =>
    compares_lex (compares_compare _ _) (cmpText_compares p q))

/-- Either of two versions is at most the other, whichever way they are compared. -/
theorem precedence_swap (v w : Version) : (v.precedence w).swap = w.precedence v := by
  have h := precedence_textKey v w
  have h' := (precedence_textKey w v).swap
  rw [← h'.inj h, Ordering.swap_swap]

theorem precedence_ne_gt (v w : Version) : v.precedence w ≠ .gt ↔ v.textKey ≤ w.textKey :=
  (precedence_textKey v w).ne_gt

theorem precedence_trans {u v w : Version} (h : u.precedence v ≠ .gt) (h' : v.precedence w ≠ .gt) :
    u.precedence w ≠ .gt := by
  rw [precedence_ne_gt] at h h' ⊢
  exact h.trans h'

/-! ## Printing -/

/-- A version as it is printed. -/
def Version.display (v : Version) : String :=
  String.ofList (Nat.toDigits 10 v.major ++ '.' :: (Nat.toDigits 10 v.minor ++ '.' ::
    (Nat.toDigits 10 v.patch ++ ((if v.pre = [] then [] else '-' :: v.pre) ++
      (if v.build = [] then [] else '+' :: v.build)))))

/-- A text is what its first `c` divides it into. -/
theorem splitOnce_eq (c : Char) (s : List Char) :
    s = (splitOnce c s).1 ++ (splitOnce c s).2.elim [] (c :: ·) ∧ c ∉ (splitOnce c s).1 := by
  have htake : c ∉ s.takeWhile (· != c) := fun h => by
    simpa using List.mem_takeWhile_imp h
  rw [splitOnce, List.span_eq_takeWhile_dropWhile]
  rcases hd : s.dropWhile (· != c) with _ | ⟨d, r⟩
  · refine ⟨?_, htake⟩
    conv_lhs => rw [← List.takeWhile_append_dropWhile (p := (· != c)) (l := s), hd]
    rfl
  · have hdc : d = c := by
      have hhead := List.head?_dropWhile_not (· != c) s
      rw [hd] at hhead
      simpa using hhead
    refine ⟨?_, htake⟩
    conv_lhs => rw [← List.takeWhile_append_dropWhile (p := (· != c)) (l := s), hd, hdc]
    rfl

theorem identifiers_ne_nil {s : List Char} {strict : Bool} (h : identifiers s strict = true) : s ≠ [] := by
  rintro rfl
  cases h

/-- An optional suffix, absent or with its mark in front. -/
theorem suffix_eq {strict : Bool} {o : Option (List Char)} {x : List Char} (c : Char)
    (h : suffix strict o = some x) : o.elim [] (c :: ·) = (if x = [] then [] else c :: x) ∧
      (x = [] ∨ identifiers x strict = true) := by
  cases o with
  | none =>
    obtain rfl := Option.some.inj h
    exact ⟨rfl, .inl rfl⟩
  | some s =>
    rw [suffix] at h
    split at h
    next hs =>
      obtain rfl := Option.some.inj h
      rw [if_neg (identifiers_ne_nil hs)]
      exact ⟨rfl, .inr hs⟩
    next => cases h

/-- A component is a numeral within 64 bits. -/
theorem number_some {s : List Char} {n : Nat} (h : number s = some n) :
    Decimal.Canonical s ∧ Decimal.value s = n ∧ n < u64Bound := by
  have hfold : ∀ (s : List Char) (v : Nat), v < u64Bound → (s.foldlM (fun v b =>
      let v' := v * 10 + (b.toNat - '0'.toNat)
      if v' < u64Bound then some v' else none) v) = some n →
      Nat.ofDigitChars 10 s v = n ∧ n < u64Bound := by
    intro s
    induction s with
    | nil =>
      intro v hv h
      obtain rfl := Option.some.inj h
      exact ⟨Nat.ofDigitChars_nil, hv⟩
    | cons c s ih =>
      intro v hv h
      rw [List.foldlM_cons] at h
      obtain ⟨v', hv', hrest⟩ := Option.bind_eq_some_iff.1 h
      dsimp only at hv'
      split at hv'
      next hlt =>
        obtain rfl := Option.some.inj hv'
        rw [Nat.ofDigitChars_cons, Nat.mul_comm]
        exact ih _ hlt hrest
      next => cases hv'
  rw [number] at h
  split at h
  · cases h
  next hform =>
    simp only [Bool.or_eq_true, Bool.and_eq_true, not_or, not_and, decide_eq_true_eq, beq_iff_eq,
      Bool.not_eq_true', List.isEmpty_iff] at hform
    obtain ⟨⟨hne, hhead⟩, hdigits⟩ := hform
    obtain ⟨hvalue, hbound⟩ := hfold s 0 (by decide) h
    refine ⟨⟨hne, ?_, hhead⟩, hvalue, hbound⟩
    simpa using hdigits

/-- What a parsed version's text is made of. -/
structure Version.ReadFrom (v : Version) (t : List Char) : Prop where
  major : v.major < u64Bound
  minor : v.minor < u64Bound
  patch : v.patch < u64Bound
  pre : IsPre v.pre
  build : v.build = [] ∨ identifiers v.build false = true
  text : t = Nat.toDigits 10 v.major ++ '.' :: (Nat.toDigits 10 v.minor ++ '.' ::
    (Nat.toDigits 10 v.patch ++ ((if v.pre = [] then [] else '-' :: v.pre) ++
      (if v.build = [] then [] else '+' :: v.build))))

theorem Version.readFrom_parse {text : String} {v : Version} (h : Version.parse text = some v) :
    v.ReadFrom text.toList ∧ text.utf8ByteSize ≤ maxVersionLen := by
  rw [Version.parse] at h
  split at h
  · cases h
  next hlen =>
  have hplus := (splitOnce_eq '+' text.toList).1
  rcases hs : splitOnce '+' text.toList with ⟨rest, b⟩
  rw [hs] at h hplus
  obtain ⟨build, hbuild, h⟩ := Option.bind_eq_some_iff.1 h
  have hdash := (splitOnce_eq '-' rest).1
  rcases hs' : splitOnce '-' rest with ⟨core, p⟩
  rw [hs'] at h hdash
  obtain ⟨pre, hpre, h⟩ := Option.bind_eq_some_iff.1 h
  have hcore : ['.'].intercalate (core.splitOn '.') = core := List.intercalate_splitOn '.'
  split at h
  next x y z hparts =>
    obtain ⟨major, hmajor, h⟩ := Option.bind_eq_some_iff.1 h
    obtain ⟨minor, hminor, h⟩ := Option.bind_eq_some_iff.1 h
    obtain ⟨patch, hpatch, h⟩ := Option.bind_eq_some_iff.1 h
    obtain rfl := Option.some.inj h
    obtain ⟨hx, rfl, hxb⟩ := number_some hmajor
    obtain ⟨hy, rfl, hyb⟩ := number_some hminor
    obtain ⟨hz, rfl, hzb⟩ := number_some hpatch
    obtain ⟨hb, hbuild⟩ := suffix_eq '+' hbuild
    obtain ⟨hp, hpre⟩ := suffix_eq '-' hpre
    rw [hparts] at hcore
    refine ⟨⟨hxb, hyb, hzb, hpre, hbuild, ?_⟩, ?_⟩
    · rw [hx.toDigits_value, hy.toDigits_value, hz.toDigits_value]
      dsimp only
      rw [← hp, ← hb]
      conv_lhs => rw [hplus, hdash, ← hcore]
      simp [List.intercalate]
    · simp only [Bool.or_eq_true, not_or, decide_eq_true_eq, not_lt] at hlen
      exact hlen.2
  next => cases h

/-- A parsed version prints as its text. -/
theorem Version.display_parse {text : String} {v : Version} (h : Version.parse text = some v) :
    v.display = text := by
  rw [display, ← (readFrom_parse h).1.text, String.ofList_toList]

end NanoChrono.Ncpkg
