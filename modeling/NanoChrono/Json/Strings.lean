import NanoChrono.Json.Grammar
import NanoChrono.Json.Scan

/-! # Strings are validated as the grammar has them

`stringFrom_spell` runs the validator over a string the grammar derives, `stringFrom_ok` reads the
items back from a string it accepted. The text is UTF-8 (`IsUtf8`), so the bytes the validator skips
one by one are those of whole characters. -/

namespace NanoChrono.Json

/-- The bytes are the encoding of some characters. -/
def IsUtf8 (t : Bytes) : Prop := ∃ cs, t = Utf8.encode cs

section Utf8

variable {t r b : Bytes} {c : UInt8}

theorem IsUtf8.nil : IsUtf8 [] := ⟨[], rfl⟩

theorem IsUtf8.append (h : IsUtf8 t) (h' : IsUtf8 r) : IsUtf8 (t ++ r) := by
  obtain ⟨cs, rfl⟩ := h
  obtain ⟨ds, rfl⟩ := h'
  exact ⟨cs ++ ds, (Utf8.encode_append cs ds).symm⟩

theorem ofNat_toNat (hc : c.toNat < 128) : (Char.ofNat c.toNat).toNat = c.toNat := by
  rw [Char.ofNat, dif_pos (Or.inl (by omega))]
  rfl

theorem encode_ofNat (hc : c.toNat < 128) :
    String.utf8EncodeChar (Char.ofNat c.toNat) = [c] := by
  rw [Utf8.encode_ascii (by rw [ofNat_toNat hc]; exact hc), ofNat_toNat hc, UInt8.ofNat_toNat]

/-- A byte that is ASCII is a character. -/
theorem IsUtf8.single (hc : c.toNat < 128) : IsUtf8 [c] :=
  ⟨[Char.ofNat c.toNat], by rw [Utf8.encode_cons, encode_ofNat hc]; rfl⟩

theorem IsUtf8.ascii (h : ∀ c ∈ t, c.toNat < 128) : IsUtf8 t := by
  induction t with
  | nil => exact .nil
  | cons c t ih =>
    exact (IsUtf8.single (h c (by simp))).append (ih fun d hd => h d (by simp [hd]))

/-- Behind an ASCII byte a character begins. -/
theorem IsUtf8.tail (h : IsUtf8 (c :: r)) (hc : c.toNat < 128) : IsUtf8 r := by
  obtain ⟨cs, h⟩ := h
  obtain _ | ⟨d, cs⟩ := cs
  · cases h
  · rw [Utf8.encode_cons] at h
    by_cases hd : d.toNat < 128
    · rw [Utf8.encode_ascii hd] at h
      exact ⟨cs, (List.cons.inj h).2⟩
    · exfalso
      have hwide := Utf8.encode_wide (Nat.le_of_not_lt hd)
      rcases he : String.utf8EncodeChar d with _ | ⟨x, xs⟩
      · exact String.utf8EncodeChar_ne_nil he
      · rw [he] at h hwide
        have hx := hwide x (by simp)
        rw [← (List.cons.inj h).1] at hx
        omega

/-- A byte that is no ASCII begins a longer character. -/
theorem IsUtf8.wide (h : IsUtf8 (c :: r)) (hc : 128 ≤ c.toNat) :
    ∃ (d : Char) (r' : Bytes), 128 ≤ d.toNat ∧ c :: r = String.utf8EncodeChar d ++ r' ∧ IsUtf8 r' := by
  obtain ⟨cs, h⟩ := h
  obtain _ | ⟨d, cs⟩ := cs
  · cases h
  · refine ⟨d, Utf8.encode cs, ?_, h, cs, rfl⟩
    by_contra hd
    rw [Utf8.encode_cons, Utf8.encode_ascii (Nat.lt_of_not_le hd)] at h
    rw [(List.cons.inj h).1, UInt8.toNat_ofNat'] at hc
    omega

/-- Behind ASCII bytes a character begins. -/
theorem IsUtf8.drop (h : IsUtf8 (b ++ r)) (hb : ∀ c ∈ b, c.toNat < 128) : IsUtf8 r := by
  induction b with
  | nil => exact h
  | cons c b ih => exact ih (h.tail (hb c (by simp))) fun d hd => hb d (by simp [hd])

end Utf8

/-! ## Bytes -/

theorem digit_ascii {d : UInt8} (h : isDigit d = true) : d.toNat < 128 := by
  simp only [isDigit, Bool.and_eq_true, decide_eq_true_eq, UInt8.le_iff_toNat_le] at h
  have h9 : (0x39 : UInt8).toNat = 57 := rfl
  omega

theorem hexDigit_ascii {d : UInt8} (h : (hexDigit d).isSome = true) : d.toNat < 128 := by
  unfold hexDigit at h
  split at h
  · next hd => exact digit_ascii hd
  · split at h
    · next hd =>
      simp only [Bool.and_eq_true, decide_eq_true_eq, UInt8.le_iff_toNat_le] at hd
      have h6 : (0x66 : UInt8).toNat = 102 := rfl
      omega
    · split at h
      · next hd =>
        simp only [Bool.and_eq_true, decide_eq_true_eq, UInt8.le_iff_toNat_le] at hd
        have h6 : (0x46 : UInt8).toNat = 70 := rfl
        omega
      · cases h

theorem hex4_ascii {d₀ d₁ d₂ d₃ : UInt8} {v : Nat} (h : hex4 d₀ d₁ d₂ d₃ = some v) :
    ∀ d ∈ [d₀, d₁, d₂, d₃], d.toNat < 128 := by
  simp only [hex4, Option.bind_eq_bind, Option.pure_def, Option.bind_eq_some_iff,
    Option.some.injEq] at h
  obtain ⟨v₀, h₀, v₁, h₁, v₂, h₂, v₃, h₃, -⟩ := h
  have key : ∀ d v, hexDigit d = some v → d.toNat < 128 := fun d v hd =>
    hexDigit_ascii (by rw [hd]; rfl)
  simp only [List.mem_cons, List.not_mem_nil, or_false, forall_eq_or_imp, forall_eq]
  exact ⟨key _ _ h₀, key _ _ h₁, key _ _ h₂, key _ _ h₃⟩

theorem short_ascii {l : UInt8} (h : isShort l = true) : l.toNat < 128 := by
  simp only [isShort, List.contains_iff_mem, List.mem_cons, List.not_mem_nil, or_false] at h
  rcases h with rfl | rfl | rfl | rfl | rfl | rfl | rfl | rfl <;> decide

theorem short_ne_letterU {l : UInt8} (h : isShort l = true) : l ≠ letterU := by
  rintro rfl
  exact absurd h (by decide)

/-! ## Items -/

theorem spell_nil : spell [] = [] := rfl

theorem spell_cons (x : Item) (s : List Item) : spell (x :: s) = x.bytes ++ spell s := rfl

/-- Each item takes a byte at least. -/
theorem Item.bytes_length_pos (x : Item) : 0 < x.bytes.length := by
  cases x with
  | plain c => exact Utf8.length_pos c
  | short l => exact Nat.zero_lt_succ _
  | unicode d₀ d₁ d₂ d₃ => exact Nat.zero_lt_succ _

theorem Item.bytes_utf8 {x : Item} (h : x.Ok) : IsUtf8 x.bytes := by
  cases x with
  | plain c => exact ⟨[c], by simp [Item.bytes]⟩
  | short l =>
    refine IsUtf8.ascii fun c hc => ?_
    simp only [Item.bytes, List.mem_cons, List.not_mem_nil, or_false] at hc
    rcases hc with rfl | rfl
    · decide
    · exact short_ascii h
  | unicode d₀ d₁ d₂ d₃ =>
    obtain ⟨v, hv⟩ := Option.isSome_iff_exists.1 h
    have hd := hex4_ascii hv
    refine IsUtf8.ascii fun c hc => ?_
    simp only [Item.bytes, List.mem_cons, List.not_mem_nil, or_false] at hc
    rcases hc with rfl | rfl | hc
    · decide
    · decide
    · exact hd c (by simpa using hc)

theorem spell_utf8 {s : List Item} (h : ∀ x ∈ s, x.Ok) : IsUtf8 (spell s) := by
  induction s with
  | nil => exact .nil
  | cons x s ih => exact (Item.bytes_utf8 (h x (by simp))).append (ih fun y hy => h y (by simp [hy]))

/-! ## The validator -/

section Scanner

variable {n : Nat} {limits : Limits} {start used : Nat} {t r : Bytes} {s : List Item}

/-- A step needs a byte. -/
theorem stringStep_pos {k : Nat} (h : stringStep n limits start used t = .ok k) : 0 < t.length := by
  obtain _ | ⟨c, t⟩ := t
  · unfold stringStep at h
    split at h <;> cases h
  · exact Nat.zero_lt_succ _

/-- Any fuel past the text's length will do. -/
theorem stringFrom_fuel {fuel fuel' : Nat} (h : t.length < fuel) (h' : t.length < fuel') :
    stringFrom n limits start fuel used t = stringFrom n limits start fuel' used t := by
  induction fuel generalizing fuel' used t with
  | zero => omega
  | succ fuel ih =>
    obtain _ | fuel' := fuel'
    · omega
    rw [stringFrom, stringFrom]
    split
    · rfl
    · rfl
    · next k hk =>
      have hlen := stringStep_pos hk
      apply ih <;> rw [List.length_drop] <;> omega

/-- The rest of a string. -/
def stringRest (n : Nat) (limits : Limits) (start used : Nat) (t : Bytes) : Except Error Bytes :=
  stringFrom n limits start (t.length + 1) used t

theorem string_eq (c : UInt8) (t : Bytes) :
    string n limits (c :: t) = stringRest n limits (offset n (c :: t)) 0 t := rfl

/-- The end of a string. -/
theorem stringRest_end (h : stringStep n limits start used t = .ok 0) :
    stringRest n limits start used t = .ok (t.drop 1) := by
  rw [stringRest, stringFrom, h]

/-- One item of a string. -/
theorem stringRest_step {b : Bytes} {k : Nat} (h : stringStep n limits start used (b ++ t) = .ok k)
    (hk : b.length = k) (hpos : 0 < k) :
    stringRest n limits start used (b ++ t) = stringRest n limits start (used + k) t := by
  obtain _ | k := k
  · omega
  rw [stringRest, stringFrom, h]
  dsimp only
  rw [← hk, List.drop_left]
  apply stringFrom_fuel
  · rw [List.length_append]
    omega
  · omega

/-- The validator advances over the bytes of a string one item at a time. -/
theorem stringRest_inv (h : stringRest n limits start used t = .ok r) :
    (stringStep n limits start used t = .ok 0 ∧ r = t.drop 1) ∨
    ∃ k, 0 < k ∧ stringStep n limits start used t = .ok k ∧
      stringRest n limits start (used + k) (t.drop k) = .ok r := by
  rw [stringRest, stringFrom] at h
  split at h
  · cases h
  · next hs => exact .inl ⟨hs, (Except.ok.inj h).symm⟩
  · next k hs =>
    refine .inr ⟨k + 1, Nat.zero_lt_succ _, hs, ?_⟩
    rw [← h, stringRest]
    have hlen := stringStep_pos hs
    apply stringFrom_fuel <;> rw [List.length_drop] <;> omega

/-- A byte that is no quote, backslash or control character. -/
theorem stringStep_byte {c : UInt8} (hu : used ≤ limits.maxString) (hq : c ≠ quote)
    (hb : c ≠ backslash) (hc : ¬ c < 0x20) : stringStep n limits start used (c :: t) = .ok 1 := by
  rw [stringStep, if_neg (by omega)]
  rw [if_neg hq, if_neg hb, if_neg hc]

theorem stringStep_escape (hu : used ≤ limits.maxString) :
    stringStep n limits start used (backslash :: t) = escape n (backslash :: t) := by
  rw [stringStep, if_neg (by omega)]
  rw [if_neg (by decide), if_pos rfl]

theorem stringStep_quote (hu : used ≤ limits.maxString) :
    stringStep n limits start used (quote :: t) = .ok 0 := by
  rw [stringStep, if_neg (by omega)]
  rw [if_pos rfl]

/-- A step over a string's bytes. -/
theorem stringStep_ok {k : Nat} (h : stringStep n limits start used t = .ok k) :
    used ≤ limits.maxString ∧ ∃ c t', t = c :: t' ∧
      (c = quote ∧ k = 0 ∨ c = backslash ∧ escape n (c :: t') = .ok k ∨
        c ≠ quote ∧ c ≠ backslash ∧ ¬ c < 0x20 ∧ k = 1) := by
  unfold stringStep at h
  split at h
  · cases h
  next hu =>
  refine ⟨Nat.le_of_not_lt hu, ?_⟩
  split at h
  · cases h
  next c t' =>
  refine ⟨c, t', rfl, ?_⟩
  split at h
  · next hq => exact .inl ⟨hq, (Except.ok.inj h).symm⟩
  next hq =>
  split at h
  · next hb => exact .inr (.inl ⟨hb, h⟩)
  next hb =>
  split at h
  · cases h
  · next hc => exact .inr (.inr ⟨hq, hb, hc, (Except.ok.inj h).symm⟩)

/-! ### Escapes -/

theorem codeUnit_digits {d₀ d₁ d₂ d₃ : UInt8} {v : Nat} (h : hex4 d₀ d₁ d₂ d₃ = some v) :
    codeUnit n (d₀ :: d₁ :: d₂ :: d₃ :: t) = .ok v := by
  rw [codeUnit, h]

theorem codeUnit_ok {v : Nat} (h : codeUnit n t = .ok v) :
    ∃ d₀ d₁ d₂ d₃ t', t = d₀ :: d₁ :: d₂ :: d₃ :: t' ∧ hex4 d₀ d₁ d₂ d₃ = some v := by
  unfold codeUnit at h
  split at h
  · next d₀ d₁ d₂ d₃ t' =>
    split at h
    · next v' hv =>
      rw [← Except.ok.inj h]
      exact ⟨d₀, d₁, d₂, d₃, t', rfl, hv⟩
    · cases h
  · cases h

theorem escape_short {l : UInt8} (h : isShort l = true) :
    escape n (backslash :: l :: t) = .ok 2 := by
  unfold escape
  simp only [List.drop_one, List.tail_cons, h, if_true]

theorem escape_unicode {d₀ d₁ d₂ d₃ : UInt8} {v : Nat} (h : hex4 d₀ d₁ d₂ d₃ = some v)
    (hhigh : isHigh v = false) (hlow : isLow v = false) :
    escape n (backslash :: letterU :: d₀ :: d₁ :: d₂ :: d₃ :: t) = .ok 6 := by
  unfold escape
  simp only [List.drop_one, List.tail_cons, show isShort letterU = false by decide,
    codeUnit_digits h, hhigh, hlow, Bool.false_eq_true, if_false, if_true]

theorem escape_pair {d₀ d₁ d₂ d₃ e₀ e₁ e₂ e₃ : UInt8} {v w : Nat}
    (h : hex4 d₀ d₁ d₂ d₃ = some v) (hhigh : isHigh v = true) (h' : hex4 e₀ e₁ e₂ e₃ = some w)
    (hlow : isLow w = true) :
    escape n (backslash :: letterU :: d₀ :: d₁ :: d₂ :: d₃ :: backslash :: letterU ::
      e₀ :: e₁ :: e₂ :: e₃ :: t) = .ok 12 := by
  unfold escape
  simp only [show isShort letterU = false by decide, codeUnit_digits h, hhigh, Bool.false_eq_true,
    if_false, if_true, List.drop_succ_cons, List.drop_zero, List.take_succ_cons, List.take_zero,
    codeUnit_digits h', hlow]

/-- What an accepted escape spells. -/
theorem escape_ok {c : UInt8} {k : Nat} (h : escape n (c :: t) = .ok k) :
    (∃ l t', t = l :: t' ∧ isShort l = true ∧ k = 2) ∨
    ∃ d₀ d₁ d₂ d₃ v t', t = letterU :: d₀ :: d₁ :: d₂ :: d₃ :: t' ∧ hex4 d₀ d₁ d₂ d₃ = some v ∧
      (isHigh v = false ∧ isLow v = false ∧ k = 6 ∨
        isHigh v = true ∧ k = 12 ∧ ∃ e₀ e₁ e₂ e₃ w t'',
          t' = backslash :: letterU :: e₀ :: e₁ :: e₂ :: e₃ :: t'' ∧ hex4 e₀ e₁ e₂ e₃ = some w ∧
          isLow w = true) := by
  unfold escape at h
  rw [List.drop_one, List.tail_cons] at h
  split at h
  · cases h
  next e r =>
  split at h
  · next hs => exact .inl ⟨e, r, rfl, hs, (Except.ok.inj h).symm⟩
  split at h
  swap
  · cases h
  next he =>
  subst he
  split at h
  · cases h
  next v hunit =>
  obtain ⟨d₀, d₁, d₂, d₃, t', rfl, hv⟩ := codeUnit_ok hunit
  refine .inr ⟨d₀, d₁, d₂, d₃, v, t', rfl, hv, ?_⟩
  simp only [List.drop_succ_cons, List.drop_zero] at h
  split at h
  · next hhigh =>
    split at h
    swap
    · cases h
    next hbu =>
    split at h
    · cases h
    next w hunit =>
    split at h
    swap
    · cases h
    next hlow =>
    obtain ⟨e₀, e₁, e₂, e₃, t'', ht, hw⟩ := codeUnit_ok hunit
    refine .inr ⟨hhigh, (Except.ok.inj h).symm, e₀, e₁, e₂, e₃, w, t'', ?_, hw, hlow⟩
    rw [← List.take_append_drop 2 t', hbu, ht]
    rfl
  · next hhigh =>
    split at h
    · cases h
    next hlow =>
    exact .inl ⟨by simpa using hhigh, by simpa using hlow, (Except.ok.inj h).symm⟩

/-! ### Whole strings -/

/-- Bytes that are not ASCII are skipped one by one. -/
theorem stringRest_wide {b : Bytes} (hb : ∀ c ∈ b, 128 ≤ c.toNat)
    (hu : used + b.length ≤ limits.maxString) :
    stringRest n limits start used (b ++ t) = stringRest n limits start (used + b.length) t := by
  induction b generalizing used with
  | nil => rfl
  | cons c b ih =>
    have hc := hb c (by simp)
    have hne : ∀ k : UInt8, k.toNat < 128 → c ≠ k := by
      rintro k hk rfl
      omega
    have hlt : ¬ c < 0x20 := by
      rw [UInt8.lt_iff_toNat_lt, show (0x20 : UInt8).toNat = 32 from rfl]
      omega
    rw [List.length_cons] at hu ⊢
    have hstep : stringStep n limits start used (c :: (b ++ t)) = .ok 1 :=
      stringStep_byte (by omega) (hne _ (by decide)) (hne _ (by decide)) hlt
    refine (stringRest_step (b := [c]) (t := b ++ t) hstep rfl Nat.one_pos).trans ?_
    rw [ih (fun d hd => hb d (by simp [hd])) (by omega), Nat.add_assoc, Nat.add_comm 1]

/-- An item that is no surrogate. -/
theorem stringRest_item {x : Item} (h : x.Ok) (hhigh : x.isHigh = false) (hlow : x.isLow = false)
    (hu : used + x.bytes.length ≤ limits.maxString) :
    stringRest n limits start used (x.bytes ++ t) =
      stringRest n limits start (used + x.bytes.length) t := by
  cases x with
  | plain c =>
    obtain ⟨hlo, hq, hb⟩ := h
    by_cases hc : c.toNat < 128
    · have hbyte : (Item.plain c).bytes = [UInt8.ofNat c.toNat] := Utf8.encode_ascii hc
      have hnat : (UInt8.ofNat c.toNat).toNat = c.toNat := by
        rw [UInt8.toNat_ofNat', Nat.mod_eq_of_lt (by omega)]
      have hne : ∀ d : Char, d.toNat < 128 → c ≠ d → UInt8.ofNat c.toNat ≠ UInt8.ofNat d.toNat := by
        intro d hd hne he
        apply hne
        apply Char.toNat_inj.1
        rw [← hnat, he, UInt8.toNat_ofNat', Nat.mod_eq_of_lt (by omega)]
      have hlt : ¬ UInt8.ofNat c.toNat < 0x20 := by
        rw [UInt8.lt_iff_toNat_lt, hnat, show (0x20 : UInt8).toNat = 32 from rfl]
        omega
      rw [hbyte] at hu ⊢
      rw [List.length_singleton] at hu
      exact stringRest_step (stringStep_byte (by omega) (hne '"' (by decide) hq)
        (hne '\\' (by decide) hb) hlt) rfl Nat.one_pos
    · exact stringRest_wide (Utf8.encode_wide (Nat.le_of_not_lt hc)) hu
  | short l =>
    exact stringRest_step ((stringStep_escape (by omega)).trans (escape_short h)) rfl Nat.two_pos
  | unicode d₀ d₁ d₂ d₃ =>
    obtain ⟨v, hv⟩ := Option.isSome_iff_exists.1 h
    rw [Item.isHigh, Item.unit, hv] at hhigh
    rw [Item.isLow, Item.unit, hv] at hlow
    exact stringRest_step ((stringStep_escape (by omega)).trans (escape_unicode hv hhigh hlow)) rfl
      (Nat.zero_lt_succ _)

/-- Only `\u` escapes are surrogates. -/
theorem Item.surrogate {x : Item} {p : Nat → Bool} (h : x.unit.any p = true) :
    ∃ d₀ d₁ d₂ d₃ v, x = .unicode d₀ d₁ d₂ d₃ ∧ hex4 d₀ d₁ d₂ d₃ = some v ∧ p v = true := by
  cases x with
  | plain c => cases h
  | short l => cases h
  | unicode d₀ d₁ d₂ d₃ =>
    rw [Item.unit] at h
    rcases hv : hex4 d₀ d₁ d₂ d₃ with _ | v
    · rw [hv] at h
      cases h
    · rw [hv] at h
      exact ⟨d₀, d₁, d₂, d₃, v, rfl, hv, h⟩

/-- What the grammar derives is accepted. -/
theorem stringRest_spell (hok : ∀ x ∈ s, x.Ok) (hp : Paired s)
    (hu : used + (spell s).length ≤ limits.maxString) :
    stringRest n limits start used (spell s ++ quote :: t) = .ok t := by
  induction s using Paired.induct generalizing used with
  | case1 => exact stringRest_end (stringStep_quote (by omega))
  | case2 x =>
    rw [spell_cons, List.length_append] at hu
    rw [spell_cons, List.append_assoc, stringRest_item (hok x (by simp)) hp.1 hp.2 (by omega)]
    exact stringRest_end (stringStep_quote (by omega))
  | case3 x y s hhigh ih =>
    rw [Paired, if_pos hhigh] at hp
    obtain ⟨hlow, hp⟩ := hp
    obtain ⟨d₀, d₁, d₂, d₃, v, rfl, hv, hhigh⟩ := Item.surrogate hhigh
    obtain ⟨e₀, e₁, e₂, e₃, w, rfl, hw, hlow⟩ := Item.surrogate hlow
    have hlen : (spell (.unicode d₀ d₁ d₂ d₃ :: .unicode e₀ e₁ e₂ e₃ :: s)).length =
        12 + (spell s).length := by
      simp only [spell_cons, List.length_append, Item.bytes, List.length_cons, List.length_nil]
      omega
    rw [hlen] at hu
    refine (stringRest_step (b := [backslash, letterU, d₀, d₁, d₂, d₃, backslash, letterU,
      e₀, e₁, e₂, e₃]) (t := spell s ++ quote :: t)
      ((stringStep_escape (by omega)).trans (escape_pair hv hhigh hw hlow)) rfl (by decide)).trans ?_
    exact ih (fun x hx => hok x (by simp [hx])) hp (by omega)
  | case4 x y s hhigh ih =>
    rw [Paired, if_neg hhigh] at hp
    rw [spell_cons, List.length_append] at hu
    rw [spell_cons, List.append_assoc, stringRest_item (hok x (by simp)) (by simpa using hhigh) hp.1
      (by omega)]
    exact ih (fun z hz => hok z (by simp [hz])) hp.2 (by omega)

/-- Bytes that are not ASCII were skipped one by one. -/
theorem stringRest_wide_ok {b : Bytes} (hb : ∀ c ∈ b, 128 ≤ c.toNat)
    (h : stringRest n limits start used (b ++ t) = .ok r) :
    stringRest n limits start (used + b.length) t = .ok r := by
  induction b generalizing used with
  | nil => exact h
  | cons c b ih =>
    have hc := hb c (by simp)
    have hne : ∀ k : UInt8, k.toNat < 128 → c ≠ k := by
      rintro k hk rfl
      omega
    have h' := stringRest_inv h
    rcases h' with ⟨hs, -⟩ | ⟨k, -, hs, hr⟩
    · obtain ⟨-, d, t', he, hcase⟩ := stringStep_ok hs
      obtain ⟨rfl, -⟩ := List.cons.inj he
      rcases hcase with ⟨hq, -⟩ | ⟨hbs, -⟩ | ⟨-, -, -, hk⟩
      · exact absurd hq (hne _ (by decide))
      · exact absurd hbs (hne _ (by decide))
      · cases hk
    · obtain ⟨-, d, t', he, hcase⟩ := stringStep_ok hs
      obtain ⟨rfl, -⟩ := List.cons.inj he
      rcases hcase with ⟨hq, -⟩ | ⟨hbs, -⟩ | ⟨-, -, -, rfl⟩
      · exact absurd hq (hne _ (by decide))
      · exact absurd hbs (hne _ (by decide))
      · have := ih (fun d hd => hb d (by simp [hd])) hr
        rwa [Nat.add_assoc, Nat.add_comm 1] at this

/-- A string may begin with any item that is no surrogate. -/
theorem Paired.cons {x : Item} (hhigh : x.isHigh = false) (hlow : x.isLow = false)
    (h : Paired s) : Paired (x :: s) := by
  cases s with
  | nil => exact ⟨hhigh, hlow⟩
  | cons y s =>
    rw [Paired, hhigh]
    exact ⟨hlow, h⟩

/-- What is accepted, the grammar derives. -/
theorem stringRest_ok (h : stringRest n limits start used t = .ok r) (hv : IsUtf8 t) :
    ∃ s, (∀ x ∈ s, x.Ok) ∧ Paired s ∧ t = spell s ++ quote :: r ∧
      used + (spell s).length ≤ limits.maxString ∧ IsUtf8 r := by
  induction hlen : t.length using Nat.strong_induction_on generalizing t used with
  | _ m ih =>
  subst hlen
  -- One more item in front of those of the rest.
  have cons : ∀ (x : Item) (t' : Bytes), t = x.bytes ++ t' → x.Ok → x.isHigh = false →
      x.isLow = false → stringRest n limits start (used + x.bytes.length) t' = .ok r → IsUtf8 t' →
      ∃ s, (∀ x ∈ s, x.Ok) ∧ Paired s ∧ t = spell s ++ quote :: r ∧
        used + (spell s).length ≤ limits.maxString ∧ IsUtf8 r := by
    intro x t' ht hx hhigh hlow hr hv'
    have hpos := x.bytes_length_pos
    obtain ⟨s, hok, hp, ht', hu, hvr⟩ := ih t'.length
      (by rw [ht, List.length_append]; omega) hr hv' rfl
    refine ⟨x :: s, ?_, hp.cons hhigh hlow, ?_, ?_, hvr⟩
    · rintro y hy
      rcases List.mem_cons.1 hy with rfl | hy
      · exact hx
      · exact hok y hy
    · rw [ht, spell_cons, List.append_assoc, ← ht']
    · rw [spell_cons, List.length_append]
      omega
  rcases stringRest_inv h with ⟨hs, rfl⟩ | ⟨k, hpos, hs, hr⟩
  · obtain ⟨hu, c, t', rfl, hcase⟩ := stringStep_ok hs
    rcases hcase with ⟨rfl, -⟩ | ⟨-, he⟩ | ⟨-, -, -, hk⟩
    · exact ⟨[], by simp, trivial, rfl, hu, hv.tail (by decide)⟩
    · rcases escape_ok he with ⟨_, _, _, _, hk⟩ | ⟨_, _, _, _, _, _, _, _, ⟨_, _, hk⟩ | ⟨_, hk, _⟩⟩ <;>
        cases hk
    · cases hk
  · obtain ⟨hu, c, t', rfl, hcase⟩ := stringStep_ok hs
    rcases hcase with ⟨-, rfl⟩ | ⟨rfl, he⟩ | ⟨hq, hb, hc, rfl⟩
    · omega
    · have hv' := hv.tail (by decide)
      rcases escape_ok he with ⟨l, t', rfl, hl, rfl⟩ |
        ⟨d₀, d₁, d₂, d₃, v, t', rfl, hd, ⟨hhigh, hlow, rfl⟩ | ⟨hhigh, rfl, e₀, e₁, e₂, e₃, w, t', rfl, he', hlow⟩⟩
      · exact cons (.short l) t' rfl hl rfl rfl hr (hv'.tail (short_ascii hl))
      · have hv'' : IsUtf8 t' := (hv'.tail (by decide)).drop (b := [d₀, d₁, d₂, d₃]) (hex4_ascii hd)
        refine cons (.unicode d₀ d₁ d₂ d₃) t' rfl (by rw [Item.Ok, hd]; rfl) ?_ ?_ hr hv''
        · rw [Item.isHigh, Item.unit, hd]
          exact hhigh
        · rw [Item.isLow, Item.unit, hd]
          exact hlow
      · have hv₁ := ((hv'.tail (by decide)).drop (b := [d₀, d₁, d₂, d₃]) (hex4_ascii hd)).tail
          (by decide)
        have hv₂ : IsUtf8 t' := (hv₁.tail (by decide)).drop (b := [e₀, e₁, e₂, e₃]) (hex4_ascii he')
        obtain ⟨s, hok, hp, ht', hu', hvr⟩ := ih t'.length (by simp only [List.length_cons]; omega) hr hv₂ rfl
        refine ⟨.unicode d₀ d₁ d₂ d₃ :: .unicode e₀ e₁ e₂ e₃ :: s, ?_, ?_, ?_, ?_, hvr⟩
        · rintro y hy
          simp only [List.mem_cons] at hy
          rcases hy with rfl | rfl | hy
          · rw [Item.Ok, hd]; rfl
          · rw [Item.Ok, he']; rfl
          · exact hok y hy
        · rw [Paired, if_pos (by rw [Item.isHigh, Item.unit, hd]; exact hhigh)]
          exact ⟨by rw [Item.isLow, Item.unit, he']; exact hlow, hp⟩
        · exact congrArg ([backslash, letterU, d₀, d₁, d₂, d₃, backslash, letterU, e₀, e₁, e₂, e₃] ++ ·) ht'
        · simp only [spell_cons, List.length_append, Item.bytes, List.length_cons, List.length_nil]
          omega
    · by_cases hascii : c.toNat < 128
      · have hbytes : (Item.plain (Char.ofNat c.toNat)).bytes = [c] := encode_ofNat hascii
        refine cons (.plain (Char.ofNat c.toNat)) t' (by rw [hbytes]; rfl) ⟨?_, ?_, ?_⟩ rfl rfl
          (by rw [hbytes]; exact hr) (hv.tail hascii)
        · rw [ofNat_toNat hascii]
          rw [UInt8.lt_iff_toNat_lt] at hc
          exact Nat.le_of_not_lt hc
        · intro he
          apply hq
          rw [← UInt8.toNat_inj, ← ofNat_toNat hascii, he]
          rfl
        · intro he
          apply hb
          rw [← UInt8.toNat_inj, ← ofNat_toNat hascii, he]
          rfl
      · obtain ⟨d, r', hd, he, hv'⟩ := hv.wide (Nat.le_of_not_lt hascii)
        have hd' : ∀ e : Char, e.toNat < 128 → d ≠ e := by
          rintro e he rfl
          omega
        rw [he] at h
        refine cons (.plain d) r' he ⟨by omega, hd' _ (by decide), hd' _ (by decide)⟩ rfl rfl ?_ hv'
        exact stringRest_wide_ok (Utf8.encode_wide hd) h

end Scanner

end NanoChrono.Json
