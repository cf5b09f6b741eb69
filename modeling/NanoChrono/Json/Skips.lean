import NanoChrono.Json.Accepts
import NanoChrono.Json.Navigate

/-! # Skipping and decoding agree with the grammar

Navigation finds the end of a value the grammar derives (`skipValue_derives`), though it only counts
brackets and skips strings, and it decodes a string to the characters it spells (`chars_spell`). -/

namespace NanoChrono.Json

section Skips

variable {t r w b : Bytes} {c : UInt8} {s : List Item} {x : Item} {d : Nat}

/-! ## Strings -/

/-- Bytes that are neither quotes nor backslashes are skipped one by one. -/
theorem skipRest_plain (hb : ∀ c ∈ b, c ≠ quote ∧ c ≠ backslash) (ht : t ≠ []) :
    skipRest (b ++ t) = skipRest t := by
  induction b with
  | nil => rfl
  | cons c b ih =>
    have hc := hb c List.mem_cons_self
    have ih' := ih fun d hd => hb d (List.mem_cons_of_mem c hd)
    rcases hbt : b ++ t with _ | ⟨d, r⟩
    · exact absurd (List.append_eq_nil_iff.1 hbt).2 ht
    · rw [List.cons_append, hbt, skipRest, if_neg hc.2, if_neg hc.1, ← hbt, ih']

/-- A hexadecimal digit is neither. -/
theorem hexDigit_plain {d : UInt8} (h : (hexDigit d).isSome = true) :
    d ≠ quote ∧ d ≠ backslash := by
  constructor
  all_goals
    rintro rfl
    exact absurd h (by decide)

theorem hex4_digits {d₀ d₁ d₂ d₃ : UInt8} (h : (hex4 d₀ d₁ d₂ d₃).isSome = true) :
    ∀ d ∈ [d₀, d₁, d₂, d₃], (hexDigit d).isSome = true := by
  obtain ⟨v, hv⟩ := Option.isSome_iff_exists.1 h
  simp only [hex4, Option.bind_eq_bind, Option.pure_def, Option.bind_eq_some_iff,
    Option.some.injEq] at hv
  obtain ⟨v₀, h₀, v₁, h₁, v₂, h₂, v₃, h₃, -⟩ := hv
  simp only [List.mem_cons, List.not_mem_nil, or_false, forall_eq_or_imp, forall_eq, h₀, h₁, h₂,
    h₃, Option.isSome_some, and_self]

/-- A character of the grammar that is no quote and no backslash has neither in its bytes. -/
theorem plain_bytes {c : Char} (h : Item.Ok (.plain c)) :
    ∀ b ∈ (Item.plain c).bytes, b ≠ quote ∧ b ≠ backslash := by
  obtain ⟨-, hq, hb⟩ := h
  intro b hbytes
  by_cases hc : c.toNat < 128
  · rw [Item.bytes, Utf8.encode_ascii hc, List.mem_singleton] at hbytes
    have hnat : b.toNat = c.toNat := by
      rw [hbytes, UInt8.toNat_ofNat', Nat.mod_eq_of_lt (by omega)]
    constructor
    · rintro rfl
      exact hq (Char.toNat_inj.1 hnat.symm)
    · rintro rfl
      exact hb (Char.toNat_inj.1 hnat.symm)
  · have hwide := Utf8.encode_wide (Nat.le_of_not_lt hc) b hbytes
    constructor
    · rintro rfl
      exact absurd hwide (by decide)
    · rintro rfl
      exact absurd hwide (by decide)

theorem skipRest_item (h : x.Ok) (ht : t ≠ []) : skipRest (x.bytes ++ t) = skipRest t := by
  cases x with
  | plain c => exact skipRest_plain (plain_bytes h) ht
  | short l =>
    show skipRest (backslash :: l :: t) = skipRest t
    rw [skipRest, if_pos rfl]
  | unicode d₀ d₁ d₂ d₃ =>
    have hdigits := hex4_digits h
    show skipRest (backslash :: letterU :: ([d₀, d₁, d₂, d₃] ++ t)) = skipRest t
    rw [skipRest, if_pos rfl]
    exact skipRest_plain (fun d hd => hexDigit_plain (hdigits d hd)) ht

/-- The end of a string of the grammar is found. -/
theorem skipRest_spell (hok : ∀ x ∈ s, x.Ok) (r : Bytes) :
    skipRest (spell s ++ quote :: r) = r := by
  induction s with
  | nil =>
    cases r with
    | nil => rfl
    | cons c r =>
      show skipRest (quote :: c :: r) = c :: r
      rw [skipRest, if_neg (by decide), if_pos rfl]
  | cons x s ih =>
    rw [spell_cons, List.append_assoc, skipRest_item (hok x List.mem_cons_self) (by simp)]
    exact ih fun y hy => hok y (List.mem_cons_of_mem x hy)

theorem skipString_spell (hok : ∀ x ∈ s, x.Ok) (r : Bytes) :
    skipString (quote :: (spell s ++ quote :: r)) = r := skipRest_spell hok r

theorem skipRest_length_le (t : Bytes) : (skipRest t).length ≤ t.length := by
  induction t using skipRest.induct with
  | case1 => rw [skipRest]
  | case2 c => exact Nat.zero_le _
  | case3 d r ih =>
    rw [skipRest, if_pos rfl]
    simp only [List.length_cons]
    omega
  | case4 d r hne =>
    rw [skipRest, if_neg hne, if_pos rfl]
    exact Nat.le_succ _
  | case5 c d r hb hq ih =>
    rw [skipRest, if_neg hb, if_neg hq]
    exact Nat.le_succ_of_le ih

/-! ## Containers -/

/-- Any fuel past the text's length will do. -/
theorem scan_fuel {fuel fuel' : Nat} (h : t.length < fuel) (h' : t.length < fuel') :
    scan fuel d t = scan fuel' d t := by
  induction fuel generalizing fuel' d t with
  | zero => omega
  | succ fuel ih =>
    obtain _ | fuel' := fuel'
    · omega
    obtain _ | ⟨c, r⟩ := t
    · rfl
    have hskip := skipRest_length_le r
    rw [List.length_cons] at h h'
    have ihr : ∀ d, scan fuel d r = scan fuel' d r := fun d => ih (by omega) (by omega)
    have ihs : scan fuel d (skipString (c :: r)) = scan fuel' d (skipString (c :: r)) := by
      apply ih
      · show (skipRest r).length < fuel
        omega
      · show (skipRest r).length < fuel'
        omega
    rw [scan, scan, ihs, ihr, ihr, ihr]

/-- What follows the brackets, of which `d` are open. -/
def scanned (d : Nat) (t : Bytes) : Bytes := scan (t.length + 1) d t

theorem scanned_quote (d : Nat) (r : Bytes) :
    scanned d (quote :: r) = scanned d (skipString (quote :: r)) := by
  have hskip : (skipString (quote :: r)).length ≤ r.length := skipRest_length_le r
  rw [scanned, scan, if_pos rfl, List.length_cons]
  exact scan_fuel (by omega) (Nat.lt_succ_self _)

theorem scanned_open (o : Bool) (d : Nat) (r : Bytes) :
    scanned d ((if o then openBrace else openBracket) :: r) = scanned (d + 1) r := by
  rw [scanned, scan, if_neg (by cases o <;> decide), if_pos (by cases o <;> simp)]
  rfl

theorem scanned_close (o : Bool) (d : Nat) (r : Bytes) :
    scanned (d + 1) (close o :: r) = if d = 0 then r else scanned d r := by
  rw [scanned, scan, if_neg (by cases o <;> decide), if_neg (by cases o <;> decide),
    if_pos (by cases o <;> simp [close])]
  rfl

/-- Bytes that open and close as many brackets. -/
def Neutral (x : Bytes) : Prop := ∀ d r, 0 < d → scanned d (x ++ r) = scanned d r

theorem Neutral.nil : Neutral [] := fun _ _ _ => rfl

theorem Neutral.append {x y : Bytes} (hx : Neutral x) (hy : Neutral y) : Neutral (x ++ y) := by
  intro d r hd
  rw [List.append_assoc, hx d _ hd, hy d r hd]

theorem Neutral.byte (h : c ≠ quote ∧ c ≠ openBrace ∧ c ≠ openBracket ∧ c ≠ closeBrace ∧
    c ≠ closeBracket) : Neutral [c] := by
  obtain ⟨hq, ho, ho', hc, hc'⟩ := h
  intro d r _
  show scan (r.length + 1 + 1) d (c :: r) = scan (r.length + 1) d r
  rw [scan, if_neg hq, if_neg (by simp [ho, ho']), if_neg (by simp [hc, hc'])]

theorem Neutral.bytes (h : ∀ c ∈ b, c ≠ quote ∧ c ≠ openBrace ∧ c ≠ openBracket ∧
    c ≠ closeBrace ∧ c ≠ closeBracket) : Neutral b := by
  induction b with
  | nil => exact .nil
  | cons c b ih =>
    have hb := ih fun d hd => h d (List.mem_cons_of_mem c hd)
    exact (Neutral.byte (h c List.mem_cons_self)).append hb

theorem Neutral.ws (hw : IsWs w) : Neutral w := by
  refine Neutral.bytes fun c hc => ?_
  have := hw c hc
  simp only [isWs, Bool.or_eq_true, beq_iff_eq] at this
  rcases this with ((rfl | rfl) | rfl) | rfl <;> decide

theorem Neutral.string (hok : ∀ x ∈ s, x.Ok) : Neutral (quote :: (spell s ++ [quote])) := by
  intro d r _
  rw [List.cons_append, List.append_assoc, List.singleton_append, scanned_quote,
    skipString_spell hok]

theorem Neutral.others {texts : List Bytes} (h : ∀ x ∈ texts, Neutral x) :
    Neutral (others texts) := by
  induction texts with
  | nil => exact .nil
  | cons x texts ih =>
    have hcomma : Neutral [comma] := .byte (by decide)
    have hx := hcomma.append (h x List.mem_cons_self)
    exact hx.append (ih fun y hy => h y (List.mem_cons_of_mem x hy))

/-- A container is neutral if what is inside it is. -/
theorem Neutral.container {x : Bytes} (hx : Neutral x) (o : Bool) :
    Neutral ((if o then openBrace else openBracket) :: (x ++ [close o])) := by
  intro d r hd
  rw [List.cons_append, List.append_assoc, List.singleton_append, scanned_open,
    hx (d + 1) _ (Nat.succ_pos d), scanned_close, if_neg (by omega)]

theorem Neutral.element {e : Element} (hws : IsWs e.before ∧ IsWs e.after)
    (h : Neutral e.bytes) : Neutral e.text :=
  (Neutral.ws hws.1).append (h.append (.ws hws.2))

theorem Neutral.member {m : Member}
    (hws : IsWs m.before ∧ IsWs m.colonBefore ∧ IsWs m.colonAfter ∧ IsWs m.after)
    (hok : ∀ i ∈ m.key, i.Ok) (h : Neutral m.bytes) : Neutral m.text := by
  obtain ⟨hw₁, hw₂, hw₃, hw₄⟩ := hws
  have hcolon : Neutral [colon] := .byte (by decide)
  have hvalue := (Neutral.ws hw₂).append (hcolon.append ((Neutral.ws hw₃).append
    (h.append (.ws hw₄))))
  have hmember := (Neutral.ws hw₁).append ((Neutral.string hok).append hvalue)
  have htext : m.text = m.before ++ (quote :: (spell m.key ++ [quote]) ++
      (m.colonBefore ++ ([colon] ++ (m.colonAfter ++ (m.bytes ++ m.after))))) := by
    simp only [Member.text, List.append_assoc, List.cons_append, List.nil_append]
  rw [htext]
  exact hmember

/-- The bytes of numbers and words are neutral. -/
theorem isScalar_plain (h : isScalar c = true) : c ≠ quote ∧ c ≠ openBrace ∧ c ≠ openBracket ∧
    c ≠ closeBrace ∧ c ≠ closeBracket := by
  refine ⟨?_, ?_, ?_, ?_, ?_⟩
  all_goals
    rintro rfl
    exact absurd h (by decide)

theorem isScalar_numeric (h : isNumeric c = true) : isScalar c = true := by
  rw [isScalar, Bool.or_eq_true]
  exact .inl h

theorem Ends.not_scalar (h : Ends (c :: r)) : isScalar c = false := by
  have hc := h c r rfl
  simp only [isWs, Bool.or_eq_true, beq_iff_eq] at hc
  rcases hc with (((rfl | rfl) | rfl) | rfl) | rfl | rfl | rfl <;> rfl

/-- A value opens and closes as many brackets. -/
theorem Derives.neutral {a : Ast} (h : Derives a b) : Neutral b := by
  induction h with
  | null => exact .bytes fun c hc => isScalar_plain (List.all_eq_true.1 rfl c hc)
  | true_ => exact .bytes fun c hc => isScalar_plain (List.all_eq_true.1 rfl c hc)
  | false_ => exact .bytes fun c hc => isScalar_plain (List.all_eq_true.1 rfl c hc)
  | number hn => exact .bytes fun c hc => isScalar_plain (isScalar_numeric (hn.numeric c hc))
  | string hok => exact .string hok
  | emptyArray hw => exact (Neutral.ws hw).container false
  | emptyObject hw => exact (Neutral.ws hw).container true
  | @array e es hws _ ih =>
    have helem : ∀ x ∈ e :: es, Neutral x.text := fun x hx => .element (hws x hx) (ih x hx)
    have hothers : Neutral (Json.others (es.map Element.text)) := by
      refine .others fun x hx => ?_
      obtain ⟨y, hy, rfl⟩ := List.mem_map.1 hx
      exact helem y (List.mem_cons_of_mem e hy)
    rw [← List.append_assoc]
    exact ((helem e List.mem_cons_self).append hothers).container false
  | @object m ms hws hok _ ih =>
    have hmem : ∀ x ∈ m :: ms, Neutral x.text := fun x hx =>
      .member (hws x hx) (hok x hx) (ih x hx)
    have hothers : Neutral (Json.others (ms.map Member.text)) := by
      refine .others fun x hx => ?_
      obtain ⟨y, hy, rfl⟩ := List.mem_map.1 hx
      exact hmem y (List.mem_cons_of_mem m hy)
    rw [← List.append_assoc]
    exact ((hmem m List.mem_cons_self).append hothers).container true

/-! ## Values -/

theorem skipValue_container {x : Bytes} (hx : Neutral x) (o : Bool) (r : Bytes) :
    skipValue ((if o then openBrace else openBracket) :: (x ++ [close o]) ++ r) = r := by
  have hscan : scanned 0 ((if o then openBrace else openBracket) :: (x ++ [close o]) ++ r) = r := by
    rw [List.cons_append, List.append_assoc, List.singleton_append, scanned_open,
      hx 1 _ Nat.one_pos, scanned_close, if_pos rfl]
  cases o <;> exact hscan

theorem skipValue_scalar (hb : ∀ c ∈ b, isScalar c = true) (hne : b ≠ []) (hr : Ends r) :
    skipValue (b ++ r) = r := by
  obtain _ | ⟨c, b⟩ := b
  · exact absurd rfl hne
  obtain ⟨hq, ho, ho', -, -⟩ := isScalar_plain (hb c List.mem_cons_self)
  rw [List.cons_append, skipValue, if_neg hq, if_neg (by simp [ho, ho']), ← List.cons_append,
    List.dropWhile_append_of_pos hb]
  cases r with
  | nil => rfl
  | cons c r => rw [List.dropWhile_cons_of_neg (by simp [hr.not_scalar])]

/-- The end of a value is found. -/
theorem skipValue_derives {a : Ast} (h : Derives a b) (hr : Ends r) : skipValue (b ++ r) = r := by
  cases h with
  | null => exact skipValue_scalar (List.all_eq_true.1 rfl) (by simp) hr
  | true_ => exact skipValue_scalar (List.all_eq_true.1 rfl) (by simp) hr
  | false_ => exact skipValue_scalar (List.all_eq_true.1 rfl) (by simp) hr
  | number hn =>
    refine skipValue_scalar (fun c hc => isScalar_numeric (hn.numeric c hc)) ?_ hr
    obtain ⟨c, b', rfl, -⟩ := hn.head
    simp
  | string hok =>
    rw [List.cons_append, List.append_assoc]
    exact skipString_spell hok r
  | emptyArray hw => exact skipValue_container (.ws hw) false r
  | emptyObject hw => exact skipValue_container (.ws hw) true r
  | @array e es hws hd =>
    have helem : ∀ x ∈ e :: es, Neutral x.text := fun x hx => .element (hws x hx) (hd x hx).neutral
    have hothers : Neutral (Json.others (es.map Element.text)) := by
      refine .others fun x hx => ?_
      obtain ⟨y, hy, rfl⟩ := List.mem_map.1 hx
      exact helem y (List.mem_cons_of_mem e hy)
    rw [← List.append_assoc]
    exact skipValue_container ((helem e List.mem_cons_self).append hothers) false r
  | @object m ms hws hok hd =>
    have hmem : ∀ x ∈ m :: ms, Neutral x.text := fun x hx =>
      .member (hws x hx) (hok x hx) (hd x hx).neutral
    have hothers : Neutral (Json.others (ms.map Member.text)) := by
      refine .others fun x hx => ?_
      obtain ⟨y, hy, rfl⟩ := List.mem_map.1 hx
      exact hmem y (List.mem_cons_of_mem m hy)
    rw [← List.append_assoc]
    exact skipValue_container ((hmem m List.mem_cons_self).append hothers) true r

end Skips

/-! ## Decoding -/

/-- A character of the syntax, from its byte. -/
def asciiChar (c : UInt8) : Char := Char.ofNat c.toNat

/-- The characters an item is written with. -/
def Item.text : Item → List Char
  | plain c => [c]
  | short l => ['\\', asciiChar l]
  | unicode d₀ d₁ d₂ d₃ => ['\\', 'u', asciiChar d₀, asciiChar d₁, asciiChar d₂, asciiChar d₃]

section Decoding

variable {s : List Item} {x y : Item} {cs : List Char}

theorem Item.encode_text (h : x.Ok) : Utf8.encode x.text = x.bytes := by
  have hslash : String.utf8EncodeChar '\\' = [backslash] := by decide
  have hu : String.utf8EncodeChar 'u' = [letterU] := by decide
  cases x with
  | plain c => simp [text, bytes]
  | short l =>
    have hl : String.utf8EncodeChar (asciiChar l) = [l] := encode_ofNat (short_ascii h)
    simp only [text, bytes, Utf8.encode_cons, Utf8.encode_nil, hslash, hl, List.cons_append,
      List.nil_append, List.append_nil]
  | unicode d₀ d₁ d₂ d₃ =>
    have hd : ∀ d ∈ [d₀, d₁, d₂, d₃], String.utf8EncodeChar (asciiChar d) = [d] := fun d hd =>
      encode_ofNat (hexDigit_ascii (hex4_digits h d hd))
    simp only [List.mem_cons, List.not_mem_nil, or_false, forall_eq_or_imp, forall_eq] at hd
    obtain ⟨h₀, h₁, h₂, h₃⟩ := hd
    simp only [text, bytes, Utf8.encode_cons, Utf8.encode_nil, hslash, hu, h₀, h₁, h₂, h₃,
      List.cons_append, List.nil_append]

theorem encode_texts (hok : ∀ x ∈ s, x.Ok) : Utf8.encode (s.flatMap Item.text) = spell s := by
  induction s with
  | nil => rfl
  | cons x s ih =>
    rw [List.flatMap_cons, Utf8.encode_append, Item.encode_text (hok x List.mem_cons_self),
      ih fun y hy => hok y (List.mem_cons_of_mem x hy), spell_cons]

theorem toDigit_ascii {d : UInt8} (h : (hexDigit d).isSome = true) :
    toDigit (asciiChar d) = hexDigit d := by
  have hd := hexDigit_ascii h
  have hnat : (asciiChar d).toNat = d.toNat := ofNat_toNat hd
  rw [toDigit, hnat, if_pos hd, UInt8.ofNat_toNat]

/-- Four digits are read as the validator read them. -/
theorem hexChars_digits {d₀ d₁ d₂ d₃ : UInt8} {v : Nat} (h : hex4 d₀ d₁ d₂ d₃ = some v)
    (cs : List Char) :
    hexChars 4 0 (asciiChar d₀ :: asciiChar d₁ :: asciiChar d₂ :: asciiChar d₃ :: cs) =
      (some v, cs) := by
  have hsome : (hex4 d₀ d₁ d₂ d₃).isSome = true := by rw [h]; rfl
  have hd := hex4_digits hsome
  simp only [List.mem_cons, List.not_mem_nil, or_false, forall_eq_or_imp, forall_eq] at hd
  obtain ⟨h₀, h₁, h₂, h₃⟩ := hd
  simp only [hex4, Option.bind_eq_bind, Option.pure_def, Option.bind_eq_some_iff,
    Option.some.injEq] at h
  obtain ⟨v₀, e₀, v₁, e₁, v₂, e₂, v₃, e₃, rfl⟩ := h
  simp only [hexChars, toDigit_ascii h₀, toDigit_ascii h₁, toDigit_ascii h₂, toDigit_ascii h₃,
    e₀, e₁, e₂, e₃, Nat.zero_mul, Nat.zero_add]

theorem hexDigit_lt {d : UInt8} {v : Nat} (h : hexDigit d = some v) : v < 16 := by
  unfold hexDigit at h
  split at h
  · next hd =>
    simp only [isDigit, Bool.and_eq_true, decide_eq_true_eq, UInt8.le_iff_toNat_le] at hd
    have h9 : (0x39 : UInt8).toNat = 57 := rfl
    have := Option.some.inj h
    omega
  · split at h
    · next hd =>
      simp only [Bool.and_eq_true, decide_eq_true_eq, UInt8.le_iff_toNat_le] at hd
      have h6 : (0x66 : UInt8).toNat = 102 := rfl
      have := Option.some.inj h
      omega
    · split at h
      · next hd =>
        simp only [Bool.and_eq_true, decide_eq_true_eq, UInt8.le_iff_toNat_le] at hd
        have h6 : (0x46 : UInt8).toNat = 70 := rfl
        have := Option.some.inj h
        omega
      · cases h

theorem hex4_lt {d₀ d₁ d₂ d₃ : UInt8} {v : Nat} (h : hex4 d₀ d₁ d₂ d₃ = some v) : v < 0x10000 := by
  simp only [hex4, Option.bind_eq_bind, Option.pure_def, Option.bind_eq_some_iff,
    Option.some.injEq] at h
  obtain ⟨v₀, e₀, v₁, e₁, v₂, e₂, v₃, e₃, rfl⟩ := h
  have := hexDigit_lt e₀
  have := hexDigit_lt e₁
  have := hexDigit_lt e₂
  have := hexDigit_lt e₃
  omega

theorem fromU32_valid {v : Nat} (h : v.isValidChar) : fromU32 v = Char.ofNat v := if_pos h

theorem unescape_short {l : UInt8} (h : isShort l = true) :
    asciiChar l ≠ 'u' ∧ unescape (asciiChar l) = (Item.short l).char := by
  simp only [isShort, List.contains_iff_mem, List.mem_cons, List.not_mem_nil, or_false] at h
  rcases h with rfl | rfl | rfl | rfl | rfl | rfl | rfl | rfl <;> decide

theorem nextChar_char {c : Char} (h : c ≠ '\\') (cs : List Char) :
    nextChar (c :: cs) = some (c, cs) := by
  unfold nextChar
  exact if_pos h

theorem nextChar_escape (e : Char) (cs : List Char) :
    nextChar ('\\' :: e :: cs) =
      if e = 'u' then some (unicodeChar cs) else some (unescape e, cs) := rfl

/-- An item that is no surrogate is decoded. -/
theorem nextChar_item (h : x.Ok) (hhigh : x.isHigh = false) (hlow : x.isLow = false)
    (cs : List Char) : nextChar (x.text ++ cs) = some (x.char, cs) := by
  cases x with
  | plain c => exact nextChar_char h.2.2 cs
  | short l =>
    obtain ⟨hne, hchar⟩ := unescape_short h
    show nextChar ('\\' :: asciiChar l :: cs) = _
    rw [nextChar_escape, if_neg hne, hchar]
  | unicode d₀ d₁ d₂ d₃ =>
    obtain ⟨v, hv⟩ := Option.isSome_iff_exists.1 h
    rw [Item.isHigh, Item.unit, hv, Option.any_some] at hhigh
    rw [Item.isLow, Item.unit, hv, Option.any_some] at hlow
    have hvalid : v.isValidChar := by
      have := hex4_lt hv
      simp only [isHigh, isLow, Bool.and_eq_false_iff, decide_eq_false_iff_not] at hhigh hlow
      unfold Nat.isValidChar
      omega
    show nextChar ('\\' :: 'u' :: asciiChar d₀ :: asciiChar d₁ :: asciiChar d₂ :: asciiChar d₃ :: cs) = _
    rw [nextChar_escape, if_pos rfl, unicodeChar, hexChars_digits hv]
    simp only [Option.getD_some, hhigh, Bool.false_eq_true, if_false, fromU32_valid hvalid,
      Item.char, hv]

/-- A pair of surrogates is decoded. -/
theorem nextChar_pair (hx : x.isHigh = true) (hy : y.isLow = true) (cs : List Char) :
    nextChar (x.text ++ (y.text ++ cs)) = some (pairChar x y, cs) := by
  obtain ⟨d₀, d₁, d₂, d₃, v, rfl, hv, hhigh⟩ := Item.surrogate hx
  obtain ⟨e₀, e₁, e₂, e₃, w, rfl, hw, hlow⟩ := Item.surrogate hy
  have hvalid : (0x10000 + (v - 0xD800) * 2 ^ 10 + (w - 0xDC00)).isValidChar := by
    simp only [isHigh, isLow, Bool.and_eq_true, decide_eq_true_eq] at hhigh hlow
    unfold Nat.isValidChar
    omega
  show nextChar ('\\' :: 'u' :: asciiChar d₀ :: asciiChar d₁ :: asciiChar d₂ :: asciiChar d₃ ::
    '\\' :: 'u' :: asciiChar e₀ :: asciiChar e₁ :: asciiChar e₂ :: asciiChar e₃ :: cs) = _
  rw [nextChar_escape, if_pos rfl, unicodeChar, hexChars_digits hv]
  simp only [Option.getD_some, hhigh, if_true, List.take_succ_cons, List.take_zero,
    List.drop_succ_cons, List.drop_zero, lowHalf, hexChars_digits hw, hlow,
    fromU32_valid hvalid, pairChar, Item.unit, hv, hw]
  rfl

theorem Item.text_length_pos (x : Item) : 0 < x.text.length := by
  cases x <;> exact Nat.zero_lt_succ _

/-- The characters of a whole string. -/
theorem collectChars_texts (hok : ∀ x ∈ s, x.Ok) (hp : Paired s) {fuel : Nat}
    (hfuel : (s.flatMap Item.text).length < fuel) :
    collectChars fuel (s.flatMap Item.text) = decode s := by
  induction s using Paired.induct generalizing fuel with
  | case1 =>
    obtain _ | fuel := fuel
    · omega
    · rfl
  | case2 x =>
    have hnext := nextChar_item (hok x List.mem_cons_self) hp.1 hp.2 []
    have hpos := x.text_length_pos
    rw [List.flatMap_cons, List.flatMap_nil, List.append_nil] at hfuel ⊢
    rw [List.append_nil] at hnext
    obtain _ | _ | fuel := fuel
    · omega
    · omega
    · rw [collectChars, hnext]
      rfl
  | case3 x y s hhigh ih =>
    rw [Paired, if_pos hhigh] at hp
    have hnext := nextChar_pair hhigh hp.1 (s.flatMap Item.text)
    have hpos := x.text_length_pos
    simp only [List.flatMap_cons, List.length_append] at hfuel ⊢
    obtain _ | fuel := fuel
    · omega
    · rw [collectChars, hnext, decode, if_pos hhigh]
      exact congrArg _ (ih (fun z hz => hok z (by simp [hz])) hp.2 (by omega))
  | case4 x y s hhigh ih =>
    rw [Paired, if_neg hhigh] at hp
    have hnext := nextChar_item (hok x List.mem_cons_self) (by simpa using hhigh) hp.1
      ((y :: s).flatMap Item.text)
    have hpos := x.text_length_pos
    rw [List.flatMap_cons, List.length_append] at hfuel
    rw [List.flatMap_cons]
    obtain _ | fuel := fuel
    · omega
    · rw [collectChars, hnext, decode, if_neg hhigh]
      exact congrArg _ (ih (fun z hz => hok z (List.mem_cons_of_mem x hz)) hp.2 (by omega))

/-- A string decodes to the characters it spells. -/
theorem chars_spell (hok : ∀ x ∈ s, x.Ok) (hp : Paired s) : (Str.mk (spell s)).chars = decode s := by
  have hlen : (s.flatMap Item.text).length < (spell s).length + 1 := by
    rw [← encode_texts hok]
    exact Nat.lt_succ_of_le (Utf8.length_le_encode _)
  rw [Str.chars, Utf8.chars?_eq_some.2 (encode_texts hok).symm]
  exact collectChars_texts hok hp hlen

/-! Without a backslash, the bytes are the string. -/

theorem spell_plain (h : (Str.mk (spell s)).isPlain = true) :
    spell s = Utf8.encode (decode s) := by
  have hno : backslash ∉ spell s := by simpa [Str.isPlain] using h
  have hplain : ∀ x ∈ s, ∃ c, x = .plain c := by
    intro x hx
    have hmem : ∀ b ∈ x.bytes, b ∈ spell s := fun b hb => List.mem_flatMap.2 ⟨x, hx, hb⟩
    cases x with
    | plain c => exact ⟨c, rfl⟩
    | short l => exact absurd (hmem backslash (by simp [Item.bytes])) hno
    | unicode d₀ d₁ d₂ d₃ => exact absurd (hmem backslash (by simp [Item.bytes])) hno
  clear h hno
  induction s using Paired.induct with
  | case1 => rfl
  | case2 x =>
    obtain ⟨c, rfl⟩ := hplain x List.mem_cons_self
    rfl
  | case3 x y s hhigh _ =>
    obtain ⟨c, rfl⟩ := hplain x List.mem_cons_self
    cases hhigh
  | case4 x y s hhigh ih =>
    obtain ⟨c, rfl⟩ := hplain x List.mem_cons_self
    rw [spell_cons, ih fun z hz => hplain z (List.mem_cons_of_mem _ hz), decode, if_neg hhigh]
    rfl

/-- Strings are compared decoded. -/
theorem eqStr_spell (hok : ∀ x ∈ s, x.Ok) (hp : Paired s) (cs : List Char) :
    (Str.mk (spell s)).eqStr cs = (decode s == cs) := by
  rw [Str.eqStr]
  split
  · next hplain =>
    rw [Bool.eq_iff_iff, beq_iff_eq, beq_iff_eq, spell_plain hplain]
    exact ⟨fun h => Utf8.encode_injective h, fun h => congrArg Utf8.encode h⟩
  · rw [chars_spell hok hp]

end Decoding

end NanoChrono.Json
