import NanoChrono.Json.Unique
import NanoChrono.Json.Write
import NanoChrono.Text.Decimal

/-! # What is written is read back

A written document is a text of the grammar: its strings are spelled with the escapes the writer chooses
(`itemOf`), its containers padded with the style's white space. So `parse` accepts it exactly within its
limits, and `toJson` of what it gives is the value that was written (`parse_write`). -/

namespace NanoChrono.Json

/-! ## Strings -/

/-- How a character is spelled. -/
def itemOf (c : Char) : Item :=
  if c = '"' then .short quote
  else if c = '\\' then .short backslash
  else if c = '\n' then .short letterN
  else if c = '\r' then .short letterR
  else if c = '\t' then .short letterT
  else if c = '\x08' then .short letterB
  else if c = '\x0c' then .short letterF
  else if c.toNat < 0x20 then
    .unicode (hexLower (c.toNat / 16 ^ 3 % 16)) (hexLower (c.toNat / 16 ^ 2 % 16))
      (hexLower (c.toNat / 16 % 16)) (hexLower (c.toNat % 16))
  else .plain c

/-- Small numbers are read back from their digits. -/
theorem hex4_padded : ∀ n < 0x20, hex4 (hexLower (n / 16 ^ 3 % 16)) (hexLower (n / 16 ^ 2 % 16))
    (hexLower (n / 16 % 16)) (hexLower (n % 16)) = some n := by decide

theorem bytes_itemOf (c : Char) : (itemOf c).bytes = escaped c := by
  rw [itemOf, escaped]
  split_ifs <;> rfl

/-- A character is spelled with a two-character escape, with a `\u` escape or as it is. -/
theorem itemOf_cases (c : Char) :
    (∃ l, itemOf c = .short l ∧ isShort l = true ∧ (Item.short l).char = c) ∨
    (c.toNat < 0x20 ∧ itemOf c = .unicode (hexLower (c.toNat / 16 ^ 3 % 16))
      (hexLower (c.toNat / 16 ^ 2 % 16)) (hexLower (c.toNat / 16 % 16)) (hexLower (c.toNat % 16))) ∨
    ((Item.plain c).Ok ∧ itemOf c = .plain c) := by
  rw [itemOf]
  split_ifs with h₁ h₂ h₃ h₄ h₅ h₆ h₇ hcontrol
  iterate 7 exact .inl ⟨_, rfl, by decide, by subst_vars; decide⟩
  · exact .inr (.inl ⟨hcontrol, rfl⟩)
  · exact .inr (.inr ⟨⟨by omega, h₁, h₂⟩, rfl⟩)

theorem ok_itemOf (c : Char) : (itemOf c).Ok := by
  rcases itemOf_cases c with ⟨l, hl, hshort, -⟩ | ⟨hcontrol, hc⟩ | ⟨hok, hc⟩
  · rw [hl]
    exact hshort
  · rw [hc, Item.Ok, hex4_padded _ hcontrol]
    rfl
  · rw [hc]
    exact hok

/-- Only control characters are written as a code unit. -/
theorem unit_itemOf {c : Char} {u : Nat} (h : (itemOf c).unit = some u) : u < 0x20 := by
  rcases itemOf_cases c with ⟨l, hl, -, -⟩ | ⟨hcontrol, hc⟩ | ⟨-, hc⟩
  · rw [hl] at h
    cases h
  · rw [hc, Item.unit, hex4_padded _ hcontrol] at h
    obtain rfl := Option.some.inj h
    exact hcontrol
  · rw [hc] at h
    cases h

/-- So no surrogate is. -/
theorem not_high_itemOf (c : Char) : (itemOf c).isHigh = false := by
  rw [Item.isHigh]
  rcases hu : (itemOf c).unit with _ | u
  · rfl
  · have hlt := unit_itemOf hu
    simp [isHigh]
    omega

theorem not_low_itemOf (c : Char) : (itemOf c).isLow = false := by
  rw [Item.isLow]
  rcases hu : (itemOf c).unit with _ | u
  · rfl
  · have hlt := unit_itemOf hu
    simp [isLow]
    omega

theorem char_itemOf (c : Char) : (itemOf c).char = c := by
  rcases itemOf_cases c with ⟨l, hl, -, hchar⟩ | ⟨hcontrol, hc⟩ | ⟨-, hc⟩
  · rw [hl, hchar]
  · rw [hc, Item.char, hex4_padded _ hcontrol, Option.getD_some, Char.ofNat_toNat]
  · rw [hc]
    rfl

/-- The items of a string. -/
def itemsOf (s : List Char) : List Item := s.map itemOf

theorem spell_itemsOf (s : List Char) : spell (itemsOf s) = s.flatMap escaped := by
  rw [spell, itemsOf, List.flatMap_map]
  simp only [bytes_itemOf]

theorem ok_itemsOf (s : List Char) : ∀ x ∈ itemsOf s, x.Ok := by
  intro x hx
  obtain ⟨c, -, rfl⟩ := List.mem_map.1 hx
  exact ok_itemOf c

theorem paired_itemsOf (s : List Char) : Paired (itemsOf s) := by
  induction s with
  | nil => trivial
  | cons c s ih => exact Paired.cons (not_high_itemOf c) (not_low_itemOf c) ih

/-- A string is the one its items spell. -/
theorem decode_itemsOf (s : List Char) : decode (itemsOf s) = s := by
  induction s with
  | nil => rfl
  | cons c s ih =>
    cases s with
    | nil =>
      show [(itemOf c).char] = _
      rw [char_itemOf]
    | cons d s =>
      show decode (itemOf c :: itemOf d :: itemsOf s) = _
      rw [decode, if_neg (by simp [not_high_itemOf]), char_itemOf]
      exact congrArg _ ih

theorem writeString_eq (s : List Char) : writeString s = quote :: (spell (itemsOf s) ++ [quote]) := by
  rw [writeString, spell_itemsOf]

/-- A key or a string is read back decoded. -/
theorem toString_spell {s : List Item} (hok : ∀ x ∈ s, x.Ok) (hp : Paired s) :
    (Str.mk (spell s)).toString = decode s := by
  rw [Str.toString, Str.asPlain]
  split
  next hplain =>
    rw [Utf8.chars?_eq_some.2 (spell_plain hplain)]
    rfl
  next => exact chars_spell hok hp

theorem toString_itemsOf (s : List Char) : (Str.mk (spell (itemsOf s))).toString = s := by
  rw [toString_spell (ok_itemsOf s) (paired_itemsOf s), decode_itemsOf]

/-! ## Integers -/

/-- A numeral's digits. -/
def numeral (n : Nat) : Bytes := (Nat.toDigits 10 n).map fun c => UInt8.ofNat c.toNat

theorem digit_byte {c : Char} (h : c.isDigit = true) :
    isDigit (UInt8.ofNat c.toNat) = true ∧ (UInt8.ofNat c.toNat).toNat = c.toNat := by
  have hc := Decimal.isDigit_iff.1 h
  rw [show '0'.toNat = 48 from rfl, show '9'.toNat = 57 from rfl] at hc
  have hnat : (UInt8.ofNat c.toNat).toNat = c.toNat := by
    rw [UInt8.toNat_ofNat']
    omega
  refine ⟨?_, hnat⟩
  simp only [isDigit, Bool.and_eq_true, decide_eq_true_eq, UInt8.le_iff_toNat_le, hnat]
  exact hc

theorem numeral_digits (n : Nat) : IsDigits (numeral n) := by
  intro b hb
  obtain ⟨c, hc, rfl⟩ := List.mem_map.1 hb
  exact (digit_byte ((Decimal.canonical_toDigits n).digits c hc)).1

/-- Digits are the number of their numeral. -/
theorem decimal_numeral (n : Nat) : decimal (numeral n) = n := by
  have hfold : ∀ (s : List Char) (v : Nat), (∀ c ∈ s, c.isDigit = true) →
      (s.map fun c => UInt8.ofNat c.toNat).foldl (fun v d => v * 10 + (d.toNat - 0x30)) v =
        Nat.ofDigitChars 10 s v := by
    intro s
    induction s with
    | nil => exact fun _ _ => rfl
    | cons c s ih =>
      intro v h
      rw [List.map_cons, List.foldl_cons, ih _ fun x hx => h x (List.mem_cons_of_mem c hx),
        (digit_byte (h c List.mem_cons_self)).2, Nat.ofDigitChars_cons, Nat.mul_comm]
      rfl
  rw [decimal, numeral, hfold _ _ (Decimal.canonical_toDigits n).digits]
  exact Decimal.value_toDigits n

/-- A numeral has no leading zero. -/
theorem numeral_integer (n : Nat) : numeral n = [zero] ∨
    ∃ d ds, numeral n = d :: ds ∧ isDigit d = true ∧ d ≠ zero ∧ IsDigits ds := by
  have hcan := Decimal.canonical_toDigits n
  have hdigits := numeral_digits n
  rcases Nat.eq_zero_or_pos n with rfl | hpos
  · exact .inl rfl
  · right
    rcases hs : Nat.toDigits 10 n with _ | ⟨c, s⟩
    · exact absurd hs Nat.toDigits_ne_nil
    · have hn : numeral n = UInt8.ofNat c.toNat :: s.map fun c => UInt8.ofNat c.toNat := by
        rw [numeral, hs, List.map_cons]
      have hc : c.isDigit = true := hcan.digits c (by rw [hs]; exact List.mem_cons_self)
      refine ⟨_, _, hn, (digit_byte hc).1, fun h0 => ?_, fun b hb =>
        hdigits b (by rw [hn]; exact List.mem_cons_of_mem _ hb)⟩
      have hzero : c = '0' := Char.toNat_inj.1 (by rw [← (digit_byte hc).2, h0]; rfl)
      exact Decimal.head_toDigits hpos (by rw [hs, List.head?_cons, hzero])

theorem writeInt_eq (v : Int64) :
    writeInt v = (if v.toInt < 0 then [minus] else []) ++ numeral v.toInt.natAbs := rfl

theorem isNumber_writeInt (v : Int64) : IsNumber (writeInt v) := by
  refine ⟨⟨if v.toInt < 0 then [minus] else [], numeral v.toInt.natAbs, [], []⟩,
    ⟨?_, numeral_integer _, .inl rfl, .inl rfl⟩, by simp [writeInt_eq]⟩
  dsimp only
  split
  · exact .inr rfl
  · exact .inl rfl

theorem length_writeInt (v : Int64) : (writeInt v).length ≤ 64 := by
  have hlow := v.le_toInt
  have hhigh := v.toInt_lt
  have hdigits : (numeral v.toInt.natAbs).length ≤ 19 := by
    rw [numeral, List.length_map, Nat.length_toDigits_le_iff (by decide) (by decide)]
    have hsize : (2 : Nat) ^ 63 < 10 ^ 19 := by decide
    omega
  rw [writeInt_eq, List.length_append]
  split <;> simp <;> omega

/-- An integer is read back. -/
theorem asI64_writeInt (v : Int64) : (Ast.number (writeInt v)).asI64 = some v.toInt := by
  have hlow := v.le_toInt
  have hhigh := v.toInt_lt
  have hall : (numeral v.toInt.natAbs).all isDigit = true :=
    List.all_eq_true.2 (numeral_digits v.toInt.natAbs)
  rw [Ast.asI64, writeInt_eq]
  by_cases hneg : v.toInt < 0
  · rw [if_pos hneg, List.singleton_append, List.head?_cons, if_pos rfl, List.tail_cons,
      decimal_numeral, if_pos ⟨hall, by omega⟩]
    congr 1
    omega
  · rw [if_neg hneg, List.nil_append]
    have hhead : (numeral v.toInt.natAbs).head? ≠ some minus := by
      rcases hn : numeral v.toInt.natAbs with _ | ⟨d, ds⟩
      · simp
      · have hd := numeral_digits v.toInt.natAbs d (by rw [hn]; exact List.mem_cons_self)
        rintro ⟨⟩
        exact absurd hd (by decide)
    rw [if_neg hhead, decimal_numeral, if_pos ⟨hall, by omega⟩]
    congr 1
    omega

/-! ## Documents -/

/-- Values are built from the inside out. -/
@[elab_as_elim]
theorem Owned.ind {P : Owned → Prop} (null : P .null) (bool : ∀ b, P (.bool b)) (int : ∀ v, P (.int v))
    (str : ∀ s, P (.str s)) (arr : ∀ items, (∀ x ∈ items, P x) → P (.arr items))
    (obj : ∀ members, (∀ m ∈ members, P m.2) → P (.obj members)) : ∀ j, P j
  | .null => null
  | .bool b => bool b
  | .int v => int v
  | .str s => str s
  | .arr items => arr items fun x _ => ind null bool int str arr obj x
  | .obj members => obj members fun m _ => ind null bool int str arr obj m.2
termination_by j => sizeOf j
decreasing_by
  · have := List.sizeOf_lt_of_mem ‹x ∈ items›
    simp only [Owned.arr.sizeOf_spec]
    omega
  · have := List.sizeOf_lt_of_mem ‹m ∈ members›
    have : sizeOf m = 1 + sizeOf m.1 + sizeOf m.2 := rfl
    simp only [Owned.obj.sizeOf_spec]
    omega

theorem attach_map {α β : Type} (l : List α) (f : α → β) : (l.attach.map fun x => f x.1) = l.map f :=
  List.attach_map_val

namespace Owned

theorem writeInto_arr (style : Style) (indent : Nat) (items : List Owned) :
    writeInto style indent (.arr items) =
      openBracket :: (joined (items.map fun x =>
          newline style (indent + 1) ++ writeInto style (indent + 1) x) ++
        ((if items = [] then [] else newline style indent) ++ [closeBracket])) := by
  rw [writeInto, attach_map items fun x => newline style (indent + 1) ++ writeInto style (indent + 1) x]

theorem writeInto_obj (style : Style) (indent : Nat) (members : List (List Char × Owned)) :
    writeInto style indent (.obj members) =
      openBrace :: (joined ((order style members).map fun m =>
          newline style (indent + 1) ++ (writeString m.1 ++ (colon ::
            ((if style.pretty then [0x20] else []) ++ writeInto style (indent + 1) m.2)))) ++
        ((if members = [] then [] else newline style indent) ++ [closeBrace])) := by
  rw [writeInto, attach_map (order style members) fun m =>
    newline style (indent + 1) ++ (writeString m.1 ++ (colon ::
      ((if style.pretty then [0x20] else []) ++ writeInto style (indent + 1) m.2)))]

/-- The tree of a written document. -/
def ast (style : Style) : Owned → Ast
  | null => .null
  | bool b => .bool b
  | int v => .number (writeInt v)
  | str s => .string (itemsOf s)
  | arr items => .array (items.attach.map fun x => ast style x.1)
  | obj members => .object ((order style members).attach.map fun m => (itemsOf m.1.1, ast style m.1.2))
termination_by j => sizeOf j
decreasing_by
  · have := List.sizeOf_lt_of_mem x.2
    simp only [arr.sizeOf_spec]
    omega
  · have := List.sizeOf_lt_of_mem (mem_order.1 m.2)
    have : sizeOf m.1 = 1 + sizeOf m.1.1 + sizeOf m.1.2 := rfl
    simp only [obj.sizeOf_spec]
    omega

theorem ast_arr (style : Style) (items : List Owned) :
    ast style (.arr items) = .array (items.map (ast style)) := by
  rw [ast, attach_map items (ast style)]

theorem ast_obj (style : Style) (members : List (List Char × Owned)) :
    ast style (.obj members) =
      .object ((order style members).map fun m => (itemsOf m.1, ast style m.2)) := by
  rw [ast, attach_map (order style members) fun m => (itemsOf m.1, ast style m.2)]

end Owned

/-- The last of a list treated apart. -/
@[grind =] def withLast {α β : Type} (f g : α → β) : List α → List β
  | [] => []
  | [x] => [g x]
  | x :: y :: l => f x :: withLast f g (y :: l)

section WithLast

variable {α β γ : Type} {f g : α → β}

theorem map_withLast (h : β → γ) (k : α → γ) (hf : ∀ x, h (f x) = k x) (hg : ∀ x, h (g x) = k x)
    (l : List α) : (withLast f g l).map h = l.map k := by
  induction l using withLast.induct with
  | case1 => rfl
  | case2 x => simp [withLast, hg]
  | case3 x y l ih =>
    rw [withLast, List.map_cons, ih, hf]
    rfl

theorem mem_withLast {l : List α} {y : β} (h : y ∈ withLast f g l) :
    ∃ x ∈ l, y = f x ∨ y = g x := by
  induction l using withLast.induct with
  | case1 => cases h
  | case2 x =>
    obtain rfl := List.mem_singleton.1 h
    exact ⟨x, List.mem_cons_self, .inr rfl⟩
  | case3 x z l ih =>
    rcases List.mem_cons.1 h with rfl | h
    · exact ⟨x, List.mem_cons_self, .inl rfl⟩
    · obtain ⟨w, hw, hy⟩ := ih h
      exact ⟨w, List.mem_cons_of_mem x hw, hy⟩

/-- What the last one has behind it comes at the end. -/
theorem joined_withLast (text : β → Bytes) (t : α → Bytes) (after : Bytes) (hf : ∀ x, text (f x) = t x)
    (hg : ∀ x, text (g x) = t x ++ after) {l : List α} (hl : l ≠ []) :
    joined ((withLast f g l).map text) = joined (l.map t) ++ after := by
  induction l using withLast.induct with
  | case1 => exact absurd rfl hl
  | case2 x => simp [withLast, joined, hg]
  | case3 x y l ih =>
    have hrest := ih (by simp)
    rcases hw : (withLast f g (y :: l)).map text with _ | ⟨z, zs⟩
    · rw [List.map_eq_nil_iff] at hw
      cases l <;> cases hw
    · rw [hw, joined] at hrest
      rw [withLast, List.map_cons, hw, List.map_cons, joined, hf, List.flatMap_cons, List.cons_append,
        hrest, List.map_cons, joined, joined, List.flatMap_cons]
      simp only [List.append_assoc, List.cons_append]

end WithLast

theorem newline_ws (style : Style) (indent : Nat) : IsWs (newline style indent) := by
  intro c hc
  rw [newline] at hc
  split at hc
  · rcases List.mem_cons.1 hc with rfl | hc
    · rfl
    · obtain ⟨l, hl, hc⟩ := List.mem_flatten.1 hc
      rw [List.eq_of_mem_replicate hl] at hc
      simp only [List.mem_cons, List.not_mem_nil, or_false, or_self] at hc
      rw [hc]
      rfl
  · cases hc

theorem isWs_nil : IsWs [] := fun _ h => by cases h

theorem derives_elements {es : List Element} (hne : es ≠ [])
    (hws : ∀ x ∈ es, IsWs x.before ∧ IsWs x.after) (hd : ∀ x ∈ es, Derives x.ast x.bytes) :
    Derives (.array (es.map Element.ast))
      (openBracket :: (joined (es.map Element.text) ++ [closeBracket])) := by
  cases es with
  | nil => exact absurd rfl hne
  | cons e es =>
    have h := Derives.array hws hd
    rwa [← List.append_assoc] at h

theorem derives_members {ms : List Member} (hne : ms ≠ [])
    (hws : ∀ x ∈ ms, IsWs x.before ∧ IsWs x.colonBefore ∧ IsWs x.colonAfter ∧ IsWs x.after)
    (hok : ∀ x ∈ ms, ∀ i ∈ x.key, i.Ok) (hd : ∀ x ∈ ms, Derives x.ast x.bytes) :
    Derives (.object (ms.map fun x => (x.key, x.ast)))
      (openBrace :: (joined (ms.map Member.text) ++ [closeBrace])) := by
  cases ms with
  | nil => exact absurd rfl hne
  | cons m ms =>
    have h := Derives.object hws hok hd
    rwa [← List.append_assoc] at h

/-- An array laid out with white space before each element and before the end. -/
theorem derives_array {before after : Bytes} (hbefore : IsWs before) (hafter : IsWs after)
    {items : List Owned} {tree : Owned → Ast} {text : Owned → Bytes}
    (h : ∀ x ∈ items, Derives (tree x) (text x)) :
    Derives (.array (items.map tree))
      (openBracket :: (joined (items.map fun x => before ++ text x) ++
        ((if items = [] then [] else after) ++ [closeBracket]))) := by
  by_cases hne : items = []
  · subst hne
    exact .emptyArray isWs_nil
  · let padded (after : Bytes) (x : Owned) : Element := ⟨before, tree x, text x, after⟩
    have hes : withLast (padded []) (padded after) items ≠ [] := by
      rcases items with _ | ⟨x, _ | ⟨y, l⟩⟩
      · exact absurd rfl hne
      · simp [withLast]
      · simp [withLast]
    have hd := derives_elements hes
      (fun y hy => by
        obtain ⟨x, -, rfl | rfl⟩ := mem_withLast hy
        · exact ⟨hbefore, isWs_nil⟩
        · exact ⟨hbefore, hafter⟩)
      (fun y hy => by
        obtain ⟨x, hx, rfl | rfl⟩ := mem_withLast hy <;> exact h x hx)
    rw [map_withLast Element.ast tree (fun _ => rfl) (fun _ => rfl),
      joined_withLast Element.text (fun x => before ++ text x) after
        (fun _ => by simp [padded, Element.text]) (fun _ => by simp [padded, Element.text]) hne,
      List.append_assoc] at hd
    rwa [if_neg hne]

/-- An object likewise, with white space between a colon and its value. -/
theorem derives_object {before space after : Bytes} (hbefore : IsWs before) (hspace : IsWs space)
    (hafter : IsWs after) (members : List (List Char × Owned)) {tree : Owned → Ast}
    {text : Owned → Bytes} (h : ∀ m ∈ members, Derives (tree m.2) (text m.2)) :
    Derives (.object (members.map fun m => (itemsOf m.1, tree m.2)))
      (openBrace :: (joined (members.map fun m =>
          before ++ (writeString m.1 ++ (colon :: (space ++ text m.2)))) ++
        ((if members = [] then [] else after) ++ [closeBrace]))) := by
  by_cases hne : members = []
  · subst hne
    exact .emptyObject isWs_nil
  · let padded (after : Bytes) (m : List Char × Owned) : Member :=
      ⟨before, itemsOf m.1, [], space, tree m.2, text m.2, after⟩
    have hms : withLast (padded []) (padded after) members ≠ [] := by
      rcases members with _ | ⟨x, _ | ⟨y, l⟩⟩
      · exact absurd rfl hne
      · simp [withLast]
      · simp [withLast]
    have hd := derives_members hms
      (fun y hy => by
        obtain ⟨m, -, rfl | rfl⟩ := mem_withLast hy
        · exact ⟨hbefore, isWs_nil, hspace, isWs_nil⟩
        · exact ⟨hbefore, isWs_nil, hspace, hafter⟩)
      (fun y hy => by
        obtain ⟨m, -, rfl | rfl⟩ := mem_withLast hy <;> exact ok_itemsOf m.1)
      (fun y hy => by
        obtain ⟨m, hm, rfl | rfl⟩ := mem_withLast hy <;> exact h m hm)
    rw [map_withLast (fun x : Member => (x.key, x.ast)) (fun m => (itemsOf m.1, tree m.2))
        (fun _ => rfl) (fun _ => rfl),
      joined_withLast Member.text
        (fun m => before ++ (writeString m.1 ++ (colon :: (space ++ text m.2)))) after
        (fun _ => by simp [padded, Member.text, writeString_eq])
        (fun _ => by simp [padded, Member.text, writeString_eq]) hne,
      List.append_assoc] at hd
    rwa [if_neg hne]

namespace Owned

/-- A written document is derived by the grammar. -/
theorem derives (style : Style) (j : Owned) (indent : Nat) :
    Derives (j.ast style) (j.writeInto style indent) := by
  induction j using Owned.ind generalizing indent with
  | null =>
    rw [ast, writeInto]
    exact .null
  | bool b =>
    rw [ast, writeInto]
    cases b
    · exact .false_
    · exact .true_
  | int v =>
    rw [ast, writeInto]
    exact .number (isNumber_writeInt v)
  | str s =>
    rw [ast, writeInto, writeString_eq]
    exact .string (ok_itemsOf s)
  | arr items ih =>
    rw [ast_arr, writeInto_arr]
    exact derives_array (newline_ws style (indent + 1)) (newline_ws style indent)
      fun x hx => ih x hx (indent + 1)
  | obj members ih =>
    have hspace : IsWs (if style.pretty then [0x20] else []) := by
      split
      · exact fun c hc => by rw [List.mem_singleton.1 hc]; rfl
      · exact isWs_nil
    have hempty : order style members = [] ↔ members = [] := by
      simp only [List.eq_nil_iff_forall_not_mem, mem_order]
    have hd := derives_object (newline_ws style (indent + 1)) hspace (newline_ws style indent)
      (order style members) fun m hm => ih m (mem_order.1 hm) (indent + 1)
    rw [ast_obj, writeInto_obj]
    simpa only [hempty] using hd

end Owned

/-! ## Limits -/

/-- At most `d` levels are nested, and every string as it is written has at most `maxString` bytes between
its quotes. -/
inductive Owned.Within (maxString : Nat) : Nat → Owned → Prop
  | null {d : Nat} : Within maxString d .null
  | bool {d : Nat} (b : Bool) : Within maxString d (.bool b)
  | int {d : Nat} (v : Int64) : Within maxString d (.int v)
  | str {d : Nat} {s : List Char} : (s.flatMap escaped).length ≤ maxString → Within maxString d (.str s)
  | arr {d : Nat} {items : List Owned} : (∀ x ∈ items, Within maxString d x) →
      Within maxString (d + 1) (.arr items)
  | obj {d : Nat} {members : List (List Char × Owned)} :
      (∀ m ∈ members, (m.1.flatMap escaped).length ≤ maxString) →
      (∀ m ∈ members, Within maxString d m.2) → Within maxString (d + 1) (.obj members)

theorem Owned.fits_iff {style : Style} {limits : Limits} {j : Owned} {d : Nat} :
    Fits limits d (j.ast style) ↔ j.Within limits.maxString d := by
  induction j using Owned.ind generalizing d with
  | null =>
    rw [ast]
    exact ⟨fun _ => .null, fun _ => .null⟩
  | bool b =>
    rw [ast]
    exact ⟨fun _ => .bool b, fun _ => .bool b⟩
  | int v =>
    rw [ast]
    exact ⟨fun _ => .int v, fun _ => .number (length_writeInt v)⟩
  | str s =>
    rw [ast]
    constructor
    · rintro ⟨⟩
      next h => exact .str (by rw [← spell_itemsOf]; exact h.1)
    · rintro ⟨⟩
      next h => exact .string ⟨by rw [spell_itemsOf]; exact h, paired_itemsOf s⟩
  | arr items ih =>
    rw [ast_arr]
    constructor
    · rintro ⟨⟩
      next h => exact .arr fun x hx => (ih x hx).1 (h _ (List.mem_map_of_mem hx))
    · rintro ⟨⟩
      next h =>
        refine .array fun y hy => ?_
        obtain ⟨x, hx, rfl⟩ := List.mem_map.1 hy
        exact (ih x hx).2 (h x hx)
  | obj members ih =>
    rw [ast_obj]
    constructor
    · rintro ⟨⟩
      next hkeys h =>
        refine .obj (fun m hm => ?_) fun m hm => ?_
        · rw [← spell_itemsOf]
          exact (hkeys _ (List.mem_map_of_mem (mem_order.2 hm))).1
        · exact (ih m hm).1 (h _ (List.mem_map_of_mem (mem_order.2 hm)))
    · rintro ⟨⟩
      next hkeys h =>
        refine .object (fun y hy => ?_) fun y hy => ?_
        · obtain ⟨m, hm, rfl⟩ := List.mem_map.1 hy
          exact ⟨by rw [spell_itemsOf]; exact hkeys m (mem_order.1 hm), paired_itemsOf m.1⟩
        · obtain ⟨m, hm, rfl⟩ := List.mem_map.1 hy
          exact (ih m (mem_order.1 hm)).2 (h m (mem_order.1 hm))

/-! ## Reading back -/

/-- A value with the members of each object sorted by key. -/
def Owned.sorted : Owned → Owned
  | null => .null
  | bool b => .bool b
  | int v => .int v
  | str s => .str s
  | arr items => .arr (items.attach.map fun x => sorted x.1)
  | obj members => .obj ((sortMembers members).attach.map fun m => (m.1.1, sorted m.1.2))
termination_by j => sizeOf j
decreasing_by
  · have := List.sizeOf_lt_of_mem x.2
    simp only [arr.sizeOf_spec]
    omega
  · have := List.sizeOf_lt_of_mem ((sortMembers_perm members).mem_iff.1 m.2)
    have : sizeOf m.1 = 1 + sizeOf m.1.1 + sizeOf m.1.2 := rfl
    simp only [obj.sizeOf_spec]
    omega

/-- A value as it is read back. -/
def Owned.reordered (style : Style) (j : Owned) : Owned := if style.sortKeys then j.sorted else j

theorem Owned.reordered_of_sort {style : Style} (h : style.sortKeys = true) :
    reordered style = sorted := by
  funext j
  rw [reordered, if_pos h]

theorem Owned.reordered_of_not_sort {style : Style} (h : ¬ style.sortKeys = true) :
    reordered style = id := by
  funext j
  rw [reordered, if_neg h]
  rfl

theorem Owned.reordered_arr (style : Style) (items : List Owned) :
    (Owned.arr items).reordered style = .arr (items.map (reordered style)) := by
  by_cases hsort : style.sortKeys = true
  · rw [reordered_of_sort hsort, sorted, attach_map items sorted]
  · rw [reordered_of_not_sort hsort, List.map_id]
    rfl

theorem Owned.reordered_obj (style : Style) (members : List (List Char × Owned)) :
    (Owned.obj members).reordered style =
      .obj ((order style members).map fun m => (m.1, m.2.reordered style)) := by
  by_cases hsort : style.sortKeys = true
  · rw [reordered_of_sort hsort, sorted, order, if_pos hsort,
      attach_map (sortMembers members) fun m => (m.1, m.2.sorted)]
  · rw [reordered_of_not_sort hsort, order, if_neg hsort]
    show Owned.obj members = .obj (members.map id)
    rw [List.map_id]

theorem mapM_attach {α β : Type} (l : List α) (f : α → Option β) :
    (l.attach.mapM fun x => f x.1) = l.mapM f := by
  have h := List.mapM_map (m := Option) (f := Subtype.val) (g := f) (l := l.attach)
  rwa [List.attach_map_subtype_val, eq_comm] at h

theorem mapM_some {α β : Type} {f : α → Option β} {l : List α} {l' : List β}
    (h : List.Forall₂ (fun a b => f a = some b) l l') : l.mapM f = some l' := by
  induction h with
  | nil => rfl
  | cons hab _ ih => rw [List.mapM_cons, hab, ih]; rfl

/-- A scalar is not reordered. -/
theorem Owned.reordered_scalar {style : Style} {j : Owned} (h : j.sorted = j) : j.reordered style = j := by
  rw [reordered, h, ite_self]

/-- A written value that stands in a text is read back. -/
theorem Stands.toJson {style : Style} {j : Owned} {v : Value} {b r : Bytes}
    (h : Stands v (j.ast style) b r) : v.toJson = some (j.reordered style) := by
  induction j using Owned.ind generalizing v b r with
  | null =>
    rw [Owned.ast] at h
    rw [Value.toJson, h.kind, Owned.reordered_scalar (by rw [Owned.sorted])]
    rfl
  | bool c =>
    rw [Owned.ast] at h
    rw [Value.toJson, h.kind, h.asBool, Owned.reordered_scalar (by rw [Owned.sorted])]
    rfl
  | int i =>
    rw [Owned.ast] at h
    rw [Value.toJson, h.kind, h.asI64, asI64_writeInt, Owned.reordered_scalar (by rw [Owned.sorted])]
    show some (Owned.int (Int64.ofInt i.toInt)) = _
    rw [Int64.ofInt_toInt]
  | str s =>
    rw [Owned.ast] at h
    rw [Value.toJson, h.kind, h.asStr, Owned.reordered_scalar (by rw [Owned.sorted])]
    show some (Owned.str (Str.mk (spell (itemsOf s))).toString) = _
    rw [toString_itemsOf]
  | arr items ih =>
    rw [Owned.ast_arr] at h
    have helems := h.elements_ast
    rw [List.forall₂_map_right_iff] at helems
    have hread : v.elements.mapM Value.toJson = some (items.map (Owned.reordered style)) := by
      refine mapM_some ?_
      rw [List.forall₂_map_right_iff, List.forall₂_iff_get]
      rw [List.forall₂_iff_get] at helems
      refine ⟨helems.1, fun i hi hi' => ?_⟩
      obtain ⟨b', r', hw⟩ := helems.2 i hi hi'
      exact ih _ (List.get_mem items ⟨i, hi'⟩) hw
    rw [Value.toJson, h.kind, Owned.reordered_arr]
    show (v.elements.attach.mapM fun w => Value.toJson w.1).map Owned.arr = _
    rw [mapM_attach, hread]
    rfl
  | obj members ih =>
    rw [Owned.ast_obj] at h
    have hmems := h.members_ast
    rw [List.forall₂_map_right_iff] at hmems
    have hread : (v.members.mapM fun p => p.2.toJson.map fun j => (p.1.toString, j)) =
        some ((order style members).map fun m => (m.1, m.2.reordered style)) := by
      refine mapM_some ?_
      rw [List.forall₂_map_right_iff, List.forall₂_iff_get]
      rw [List.forall₂_iff_get] at hmems
      refine ⟨hmems.1, fun i hi hi' => ?_⟩
      obtain ⟨hkey, -, b', r', hw⟩ := hmems.2 i hi hi'
      have hmem := mem_order.1 (List.get_mem (order style members) ⟨i, hi'⟩)
      rw [ih _ hmem hw, hkey, toString_itemsOf]
      rfl
    rw [Value.toJson, h.kind, Owned.reordered_obj]
    show (v.members.attach.mapM fun m =>
      (Value.toJson m.1.2).map fun j => (Str.toString m.1.1, j)).map Owned.obj = _
    rw [mapM_attach v.members fun p => p.2.toJson.map fun j => (p.1.toString, j), hread]
    rfl

/-! ## The document -/

/-- A document in a style is a text with its tree. -/
theorem isText_write (style : Style) (j : Owned) : IsText (j.ast style) (j.write style) := by
  refine ⟨[], j.writeInto style 0, if style.pretty then [0x0A] else [], isWs_nil, ?_, rfl,
    j.derives style 0⟩
  split
  · exact fun c hc => by rw [List.mem_singleton.1 hc]; rfl
  · exact isWs_nil

/-- A written document is accepted exactly within the limits, whichever the style, and what is read back
is the value that was written, with its members in the order they were written in: sorted by key or as
they were. -/
theorem parse_write (j : Owned) (style : Style) (limits : Limits) :
    ((∃ v, parse (j.write style) limits = .ok v) ↔
      (j.write style).length ≤ limits.maxLen ∧
        j.Within limits.maxString (min limits.maxDepth 64)) ∧
    ∀ v, parse (j.write style) limits = .ok v →
      v.toJson = some (if style.sortKeys then j.sorted else j) := by
  have htext := isText_write style j
  refine ⟨⟨?_, ?_⟩, ?_⟩
  · rintro ⟨v, hv⟩
    obtain ⟨hlen, w, a, b, w', hw, hw', ht, hd, hfit, -⟩ := parse_ok hv
    have ha : IsText a (j.write style) := ⟨w, b, w', hw, hw', ht, hd⟩
    rw [ha.unique htext] at hfit
    exact ⟨hlen, Owned.fits_iff.1 hfit⟩
  · rintro ⟨hlen, hwithin⟩
    exact parse_text hlen htext (Owned.fits_iff.2 hwithin)
  · intro v hv
    obtain ⟨-, w, a, b, w', hw, hw', ht, hd, -, rfl⟩ := parse_ok hv
    obtain rfl : a = j.ast style := IsText.unique ⟨w, b, w', hw, hw', ht, hd⟩ htext
    have hends : Ends w' := by simpa using hw'.ends Ends.nil
    exact Stands.toJson ⟨rfl, rfl, hd, hends⟩

/-- A line feed, a character beyond the first plane and a negative number, indented. -/
theorem parse_write_pretty :
    ∃ v, parse ((Owned.arr [.str ['\n', '😀'], .int (-1)]).write .PRETTY) .DATABASE = .ok v ∧
      v.toJson = some (.arr [.str ['\n', '😀'], .int (-1)]) := by
  have hwritten := parse_write (.arr [.str ['\n', '😀'], .int (-1)]) .PRETTY .DATABASE
  have hlen : ((Owned.arr [.str ['\n', '😀'], .int (-1)]).write .PRETTY).length ≤
      Limits.DATABASE.maxLen := by
    rw [Owned.write, Owned.writeInto_arr, List.map_cons, List.map_cons, Owned.writeInto, Owned.writeInto]
    decide
  have hwithin : (Owned.arr [.str ['\n', '😀'], .int (-1)]).Within Limits.DATABASE.maxString
      (min Limits.DATABASE.maxDepth 64) := by
    refine .arr fun x hx => ?_
    rcases List.mem_cons.1 hx with rfl | hx
    · exact .str (by decide)
    · obtain rfl := List.mem_singleton.1 hx
      exact .int _
  obtain ⟨v, hv⟩ := hwritten.1.2 ⟨hlen, hwithin⟩
  exact ⟨v, hv, hwritten.2 v hv⟩

end NanoChrono.Json
