import NanoChrono.Json.Reads

/-! # A text has one syntax tree

The grammar is unambiguous: the values navigation finds in a text do not depend on how the text was
derived, so two derivations agree item by item (`Derives.unique`). With it `parse_exact` says what
`parse` accepts and what navigation shows of it. -/

namespace NanoChrono.Json

section Unique

variable {v : Value} {a a' : Ast} {b r t t' : Bytes} {s s' : List Item} {x y : Item}

/-! ## Strings -/

/-- Where an item starts, no other does. -/
theorem Item.bytes_inj (hx : x.Ok) (hy : y.Ok) (h : x.bytes ++ t = y.bytes ++ t') :
    x = y ∧ t = t' := by
  -- A plain character does not start with a backslash.
  have hplain : ∀ {c : Char} {u u' : Bytes}, Item.Ok (.plain c) →
      (Item.plain c).bytes ++ u = backslash :: u' → False := by
    intro c u u' hc he
    rcases hb : (Item.plain c).bytes with _ | ⟨d, ds⟩
    · exact String.utf8EncodeChar_ne_nil hb
    · have hd := (plain_bytes hc d (by rw [hb]; exact List.mem_cons_self)).2
      rw [hb] at he
      exact hd (List.cons.inj he).1
  cases x with
  | plain c =>
    cases y with
    | plain d =>
      have hhead := Utf8.head_append c t
      rw [show String.utf8EncodeChar c ++ t = String.utf8EncodeChar d ++ t' from h,
        Utf8.head_append] at hhead
      obtain rfl := Option.some.inj hhead
      exact ⟨rfl, List.append_cancel_left h⟩
    | short l => exact absurd h fun h => hplain hx h
    | unicode d₀ d₁ d₂ d₃ => exact absurd h fun h => hplain hx h
  | short l =>
    cases y with
    | plain d => exact absurd h fun h => hplain hy h.symm
    | short l' =>
      simp only [bytes, List.cons_append, List.nil_append, List.cons.injEq, true_and] at h
      exact ⟨by rw [h.1], h.2⟩
    | unicode d₀ d₁ d₂ d₃ =>
      simp only [bytes, List.cons_append, List.nil_append, List.cons.injEq, true_and] at h
      exact absurd h.1 (short_ne_letterU hx)
  | unicode d₀ d₁ d₂ d₃ =>
    cases y with
    | plain d => exact absurd h fun h => hplain hy h.symm
    | short l' =>
      simp only [bytes, List.cons_append, List.nil_append, List.cons.injEq, true_and] at h
      exact absurd h.1.symm (short_ne_letterU hy)
    | unicode e₀ e₁ e₂ e₃ =>
      simp only [bytes, List.cons_append, List.nil_append, List.cons.injEq, true_and] at h
      obtain ⟨rfl, rfl, rfl, rfl, rfl⟩ := h
      exact ⟨rfl, rfl⟩

theorem spell_injective (hs : ∀ x ∈ s, x.Ok) (hs' : ∀ x ∈ s', x.Ok) (h : spell s = spell s') :
    s = s' := by
  induction s generalizing s' with
  | nil =>
    cases s' with
    | nil => rfl
    | cons y s' =>
      have := y.bytes_length_pos
      have := congrArg List.length h
      rw [spell_cons, List.length_append, spell_nil, List.length_nil] at this
      omega
  | cons x s ih =>
    cases s' with
    | nil =>
      have := x.bytes_length_pos
      have := congrArg List.length h
      rw [spell_cons, List.length_append, spell_nil, List.length_nil] at this
      omega
    | cons y s' =>
      rw [spell_cons, spell_cons] at h
      obtain ⟨rfl, hrest⟩ := Item.bytes_inj (hs x List.mem_cons_self) (hs' y List.mem_cons_self) h
      rw [ih (fun z hz => hs z (List.mem_cons_of_mem x hz))
        (fun z hz => hs' z (List.mem_cons_of_mem x hz)) hrest]

/-! ## Containers -/

/-- The elements navigation finds, whichever way the array was derived. -/
theorem Stands.elements_ast {xs : List Ast} (h : Stands v (.array xs) b r) :
    List.Forall₂ (fun w x => ∃ b r, Stands w x b r) v.elements xs := by
  have hd := h.derives
  cases hd with
  | emptyArray hw =>
    rw [Value.elements, Elements.collect_end (r := r) hw (by rw [h.text]; simp)]
    exact .nil
  | array hws hd =>
    rw [List.forall₂_map_right_iff]
    exact (h.elements hws hd rfl).imp fun _ e he => ⟨e.bytes, he⟩

theorem Stands.members_ast {ms : List (List Item × Ast)} (h : Stands v (.object ms) b r) :
    List.Forall₂ (fun p m => p.1 = ⟨spell m.1⟩ ∧ (∀ i ∈ m.1, i.Ok) ∧ ∃ b r, Stands p.2 m.2 b r)
      v.members ms := by
  have hd := h.derives
  cases hd with
  | emptyObject hw =>
    rw [Value.members, Members.collect_end (r := r) hw (by rw [h.text]; simp)]
    exact .nil
  | @object m ms hws hok hd =>
    have hmems := h.members hws hok hd rfl
    rw [List.forall₂_map_right_iff]
    rw [List.forall₂_iff_get] at hmems ⊢
    refine ⟨hmems.1, fun i hi hi' => ?_⟩
    obtain ⟨hkey, hr⟩ := hmems.2 i hi hi'
    exact ⟨hkey, hok _ (List.get_mem (m :: ms) ⟨i, hi'⟩), _, hr⟩

/-- The value of the bytes alone. -/
theorem Derives.stands (h : Derives a b) : Stands ⟨0, b.length, b⟩ a b [] :=
  ⟨(List.append_nil b).symm, (Nat.zero_add _).symm, h, Ends.nil⟩

/-- Two lists that navigation reads alike are one. -/
theorem forall₂_unique {α β : Type} {R S : α → β → Prop} {l : List α} {xs ys : List β}
    (hx : List.Forall₂ R l xs) (hy : List.Forall₂ S l ys)
    (h : ∀ w, ∀ x ∈ xs, ∀ y, R w x → S w y → x = y) : xs = ys := by
  induction hx generalizing ys with
  | nil =>
    cases hy
    rfl
  | @cons w x l xs hwx _ ih =>
    cases hy with
    | @cons _ y _ ys hwy hy =>
      rw [h w x List.mem_cons_self y hwx hwy,
        ih hy fun w x hx => h w x (List.mem_cons_of_mem _ hx)]

/-- The members of the second list are kept along. -/
theorem forall₂_map_mem {α β γ : Type} {R : α → β → Prop} {l : List α} {ys : List β}
    (f : β → γ) (h : List.Forall₂ R l ys) :
    List.Forall₂ (fun w x => ∃ y ∈ ys, x = f y ∧ R w y) l (ys.map f) := by
  rw [List.forall₂_map_right_iff]
  rw [List.forall₂_iff_get] at h ⊢
  exact ⟨h.1, fun i hi hi' => ⟨_, List.get_mem ys ⟨i, hi'⟩, rfl, h.2 i hi hi'⟩⟩

/-- The bytes of a value have one tree. -/
theorem Derives.unique (h : Derives a b) : ∀ {a' : Ast}, Derives a' b → a = a' := by
  induction h with
  | null =>
    intro a' h'
    have hkind := Derives.null.stands.kind.symm.trans h'.stands.kind
    cases a' with
    | null => rfl
    | _ => cases hkind
  | true_ =>
    intro a' h'
    have hbool := Derives.true_.stands.asBool.symm.trans h'.stands.asBool
    cases a' with
    | bool v => rw [Option.some.inj hbool]
    | _ => cases hbool
  | false_ =>
    intro a' h'
    have hbool := Derives.false_.stands.asBool.symm.trans h'.stands.asBool
    cases a' with
    | bool v => rw [Option.some.inj hbool]
    | _ => cases hbool
  | number hn =>
    intro a' h'
    have hkind := (Derives.number hn).stands.kind.symm.trans h'.stands.kind
    cases h' with
    | number _ => rfl
    | _ => cases hkind
  | @string s hok =>
    intro a' h'
    generalize hb : quote :: (spell s ++ [quote]) = b at h'
    have hkind := (Derives.string hok).stands.kind.symm.trans (hb ▸ h'.stands.kind)
    cases h' with
    | @string s' hok' =>
      have hspell := List.append_cancel_right (List.cons.inj hb).2
      rw [spell_injective hok hok' hspell]
    | _ => cases hkind
  | emptyArray hw =>
    intro a' h'
    have hv := (Derives.emptyArray hw).stands
    have hkind := hv.kind.symm.trans h'.stands.kind
    cases a' with
    | array xs =>
      have hxs := h'.stands.elements_ast
      have hnil := hv.elements_ast
      rw [List.forall₂_nil_right_iff] at hnil
      rw [hnil, List.forall₂_nil_left_iff] at hxs
      rw [hxs]
    | _ => cases hkind
  | emptyObject hw =>
    intro a' h'
    have hv := (Derives.emptyObject hw).stands
    have hkind := hv.kind.symm.trans h'.stands.kind
    cases a' with
    | object ms =>
      have hms := h'.stands.members_ast
      have hnil := hv.members_ast
      rw [List.forall₂_nil_right_iff] at hnil
      rw [hnil, List.forall₂_nil_left_iff] at hms
      rw [hms]
    | _ => cases hkind
  | @array e es hws hd ih =>
    intro a' h'
    have hv := (Derives.array hws hd).stands
    have hkind := hv.kind.symm.trans h'.stands.kind
    cases a' with
    | array xs =>
      have helems := hv.elements hws hd rfl
      have hxs := h'.stands.elements_ast
      have heq := forall₂_unique (forall₂_map_mem Element.ast helems) hxs (by
        rintro w x - y ⟨e', he', rfl, r, hw⟩ ⟨b', r', hw'⟩
        exact ih e' he' (by rw [← hw.raw, hw'.raw]; exact hw'.derives))
      rw [heq]
    | _ => cases hkind
  | @object m ms hws hok hd ih =>
    intro a' h'
    have hv := (Derives.object hws hok hd).stands
    have hkind := hv.kind.symm.trans h'.stands.kind
    cases a' with
    | object ms' =>
      have hmems := hv.members hws hok hd rfl
      have hms := h'.stands.members_ast
      have heq := forall₂_unique (forall₂_map_mem (fun x : Member => (x.key, x.ast)) hmems) hms (by
        rintro p x - y ⟨m', hm', rfl, hkey, r, hp⟩ ⟨hkey', hok', b', r', hp'⟩
        have hspell : spell m'.key = spell y.1 := by
          rw [hkey] at hkey'
          exact congrArg Str.raw hkey'
        have hast := ih m' hm' (by rw [← hp.raw, hp'.raw]; exact hp'.derives)
        exact Prod.ext (spell_injective (hok m' hm') hok' hspell) hast)
      rw [heq]
    | _ => cases hkind

/-- A text has one tree. -/
theorem IsText.unique (h : IsText a t) (h' : IsText a' t) : a = a' := by
  obtain ⟨w, b, u, hw, hu, rfl, hd⟩ := h
  obtain ⟨w', b', u', hw', hu', ht, hd'⟩ := h'
  obtain ⟨c, bs, hb, hc, -⟩ := hd.head
  obtain ⟨c', bs', hb', hc', -⟩ := hd'.head
  -- The value starts behind the white space and ends where navigation finds its end.
  have hstart : b ++ u = b' ++ u' := by
    have hskip : skipWs (w ++ (b ++ u)) = b ++ u := by
      rw [hb]
      exact skipWs_cons hw hc
    have hskip' : skipWs (w' ++ (b' ++ u')) = b' ++ u' := by
      rw [hb']
      exact skipWs_cons hw' hc'
    rw [← hskip, ht, hskip']
  have hends : Ends u := by simpa using hu.ends Ends.nil
  have hends' : Ends u' := by simpa using hu'.ends Ends.nil
  have hrest : u = u' := by
    rw [← skipValue_derives hd hends, hstart, skipValue_derives hd' hends']
  subst hrest
  obtain rfl := List.append_cancel_right hstart
  exact hd.unique hd'

end Unique

/-! ## What `parse` accepts -/

/-- `parse` accepts the texts of the grammar within its limits whose surrogates are paired, and
navigation from the accepted value shows the tree of the text. -/
theorem parse_exact (t : Bytes) (limits : Limits) :
    ((∃ v, parse t limits = .ok v) ↔
      t.length ≤ limits.maxLen ∧ ∃ a, IsText a t ∧ Fits limits (min limits.maxDepth 64) a) ∧
    ∀ v, parse t limits = .ok v → ∃ a, IsText a t ∧ (∀ a', IsText a' t → a' = a) ∧ Shows v a := by
  refine ⟨⟨?_, ?_⟩, ?_⟩
  · rintro ⟨v, hv⟩
    obtain ⟨hlen, w, a, b, w', hw, hw', ht, hd, hfit, -⟩ := parse_ok hv
    exact ⟨hlen, a, ⟨w, b, w', hw, hw', ht, hd⟩, hfit⟩
  · rintro ⟨hlen, a, ht, hfit⟩
    exact parse_text hlen ht hfit
  · intro v hv
    obtain ⟨-, w, a, b, w', hw, hw', ht, hd, hfit, rfl⟩ := parse_ok hv
    have htext : IsText a t := ⟨w, b, w', hw, hw', ht, hd⟩
    have hends : Ends w' := by simpa using hw'.ends Ends.nil
    exact ⟨a, htext, fun a' h' => h'.unique htext, hd.shows hfit ⟨rfl, rfl, hd, hends⟩⟩

/-- The text `"\ud800"`: a high surrogate with nothing behind it. -/
def loneSurrogate : Bytes := [quote, backslash, letterU, 0x64, 0x38, 0x30, 0x30, quote]

/-- The grammar has it, well within the limits, and `parse` refuses it. -/
theorem parse_loneSurrogate :
    (loneSurrogate.length ≤ Limits.MANIFEST.maxLen ∧
      ∃ a, IsText a loneSurrogate ∧
        Within (fun s => (spell s).length ≤ Limits.MANIFEST.maxString) (fun b => b.length ≤ 64)
          (min Limits.MANIFEST.maxDepth 64) a) ∧
    ¬ ∃ v, parse loneSurrogate Limits.MANIFEST = .ok v := by
  refine ⟨⟨by decide, .string [.unicode 0x64 0x38 0x30 0x30],
    ⟨[], loneSurrogate, [], by simp [IsWs], by simp [IsWs], rfl, ?_⟩, .string (by decide)⟩, ?_⟩
  · exact .string (by simp [Item.Ok]; decide)
  · have hrefused : parse loneSurrogate Limits.MANIFEST = .error ⟨.badEscape, 1⟩ := by
      decide
    rw [hrefused]
    rintro ⟨v, hv⟩
    cases hv

end NanoChrono.Json
