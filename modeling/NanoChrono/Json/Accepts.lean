import NanoChrono.Json.Numbers
import NanoChrono.Json.Strings

/-! # The validator accepts the grammar

`run` is the machine with all the fuel it needs, one step at a time (`run_eq`), and `enter` has the
open containers as a list, which `code` makes the machine's bits. `enter_derives` runs the machine
over a value the grammar derives, `enter_ok` reads the syntax tree back from a value it accepted. -/

namespace NanoChrono.Json

/-- The bits of the open containers, the innermost first. -/
@[grind =] def code : List Bool → Nat
  | [] => 0
  | b :: fs => code fs * 2 + b.toNat

theorem code_lt (fs : List Bool) : code fs < 2 ^ fs.length := by
  induction fs with
  | nil => decide
  | cons b fs ih =>
    have := b.toNat_lt
    rw [code, List.length_cons, Nat.pow_succ]
    omega

theorem code_half (b : Bool) (fs : List Bool) : code (b :: fs) / 2 = code fs := by
  have := b.toNat_lt
  rw [code]
  omega

theorem code_bit (b : Bool) (fs : List Bool) : code (b :: fs) % 2 = b.toNat := by
  have := b.toNat_lt
  rw [code]
  omega

/-- What is left of the text. -/
@[grind =] def Progress.rest : Progress → Bytes
  | .more m => m.rest
  | .over r => r

/-- The trees within the limits: strings by their raw length, their surrogates paired. -/
abbrev Fits (limits : Limits) : Nat → Ast → Prop :=
  Within (fun s => (spell s).length ≤ limits.maxString ∧ Paired s) fun b => b.length ≤ 64

section Machine

variable {n : Nat} {limits : Limits} {D : Nat} {m : Machine} {p : Progress} {st : State}
variable {fs : List Bool} {t r w b : Bytes} {c : UInt8}

/-! ## A token takes a byte -/

theorem stringFrom_shorter {start fuel used : Nat}
    (h : stringFrom n limits start fuel used t = .ok r) : r.length < t.length := by
  induction fuel generalizing used t with
  | zero => cases h
  | succ fuel ih =>
    rw [stringFrom] at h
    split at h
    · cases h
    · next hs =>
      have := stringStep_pos hs
      rw [← Except.ok.inj h, List.length_drop]
      omega
    · next k hs =>
      have hlt := ih h
      rw [List.length_drop] at hlt
      omega

theorem string_shorter (h : string n limits t = .ok r) : r.length < t.length := by
  have hlt := stringFrom_shorter h
  rw [List.length_drop] at hlt
  omega

theorem number_shorter (h : number n t = .ok r) : r.length < t.length := by
  obtain ⟨b, hb, -, rfl⟩ := number_ok h
  obtain ⟨c, b', rfl, -⟩ := hb.head
  rw [List.length_append, List.length_cons]
  omega

theorem literal_shorter {c : UInt8} {word : Bytes} (h : literal n (c :: word) t = .ok r) :
    r.length < t.length := by
  rw [literal_ok h, List.length_append, List.length_cons]
  omega

theorem ended_rest (stack depth : Nat) (r : Bytes) : (ended stack depth r).rest = r := by
  unfold ended
  split <;> rfl

theorem closed_rest (m : Machine) (r : Bytes) : (closed m r).rest = r := ended_rest _ _ r

theorem map_ok {α β : Type} {f : α → β} {x : Except Error α} {y : β} (h : f <$> x = .ok y) :
    ∃ a, x = .ok a ∧ y = f a := by
  cases x with
  | error e => cases h
  | ok a => exact ⟨a, rfl, (Except.ok.inj h).symm⟩

theorem value_shorter (h : value n limits D m c (c :: t) = .ok p) :
    p.rest.length < (c :: t).length := by
  unfold value at h
  split at h
  · split at h
    · cases h
    · rw [← Except.ok.inj h]
      exact Nat.lt_succ_self _
  split at h
  · obtain ⟨r, hr, rfl⟩ := map_ok h
    rw [ended_rest]
    exact string_shorter hr
  split at h
  · obtain ⟨r, hr, rfl⟩ := map_ok h
    rw [ended_rest]
    exact number_shorter hr
  split at h
  · obtain ⟨r, hr, rfl⟩ := map_ok h
    rw [ended_rest]
    exact literal_shorter hr
  split at h
  · obtain ⟨r, hr, rfl⟩ := map_ok h
    rw [ended_rest]
    exact literal_shorter hr
  split at h
  · obtain ⟨r, hr, rfl⟩ := map_ok h
    rw [ended_rest]
    exact literal_shorter hr
  · cases h

theorem key_shorter (h : key n limits m c (c :: t) = .ok p) : p.rest.length < (c :: t).length := by
  unfold key at h
  split at h
  · obtain ⟨r, hr, rfl⟩ := map_ok h
    exact string_shorter hr
  · cases h

/-- A step takes a byte of the text. -/
theorem step_shorter (h : step n limits D m = .ok p) : p.rest.length < m.rest.length := by
  refine lt_of_lt_of_le ?_ (skipWs_length_le m.rest)
  unfold step at h
  split at h
  · cases h
  next c r hr =>
  rw [hr]
  have hone : r.length < (c :: r).length := Nat.lt_succ_self _
  split at h
  · exact value_shorter h
  · split at h
    · rw [← Except.ok.inj h, closed_rest]
      exact hone
    · exact value_shorter h
  · split at h
    · rw [← Except.ok.inj h, closed_rest]
      exact hone
    · exact key_shorter h
  · exact key_shorter h
  · split at h
    · rw [← Except.ok.inj h]
      exact hone
    · cases h
  · split at h
    · split at h
      · rw [← Except.ok.inj h]
        exact hone
      · split at h
        · rw [← Except.ok.inj h, closed_rest]
          exact hone
        · cases h
    · split at h
      · rw [← Except.ok.inj h]
        exact hone
      · split at h
        · rw [← Except.ok.inj h, closed_rest]
          exact hone
        · cases h

/-! ## The machine without fuel -/

/-- Any fuel past the text's length will do. -/
theorem loop_fuel {fuel fuel' : Nat} (h : m.rest.length < fuel) (h' : m.rest.length < fuel') :
    loop n limits D fuel m = loop n limits D fuel' m := by
  induction fuel generalizing fuel' m with
  | zero => omega
  | succ fuel ih =>
    obtain _ | fuel' := fuel'
    · omega
    rw [loop, loop]
    split
    · rfl
    · rfl
    · next m' hs =>
      have hlt : m'.rest.length < m.rest.length := step_shorter hs
      apply ih <;> omega

end Machine

/-- Steps until the top-level value ends. -/
def run (n : Nat) (limits : Limits) (D : Nat) (m : Machine) : Except Error Bytes :=
  loop n limits D (m.rest.length + 1) m

/-- What the machine does from where a step led. -/
def after (n : Nat) (limits : Limits) (D : Nat) : Progress → Except Error Bytes
  | .over r => .ok r
  | .more m => run n limits D m

/-- The machine inside the containers `fs`. -/
def enter (n : Nat) (limits : Limits) (D : Nat) (st : State) (fs : List Bool) (t : Bytes) :
    Except Error Bytes :=
  run n limits D ⟨t, code fs, fs.length, st⟩

/-- The machine behind a value. -/
def resume (n : Nat) (limits : Limits) (D : Nat) (fs : List Bool) (t : Bytes) :
    Except Error Bytes :=
  if fs = [] then .ok t else enter n limits D .next fs t

section Machine

variable {n : Nat} {limits : Limits} {D : Nat} {m : Machine} {p : Progress} {st : State}
variable {fs : List Bool} {t r w b : Bytes} {c : UInt8}

theorem run_eq (m : Machine) : run n limits D m = step n limits D m >>= after n limits D := by
  rw [run, loop]
  split
  · next hs => rw [hs]; rfl
  · next hs => rw [hs]; rfl
  · next m' hs =>
    have hlt : m'.rest.length < m.rest.length := step_shorter hs
    rw [hs]
    exact loop_fuel hlt (Nat.lt_succ_self _)

theorem after_ended (fs : List Bool) (r : Bytes) :
    after n limits D (ended (code fs) fs.length r) = resume n limits D fs r := by
  cases fs <;> rfl

theorem after_closed (o : Bool) (fs : List Bool) (t r : Bytes) (st : State) :
    after n limits D (closed ⟨t, code (o :: fs), (o :: fs).length, st⟩ r) =
      resume n limits D fs r := by
  rw [closed, code_half]
  exact after_ended fs r

/-- Where the machine is behind an opening bracket. -/
def first (o : Bool) : State := if o then .objectFirst else .arrayFirst

variable (n limits D) in
theorem after_opened (hfs : fs.length < 64) (o : Bool) (t r : Bytes) (st : State) :
    after n limits D (opened ⟨t, code fs, fs.length, st⟩ o r) =
      enter n limits D (first o) (o :: fs) r := by
  have hcode : code (o :: fs) < 2 ^ 64 :=
    lt_of_lt_of_le (code_lt (o :: fs)) (Nat.pow_le_pow_right Nat.two_pos hfs)
  rw [code] at hcode
  rw [opened, after, enter]
  dsimp only
  rw [Nat.mod_eq_of_lt hcode]
  rfl

/-- White space between tokens is skipped. -/
theorem enter_ws (hw : IsWs w) (st : State) (fs : List Bool) (t : Bytes) :
    enter n limits D st fs (w ++ t) = enter n limits D st fs t := by
  have hskip : skipWs (w ++ t) = skipWs t := by
    rw [skipWs, List.dropWhile_append_of_pos hw, skipWs]
  rw [enter, enter, run_eq, run_eq]
  unfold step
  dsimp only
  rw [hskip]
  rcases skipWs t with _ | ⟨c, r⟩
  · rfl
  · cases st <;> rfl

theorem resume_ws (hw : IsWs w) (hfs : fs ≠ []) (t : Bytes) :
    resume n limits D fs (w ++ t) = resume n limits D fs t := by
  rw [resume, if_neg hfs, enter_ws hw, resume, if_neg hfs]

theorem skipWs_of_not (hc : isWs c = false) (t : Bytes) : skipWs (c :: t) = c :: t :=
  skipWs_cons (w := []) (by simp [IsWs]) hc

/-! ## One token -/

/-- The closing bracket of an object or of an array. -/
def close (o : Bool) : UInt8 := if o then closeBrace else closeBracket

/-- What follows a comma. -/
def following (o : Bool) : State := if o then .key else .value

theorem enter_value (hc : isWs c = false) (fs : List Bool) (t : Bytes) :
    enter n limits D .value fs (c :: t) =
      value n limits D ⟨c :: t, code fs, fs.length, .value⟩ c (c :: t) >>= after n limits D := by
  rw [enter, run_eq]
  unfold step
  dsimp only
  rw [skipWs_of_not hc]

theorem enter_key (hc : isWs c = false) (fs : List Bool) (t : Bytes) :
    enter n limits D .key fs (c :: t) =
      key n limits ⟨c :: t, code fs, fs.length, .key⟩ c (c :: t) >>= after n limits D := by
  rw [enter, run_eq]
  unfold step
  dsimp only
  rw [skipWs_of_not hc]

theorem enter_colon (hc : isWs c = false) (fs : List Bool) (t : Bytes) :
    enter n limits D .colon fs (c :: t) =
      if c = colon then enter n limits D .value fs t
      else .error ⟨.syntaxError, offset n (c :: t)⟩ := by
  rw [enter, run_eq]
  unfold step
  dsimp only
  rw [skipWs_of_not hc]
  dsimp only
  split <;> rfl

/-- Behind an opening bracket a value or a key is read as anywhere. -/
theorem enter_first (hc : isWs c = false) (o : Bool) (fs : List Bool) (t : Bytes) :
    enter n limits D (first o) (o :: fs) (c :: t) =
      if c = close o then resume n limits D fs t
      else enter n limits D (following o) (o :: fs) (c :: t) := by
  have hskip := skipWs_of_not hc t
  rw [enter, run_eq]
  cases o
  · unfold step
    simp only [first, close, following, Bool.false_eq_true, if_false]
    rw [hskip, enter_value hc]
    dsimp only
    split
    · exact after_closed false fs _ t _
    · rfl
  · unfold step
    simp only [first, close, following, if_true]
    rw [hskip, enter_key hc]
    dsimp only
    split
    · exact after_closed true fs _ t _
    · rfl

theorem enter_next (hc : isWs c = false) (o : Bool) (fs : List Bool) (t : Bytes) :
    enter n limits D .next (o :: fs) (c :: t) =
      if c = comma then enter n limits D (following o) (o :: fs) t
      else if c = close o then resume n limits D fs t
      else .error ⟨.syntaxError, offset n (c :: t)⟩ := by
  have hskip := skipWs_of_not hc t
  rw [enter, run_eq]
  unfold step
  dsimp only
  rw [hskip, code_bit]
  dsimp only
  cases o
  · rw [if_neg (by decide)]
    split
    · rfl
    simp only [close, Bool.false_eq_true, if_false]
    split
    · exact after_closed false fs _ t _
    · rfl
  · rw [if_pos (by decide)]
    split
    · rfl
    simp only [close, if_true]
    split
    · exact after_closed true fs _ t _
    · rfl

/-- A token is there, behind white space. -/
theorem enter_split (h : enter n limits D st fs t = .ok r) : ∃ w c t', IsWs w ∧ isWs c = false ∧
    t = w ++ c :: t' ∧ enter n limits D st fs (c :: t') = .ok r := by
  obtain ⟨w, hw, ht⟩ := skipWs_split t
  rcases hs : skipWs t with _ | ⟨c, t'⟩
  · rw [enter, run_eq] at h
    unfold step at h
    dsimp only at h
    rw [hs] at h
    cases h
  · rw [hs] at ht
    refine ⟨w, c, t', hw, skipWs_head hs, ht, ?_⟩
    rw [← h, ht, enter_ws hw]

/-! ## What the grammar derives is accepted -/

theorem value_scalar {x : Except Error Bytes} (hx : x = .ok r)
    (hv : value n limits D ⟨c :: t, code fs, fs.length, .value⟩ c (c :: t) =
      (ended (code fs) fs.length ·) <$> x) (hc : isWs c = false) :
    enter n limits D .value fs (c :: t) = resume n limits D fs r := by
  rw [enter_value hc, hv, hx]
  exact after_ended fs r

theorem enter_string (h : string n limits (quote :: t) = .ok r) (fs : List Bool) :
    enter n limits D .value fs (quote :: t) = resume n limits D fs r :=
  value_scalar h rfl rfl

theorem enter_number (hc : c = minus ∨ isDigit c = true) (h : number n (c :: t) = .ok r)
    (fs : List Bool) : enter n limits D .value fs (c :: t) = resume n limits D fs r := by
  have hall : ∀ d : UInt8, (d = minus ∨ isDigit d = true) →
      isWs d = false ∧ d ≠ openBrace ∧ d ≠ openBracket ∧ d ≠ quote := by
    rintro d hd
    refine ⟨?_, ?_, ?_, ?_⟩
    · rcases hw : isWs d with _ | _
      · rfl
      · simp only [isWs, Bool.or_eq_true, beq_iff_eq] at hw
        rcases hw with ((rfl | rfl) | rfl) | rfl <;> exact absurd hd (by decide)
    all_goals
      rintro rfl
      exact absurd hd (by decide)
  obtain ⟨hws, hbrace, hbracket, hquote⟩ := hall c hc
  refine value_scalar h ?_ hws
  rw [value, if_neg (by simp [hbrace, hbracket]), if_neg hquote, if_pos hc]

variable (n limits) in
theorem enter_open (hfs : fs.length < D) (hD : D ≤ 64) (o : Bool) (t : Bytes) :
    enter n limits D .value fs ((if o then openBrace else openBracket) :: t) =
      enter n limits D (first o) (o :: fs) t := by
  have hopen := after_opened n limits D
    (show fs.length < 64 by omega) o ((if o then openBrace else openBracket) :: t) t .value
  rw [← hopen]
  have hlt : ¬ D ≤ fs.length := by omega
  cases o
  · rw [enter_value (by decide)]
    simp only [value, hlt, if_false]
    rfl
  · rw [enter_value (by decide)]
    simp only [value, hlt, if_false]
    rfl

theorem enter_first_item (hw : IsWs w) (hc : isWs c = false) {o : Bool} (hne : c ≠ close o)
    (fs : List Bool) (t : Bytes) :
    enter n limits D (first o) (o :: fs) (w ++ c :: t) =
      enter n limits D (following o) (o :: fs) (w ++ c :: t) := by
  rw [enter_ws hw, enter_first hc, if_neg hne, enter_ws hw]

theorem Ends.others (o : Bool) (texts : List Bytes) (r : Bytes) :
    Ends (others texts ++ close o :: r) := by
  cases texts with
  | nil =>
    apply Ends.cons
    cases o
    · exact .inr (.inr (.inl rfl))
    · exact .inr (.inr (.inr rfl))
  | cons x texts => exact Ends.cons (.inr (.inl rfl))

/-- The items of a container from the second on, each behind its comma. -/
theorem enter_others {o : Bool} {texts : List Bytes}
    (h : ∀ x ∈ texts, ∀ r, Ends r → enter n limits D (following o) (o :: fs) (x ++ r) =
      enter n limits D .next (o :: fs) r) (r : Bytes) :
    enter n limits D .next (o :: fs) (others texts ++ close o :: r) = resume n limits D fs r := by
  induction texts with
  | nil =>
    rw [others, List.flatMap_nil, List.nil_append, enter_next (by cases o <;> rfl),
      if_neg (by cases o <;> decide), if_pos rfl]
  | cons x texts ih =>
    have hothers : others (x :: texts) ++ close o :: r =
        comma :: (x ++ (others texts ++ close o :: r)) := by
      simp only [others, List.flatMap_cons, List.cons_append, List.append_assoc]
    rw [hothers, enter_next (by decide), if_pos rfl,
      h x (List.mem_cons_self) _ (Ends.others o texts r)]
    exact ih fun y hy => h y (List.mem_cons_of_mem x hy)

/-- The first byte of a value is no white space, closing bracket or comma. -/
theorem Derives.head {a : Ast} (h : Derives a b) :
    ∃ c b', b = c :: b' ∧ isWs c = false ∧ c ≠ close false ∧ c ≠ comma := by
  cases h with
  | number hn =>
    obtain ⟨c, b', rfl, hc⟩ := hn.head
    refine ⟨c, b', rfl, ?_, ?_, ?_⟩
    · by_contra hw
      simp only [isWs, Bool.not_eq_false, Bool.or_eq_true, beq_iff_eq] at hw
      rcases hw with ((rfl | rfl) | rfl) | rfl <;> exact absurd hc (by decide)
    · rintro rfl
      exact absurd hc (by decide)
    · rintro rfl
      exact absurd hc (by decide)
  | _ => exact ⟨_, _, rfl, by decide, by decide, by decide⟩

/-- A string of the grammar is accepted, as a value or as a key. -/
theorem string_spell {s : List Item} (hok : ∀ x ∈ s, x.Ok)
    (hs : (spell s).length ≤ limits.maxString ∧ Paired s) (r : Bytes) :
    string n limits (quote :: (spell s ++ quote :: r)) = .ok r := by
  rw [string_eq]
  exact stringRest_spell hok hs.2 (by omega)

/-- Element by element. -/
theorem enter_element {e : Element} (hws : IsWs e.before ∧ IsWs e.after)
    (h : ∀ r, Ends r → enter n limits D .value (false :: fs) (e.bytes ++ r) =
      resume n limits D (false :: fs) r) (hr : Ends r) :
    enter n limits D .value (false :: fs) (e.text ++ r) =
      enter n limits D .next (false :: fs) r := by
  rw [Element.text, List.append_assoc, List.append_assoc, enter_ws hws.1,
    h _ (hws.2.ends hr), resume_ws hws.2 (by simp), resume, if_neg (by simp)]

/-- Member by member. -/
theorem enter_member {x : Member}
    (hws : IsWs x.before ∧ IsWs x.colonBefore ∧ IsWs x.colonAfter ∧ IsWs x.after)
    (hok : ∀ i ∈ x.key, i.Ok)
    (hs : (spell x.key).length ≤ limits.maxString ∧ Paired x.key)
    (h : ∀ r, Ends r → enter n limits D .value (true :: fs) (x.bytes ++ r) =
      resume n limits D (true :: fs) r) (hr : Ends r) :
    enter n limits D .key (true :: fs) (x.text ++ r) = enter n limits D .next (true :: fs) r := by
  obtain ⟨hw₁, hw₂, hw₃, hw₄⟩ := hws
  have htext : x.text ++ r = x.before ++ (quote :: (spell x.key ++ quote ::
      (x.colonBefore ++ (colon :: (x.colonAfter ++ (x.bytes ++ (x.after ++ r))))))) := by
    simp only [Member.text, List.append_assoc, List.cons_append]
  have hkey := string_spell (n := n) hok hs
    (x.colonBefore ++ (colon :: (x.colonAfter ++ (x.bytes ++ (x.after ++ r)))))
  rw [htext, enter_ws hw₁, enter_key (by decide), key, if_pos rfl, hkey]
  change enter n limits D .colon (true :: fs) _ = _
  rw [enter_ws hw₂, enter_colon (by decide), if_pos rfl, enter_ws hw₃, h _ (hw₄.ends hr),
    resume_ws hw₄ (by simp), resume, if_neg (by simp)]

/-- The machine runs over a value of the grammar. -/
theorem enter_derives (hD : D ≤ 64) {a : Ast} (h : Derives a b) :
    ∀ {d : Nat} {fs : List Bool} {r : Bytes}, Fits limits d a → d + fs.length ≤ D → Ends r →
      enter n limits D .value fs (b ++ r) = resume n limits D fs r := by
  induction h with
  | null =>
    intro d fs r _ _ _
    exact value_scalar (literal_append (n := n) [0x6E, 0x75, 0x6C, 0x6C] r) rfl rfl
  | true_ =>
    intro d fs r _ _ _
    exact value_scalar (literal_append (n := n) [0x74, 0x72, 0x75, 0x65] r) rfl rfl
  | false_ =>
    intro d fs r _ _ _
    exact value_scalar (literal_append (n := n) [0x66, 0x61, 0x6C, 0x73, 0x65] r) rfl rfl
  | number hn =>
    intro d fs r hfit _ hr
    cases hfit with
    | number hlen =>
      have hok := number_append (n := n) hn hlen hr
      obtain ⟨c, b', rfl, hc⟩ := hn.head
      exact enter_number hc hok fs
  | string hok =>
    intro d fs r hfit _ _
    cases hfit with
    | string hs =>
      rw [List.cons_append, List.append_assoc]
      exact enter_string (string_spell hok hs r) fs
  | emptyArray hw =>
    intro d fs r hfit hd _
    cases hfit with
    | array _ =>
      have hopen := enter_open n limits (show fs.length < D by omega) hD false
      rw [List.cons_append, List.append_assoc]
      refine (hopen _).trans ?_
      rw [enter_ws hw, List.singleton_append, enter_first (by decide),
        if_pos (show closeBracket = close false from rfl)]
  | emptyObject hw =>
    intro d fs r hfit hd _
    cases hfit with
    | object _ _ =>
      have hopen := enter_open n limits (show fs.length < D by omega) hD true
      rw [List.cons_append, List.append_assoc]
      refine (hopen _).trans ?_
      rw [enter_ws hw, List.singleton_append, enter_first (by decide),
        if_pos (show closeBrace = close true from rfl)]
  | @array e es hws hd ih =>
    intro d fs r hfit hdepth hr
    cases hfit with
    | @array d _ hfit =>
    have hopen := enter_open n limits (show fs.length < D by omega) hD false
    have helem : ∀ x ∈ e :: es, ∀ r, Ends r →
        enter n limits D .value (false :: fs) (x.text ++ r) =
          enter n limits D .next (false :: fs) r := fun x hx r hr =>
      enter_element (hws x hx) (fun r hr => ih x hx (hfit _ (List.mem_map_of_mem hx))
        (by rw [List.length_cons]; omega) hr) hr
    obtain ⟨c, b', hb, hc, hne, -⟩ := (hd e List.mem_cons_self).head
    rw [List.cons_append]
    refine (hopen _).trans ?_
    have htexts : e.text ++ (others (es.map Element.text) ++ [closeBracket]) ++ r =
        e.text ++ (others (es.map Element.text) ++ close false :: r) := by
      simp [close]
    rw [htexts]
    have hfirst : enter n limits D (first false) (false :: fs)
        (e.text ++ (others (es.map Element.text) ++ close false :: r)) =
        enter n limits D .value (false :: fs)
          (e.text ++ (others (es.map Element.text) ++ close false :: r)) := by
      rw [Element.text, hb, List.append_assoc, List.append_assoc, List.cons_append]
      exact enter_first_item (hws e List.mem_cons_self).1 hc hne fs _
    rw [hfirst, helem e List.mem_cons_self _ (Ends.others false _ r)]
    apply enter_others
    intro x hx
    obtain ⟨e', he', rfl⟩ := List.mem_map.1 hx
    exact helem e' (List.mem_cons_of_mem e he')
  | @object m ms hws hok hd ih =>
    intro d fs r hfit hdepth hr
    cases hfit with
    | @object d _ hkeys hfit =>
    have hopen := enter_open n limits (show fs.length < D by omega) hD true
    have hmem : ∀ x ∈ m :: ms, ∀ r, Ends r →
        enter n limits D .key (true :: fs) (x.text ++ r) =
          enter n limits D .next (true :: fs) r := fun x hx r hr =>
      enter_member (hws x hx) (hok x hx) (hkeys (x.key, x.ast) (List.mem_map_of_mem (f := fun x : Member => (x.key, x.ast)) hx))
        (fun r hr => ih x hx (hfit (x.key, x.ast) (List.mem_map_of_mem (f := fun x : Member => (x.key, x.ast)) hx))
          (by rw [List.length_cons]; omega) hr) hr
    rw [List.cons_append]
    refine (hopen _).trans ?_
    have htexts : m.text ++ (others (ms.map Member.text) ++ [closeBrace]) ++ r =
        m.text ++ (others (ms.map Member.text) ++ close true :: r) := by
      simp [close]
    rw [htexts]
    have hfirst : enter n limits D (first true) (true :: fs)
        (m.text ++ (others (ms.map Member.text) ++ close true :: r)) =
        enter n limits D .key (true :: fs)
          (m.text ++ (others (ms.map Member.text) ++ close true :: r)) := by
      rw [Member.text, List.append_assoc]
      exact enter_first_item (hws m List.mem_cons_self).1 (by decide) (by decide) fs _
    rw [hfirst, hmem m List.mem_cons_self _ (Ends.others true _ r)]
    apply enter_others
    intro x hx
    obtain ⟨m', hm', rfl⟩ := List.mem_map.1 hx
    exact hmem m' (List.mem_cons_of_mem m hm')

/-! ## What is accepted, the grammar derives -/

/-- A value the validator read: its white space, its tree and what follows. -/
def Reads (n : Nat) (limits : Limits) (D : Nat) (fs : List Bool) (t r : Bytes) : Prop :=
  ∃ w a b t', IsWs w ∧ t = w ++ (b ++ t') ∧ Derives a b ∧ Fits limits (D - fs.length) a ∧
    IsUtf8 t' ∧ resume n limits D fs t' = .ok r

theorem IsWs.utf8 (hw : IsWs w) : IsUtf8 w := by
  refine IsUtf8.ascii fun c hc => ?_
  have := hw c hc
  simp only [isWs, Bool.or_eq_true, beq_iff_eq] at this
  rcases this with ((rfl | rfl) | rfl) | rfl <;> decide

theorem IsUtf8.skip (h : IsUtf8 (w ++ t)) (hw : IsWs w) : IsUtf8 t := by
  refine h.drop fun c hc => ?_
  have := hw c hc
  simp only [isWs, Bool.or_eq_true, beq_iff_eq] at this
  rcases this with ((rfl | rfl) | rfl) | rfl <;> decide

theorem isNumeric_ascii (h : isNumeric c = true) : c.toNat < 128 := by
  simp only [isNumeric, Bool.or_eq_true, beq_iff_eq] at h
  rcases h with ((((h | rfl) | rfl) | rfl) | rfl) | rfl
  · exact digit_ascii h
  all_goals decide

/-- A string the validator read. -/
theorem string_ok (h : string n limits (quote :: t) = .ok r) (hv : IsUtf8 t) :
    ∃ s, (∀ x ∈ s, x.Ok) ∧ (spell s).length ≤ limits.maxString ∧ Paired s ∧
      t = spell s ++ quote :: r ∧ IsUtf8 r := by
  rw [string_eq] at h
  obtain ⟨s, hok, hp, ht, hlen, hvr⟩ := stringRest_ok h hv
  exact ⟨s, hok, by omega, hp, ht, hvr⟩

/-- A scalar the validator read, or a container that opens. -/
theorem value_ok (h : value n limits D m c (c :: t) = .ok p) (hv : IsUtf8 (c :: t)) :
    (∃ a b r, c :: t = b ++ r ∧ Derives a b ∧ (∀ d, Fits limits d a) ∧ IsUtf8 r ∧
      p = ended m.stack m.depth r) ∨
    ∃ o : Bool, c = (if o then openBrace else openBracket) ∧ m.depth < D ∧ p = opened m o t := by
  have hword : ∀ {a : Ast} {word : Bytes}, Derives a word → (∀ d, Fits limits d a) →
      (∀ c ∈ word, c.toNat < 128) →
      (ended m.stack m.depth ·) <$> literal n word (c :: t) = .ok p →
      ∃ a b r, c :: t = b ++ r ∧ Derives a b ∧ (∀ d, Fits limits d a) ∧ IsUtf8 r ∧
        p = ended m.stack m.depth r := by
    intro a word hd hfit hascii h
    obtain ⟨r, hr, rfl⟩ := map_ok h
    have ht := literal_ok hr
    exact ⟨a, word, r, ht, hd, hfit, (ht ▸ hv).drop hascii, rfl⟩
  unfold value at h
  split at h
  · next hc =>
    split at h
    · cases h
    next hdepth =>
    have hlt : m.depth < D := Nat.lt_of_not_le hdepth
    rcases hc with rfl | rfl
    · exact .inr ⟨true, rfl, hlt, (Except.ok.inj h).symm⟩
    · exact .inr ⟨false, rfl, hlt, (Except.ok.inj h).symm⟩
  left
  split at h
  · next hc =>
    subst hc
    obtain ⟨r, hr, rfl⟩ := map_ok h
    obtain ⟨s, hok, hlen, hp, rfl, hvr⟩ := string_ok hr (hv.tail (by decide))
    exact ⟨.string s, _, r, by simp, .string hok, fun d => .string ⟨hlen, hp⟩, hvr, rfl⟩
  split at h
  · obtain ⟨r, hr, rfl⟩ := map_ok h
    obtain ⟨b, hb, hlen, ht⟩ := number_ok hr
    exact ⟨.number b, b, r, ht, .number hb, fun d => .number hlen,
      (ht ▸ hv).drop fun c hc => isNumeric_ascii (hb.numeric c hc), rfl⟩
  split at h
  · exact hword .true_ (fun d => .bool true) (by simp) h
  split at h
  · exact hword .false_ (fun d => .bool false) (by simp) h
  split at h
  · exact hword .null (fun d => .null) (by simp) h
  · cases h

/-- What follows an item of a container: a comma or the end. -/
theorem enter_next_ok {o : Bool} (h : enter n limits D .next (o :: fs) t = .ok r) :
    ∃ w t', IsWs w ∧
      (t = w ++ comma :: t' ∧ enter n limits D (following o) (o :: fs) t' = .ok r ∨
        t = w ++ close o :: t' ∧ resume n limits D fs t' = .ok r) := by
  obtain ⟨w, c, t', hw, hc, rfl, h'⟩ := enter_split h
  rw [enter_next hc] at h'
  refine ⟨w, t', hw, ?_⟩
  split at h'
  · next hcomma => exact .inl ⟨by rw [hcomma], h'⟩
  split at h'
  · next hclose => exact .inr ⟨by rw [hclose], h'⟩
  · cases h'

/-- The items of a container from the second on: `Item` says what one of them is. -/
theorem others_ok {o : Bool} {Item : Bytes → Prop} {t : Bytes} (hv : IsUtf8 t)
    (hitem : ∀ t', t'.length < t.length → IsUtf8 t' →
      enter n limits D (following o) (o :: fs) t' = .ok r →
      ∃ x t'', Item x ∧ t' = x ++ t'' ∧ IsUtf8 t'' ∧ enter n limits D .next (o :: fs) t'' = .ok r)
    (hpad : ∀ x w, Item x → IsWs w → Item (x ++ w))
    (h : enter n limits D .next (o :: fs) t = .ok r) :
    ∃ w texts t', IsWs w ∧ (∀ x ∈ texts, Item x) ∧ t = w ++ (others texts ++ close o :: t') ∧
      IsUtf8 t' ∧ resume n limits D fs t' = .ok r := by
  induction hlen : t.length using Nat.strong_induction_on generalizing t with
  | _ k ih =>
  subst hlen
  obtain ⟨w, t', hw, ⟨rfl, h'⟩ | ⟨rfl, h'⟩⟩ := enter_next_ok h
  · have hv' : IsUtf8 t' := (hv.skip hw).tail (by decide)
    have hlt : t'.length < (w ++ comma :: t').length := by
      rw [List.length_append, List.length_cons]
      omega
    obtain ⟨x, t'', hx, rfl, hv'', hnext⟩ := hitem t' hlt hv' h'
    have hlt' : t''.length < (w ++ comma :: (x ++ t'')).length := by
      simp only [List.length_append, List.length_cons]
      omega
    obtain ⟨w', texts, t₃, hw', htexts, rfl, hv₃, hres⟩ := ih t''.length hlt' hv''
      (fun t₁ ht₁ => hitem t₁ (lt_trans ht₁ hlt')) hnext rfl
    refine ⟨w, (x ++ w') :: texts, t₃, hw, ?_, ?_, hv₃, hres⟩
    · intro y hy
      rcases List.mem_cons.1 hy with rfl | hy
      · exact hpad x w' hx hw'
      · exact htexts y hy
    · simp only [others, List.flatMap_cons, List.cons_append, List.append_assoc]
  · refine ⟨w, [], t', hw, by simp, rfl, (hv.skip hw).tail ?_, h'⟩
    cases o <;> decide

theorem bind_ok {α β : Type} {x : Except Error α} {f : α → Except Error β} {y : β}
    (h : x >>= f = .ok y) : ∃ a, x = .ok a ∧ f a = .ok y := by
  cases x with
  | error e => cases h
  | ok a => exact ⟨a, rfl, h⟩

/-- The text of an element that nests `d` levels at most. -/
def IsElement (limits : Limits) (d : Nat) (x : Bytes) : Prop :=
  ∃ e : Element, x = e.text ∧ (IsWs e.before ∧ IsWs e.after) ∧ Derives e.ast e.bytes ∧
    Fits limits d e.ast

/-- The text of a member. -/
def IsMember (limits : Limits) (d : Nat) (x : Bytes) : Prop :=
  ∃ y : Member, x = y.text ∧
    (IsWs y.before ∧ IsWs y.colonBefore ∧ IsWs y.colonAfter ∧ IsWs y.after) ∧
    (∀ i ∈ y.key, i.Ok) ∧ ((spell y.key).length ≤ limits.maxString ∧ Paired y.key) ∧
    Derives y.ast y.bytes ∧ Fits limits d y.ast

theorem IsWs.append (h : IsWs w) {w' : Bytes} (h' : IsWs w') : IsWs (w ++ w') := by
  intro c hc
  rcases List.mem_append.1 hc with hc | hc
  · exact h c hc
  · exact h' c hc

theorem IsElement.pad {d : Nat} (h : IsElement limits d t) (hw : IsWs w) :
    IsElement limits d (t ++ w) := by
  obtain ⟨e, rfl, ⟨hb, ha⟩, hd, hfit⟩ := h
  refine ⟨{ e with after := e.after ++ w }, ?_, ⟨hb, ha.append hw⟩, hd, hfit⟩
  simp only [Element.text, List.append_assoc]

theorem IsMember.pad {d : Nat} (h : IsMember limits d t) (hw : IsWs w) :
    IsMember limits d (t ++ w) := by
  obtain ⟨y, rfl, ⟨hb, hcb, hca, ha⟩, hrest⟩ := h
  refine ⟨{ y with after := y.after ++ w }, ?_, ⟨hb, hcb, hca, ha.append hw⟩, hrest⟩
  simp only [Member.text, List.append_assoc, List.cons_append]

/-- An element the validator read. -/
theorem element_ok (hread : ∀ t', t'.length ≤ t.length → IsUtf8 t' →
      enter n limits D .value (false :: fs) t' = .ok r → Reads n limits D (false :: fs) t' r)
    (hv : IsUtf8 t) (h : enter n limits D .value (false :: fs) t = .ok r) :
    ∃ x t', IsElement limits (D - (fs.length + 1)) x ∧ t = x ++ t' ∧ IsUtf8 t' ∧
      enter n limits D .next (false :: fs) t' = .ok r := by
  obtain ⟨w, a, b, t', hw, rfl, hd, hfit, hv', hres⟩ := hread t le_rfl hv h
  refine ⟨w ++ b, t', ⟨⟨w, a, b, []⟩, ?_, ⟨hw, by simp [IsWs]⟩, hd, hfit⟩, ?_, hv', ?_⟩
  · rw [Element.text, List.append_nil]
  · rw [List.append_assoc]
  · rwa [resume, if_neg (by simp)] at hres

/-- A member the validator read. -/
theorem member_ok (hread : ∀ t', t'.length ≤ t.length → IsUtf8 t' →
      enter n limits D .value (true :: fs) t' = .ok r → Reads n limits D (true :: fs) t' r)
    (hv : IsUtf8 t) (h : enter n limits D .key (true :: fs) t = .ok r) :
    ∃ x t', IsMember limits (D - (fs.length + 1)) x ∧ t = x ++ t' ∧ IsUtf8 t' ∧
      enter n limits D .next (true :: fs) t' = .ok r := by
  obtain ⟨w, c, t₁, hw, hc, rfl, h₁⟩ := enter_split h
  rw [enter_key hc] at h₁
  obtain ⟨p, hp, h₁⟩ := bind_ok h₁
  unfold key at hp
  split at hp
  swap
  · cases hp
  next hquote =>
  subst hquote
  obtain ⟨t₂, hstring, rfl⟩ := map_ok hp
  obtain ⟨s, hok, hlen, hpair, rfl, hv₂⟩ := string_ok hstring ((hv.skip hw).tail (by decide))
  obtain ⟨w₂, c₂, t₃, hw₂, hc₂, rfl, h₂⟩ :=
    enter_split (show enter n limits D .colon (true :: fs) t₂ = .ok r from h₁)
  rw [enter_colon hc₂] at h₂
  split at h₂
  swap
  · cases h₂
  next hcolon =>
  subst hcolon
  obtain ⟨w₃, a, b, t', hw₃, rfl, hd, hfit, hv', hres⟩ := hread t₃
    (by simp only [List.length_append, List.length_cons]; omega) ((hv₂.skip hw₂).tail (by decide)) h₂
  refine ⟨_, t', ⟨⟨w, s, w₂, w₃, a, b, []⟩, rfl, ⟨hw, hw₂, hw₃, by simp [IsWs]⟩, hok,
    ⟨hlen, hpair⟩, hd, hfit⟩, ?_, hv', ?_⟩
  · simp only [Member.text, List.append_assoc, List.cons_append, List.append_nil]
  · rwa [resume, if_neg (by simp)] at hres

/-- The things a list of texts belongs to. -/
theorem exists_map {α : Type} {f : α → Bytes} {P : α → Prop} {texts : List Bytes}
    (h : ∀ x ∈ texts, ∃ y, x = f y ∧ P y) : ∃ ys : List α, texts = ys.map f ∧ ∀ y ∈ ys, P y := by
  induction texts with
  | nil => exact ⟨[], rfl, by simp⟩
  | cons x texts ih =>
    obtain ⟨y, rfl, hy⟩ := h x List.mem_cons_self
    obtain ⟨ys, rfl, hys⟩ := ih fun z hz => h z (List.mem_cons_of_mem _ hz)
    refine ⟨y :: ys, rfl, ?_⟩
    rintro z hz
    rcases List.mem_cons.1 hz with rfl | hz
    · exact hy
    · exact hys z hz

/-- An array from its elements. -/
theorem array_derives {d : Nat} {x : Bytes} {texts : List Bytes} (hx : IsElement limits d x)
    (htexts : ∀ y ∈ texts, IsElement limits d y) :
    ∃ a, Derives a (openBracket :: (x ++ (others texts ++ [closeBracket]))) ∧
      Fits limits (d + 1) a := by
  obtain ⟨e, rfl, he⟩ := hx
  obtain ⟨es, rfl, hes⟩ := exists_map htexts
  have hall : ∀ y ∈ e :: es, (IsWs y.before ∧ IsWs y.after) ∧ Derives y.ast y.bytes ∧
      Fits limits d y.ast := by
    rintro y hy
    rcases List.mem_cons.1 hy with rfl | hy
    · exact he
    · exact hes y hy
  refine ⟨_, .array (fun y hy => (hall y hy).1) fun y hy => (hall y hy).2.1, .array ?_⟩
  rintro a ha
  obtain ⟨y, hy, rfl⟩ := List.mem_map.1 ha
  exact (hall y hy).2.2

/-- An object from its members. -/
theorem object_derives {d : Nat} {x : Bytes} {texts : List Bytes} (hx : IsMember limits d x)
    (htexts : ∀ y ∈ texts, IsMember limits d y) :
    ∃ a, Derives a (openBrace :: (x ++ (others texts ++ [closeBrace]))) ∧
      Fits limits (d + 1) a := by
  obtain ⟨m, rfl, hm⟩ := hx
  obtain ⟨ms, rfl, hms⟩ := exists_map htexts
  have hall : ∀ y ∈ m :: ms,
      (IsWs y.before ∧ IsWs y.colonBefore ∧ IsWs y.colonAfter ∧ IsWs y.after) ∧
      (∀ i ∈ y.key, i.Ok) ∧ ((spell y.key).length ≤ limits.maxString ∧ Paired y.key) ∧
      Derives y.ast y.bytes ∧ Fits limits d y.ast := by
    rintro y hy
    rcases List.mem_cons.1 hy with rfl | hy
    · exact hm
    · exact hms y hy
  refine ⟨_, .object (fun y hy => (hall y hy).1) (fun y hy => (hall y hy).2.1)
    fun y hy => (hall y hy).2.2.2.1, .object ?_ ?_⟩
  · rintro y hy
    obtain ⟨z, hz, rfl⟩ := List.mem_map.1 hy
    exact (hall z hz).2.2.1
  · rintro y hy
    obtain ⟨z, hz, rfl⟩ := List.mem_map.1 hy
    exact (hall z hz).2.2.2.2

variable (limits) in
/-- The empty container of a kind. -/
theorem empty_derives (o : Bool) (hw : IsWs w) (d : Nat) :
    ∃ a, Derives a ((if o then openBrace else openBracket) :: (w ++ [close o])) ∧
      Fits limits (d + 1) a := by
  cases o
  · exact ⟨_, .emptyArray hw, .array (by simp)⟩
  · exact ⟨_, .emptyObject hw, .object (by simp) (by simp)⟩

/-- What the validator read is a value of the grammar. -/
theorem enter_ok (hD : D ≤ 64) (hv : IsUtf8 t) (h : enter n limits D .value fs t = .ok r) :
    Reads n limits D fs t r := by
  induction hlen : t.length using Nat.strong_induction_on generalizing t fs with
  | _ k ih =>
  subst hlen
  obtain ⟨w, c, t', hw, hc, rfl, h'⟩ := enter_split h
  have hvc := hv.skip hw
  rw [enter_value hc] at h'
  obtain ⟨p, hp, h'⟩ := bind_ok h'
  obtain ⟨a, b, r', ht, hd, hfit, hvr, rfl⟩ | ⟨o, hopen, hdepth, rfl⟩ := value_ok hp hvc
  · rw [after_ended] at h'
    exact ⟨w, a, b, r', hw, by rw [ht], hd, hfit _, hvr, h'⟩
  dsimp only at hdepth
  rw [after_opened n limits D (by omega)] at h'
  have hdepth' : D - fs.length = D - (fs.length + 1) + 1 := by omega
  have hvt : IsUtf8 t' := hvc.tail (by rw [hopen]; cases o <;> decide)
  have hlt : t'.length < (w ++ c :: t').length := by
    rw [List.length_append, List.length_cons]
    omega
  obtain ⟨w₁, c₁, t₁, hw₁, hc₁, rfl, h₁⟩ := enter_split h'
  rw [enter_first hc₁] at h₁
  split at h₁
  · next hclose =>
    obtain ⟨a, hd, hfit⟩ := empty_derives limits o hw₁ (D - (fs.length + 1))
    refine ⟨w, a, _, t₁, hw, ?_, hd, hdepth' ▸ hfit, (hvt.skip hw₁).tail ?_, h₁⟩
    · simp only [hopen, hclose, List.cons_append, List.append_assoc, List.nil_append]
    · rw [hclose]
      cases o <;> decide
  -- The first item is read where the bracket was passed, the others behind commas.
  rw [← enter_ws hw₁] at h₁
  have hread : ∀ t₂, t₂.length ≤ (w₁ ++ c₁ :: t₁).length → IsUtf8 t₂ →
      enter n limits D .value (o :: fs) t₂ = .ok r → Reads n limits D (o :: fs) t₂ r :=
    fun t₂ hle hv₂ h₂ => ih t₂.length (lt_of_le_of_lt hle hlt) hv₂ h₂ rfl
  cases o with
  | false =>
    obtain ⟨x, t₂, hx, ht₂, hv₂, hnext⟩ := element_ok hread hvt h₁
    have hle : t₂.length ≤ (w₁ ++ c₁ :: t₁).length := by
      rw [ht₂, List.length_append]
      omega
    obtain ⟨w₂, texts, t₃, hw₂, htexts, rfl, hv₃, hres⟩ := others_ok hv₂
      (fun t₄ ht₄ hv₄ h₄ => element_ok (fun t₅ ht₅ => hread t₅ (by omega)) hv₄ h₄)
      (fun y w hy hw => hy.pad hw) hnext
    obtain ⟨a, hd, hfit⟩ := array_derives (hx.pad hw₂) htexts
    refine ⟨w, a, _, t₃, hw, ?_, hd, hdepth' ▸ hfit, hv₃, hres⟩
    simp only [hopen, ht₂, close, List.cons_append, List.append_assoc, List.nil_append,
      Bool.false_eq_true, if_false]
  | true =>
    obtain ⟨x, t₂, hx, ht₂, hv₂, hnext⟩ := member_ok hread hvt h₁
    have hle : t₂.length ≤ (w₁ ++ c₁ :: t₁).length := by
      rw [ht₂, List.length_append]
      omega
    obtain ⟨w₂, texts, t₃, hw₂, htexts, rfl, hv₃, hres⟩ := others_ok hv₂
      (fun t₄ ht₄ hv₄ h₄ => member_ok (fun t₅ ht₅ => hread t₅ (by omega)) hv₄ h₄)
      (fun y w hy hw => hy.pad hw) hnext
    obtain ⟨a, hd, hfit⟩ := object_derives (hx.pad hw₂) htexts
    refine ⟨w, a, _, t₃, hw, ?_, hd, hdepth' ▸ hfit, hv₃, hres⟩
    simp only [hopen, ht₂, close, List.cons_append, List.append_assoc, List.nil_append, if_true]

/-! ## The whole text -/

theorem Derives.utf8 {a : Ast} (h : Derives a b) : IsUtf8 b := by
  have hsep : ∀ {texts : List Bytes}, (∀ x ∈ texts, IsUtf8 x) → IsUtf8 (others texts) := by
    intro texts htexts
    induction texts with
    | nil => exact .nil
    | cons x texts ih =>
      have hx := (IsUtf8.single (c := comma) (by decide)).append (htexts x List.mem_cons_self)
      exact hx.append (ih fun y hy => htexts y (List.mem_cons_of_mem x hy))
  have hone : ∀ {c : UInt8} {x : Bytes}, c.toNat < 128 → IsUtf8 x → IsUtf8 (c :: x) :=
    fun hc hx => (IsUtf8.single hc).append hx
  induction h with
  | null => exact .ascii (by simp)
  | true_ => exact .ascii (by simp)
  | false_ => exact .ascii (by simp)
  | number hn => exact .ascii fun c hc => isNumeric_ascii (hn.numeric c hc)
  | string hok => exact hone (by decide) ((spell_utf8 hok).append (.single (by decide)))
  | emptyArray hw => exact hone (by decide) (hw.utf8.append (.single (by decide)))
  | emptyObject hw => exact hone (by decide) (hw.utf8.append (.single (by decide)))
  | @array e es hws _ ih =>
    have helem : ∀ x ∈ e :: es, IsUtf8 x.text := fun x hx =>
      (hws x hx).1.utf8.append ((ih x hx).append (hws x hx).2.utf8)
    refine hone (by decide) ((helem e List.mem_cons_self).append ((hsep ?_).append
      (.single (by decide))))
    intro x hx
    obtain ⟨y, hy, rfl⟩ := List.mem_map.1 hx
    exact helem y (List.mem_cons_of_mem e hy)
  | @object m ms hws hok _ ih =>
    have hmem : ∀ x ∈ m :: ms, IsUtf8 x.text := by
      intro x hx
      obtain ⟨hw₁, hw₂, hw₃, hw₄⟩ := hws x hx
      have hvalue := hw₃.utf8.append ((ih x hx).append hw₄.utf8)
      have hrest := hw₂.utf8.append (hone (show colon.toNat < 128 by decide) hvalue)
      have hkey := (spell_utf8 (hok x hx)).append (hone (show quote.toNat < 128 by decide) hrest)
      exact hw₁.utf8.append (hone (by decide) hkey)
    refine hone (by decide) ((hmem m List.mem_cons_self).append ((hsep ?_).append
      (.single (by decide))))
    intro x hx
    obtain ⟨y, hy, rfl⟩ := List.mem_map.1 hx
    exact hmem y (List.mem_cons_of_mem m hy)

theorem document_eq (t : Bytes) : document n limits D t = enter n limits D .value [] t := rfl

/-- What `parse` accepts: the span is that of the value. -/
theorem parse_ok {v : Value} (h : parse t limits = .ok v) :
    t.length ≤ limits.maxLen ∧ ∃ w a b w', IsWs w ∧ IsWs w' ∧ t = w ++ (b ++ w') ∧ Derives a b ∧
      Fits limits (min limits.maxDepth 64) a ∧ v = ⟨w.length, w.length + b.length, b ++ w'⟩ := by
  unfold parse at h
  split at h
  · cases h
  next hlen =>
  split at h
  · cases h
  next hutf8 =>
  dsimp only at h
  split at h
  · cases h
  split at h
  · cases h
  next r hdoc =>
  split at h
  swap
  · cases h
  next hend =>
  refine ⟨Nat.le_of_not_lt hlen, ?_⟩
  have hv : IsUtf8 t := by
    rw [Option.isNone_iff_eq_none, ← Option.not_isSome_iff_eq_none, not_not] at hutf8
    exact Utf8.chars?_isSome.1 hutf8
  obtain ⟨w, hw, ht⟩ := skipWs_split t
  rw [document_eq] at hdoc
  have hvs : IsUtf8 (skipWs t) := IsUtf8.skip (w := w) (by rwa [← ht]) hw
  obtain ⟨w₁, a, b, w', hw₁, hstart, hd, hfit, -, hres⟩ :=
    enter_ok (Nat.min_le_right _ _) hvs hdoc
  obtain rfl : w' = r := Except.ok.inj hres
  obtain ⟨w₂, hw₂, hw'⟩ := skipWs_split w'
  rw [hend, List.append_nil] at hw'
  -- White space was skipped already where the value starts.
  have hnil : w₁ = [] := by
    obtain _ | ⟨c, w₁⟩ := w₁
    · rfl
    · have := skipWs_head hstart
      rw [hw₁ c List.mem_cons_self] at this
      cases this
  rw [hnil, List.nil_append] at hstart
  refine ⟨w, a, b, w', hw, hw' ▸ hw₂, by rw [← hstart]; exact ht, hd, hfit, ?_⟩
  rw [← Except.ok.inj h, hstart]
  have hlen := congrArg List.length ht
  rw [hstart] at hlen
  simp only [List.length_append] at hlen
  simp only [offset, List.length_append, Value.mk.injEq, and_true]
  omega

/-- What the grammar derives within the limits, `parse` accepts. -/
theorem parse_text {a : Ast} (hlen : t.length ≤ limits.maxLen) (ht : IsText a t)
    (hfit : Fits limits (min limits.maxDepth 64) a) : ∃ v, parse t limits = .ok v := by
  obtain ⟨w, b, w', hw, hw', rfl, hd⟩ := ht
  have hv : IsUtf8 (w ++ (b ++ w')) := hw.utf8.append (hd.utf8.append hw'.utf8)
  have hends : Ends w' := by simpa using hw'.ends Ends.nil
  have hrun : enter (w ++ (b ++ w')).length limits (min limits.maxDepth 64) .value [] (b ++ w') =
      resume (w ++ (b ++ w')).length limits (min limits.maxDepth 64) [] w' :=
    enter_derives (Nat.min_le_right _ _) hd hfit le_rfl hends
  obtain ⟨c, b', rfl, hc, -⟩ := hd.head
  have hskip : skipWs (w ++ (c :: b' ++ w')) = c :: b' ++ w' := skipWs_cons hw hc
  unfold parse
  rw [if_neg (by omega), if_neg (by
    rw [Option.isNone_iff_eq_none, ← Option.not_isSome_iff_eq_none, not_not]
    exact Utf8.chars?_isSome.2 hv)]
  dsimp only
  rw [hskip, if_neg (by simp), document_eq, hrun]
  exact ⟨_, if_pos (skipWs_all hw')⟩

end Machine

end NanoChrono.Json
