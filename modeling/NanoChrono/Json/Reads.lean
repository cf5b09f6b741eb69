import NanoChrono.Json.Skips

/-! # Navigation shows the syntax tree

`Shows v a`: every accessor of the value `v` gives what the tree `a` has there, and the values it
leads to show the trees below. `parse_exact` has both halves: which texts are accepted, and that
navigation from the accepted value shows the one tree the text has. -/

namespace NanoChrono.Json

/-! ## What a tree has -/

/-- The number decimal digits write. -/
def decimal (b : Bytes) : Nat := b.foldl (fun v d => v * 10 + (d.toNat - 0x30)) 0

namespace Ast

def kind : Ast → Kind
  | .null => .null
  | .bool _ => .bool
  | .number _ => .number
  | .string _ => .string
  | .array _ => .array
  | .object _ => .object

def isNull : Ast → Bool
  | .null => true
  | _ => false

def asBool : Ast → Option Bool
  | .bool b => some b
  | _ => none

def asStr : Ast → Option (List Char)
  | .string s => some (decode s)
  | _ => none

/-- A number written with digits only, below 2^64. -/
def asU64 : Ast → Option Nat
  | .number b => if b.all isDigit ∧ decimal b < 2 ^ 64 then some (decimal b) else none
  | _ => none

/-- A number written with digits only, or with a minus sign and digits, of 64 bits. -/
def asI64 : Ast → Option Int
  | .number b =>
    if b.head? = some minus then
      if b.tail.all isDigit ∧ decimal b.tail ≤ 2 ^ 63 then some (-(decimal b.tail : Int)) else none
    else if b.all isDigit ∧ decimal b < 2 ^ 63 then some (decimal b) else none
  | _ => none

def elements : Ast → List Ast
  | .array xs => xs
  | _ => []

def members : Ast → List (List Item × Ast)
  | .object ms => ms
  | _ => []

/-- The first member of a name. -/
def get (a : Ast) (key : List Char) : Option Ast :=
  (a.members.find? fun m => decode m.1 == key).map (·.2)

end Ast

/-- The accessors of a value give what the tree has. -/
inductive Shows : Value → Ast → Prop
  | intro {v : Value} {a : Ast} (kind : v.kind = a.kind) (isNull : v.isNull = a.isNull)
      (asBool : v.asBool = a.asBool) (asStr : v.asStr.map Str.chars = a.asStr)
      (asU64 : v.asU64 = a.asU64) (asI64 : v.asI64 = a.asI64)
      (elements : List.Forall₂ Shows v.elements a.elements)
      (keys : v.members.map (·.1.chars) = a.members.map (decode ·.1))
      (members : List.Forall₂ Shows (v.members.map (·.2)) (a.members.map (·.2)))
      (get : ∀ key, Option.Rel Shows (v.get key) (a.get key)) : Shows v a

/-! ## Digits -/

section Digits

variable {b : Bytes} {n m : Nat} {neg : Bool}

theorem checkedU64_none (h : 2 ^ 64 ≤ n) : checkedU64 n = none := if_neg (by omega)

theorem decimal_from_le (b : Bytes) (n : Nat) :
    n ≤ b.foldl (fun v d => v * 10 + (d.toNat - 0x30)) n := by
  induction b generalizing n with
  | nil => exact le_rfl
  | cons d b ih => exact le_trans (by omega) (ih (n * 10 + (d.toNat - 0x30)))

/-- The checked sum fails as soon as it does not fit, and then the whole number does not. -/
theorem foldlM_pushU64 (b : Bytes) (h : n < 2 ^ 64) :
    b.foldlM pushU64 n = checkedU64 (b.foldl (fun v d => v * 10 + (d.toNat - 0x30)) n) := by
  induction b generalizing n with
  | nil => exact (if_pos h).symm
  | cons d b ih =>
    have hpush : pushU64 n d = checkedU64 (n * 10 + (d.toNat - 0x30)) := by
      by_cases h10 : n * 10 < 2 ^ 64
      · rw [pushU64, checkedU64, if_pos h10]
        rfl
      · rw [pushU64, checkedU64, if_neg h10, checkedU64_none (by omega)]
        rfl
    rw [List.foldlM_cons, List.foldl_cons, hpush]
    by_cases hlt : n * 10 + (d.toNat - 0x30) < 2 ^ 64
    · rw [checkedU64, if_pos hlt]
      exact ih hlt
    · have hle := decimal_from_le b (n * 10 + (d.toNat - 0x30))
      rw [checkedU64_none (by omega), checkedU64_none (by omega)]
      rfl

/-- A number with its sign. -/
def signed (neg : Bool) (n : Nat) : Int := if neg then -(n : Int) else n

/-- What fits in an `i64`. -/
def FitsI64 (neg : Bool) (n : Nat) : Prop := if neg then n ≤ 2 ^ 63 else n < 2 ^ 63

instance : Decidable (FitsI64 neg n) := by
  unfold FitsI64
  infer_instance

theorem checkedI64_signed (neg : Bool) (n : Nat) :
    checkedI64 (signed neg n) = if FitsI64 neg n then some (signed neg n) else none := by
  have hiff : (-2 ^ 63 ≤ signed neg n ∧ signed neg n < 2 ^ 63) ↔ FitsI64 neg n := by
    cases neg
    · simp only [signed, FitsI64, Bool.false_eq_true, if_false]
      omega
    · simp only [signed, FitsI64, if_true]
      omega
  rw [checkedI64]
  simp only [hiff]

theorem FitsI64.le (h : FitsI64 neg m) (hle : n ≤ m) : FitsI64 neg n := by
  cases neg
  · simp only [FitsI64, Bool.false_eq_true, if_false] at h ⊢
    omega
  · simp only [FitsI64, if_true] at h ⊢
    omega

theorem pushI64_none {v : Int} (h : checkedI64 (v * 10) = none) (d : UInt8) :
    pushI64 neg v d = none := by
  rw [pushI64, h]
  rfl

theorem pushI64_some {v w : Int} (h : checkedI64 (v * 10) = some w) (d : UInt8) :
    pushI64 neg v d =
      checkedI64 (if neg then w - (d.toNat - 0x30 : Nat) else w + (d.toNat - 0x30 : Nat)) := by
  rw [pushI64, h, Option.bind_eq_bind, Option.bind_some]
  cases neg <;> rfl

theorem signed_mul (neg : Bool) (n : Nat) : signed neg n * 10 = signed neg (n * 10) := by
  cases neg <;> simp only [signed, Bool.false_eq_true, if_false, if_true] <;> omega

theorem signed_add (neg : Bool) (n d : Nat) :
    (if neg then signed neg n - d else signed neg n + d) = signed neg (n + d) := by
  cases neg <;> simp only [signed, Bool.false_eq_true, if_false, if_true] <;> omega

theorem pushI64_signed (neg : Bool) (n : Nat) (d : UInt8) :
    pushI64 neg (signed neg n) d = checkedI64 (signed neg (n * 10 + (d.toNat - 0x30))) := by
  have hmul := checkedI64_signed neg (n * 10)
  rw [← signed_mul] at hmul
  by_cases h10 : FitsI64 neg (n * 10)
  · rw [if_pos h10] at hmul
    rw [pushI64_some hmul, signed_mul, signed_add]
  · have hnot : ¬ FitsI64 neg (n * 10 + (d.toNat - 0x30)) := fun h => h10 (h.le (by omega))
    rw [if_neg h10] at hmul
    rw [pushI64_none hmul, checkedI64_signed, if_neg hnot]

theorem foldlM_pushI64 (b : Bytes) (h : FitsI64 neg n) :
    b.foldlM (pushI64 neg) (signed neg n) =
      checkedI64 (signed neg (b.foldl (fun v d => v * 10 + (d.toNat - 0x30)) n)) := by
  induction b generalizing n with
  | nil =>
    rw [List.foldl_nil, checkedI64_signed, if_pos h]
    rfl
  | cons d b ih =>
    rw [List.foldlM_cons, List.foldl_cons, pushI64_signed]
    by_cases hfit : FitsI64 neg (n * 10 + (d.toNat - 0x30))
    · rw [checkedI64_signed, if_pos hfit]
      exact ih hfit
    · have hle := decimal_from_le b (n * 10 + (d.toNat - 0x30))
      rw [checkedI64_signed, if_neg hfit, checkedI64_signed, if_neg fun h => hfit (h.le hle)]
      rfl

end Digits

/-- A value that stands in the text as the grammar derives it, before the bytes `r`. -/
structure Stands (v : Value) (a : Ast) (b r : Bytes) : Prop where
  text : v.text = b ++ r
  stop : v.e = v.s + b.length
  derives : Derives a b
  ends : Ends r

section Accessors

variable {v : Value} {a : Ast} {b r : Bytes} {c : UInt8}

theorem Stands.length (h : Stands v a b r) : v.e - v.s = b.length := by
  rw [h.stop, Nat.add_sub_cancel_left]

theorem Stands.raw (h : Stands v a b r) : v.raw = b := by
  rw [Value.raw, h.length, h.text, if_pos (by rw [List.length_append]; omega), List.take_left]

/-! ## Scalars -/

/-- The first byte of a number tells it from any other value. -/
theorem number_head_ne (h : c = minus ∨ isDigit c = true) : c ≠ openBrace ∧ c ≠ openBracket ∧
    c ≠ quote ∧ c ≠ letterT ∧ c ≠ letterF ∧ c ≠ letterN := by
  refine ⟨?_, ?_, ?_, ?_, ?_, ?_⟩
  all_goals
    rintro rfl
    exact absurd h (by decide)

theorem kind_cons {t : Bytes} (h : v.text = c :: t) : v.kind =
    if c = openBrace then .object else if c = openBracket then .array
    else if c = quote then .string else if c = letterT ∨ c = letterF then .bool
    else if c = letterN then .null else .number := by
  rw [Value.kind, h]
  rfl

theorem Stands.kind (h : Stands v a b r) : v.kind = a.kind := by
  obtain ⟨htext, -, hd, -⟩ := h
  cases hd with
  | null => exact kind_cons htext
  | true_ => exact kind_cons htext
  | false_ => exact kind_cons htext
  | number hn =>
    obtain ⟨c, b', rfl, hc⟩ := hn.head
    obtain ⟨h₁, h₂, h₃, h₄, h₅, h₆⟩ := number_head_ne hc
    rw [kind_cons htext, if_neg h₁, if_neg h₂, if_neg h₃, if_neg (by simp [h₄, h₅]), if_neg h₆]
    rfl
  | string _ => exact kind_cons htext
  | emptyArray _ => exact kind_cons htext
  | array _ _ => exact kind_cons htext
  | emptyObject _ => exact kind_cons htext
  | object _ _ _ => exact kind_cons htext

theorem Stands.isNull (h : Stands v a b r) : v.isNull = a.isNull := by
  rw [Value.isNull, h.raw]
  obtain ⟨-, -, hd, -⟩ := h
  cases hd with
  | number hn =>
    obtain ⟨c, b', rfl, hc⟩ := hn.head
    obtain ⟨-, -, -, -, -, hne⟩ := number_head_ne hc
    show (c :: b' == _) = false
    rw [beq_eq_false_iff_ne]
    intro he
    exact hne (List.cons.inj he).1
  | _ => rfl

theorem Stands.asBool (h : Stands v a b r) : v.asBool = a.asBool := by
  rw [Value.asBool, h.raw]
  obtain ⟨-, -, hd, -⟩ := h
  cases hd with
  | number hn =>
    obtain ⟨c, b', rfl, hc⟩ := hn.head
    obtain ⟨-, -, -, hne, hne', -⟩ := number_head_ne hc
    rw [if_neg fun he => hne (List.cons.inj he).1, if_neg fun he => hne' (List.cons.inj he).1]
    rfl
  | _ => rfl

theorem Stands.asStr (h : Stands v a b r) : v.asStr =
    match a with
    | .string s => some ⟨spell s⟩
    | _ => none := by
  have hkind := h.kind
  have hlen := h.length
  obtain ⟨htext, hstop, hd, -⟩ := h
  rw [Value.asStr, hkind]
  cases hd with
  | @string s hok =>
    have hl : (quote :: (spell s ++ [quote])).length = (spell s).length + 2 := by simp
    rw [hl] at hlen hstop
    have htake : ((v.text.drop 1).take (v.e - v.s - 2)) = spell s := by
      rw [htext, hlen, List.cons_append, List.drop_one, List.tail_cons, Nat.add_sub_cancel,
        List.append_assoc, List.take_left]
    have hle : v.e - 1 - v.s ≤ v.text.length := by
      rw [htext, List.length_append, hl]
      omega
    rw [if_neg (by simp [Ast.kind]; omega), if_pos hle, htake]
  | _ => rfl

/-- What is written with digits only is a number. -/
theorem Derives.digits (h : Derives a b) (hall : b.all isDigit = true) : a = .number b := by
  cases h with
  | number _ => rfl
  | _ =>
    rw [List.all_cons] at hall
    exact absurd hall (by rw [show isDigit _ = false from rfl]; simp)

theorem Stands.asU64 (h : Stands v a b r) : v.asU64 = a.asU64 := by
  rw [Value.asU64, h.raw]
  obtain ⟨c, b', hb, -⟩ := h.derives.head
  have hne : b ≠ [] := by
    rw [hb]
    simp
  by_cases hall : b.all isDigit = true
  · rw [if_neg (by simp [hne, hall]), h.derives.digits hall, Ast.asU64,
      foldlM_pushU64 b (by decide), checkedU64]
    simp only [hall, true_and]
    rfl
  · rw [if_pos (.inr (by simpa using hall))]
    cases h.derives with
    | number hn =>
      rw [Ast.asU64, if_neg fun h => hall h.1]
    | _ => rfl

/-- Digits stand behind a minus sign. -/
theorem IsNumber.tail_ne (h : IsNumber b) (hb : b.head? = some minus) : b.tail ≠ [] := by
  obtain ⟨⟨m, i, f, x⟩, ⟨hm, hi, -, -⟩, rfl⟩ := h
  dsimp only at *
  have hi' : i ≠ [] ∧ i.head? ≠ some minus := by
    rcases hi with rfl | ⟨d, ds, rfl, hd, -, -⟩
    · decide
    · exact ⟨by simp, fun he => (isDigit_ne hd).1 (Option.some.inj he)⟩
  obtain _ | ⟨c, i⟩ := i
  · exact absurd rfl hi'.1
  rcases hm with rfl | rfl
  · exact absurd hb hi'.2
  · simp

theorem foldlM_signed (neg : Bool) (b : Bytes) : b.foldlM (pushI64 neg) 0 =
    if FitsI64 neg (decimal b) then some (signed neg (decimal b)) else none := by
  have hzero : signed neg 0 = 0 := by cases neg <;> rfl
  have hfit : FitsI64 neg 0 := by
    cases neg
    · show 0 < 2 ^ 63
      exact Nat.two_pow_pos 63
    · exact Nat.zero_le _
  rw [← checkedI64_signed, decimal, ← foldlM_pushI64 b hfit, hzero]

theorem Stands.asI64 (h : Stands v a b r) : v.asI64 = a.asI64 := by
  rw [Value.asI64, h.raw]
  obtain ⟨c, b', hb, -⟩ := h.derives.head
  have hne : b ≠ [] := by
    rw [hb]
    simp
  by_cases hminus : b.head? = some minus
  · rw [hminus, beq_self_eq_true, if_pos rfl, foldlM_signed]
    cases h.derives with
    | number hn =>
      have htail := hn.tail_ne hminus
      rw [Ast.asI64, if_pos hminus]
      by_cases hall : b.tail.all isDigit = true
      · rw [if_neg (by simp [htail, hall])]
        simp only [hall, true_and, FitsI64, signed, if_true]
      · rw [if_pos (.inr (by simpa using hall)), if_neg fun h => hall h.1]
    | _ => exact absurd hminus (by rw [List.head?_cons]; decide)
  · have hneg : (b.head? == some minus) = false := by simpa using hminus
    rw [hneg, foldlM_signed]
    simp only [Bool.false_eq_true, if_false]
    by_cases hall : b.all isDigit = true
    · rw [if_neg (by simp [hne, hall]), h.derives.digits hall, Ast.asI64, if_neg hminus]
      simp only [hall, true_and, FitsI64, signed, Bool.false_eq_true, if_false]
    · rw [if_pos (.inr (by simpa using hall))]
      cases h.derives with
      | number hn => rw [Ast.asI64, if_neg hminus, if_neg fun h => hall h.1]
      | _ => rfl

/-! ## Containers -/

theorem itemStart_ws {w : Bytes} {t : Bytes} (hw : IsWs w) (hc : isWs c = false) (hne : c ≠ comma) :
    itemStart (w ++ c :: t) = c :: t := by
  rw [itemStart, skipWs_cons hw hc]
  exact if_neg hne

theorem itemStart_comma {w w' : Bytes} {t : Bytes} (hw : IsWs w) (hw' : IsWs w')
    (hc : isWs c = false) : itemStart (w ++ comma :: (w' ++ c :: t)) = c :: t := by
  rw [itemStart, skipWs_cons hw (by decide)]
  exact (if_pos rfl).trans (skipWs_cons hw' hc)

/-- A value inside a container that ends at `stop`. -/
theorem valueAt_derives {pre : Bytes} {i stop : Nat} (hd : Derives a b) (hr : Ends r)
    (hstop : i + pre.length + b.length ≤ stop) :
    valueAt (pre ++ (b ++ r)) i stop (b ++ r) =
      some ⟨i + pre.length, i + pre.length + b.length, b ++ r⟩ := by
  obtain ⟨c, b', hb, -⟩ := hd.head
  have hpos : 0 < b.length := by
    rw [hb]
    exact Nat.zero_lt_succ _
  have hs : (pre ++ (b ++ r)).length - (b ++ r).length = pre.length := by
    rw [List.length_append, Nat.add_sub_cancel]
  have he : (pre ++ (b ++ r)).length - r.length = pre.length + b.length := by
    simp only [List.length_append]
    omega
  rw [valueAt, skipValue_derives hd hr, hs, he]
  rw [if_neg (by omega), Nat.add_assoc]

/-- The next element, behind the bytes `pre`. -/
theorem Elements.next_derives {it : Elements} {pre : Bytes} (hdone : it.done = false)
    (htext : it.text = pre ++ (b ++ r)) (hstart : itemStart it.text = b ++ r)
    (hd : Derives a b) (hr : Ends r) (hstop : it.i + pre.length + b.length ≤ it.stop) :
    it.next = some (⟨it.i + pre.length, it.i + pre.length + b.length, b ++ r⟩,
      ⟨r, it.i + pre.length + b.length, it.stop, false⟩) := by
  obtain ⟨c, b', hb, -, hne, -⟩ := hd.head
  rw [Elements.next, hdone, hstart]
  simp only [Bool.false_eq_true, if_false]
  rw [if_neg (by rw [hb]; simpa [close] using hne), htext, valueAt_derives hd hr hstop]
  dsimp only
  rw [skipValue_derives hd hr]

theorem Elements.next_end {it : Elements} {w : Bytes} (hw : IsWs w)
    (htext : it.text = w ++ closeBracket :: r) : it.next = none := by
  rw [Elements.next, htext, itemStart_ws hw (by decide) (by decide)]
  dsimp only
  split
  · rfl
  · exact if_pos (.inr rfl)

theorem Elements.collect_end {it : Elements} {w : Bytes} (hw : IsWs w)
    (htext : it.text = w ++ closeBracket :: r) (fuel : Nat) : Elements.collect fuel it = [] := by
  cases fuel with
  | zero => rfl
  | succ fuel => rw [Elements.collect, Elements.next_end hw htext]

/-- The elements from `e` on, which stands behind the bytes `pre`. -/
theorem Elements.collect_from {e : Element} {es : List Element} {it : Elements} {pre : Bytes}
    {fuel : Nat} (hdone : it.done = false)
    (htext : it.text = pre ++ (e.bytes ++ (e.after ++
      (others (es.map Element.text) ++ closeBracket :: r))))
    (hstart : itemStart it.text = e.bytes ++ (e.after ++
      (others (es.map Element.text) ++ closeBracket :: r)))
    (hstop : it.i + (pre ++ (e.bytes ++ (e.after ++ others (es.map Element.text)))).length < it.stop)
    (hws : ∀ x ∈ e :: es, IsWs x.before ∧ IsWs x.after)
    (hd : ∀ x ∈ e :: es, Derives x.ast x.bytes) (hfuel : es.length < fuel) :
    List.Forall₂ (fun v e => ∃ r, Stands v e.ast e.bytes r) (Elements.collect fuel it)
      (e :: es) := by
  induction es generalizing e it pre fuel with
  | nil =>
    obtain _ | fuel := fuel
    · cases hfuel
    have hafter := (hws e List.mem_cons_self).2
    have hde := hd e List.mem_cons_self
    have hr := hafter.ends (Ends.others false [] r)
    simp only [List.length_append] at hstop
    rw [Elements.collect, Elements.next_derives hdone htext hstart hde hr (by omega)]
    refine .cons ⟨_, rfl, rfl, hde, hr⟩ ?_
    rw [Elements.collect_end hafter rfl]
    exact .nil
  | cons e' es ih =>
    obtain _ | fuel := fuel
    · cases hfuel
    have hafter := (hws e List.mem_cons_self).2
    have hbefore := (hws e' (by simp)).1
    have hde := hd e List.mem_cons_self
    have hr := hafter.ends (Ends.others false ((e' :: es).map Element.text) r)
    simp only [List.length_append] at hstop
    rw [Elements.collect, Elements.next_derives hdone htext hstart hde hr (by omega)]
    refine .cons ⟨_, rfl, rfl, hde, hr⟩ ?_
    -- The next element stands behind this one's white space, a comma and its own.
    have hsplit : e.after ++ (others ((e' :: es).map Element.text) ++ closeBracket :: r) =
        (e.after ++ comma :: e'.before) ++ (e'.bytes ++ (e'.after ++
          (others (es.map Element.text) ++ closeBracket :: r))) := by
      simp only [others, List.map_cons, List.flatMap_cons, Element.text, List.append_assoc,
        List.cons_append]
    obtain ⟨c, b', hb, hc, -⟩ := (hd e' (by simp)).head
    refine ih rfl hsplit ?_ ?_ (fun x hx => hws x (List.mem_cons_of_mem e hx))
      (fun x hx => hd x (List.mem_cons_of_mem e hx)) (Nat.lt_of_succ_lt_succ hfuel)
    · dsimp only
      rw [hsplit, List.append_assoc, List.cons_append, hb]
      exact itemStart_comma hafter hbefore hc
    · simp only [others, List.map_cons, List.flatMap_cons, Element.text, List.length_append,
        List.length_cons] at hstop ⊢
      omega

/-- An item takes a byte, its comma. -/
theorem others_length (texts : List Bytes) : texts.length ≤ (others texts).length := by
  induction texts with
  | nil => exact Nat.zero_le _
  | cons x texts ih =>
    simp only [others, List.flatMap_cons, List.length_append, List.length_cons] at ih ⊢
    omega

/-- The elements of an array. -/
theorem Stands.elements {e : Element} {es : List Element}
    (hws : ∀ x ∈ e :: es, IsWs x.before ∧ IsWs x.after)
    (hd : ∀ x ∈ e :: es, Derives x.ast x.bytes)
    (hb : b = openBracket :: (e.text ++ (others (es.map Element.text) ++ [closeBracket])))
    (h : Stands v (.array ((e :: es).map Element.ast)) b r) :
    List.Forall₂ (fun v e => ∃ r, Stands v e.ast e.bytes r) v.elements (e :: es) := by
  have hkind : v.kind = .array := h.kind
  have hbefore := (hws e List.mem_cons_self).1
  obtain ⟨c, b', hbytes, hc, -, hcomma⟩ := (hd e List.mem_cons_self).head
  have htext : v.text.drop 1 = e.before ++ (e.bytes ++ (e.after ++
      (others (es.map Element.text) ++ closeBracket :: r))) := by
    rw [h.text, hb]
    simp only [Element.text, List.cons_append, List.append_assoc, List.drop_one, List.tail_cons,
      List.nil_append]
  have hlen : b.length = 1 + (e.before ++ (e.bytes ++ (e.after ++
      others (es.map Element.text)))).length + 1 := by
    rw [hb]
    simp only [Element.text, List.length_cons, List.length_append, List.length_nil]
    omega
  have hfuel : es.length < v.text.length := by
    have hothers := others_length (es.map Element.text)
    rw [List.length_map] at hothers
    rw [h.text, List.length_append, hlen]
    simp only [List.length_append]
    omega
  have hdone : (v.kind != .array) = false := by
    rw [hkind]
    rfl
  rw [Value.elements]
  refine Elements.collect_from hdone htext ?_ ?_ hws hd hfuel
  · dsimp only
    rw [htext, hbytes]
    exact itemStart_ws hbefore hc hcomma
  · have hstop := h.stop
    dsimp only
    omega

/-! Members, in the same way. -/

/-- A member from its key on, before the bytes `post`. -/
def Member.keyed (y : Member) (post : Bytes) : Bytes :=
  quote :: (spell y.key ++ quote :: (y.colonBefore ++ colon ::
    (y.colonAfter ++ (y.bytes ++ (y.after ++ post)))))

/-- A member that navigation reads as the grammar derives it. -/
def Member.Read (p : Str × Value) (y : Member) : Prop :=
  p.1 = ⟨spell y.key⟩ ∧ ∃ r, Stands p.2 y.ast y.bytes r

theorem Member.text_keyed (y : Member) (post : Bytes) :
    y.text ++ post = y.before ++ y.keyed post := by
  simp only [Member.text, Member.keyed, List.append_assoc, List.cons_append]

/-- The next member, whose key stands behind the bytes `pre`. -/
theorem Members.next_derives {y : Member} {it : Members} {pre : Bytes} (hdone : it.done = false)
    (htext : it.text = pre ++ y.keyed r) (hstart : itemStart it.text = y.keyed r)
    (hws : IsWs y.before ∧ IsWs y.colonBefore ∧ IsWs y.colonAfter ∧ IsWs y.after)
    (hok : ∀ i ∈ y.key, i.Ok) (hd : Derives y.ast y.bytes) (hr : Ends (y.after ++ r))
    (hstop : it.i + (it.text.length - r.length) ≤ it.stop) :
    ∃ v, it.next = some ((⟨spell y.key⟩, v), ⟨y.after ++ r, v.e, it.stop, false⟩) ∧
      Stands v y.ast y.bytes (y.after ++ r) ∧
      v.e + y.after.length = it.i + (it.text.length - r.length) := by
  obtain ⟨-, hw₂, hw₃, -⟩ := hws
  obtain ⟨c, b', hb, hc, -⟩ := hd.head
  -- Where each part of the member starts.
  have hskip : skipString (y.keyed r) = y.colonBefore ++ colon ::
      (y.colonAfter ++ (y.bytes ++ (y.after ++ r))) := skipString_spell hok _
  have hcolon : skipWs (y.colonBefore ++ colon :: (y.colonAfter ++ (y.bytes ++ (y.after ++ r)))) =
      colon :: (y.colonAfter ++ (y.bytes ++ (y.after ++ r))) := skipWs_cons hw₂ (by decide)
  have hvalue : skipWs (y.colonAfter ++ (y.bytes ++ (y.after ++ r))) =
      y.bytes ++ (y.after ++ r) := by
    rw [hb]
    exact skipWs_cons hw₃ hc
  have hkey : ((y.keyed r).drop 1).take
      ((y.keyed r).length - (skipString (y.keyed r)).length - 2) = spell y.key := by
    have hlen : (y.keyed r).length - (skipString (y.keyed r)).length - 2 =
        (spell y.key).length := by
      rw [hskip]
      simp only [Member.keyed, List.length_append, List.length_cons]
      omega
    rw [hlen, Member.keyed, List.drop_one, List.tail_cons, List.take_left]
  obtain ⟨pre', hpre⟩ : ∃ pre', it.text = pre' ++ (y.bytes ++ (y.after ++ r)) :=
    ⟨pre ++ quote :: (spell y.key ++ quote :: (y.colonBefore ++ colon :: y.colonAfter)), by
      rw [htext, Member.keyed]
      simp only [List.append_assoc, List.cons_append]⟩
  have hpos : it.text.length - r.length = pre'.length + y.bytes.length + y.after.length := by
    rw [hpre]
    simp only [List.length_append]
    omega
  refine ⟨⟨it.i + pre'.length, it.i + pre'.length + y.bytes.length, y.bytes ++ (y.after ++ r)⟩,
    ?_, ⟨rfl, rfl, hd, hr⟩, by dsimp only; omega⟩
  rw [Members.next, hdone, hstart]
  simp only [Bool.false_eq_true, if_false]
  rw [if_neg (by simp [Member.keyed]), hkey, hskip, hcolon, if_neg (by simp), List.drop_one,
    List.tail_cons, hvalue, hpre, valueAt_derives hd hr (by omega)]
  dsimp only
  rw [skipValue_derives hd hr]

theorem Members.collect_end {it : Members} {w : Bytes} (hw : IsWs w)
    (htext : it.text = w ++ closeBrace :: r) (fuel : Nat) : Members.collect fuel it = [] := by
  cases fuel with
  | zero => rfl
  | succ fuel =>
    have hnext : it.next = none := by
      rw [Members.next, htext, itemStart_ws hw (by decide) (by decide)]
      split
      · rfl
      · exact if_pos (by rw [List.head?_cons]; decide)
    rw [Members.collect, hnext]

/-- The members from `y` on, whose key stands behind the bytes `pre`. -/
theorem Members.collect_from {y : Member} {ys : List Member} {it : Members} {pre : Bytes}
    {fuel : Nat} (hdone : it.done = false)
    (htext : it.text = pre ++ y.keyed (others (ys.map Member.text) ++ closeBrace :: r))
    (hstart : itemStart it.text = y.keyed (others (ys.map Member.text) ++ closeBrace :: r))
    (hstop : it.i + (it.text.length - r.length) ≤ it.stop)
    (hws : ∀ x ∈ y :: ys, IsWs x.before ∧ IsWs x.colonBefore ∧ IsWs x.colonAfter ∧ IsWs x.after)
    (hok : ∀ x ∈ y :: ys, ∀ i ∈ x.key, i.Ok)
    (hd : ∀ x ∈ y :: ys, Derives x.ast x.bytes) (hfuel : ys.length < fuel) :
    List.Forall₂ Member.Read (Members.collect fuel it) (y :: ys) := by
  induction ys generalizing y it pre fuel with
  | nil =>
    obtain _ | fuel := fuel
    · cases hfuel
    have hy := hws y List.mem_cons_self
    have hr : Ends (y.after ++ (others ([].map Member.text) ++ closeBrace :: r)) :=
      hy.2.2.2.ends (Ends.others true [] r)
    have hlen : (others (([] : List Member).map Member.text) ++ closeBrace :: r).length =
        r.length + 1 := rfl
    obtain ⟨v, hnext, hv, -⟩ := Members.next_derives hdone htext hstart hy
      (hok y List.mem_cons_self) (hd y List.mem_cons_self) hr (by omega)
    rw [Members.collect, hnext]
    refine .cons ⟨rfl, _, hv⟩ ?_
    rw [Members.collect_end hy.2.2.2 rfl]
    exact .nil
  | cons y' ys ih =>
    obtain _ | fuel := fuel
    · cases hfuel
    have hy := hws y List.mem_cons_self
    have hbefore := (hws y' (by simp)).1
    have hr := hy.2.2.2.ends (Ends.others true ((y' :: ys).map Member.text) r)
    have hle : r.length ≤ (others ((y' :: ys).map Member.text) ++ closeBrace :: r).length := by
      rw [List.length_append, List.length_cons]
      omega
    obtain ⟨v, hnext, hv, hve⟩ := Members.next_derives hdone htext hstart hy
      (hok y List.mem_cons_self) (hd y List.mem_cons_self) hr (by omega)
    rw [Members.collect, hnext]
    refine .cons ⟨rfl, _, hv⟩ ?_
    have hsplit : y.after ++ (others ((y' :: ys).map Member.text) ++ closeBrace :: r) =
        (y.after ++ comma :: y'.before) ++
          y'.keyed (others (ys.map Member.text) ++ closeBrace :: r) := by
      have hkeyed := y'.text_keyed (others (ys.map Member.text) ++ closeBrace :: r)
      rw [List.append_assoc, List.cons_append, ← hkeyed]
      simp only [others, List.map_cons, List.flatMap_cons, List.append_assoc, List.cons_append]
    refine ih rfl hsplit ?_ ?_ (fun x hx => hws x (List.mem_cons_of_mem y hx))
      (fun x hx => hok x (List.mem_cons_of_mem y hx))
      (fun x hx => hd x (List.mem_cons_of_mem y hx)) (Nat.lt_of_succ_lt_succ hfuel)
    · dsimp only
      rw [hsplit, List.append_assoc, List.cons_append]
      exact itemStart_comma hy.2.2.2 hbefore (by decide)
    · have hlen := congrArg List.length htext
      have hkeyed : (others ((y' :: ys).map Member.text) ++ closeBrace :: r).length ≤
          (y.keyed (others ((y' :: ys).map Member.text) ++ closeBrace :: r)).length := by
        rw [Member.keyed]
        simp only [List.length_append, List.length_cons]
        omega
      rw [List.length_append] at hlen
      dsimp only
      rw [List.length_append]
      omega

/-- The members of an object. -/
theorem Stands.members {y : Member} {ys : List Member}
    (hws : ∀ x ∈ y :: ys, IsWs x.before ∧ IsWs x.colonBefore ∧ IsWs x.colonAfter ∧ IsWs x.after)
    (hok : ∀ x ∈ y :: ys, ∀ i ∈ x.key, i.Ok)
    (hd : ∀ x ∈ y :: ys, Derives x.ast x.bytes)
    (hb : b = openBrace :: (y.text ++ (others (ys.map Member.text) ++ [closeBrace])))
    (h : Stands v (.object ((y :: ys).map fun x => (x.key, x.ast))) b r) :
    List.Forall₂ Member.Read v.members (y :: ys) := by
  have hkind : v.kind = .object := h.kind
  have hbefore := (hws y List.mem_cons_self).1
  have htext : v.text.drop 1 =
      y.before ++ y.keyed (others (ys.map Member.text) ++ closeBrace :: r) := by
    rw [h.text, hb, ← Member.text_keyed]
    simp only [List.cons_append, List.append_assoc, List.drop_one, List.tail_cons,
      List.nil_append]
  have hlen : (v.text.drop 1).length + 1 = b.length + r.length := by
    rw [h.text, hb]
    simp only [List.cons_append, List.drop_one, List.tail_cons, List.length_append,
      List.length_cons, List.length_nil]
    omega
  have hfuel : ys.length < v.text.length := by
    have hothers := others_length (ys.map Member.text)
    rw [List.length_map] at hothers
    rw [h.text, hb]
    simp only [List.length_append, List.length_cons]
    omega
  have hdone : (v.kind != .object) = false := by
    rw [hkind]
    rfl
  rw [Value.members]
  refine Members.collect_from hdone htext ?_ ?_ hws hok hd hfuel
  · dsimp only
    rw [htext]
    exact itemStart_ws hbefore (by decide) (by decide)
  · have hstop := h.stop
    have hpos : 0 < b.length := by
      rw [hb]
      exact Nat.zero_lt_succ _
    dsimp only
    omega

/-! ## Whole trees -/

/-- A key as it stands in the text, and a member of the tree. -/
def KeyRead (p : Str × Value) (m : List Item × Ast) : Prop :=
  p.1 = ⟨spell m.1⟩ ∧ (∀ i ∈ m.1, i.Ok) ∧ Paired m.1 ∧ Shows p.2 m.2

theorem keys_read {ps : List (Str × Value)} {ms : List (List Item × Ast)}
    (h : List.Forall₂ KeyRead ps ms) : ps.map (·.1.chars) = ms.map (decode ·.1) := by
  induction h with
  | nil => rfl
  | cons hp _ ih =>
    obtain ⟨hkey, hok, hpair, -⟩ := hp
    rw [List.map_cons, List.map_cons, ih, hkey, chars_spell hok hpair]

/-- The first member of a name in the text is the tree's. -/
theorem find_read {ps : List (Str × Value)} {ms : List (List Item × Ast)}
    (h : List.Forall₂ KeyRead ps ms) (key : List Char) :
    Option.Rel Shows ((ps.find? (·.1.eqStr key)).map (·.2))
      ((ms.find? fun m => decode m.1 == key).map (·.2)) := by
  induction h with
  | nil => exact .none
  | @cons p m _ _ hp _ ih =>
    obtain ⟨hkey, hok, hpair, hshow⟩ := hp
    have heq : p.1.eqStr key = (decode m.1 == key) := by rw [hkey, eqStr_spell hok hpair]
    rw [List.find?_cons, List.find?_cons, heq]
    cases decode m.1 == key
    · exact ih
    · exact .some hshow

/-- What the accessors give of a value, given what its elements and members show. -/
theorem Stands.shows (h : Stands v a b r) (hstr : v.asStr.map Str.chars = a.asStr)
    (helems : List.Forall₂ Shows v.elements a.elements)
    (hmems : List.Forall₂ KeyRead v.members a.members) : Shows v a := by
  refine .intro h.kind h.isNull h.asBool hstr h.asU64 h.asI64 helems (keys_read hmems) ?_ ?_
  · rw [List.forall₂_map_left_iff, List.forall₂_map_right_iff]
    exact hmems.imp fun _ _ hp => hp.2.2.2
  · exact find_read hmems

theorem Stands.no_elements (h : Stands v a b r) (ha : a.kind ≠ .array) : v.elements = [] := by
  have hdone : (v.kind != .array) = true := by simpa [h.kind] using ha
  rw [Value.elements, hdone]
  cases v.text.length <;> rfl

theorem Stands.no_members (h : Stands v a b r) (ha : a.kind ≠ .object) : v.members = [] := by
  have hdone : (v.kind != .object) = true := by simpa [h.kind] using ha
  rw [Value.members, hdone]
  cases v.text.length <;> rfl

/-- A scalar shows its tree. -/
theorem Stands.leaf (h : Stands v a b r) (ha : a.kind ≠ .array) (ha' : a.kind ≠ .object)
    (hstr : v.asStr.map Str.chars = a.asStr) : Shows v a := by
  refine h.shows hstr ?_ ?_
  · rw [h.no_elements ha]
    cases a with
    | array xs => exact absurd rfl ha
    | _ => exact .nil
  · rw [h.no_members ha']
    cases a with
    | object ms => exact absurd rfl ha'
    | _ => exact .nil

/-- A value that stands in the text shows its tree. -/
theorem Derives.shows {limits : Limits} (h : Derives a b) : ∀ {v : Value} {r : Bytes} {d : Nat},
    Fits limits d a → Stands v a b r → Shows v a := by
  induction h with
  | null =>
    intro v r d _ hv
    exact hv.leaf (by simp [Ast.kind]) (by simp [Ast.kind]) (by rw [hv.asStr]; rfl)
  | true_ =>
    intro v r d _ hv
    exact hv.leaf (by simp [Ast.kind]) (by simp [Ast.kind]) (by rw [hv.asStr]; rfl)
  | false_ =>
    intro v r d _ hv
    exact hv.leaf (by simp [Ast.kind]) (by simp [Ast.kind]) (by rw [hv.asStr]; rfl)
  | number _ =>
    intro v r d _ hv
    exact hv.leaf (by simp [Ast.kind]) (by simp [Ast.kind]) (by rw [hv.asStr]; rfl)
  | string hok =>
    intro v r d hfit hv
    cases hfit with
    | string hs =>
      refine hv.leaf (by simp [Ast.kind]) (by simp [Ast.kind]) ?_
      rw [hv.asStr]
      exact congrArg some (chars_spell hok hs.2)
  | @emptyArray w hw =>
    intro v r d _ hv
    have hm := hv.no_members (by simp [Ast.kind])
    refine hv.shows (by rw [hv.asStr]; rfl) ?_ (hm ▸ .nil)
    rw [Value.elements, Elements.collect_end (r := r) hw (by rw [hv.text]; simp)]
    exact .nil
  | @emptyObject w hw =>
    intro v r d _ hv
    have he := hv.no_elements (by simp [Ast.kind])
    refine hv.shows (by rw [hv.asStr]; rfl) (he ▸ .nil) ?_
    rw [Value.members, Members.collect_end (r := r) hw (by rw [hv.text]; simp)]
    exact .nil
  | @array e es hws hd ih =>
    intro v r d hfit hv
    have hm := hv.no_members (by simp [Ast.kind])
    refine hv.shows (by rw [hv.asStr]; rfl) ?_ (hm ▸ .nil)
    cases hfit with
    | array hfit =>
    have helems := hv.elements hws hd rfl
    rw [show (Ast.array ((e :: es).map Element.ast)).elements = (e :: es).map Element.ast from rfl,
      List.forall₂_map_right_iff]
    rw [List.forall₂_iff_get] at helems ⊢
    refine ⟨helems.1, fun i hi hi' => ?_⟩
    obtain ⟨r', hr'⟩ := helems.2 i hi hi'
    have hmem := List.get_mem (e :: es) ⟨i, hi'⟩
    exact ih _ hmem (hfit _ (List.mem_map_of_mem hmem)) hr'
  | @object m ms hws hok hd ih =>
    intro v r d hfit hv
    have he := hv.no_elements (by simp [Ast.kind])
    refine hv.shows (by rw [hv.asStr]; rfl) (he ▸ .nil) ?_
    cases hfit with
    | object hkeys hfit =>
    have hmems := hv.members hws hok hd rfl
    rw [show (Ast.object ((m :: ms).map fun x => (x.key, x.ast))).members =
      (m :: ms).map fun x => (x.key, x.ast) from rfl, List.forall₂_map_right_iff]
    rw [List.forall₂_iff_get] at hmems ⊢
    refine ⟨hmems.1, fun i hi hi' => ?_⟩
    obtain ⟨hkey, r', hr'⟩ := hmems.2 i hi hi'
    have hmem := List.get_mem (m :: ms) ⟨i, hi'⟩
    have hmem' := List.mem_map_of_mem (f := fun x : Member => (x.key, x.ast)) hmem
    exact ⟨hkey, hok _ hmem, (hkeys _ hmem').2, ih _ hmem (hfit _ hmem') hr'⟩

end Accessors

end NanoChrono.Json
