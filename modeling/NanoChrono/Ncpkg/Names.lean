import NanoChrono.Ncpkg.Planner

/-! # The names the manager makes up

Staged files and backups are named by decimal numbers, transactions by two hexadecimal ones, shared
libraries by a name and a suffix. Each is a component of the installer's alphabet, and each kind
tells its members apart. -/

namespace NanoChrono.Ncpkg

/-- What a text must satisfy to be a component, given that it is no reserved name. -/
theorem isComponent_of {c : String} (h0 : c.toList ≠ []) (hl : c.toList.length ≤ maxName)
    (hfirst : c.toList.head? ≠ some '.') (hlast : c.toList.getLast? ≠ some '.')
    (hall : ∀ b ∈ c.toList, componentChar b = true) (hr : reserved c.toList = false) :
    isComponent c = true := by
  have h0' : c.toList.isEmpty = false := by simpa using h0
  simp only [isComponent, h0', hr, Bool.not_false, Bool.true_and, Bool.and_true, Bool.and_eq_true,
    decide_eq_true_eq, bne_iff_ne, List.all_eq_true]
  exact ⟨⟨⟨hl, hfirst⟩, hlast⟩, hall⟩

/-- Upper-casing leaves a digit alone. -/
theorem toUpper_digit {c : Char} (h : c.isDigit = true) : c.toUpper = c := by
  have hv : c.val.toNat < 97 := by
    simp only [Char.isDigit, Bool.and_eq_true, decide_eq_true_eq, UInt32.le_iff_toNat_le] at h
    have : ('9' : Char).val.toNat = 57 := rfl
    omega
  have h' : ¬ ('a'.val ≤ c.val ∧ c.val ≤ 'z'.val) := by
    rintro ⟨h1, -⟩
    have := UInt32.le_iff_toNat_le.1 h1
    have h97 : ('a' : Char).val.toNat = 97 := rfl
    omega
  unfold Char.toUpper
  rw [dif_neg h']

/-- No reserved name starts with a digit. -/
theorem reserved_of_digit {c : Char} {s : List Char} (h : c.isDigit = true) :
    reserved (c :: s) = false := by
  have hdot : (c != '.') = true := by
    rw [bne_iff_ne]
    rintro rfl
    exact absurd h (by decide)
  have hC : c ≠ 'C' := by rintro rfl; exact absurd h (by decide)
  have hP : c ≠ 'P' := by rintro rfl; exact absurd h (by decide)
  have hA : c ≠ 'A' := by rintro rfl; exact absurd h (by decide)
  have hN : c ≠ 'N' := by rintro rfl; exact absurd h (by decide)
  have hL : c ≠ 'L' := by rintro rfl; exact absurd h (by decide)
  simp only [reserved, List.takeWhile_cons, hdot, if_true, List.map_cons, toUpper_digit h,
    List.contains_cons, List.contains_nil, Bool.or_false]
  have hne : ∀ (d : Char) (l m : List Char), c ≠ d → (c :: l == d :: m) = false := by
    intro d l m hd
    rw [beq_eq_false_iff_ne]
    rintro h
    exact hd (List.cons.inj h).1
  rw [hne _ _ _ hC, hne _ _ _ hP, hne _ _ _ hA, hne _ _ _ hN, hne _ _ _ hC]
  simp only [Bool.or_false, Bool.false_or]
  split
  · next heq =>
    obtain ⟨rfl, -⟩ := List.cons.inj heq
    rw [hne _ _ _ hC, hne _ _ _ hL]
    rfl
  · rfl

theorem componentChar_digit {c : Char} (h : c.isDigit = true) : componentChar c = true := by
  simp [componentChar, Char.isAlphanum, h]

/-- A decimal number is a component. -/
theorem isComponent_toString {n : Nat} (h : n < 2 ^ 63) : isComponent (toString n) = true := by
  have htext : (toString n).toList = Nat.toDigits 10 n := by
    rw [Nat.toString_eq_repr, Nat.toList_repr]
  have hdigit : ∀ c ∈ Nat.toDigits 10 n, c.isDigit = true :=
    fun c hc => Nat.isDigit_of_mem_toDigits (by decide) (by decide) hc
  have hlen : (Nat.toDigits 10 n).length ≤ 19 :=
    (Nat.length_toDigits_le_iff (by decide) (by decide)).2 (h.trans (by decide))
  have hdot : ∀ c ∈ Nat.toDigits 10 n, c ≠ '.' := by
    rintro c hc rfl
    exact absurd (hdigit _ hc) (by decide)
  have hmax : maxName = 128 := rfl
  refine isComponent_of (by rw [htext]; exact Nat.toDigits_ne_nil) (by rw [htext]; omega) ?_ ?_ ?_ ?_
  · rw [htext]
    intro hh
    exact hdot '.' (List.mem_of_head? hh) rfl
  · rw [htext]
    intro hh
    exact hdot '.' (List.mem_of_getLast? hh) rfl
  · rw [htext]
    exact fun c hc => componentChar_digit (hdigit c hc)
  · rw [htext]
    rcases hd : Nat.toDigits 10 n with _ | ⟨c, s⟩
    · rfl
    · exact reserved_of_digit (hdigit c (by rw [hd]; simp))

/-- Decimal numbers are told apart by their digits. -/
theorem toString_injective {m n : Nat} (h : toString m = toString n) : m = n := by
  have hd : Nat.toDigits 10 m = Nat.toDigits 10 n := by
    simpa only [Nat.toString_eq_repr, Nat.toList_repr] using congrArg String.toList h
  calc m = Nat.ofDigitChars 10 (Nat.toDigits 10 m) 0 := Nat.ofDigitChars_ten_toDigits.symm
    _ = n := by rw [hd]; exact Nat.ofDigitChars_ten_toDigits

/-- The digits of `hex16`. -/
theorem toList_hex16 (n : UInt64) :
    (hex16 n).toList = (List.range 16).map fun i => Nat.digitChar (n.toNat / 16 ^ (15 - i) % 16) := by
  simp [hex16]

theorem digitChar_component {d : Nat} (h : d < 16) :
    componentChar (Nat.digitChar d) = true ∧ Nat.digitChar d ≠ '.' := by
  interval_cases d <;> decide

theorem digitChar_inj {d e : Nat} (hd : d < 16) (he : e < 16)
    (h : Nat.digitChar d = Nat.digitChar e) : d = e := by
  interval_cases d <;> interval_cases e <;> first | rfl | exact absurd h (by decide)

/-- A text without a dot that is longer than every reserved name is none. -/
theorem reserved_of_long {s : List Char} (hdot : ∀ c ∈ s, c ≠ '.') (hlen : 7 ≤ s.length) :
    reserved s = false := by
  have htake : ∀ l : List Char, (∀ c ∈ l, c ≠ '.') → l.takeWhile (· != '.') = l := by
    intro l hl
    induction l with
    | nil => rfl
    | cons c l ih =>
      rw [List.takeWhile_cons, if_pos (bne_iff_ne.2 (hl c (by simp))),
        ih fun d hd => hl d (by simp [hd])]
  have hl : (s.map Char.toUpper).length = s.length := List.length_map _
  simp only [reserved, htake s hdot]
  generalize s.map Char.toUpper = t at hl
  have hne : ∀ l : List Char, l.length < 7 → (t == l) = false := by
    intro l hl'
    rw [beq_eq_false_iff_ne]
    rintro rfl
    omega
  simp only [List.contains_cons, List.contains_nil, Bool.or_false]
  rw [hne _ (by decide), hne _ (by decide), hne _ (by decide), hne _ (by decide),
    hne _ (by decide)]
  simp only [Bool.or_false, Bool.false_or]
  split
  · simp only [List.length_cons, List.length_nil] at hl
    omega
  · rfl

/-- The digits of a transaction's id. -/
theorem toList_txName (g n : UInt64) :
    (txName g n).toList = (hex16 g).toList ++ '-' :: (hex16 n).toList := by
  simp [txName]

/-- A transaction's id is a component. -/
theorem isComponent_txName (g n : UInt64) : isComponent (txName g n) = true := by
  have hhex : ∀ k : UInt64, ∀ c ∈ (hex16 k).toList, componentChar c = true ∧ c ≠ '.' := by
    intro k c hc
    rw [toList_hex16, List.mem_map] at hc
    obtain ⟨i, -, rfl⟩ := hc
    exact digitChar_component (Nat.mod_lt _ (by decide))
  have hlen : ∀ k : UInt64, (hex16 k).toList.length = 16 := by
    intro k
    rw [toList_hex16, List.length_map, List.length_range]
  have hall : ∀ c ∈ (txName g n).toList, componentChar c = true ∧ c ≠ '.' := by
    intro c hc
    rw [toList_txName, List.mem_append, List.mem_cons] at hc
    rcases hc with hc | rfl | hc
    · exact hhex g c hc
    · decide
    · exact hhex n c hc
  have hl : (txName g n).toList.length = 33 := by
    rw [toList_txName, List.length_append, List.length_cons, hlen, hlen]
  have hmax : maxName = 128 := rfl
  refine isComponent_of (by rintro h; rw [h] at hl; cases hl) (by omega) ?_ ?_
    (fun c hc => (hall c hc).1) (reserved_of_long (fun c hc => (hall c hc).2) (by omega))
  · intro hh
    exact (hall '.' (List.mem_of_head? hh)).2 rfl
  · intro hh
    exact (hall '.' (List.mem_of_getLast? hh)).2 rfl

/-- Numbers below `16 ^ k` are told apart by their last `k` hexadecimal digits. -/
theorem eq_of_hex_digits {k m n : Nat} (h : ∀ i < k, m / 16 ^ i % 16 = n / 16 ^ i % 16) :
    m % 16 ^ k = n % 16 ^ k := by
  induction k with
  | zero => simp [Nat.mod_one]
  | succ k ih =>
    rw [Nat.mod_pow_succ, Nat.mod_pow_succ, ih fun i hi => h i (by omega), h k (by omega)]

theorem hex16_injective {m n : UInt64} (h : hex16 m = hex16 n) : m = n := by
  have hl := congrArg String.toList h
  rw [toList_hex16, toList_hex16] at hl
  have hdigit : ∀ i < 16, m.toNat / 16 ^ i % 16 = n.toNat / 16 ^ i % 16 := by
    intro i hi
    have := List.map_inj_left.1 hl (15 - i) (List.mem_range.2 (by omega))
    have hsub : 15 - (15 - i) = i := by omega
    rw [hsub] at this
    exact digitChar_inj (Nat.mod_lt _ (by decide)) (Nat.mod_lt _ (by decide)) this
  have hmod := eq_of_hex_digits hdigit
  have hm := m.toNat_lt
  have hn := n.toNat_lt
  rw [Nat.mod_eq_of_lt (by omega), Nat.mod_eq_of_lt (by omega)] at hmod
  exact UInt64.toNat_inj.1 hmod

/-- Transactions of different generations have different ids. -/
theorem txName_generation {g g' n n' : UInt64} (h : txName g n = txName g' n') : g = g' := by
  have hl := congrArg String.toList h
  rw [toList_txName, toList_txName] at hl
  have hlen : (hex16 g).toList.length = (hex16 g').toList.length := by
    rw [toList_hex16, toList_hex16, List.length_map, List.length_map]
  exact hex16_injective (String.toList_inj.1 (List.append_inj_left hl hlen))

/-- A transaction's id is never the empty text. -/
theorem txName_ne_empty (g n : UInt64) : txName g n ≠ "" := by
  intro h
  have := congrArg String.toList h
  rw [toList_txName] at this
  simp at this

/-- The next transaction's id differs from the last one's. -/
theorem advance_lastTx_ne {d : Db} (h : d.lastTx = "" ∨ ∃ n, d.lastTx = txName d.generation n)
    (nonce : UInt64) : d.lastTx ≠ (d.advance nonce).lastTx := by
  rcases h with h | ⟨n, h⟩
  · rw [h]
    exact (txName_ne_empty _ _).symm
  · rw [h]
    intro he
    have hg := txName_generation he
    have : d.generation.toNat = (d.generation + 1).toNat := congrArg _ hg
    rw [UInt64.toNat_add] at this
    have hlt := d.generation.toNat_lt
    have h1 : (1 : UInt64).toNat = 1 := rfl
    omega

/-- The file name of a library with an admitted name is a component. -/
theorem isComponent_libFile {name : String} (h : isName name = true) :
    isComponent (name ++ ".ncdyn") = true := by
  simp only [isName, Bool.and_eq_true, decide_eq_true_eq] at h
  obtain ⟨⟨⟨hlen, -⟩, -⟩, hc⟩ := h
  simp only [isComponent, Bool.and_eq_true, decide_eq_true_eq, bne_iff_ne, List.all_eq_true,
    Bool.not_eq_true', List.isEmpty_eq_false_iff] at hc
  obtain ⟨⟨⟨⟨⟨h0, -⟩, hfirst⟩, hlast⟩, hall⟩, hr⟩ := hc
  have htext : (name ++ ".ncdyn").toList = name.toList ++ ['.', 'n', 'c', 'd', 'y', 'n'] := by
    simp
  have hmax : maxName = 128 := rfl
  refine isComponent_of (by rw [htext]; simp) (by rw [htext]; simp; omega) ?_ ?_ ?_ ?_
  · rw [htext, List.head?_append_of_ne_nil _ h0]
    exact hfirst
  · rw [htext]
    simp
  · intro b hb
    rw [htext, List.mem_append] at hb
    rcases hb with hb | hb
    · exact hall b hb
    · exact List.all_eq_true.1 (by decide : ['.', 'n', 'c', 'd', 'y', 'n'].all componentChar = true) b hb
  · -- The stem is the name's own.
    have hstem : (name ++ ".ncdyn").toList.takeWhile (· != '.') =
        name.toList.takeWhile (· != '.') := by
      rw [htext]
      generalize name.toList = l
      induction l with
      | nil => rfl
      | cons c l ih => simp only [List.cons_append, List.takeWhile_cons, ih]
    simp only [reserved, hstem]
    simpa only [reserved] using hr

end NanoChrono.Ncpkg
