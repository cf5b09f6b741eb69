import Mathlib.Order.Interval.Set.Basic
import NanoChrono.Ncpkg.Manifest
import NanoChrono.Ncpkg.Precedence

/-! # Requirements as intervals

Each comparator stands for an interval of SemVer's order, its `interval`: an upper bound that names no
version of its own is the least version there is with those numbers (`first`), so it leaves out their
pre-releases too. A requirement accepts the versions in the intervals of all its comparators, of the
pre-releases those one of them names (`accepts_iff`). A version with a caret before it is read as the
comparator it prints (`parse_caret`). -/

namespace NanoChrono.Ncpkg

open Set

namespace Version

/-- The least version with these numbers, `major.minor.patch-0`. -/
def first (major minor patch : Nat) : Version := ⟨major, minor, patch, ['0'], []⟩

theorem zero_le_preKey (pre : List Char) :
    preKey Decimal.value ['0'] ≤ preKey Decimal.value pre := by
  have hzero : preKey Decimal.value ['0'] = WithTop.some [Sum.inlₗ 0] := by decide
  rw [hzero, preKey]
  split
  · exact le_top
  · rw [WithTop.coe_le_coe]
    obtain ⟨id, ids, hids⟩ := List.exists_cons_of_ne_nil (List.splitOn_ne_nil '.' pre)
    rw [hids, List.map_cons]
    -- No identifier is below the number zero, no list below its own beginning.
    have hid : (Sum.inlₗ 0 : ℕ ⊕ₗ List ℕ) ≤ identifierKey Decimal.value id := by
      rw [identifierKey]
      split
      · exact Sum.Lex.inl_le_inl_iff.2 (Nat.zero_le _)
      · exact Sum.Lex.inl_le_inr _ _
    rw [← not_lt, List.cons_lt_cons_iff, not_or]
    refine ⟨hid.not_gt, ?_⟩
    rintro ⟨-, h⟩
    exact List.not_lt_nil _ h

/-- What is at or above the least version with some numbers. -/
theorem first_le_key {a b c : Nat} (v : Version) : (first a b c).key ≤ v.key ↔
    a < v.major ∨ a = v.major ∧ (b < v.minor ∨ b = v.minor ∧ c ≤ v.patch) := by
  have hpre := zero_le_preKey v.pre
  rw [key, key, keyBy, keyBy, Prod.Lex.toLex_le_toLex, Prod.Lex.toLex_le_toLex,
    Prod.Lex.toLex_le_toLex]
  simp only [first, hpre, and_true, ← le_iff_lt_or_eq]

theorem key_lt_first {a b c : Nat} (v : Version) : v.key < (first a b c).key ↔
    v.major < a ∨ v.major = a ∧ (v.minor < b ∨ v.minor = b ∧ v.patch < c) := by
  rw [← not_le, first_le_key]
  omega

/-- A version is at or above the least one with its numbers. -/
theorem first_le_self (v : Version) : (first v.major v.minor v.patch).key ≤ v.key :=
  (first_le_key v).2 (.inr ⟨rfl, .inr ⟨rfl, le_rfl⟩⟩)

end Version

namespace Comparator

/-- The least version a comparator names. -/
def start (c : Comparator) : Version :=
  match c.full with
  | some f => f
  | none => .first c.major (c.minor.getD 0) 0

/-- The least version past those whose major and minor number a comparator names. -/
def stop (c : Comparator) : Version :=
  match c.minor with
  | none => .first (c.major + 1) 0 0
  | some m => .first c.major (m + 1) 0

/-- The least version past the compatible ones: those with the same number in the first place that
is not zero, or in the last one named. -/
def caretStop (c : Comparator) : Version :=
  match c.minor, c.full with
  | none, _ => .first (c.major + 1) 0 0
  | some m, none => if 0 < c.major then .first (c.major + 1) 0 0 else .first 0 (m + 1) 0
  | some m, some f =>
    if 0 < c.major then .first (c.major + 1) 0 0
    else if 0 < m then .first 0 (m + 1) 0
    else .first 0 0 (f.patch + 1)

/-- The interval a comparator stands for. A partial version names all versions with its numbers. -/
def interval (c : Comparator) : Set (ℕ ×ₗ ℕ ×ₗ ℕ ×ₗ WithTop (List (ℕ ⊕ₗ List ℕ))) :=
  match c.op, c.full with
  | .any, _ => univ
  | .wildcard, _ => Ico (Version.first c.major (c.minor.getD 0) 0).key c.stop.key
  | .exact, some f => {f.key}
  | .exact, none => Ico c.start.key c.stop.key
  | .greater, some f => Ioi f.key
  | .greater, none => Ici c.stop.key
  | .greaterEq, _ => Ici c.start.key
  | .less, _ => Iio c.start.key
  | .lessEq, some f => Iic f.key
  | .lessEq, none => Iio c.stop.key
  | .tilde, _ => Ico c.start.key c.stop.key
  | .caret, _ => Ico c.start.key c.caretStop.key

theorem full_eq_some {c : Comparator} {f : Version} (h : c.full = some f) :
    c.minor = some f.minor ∧ c.patch = some f.patch ∧ f = ⟨c.major, f.minor, f.patch, c.pre, []⟩ := by
  rcases c with ⟨op, major, _ | minor, _ | patch, pre⟩ <;> cases h
  exact ⟨rfl, rfl, rfl⟩

/-- A comparator of a partial version asks for numbers only. -/
theorem accepts_partial {c : Comparator} (hfull : c.full = none) (v : Version) :
    c.accepts v = true ↔ v.key ∈ c.interval := by
  rcases c with ⟨op, major, _ | minor, patch, pre⟩ <;> cases op <;>
    simp only [accepts, interval, start, stop, caretStop, hfull, Option.getD_none, Option.getD_some,
      mem_Ico, mem_Ici, mem_Iio, mem_univ, Bool.and_eq_true, Bool.or_eq_true, beq_iff_eq,
      decide_eq_true_eq, Version.first_le_key, Version.key_lt_first] <;>
    first | omega | split
  all_goals
    simp only [Bool.and_eq_true, beq_iff_eq, decide_eq_true_eq, Version.key_lt_first]
    omega

/-- A comparator of a full version asks for the version's place, and some for its numbers. -/
theorem accepts_full {c : Comparator} {f v : Version} (hfull : c.full = some f)
    (h : (v.precedence f).Compares v.key f.key) : c.accepts v = true ↔ v.key ∈ c.interval := by
  obtain ⟨hminor, hpatch, hf⟩ := full_eq_some hfull
  have hmajor : f.major = c.major := by rw [hf]
  -- A version at or above `f` has no smaller numbers.
  have habove : f.key ≤ v.key →
      f.major < v.major ∨ f.major = v.major ∧ (f.minor < v.minor ∨ f.minor = v.minor ∧ f.patch ≤ v.patch) :=
    fun hle => (Version.first_le_key v).1 ((Version.first_le_self f).trans hle)
  rw [hmajor] at habove
  cases hop : c.op <;>
    simp only [accepts, interval, start, stop, caretStop, hop, hminor, hfull, Option.getD_some, mem_Ico,
      mem_Ici, mem_Iio, mem_Ioi, mem_Iic, mem_univ, mem_singleton_iff, Bool.and_eq_true, beq_iff_eq,
      bne_iff_ne, h.ne_lt, h.eq_lt, h.ne_gt, h.eq_gt, h.eq_eq, Version.first_le_key, Version.key_lt_first]
  case wildcard => omega
  case tilde =>
    rw [and_assoc]
    refine and_congr_right fun hle => ?_
    have := habove hle
    omega
  case caret =>
    refine and_congr_right fun hle => ?_
    have := habove hle
    split_ifs <;> simp only [Bool.and_eq_true, beq_iff_eq, Version.key_lt_first] <;> omega

/-- A comparator as it is parsed accepts its interval. -/
theorem accepts_interval {c : Comparator} {v : Version} (hc : IsPre c.pre) (hv : IsPre v.pre) :
    c.accepts v = true ↔ v.key ∈ c.interval := by
  cases hfull : c.full with
  | none => exact accepts_partial hfull v
  | some f =>
    have hf : f.pre = c.pre := by rw [(full_eq_some hfull).2.2]
    exact accepts_full hfull (precedence_compares hv (hf.symm ▸ hc))

theorem isPre_parse {text : List Char} {c : Comparator} (h : parse text = some c) : IsPre c.pre := by
  rw [parse] at h
  dsimp only at h
  split at h
  · obtain rfl := Option.some.inj h
    exact .inl rfl
  · split at h
    · cases h
    · obtain ⟨pre, hpre, h⟩ := Option.bind_eq_some_iff.1 h
      have hpre := (suffix_eq '-' hpre).2
      split at h
      · split at h
        · cases h
        obtain ⟨major, -, h⟩ := Option.bind_eq_some_iff.1 h
        obtain ⟨⟨op, minor⟩, -, h⟩ := Option.bind_eq_some_iff.1 h
        dsimp only at h
        split at h
        · cases h
        obtain ⟨⟨op', patch⟩, -, h⟩ := Option.bind_eq_some_iff.1 h
        dsimp only at h
        split at h
        · cases h
        obtain rfl := Option.some.inj h
        exact hpre
      · cases h

end Comparator

namespace Req

/-- What is made of a list comes from its elements. -/
theorem exists_mapM {α β : Type} {f : α → Option β} {l : List α} {ys : List β} (h : l.mapM f = some ys) :
    ∀ y ∈ ys, ∃ x ∈ l, f x = some y := by
  induction l generalizing ys with
  | nil =>
    obtain rfl := Option.some.inj (List.mapM_nil.symm.trans h)
    exact fun y hy => absurd hy List.not_mem_nil
  | cons x l ih =>
    rw [List.mapM_cons] at h
    obtain ⟨y, hy, h⟩ := Option.bind_eq_some_iff.1 h
    obtain ⟨zs, hzs, h⟩ := Option.bind_eq_some_iff.1 h
    obtain rfl := Option.some.inj h
    intro z hz
    rcases List.mem_cons.1 hz with rfl | hz
    · exact ⟨x, List.mem_cons_self, hy⟩
    · obtain ⟨w, hw, hfw⟩ := ih hzs z hz
      exact ⟨w, List.mem_cons_of_mem x hw, hfw⟩

/-- The comparators of a requirement as they are parsed. -/
theorem isPre_parse {text : String} {r : Req} (h : parse text = some r) :
    ∀ c ∈ r.comparators, IsPre c.pre := by
  rw [parse] at h
  dsimp only at h
  split at h
  · cases h
  split at h
  · cases h
  obtain ⟨cs, hcs, h⟩ := Option.bind_eq_some_iff.1 h
  obtain rfl := Option.some.inj h
  intro c hc
  obtain ⟨part, -, hpart⟩ := exists_mapM hcs c hc
  exact Comparator.isPre_parse hpart

/-- A requirement accepts the versions in all its intervals, of the pre-releases those one of its
comparators names. -/
theorem accepts_iff {r : Req} {v : Version} (hr : ∀ c ∈ r.comparators, IsPre c.pre) (hv : IsPre v.pre) :
    r.accepts v = true ↔ (∀ c ∈ r.comparators, v.key ∈ c.interval) ∧ (v.pre = [] ∨
      ∃ c ∈ r.comparators, c.pre ≠ [] ∧
        c.major = v.major ∧ c.minor = some v.minor ∧ c.patch = some v.patch) := by
  have hall : (∀ c ∈ r.comparators, c.accepts v = true) ↔ ∀ c ∈ r.comparators, v.key ∈ c.interval :=
    forall₂_congr fun c hc => Comparator.accepts_interval (hr c hc) hv
  simp only [accepts, Version.isPrerelease, Bool.and_eq_true, List.all_eq_true, hall, Bool.or_eq_true,
    List.any_eq_true, Bool.not_eq_true', Bool.not_not, List.isEmpty_iff, beq_iff_eq, and_assoc]
  simp

end Req

/-! ## Printing -/

/-- What versions are written in. -/
def IsVersionChar (c : Char) : Prop := c.isAlphanum = true ∨ c = '-' ∨ c = '.'

theorem isSpace_eq_false {c : Char} (h : IsVersionChar c) : isSpace c = false := by
  rcases h with h | rfl | rfl
  · have hrange : ((decide (c.val ≥ 'A'.val ∧ c.val ≤ 'Z'.val) ||
        (decide (c.val ≥ 'a'.val) && decide (c.val ≤ 'z'.val))) ||
          (decide (c.val ≥ '0'.val) && decide (c.val ≤ '9'.val))) = true := h
    simp only [Bool.or_eq_true, Bool.and_eq_true, decide_eq_true_eq, ge_iff_le,
      UInt32.le_iff_toNat_le] at hrange
    simp only [isSpace, Bool.or_eq_false_iff, Bool.and_eq_false_iff, decide_eq_false_iff_not,
      beq_eq_false_iff_ne]
    simp at hrange
    omega
  · decide
  · decide

theorem mem_splitOn {a c : Char} {s : List Char} (hc : c ∈ s) (hca : c ≠ a) :
    ∃ p ∈ s.splitOn a, c ∈ p := by
  induction s with
  | nil => cases hc
  | cons x s ih =>
    rw [List.splitOn_cons_eq_if_modifyHead]
    obtain ⟨q, qs, hq⟩ := List.exists_cons_of_ne_nil (List.splitOn_ne_nil a s)
    rcases List.mem_cons.1 hc with rfl | hc
    · rw [if_neg (by simpa using hca), hq]
      exact ⟨c :: q, List.mem_cons_self, List.mem_cons_self⟩
    · obtain ⟨p, hp, hcp⟩ := ih hc
      split
      · exact ⟨p, List.mem_cons_of_mem [] hp, hcp⟩
      · rw [hq] at hp ⊢
        rcases List.mem_cons.1 hp with rfl | hp
        · exact ⟨x :: p, List.mem_cons_self, List.mem_cons_of_mem x hcp⟩
        · exact ⟨p, List.mem_cons_of_mem _ hp, hcp⟩
theorem trimStart_eq {s : List Char} (h : ∀ c ∈ s, isSpace c = false) : trimStart s = s := by
  cases s with
  | nil => rfl
  | cons c s => rw [trimStart, List.dropWhile_cons, h c List.mem_cons_self]; rfl

theorem trim_eq {s : List Char} (h : ∀ c ∈ s, isSpace c = false) : trim s = s := by
  rw [trim, trimStart_eq h, trimStart_eq fun c hc => h c (List.mem_reverse.1 hc), List.reverse_reverse]

theorem isVersionChar_identifiers {s : List Char} {strict : Bool} (h : identifiers s strict = true) :
    ∀ c ∈ s, IsVersionChar c := by
  intro c hc
  by_cases hdot : c = '.'
  · exact .inr (.inr hdot)
  · obtain ⟨id, hid, hcid⟩ := mem_splitOn hc hdot
    simp only [identifiers, Bool.and_eq_true, List.all_eq_true, Bool.or_eq_true, beq_iff_eq] at h
    exact ((h.2 id hid).1.2 c hcid).imp_right .inl

theorem isVersionChar_toDigits {n : Nat} : ∀ c ∈ Nat.toDigits 10 n, IsVersionChar c := by
  intro c hc
  refine .inl ?_
  rw [Char.isAlphanum, (Decimal.canonical_toDigits n).digits c hc, Bool.or_true]

/-- A parsed version without build metadata is written in them. -/
theorem Version.ReadFrom.isVersionChar {v : Version} {t : List Char} (h : v.ReadFrom t)
    (hbuild : v.build = []) : ∀ c ∈ t, IsVersionChar c := by
  have hpre : ∀ c ∈ (if v.pre = [] then [] else '-' :: v.pre), IsVersionChar c := by
    split
    · exact fun c hc => absurd hc List.not_mem_nil
    next hne =>
      intro c hc
      rcases List.mem_cons.1 hc with rfl | hc
      · exact .inr (.inl rfl)
      · exact isVersionChar_identifiers (h.pre.resolve_left hne) c hc
  rw [h.text, if_pos hbuild, List.append_nil]
  intro c hc
  simp only [List.mem_append, List.mem_cons] at hc
  rcases hc with hc | rfl | hc | rfl | hc | hc
  · exact isVersionChar_toDigits c hc
  · exact .inr (.inr rfl)
  · exact isVersionChar_toDigits c hc
  · exact .inr (.inr rfl)
  · exact isVersionChar_toDigits c hc
  · exact hpre c hc

/-- A number is not one of the marks that stand for every number. -/
theorem part_number {s : List Char} {n : Nat} (h : number s = some n) (op : CmpOp) :
    Comparator.part op (some s) = some (op, some n) := by
  have hwild : Comparator.wild s = false := by
    rw [Bool.eq_false_iff]
    intro hs
    simp only [Comparator.wild, Bool.or_eq_true, beq_iff_eq] at hs
    rcases hs with (rfl | rfl) | rfl <;> cases h
  rw [Comparator.part, hwild, h]
  rfl

theorem splitOnce_of_not_mem {c : Char} {s : List Char} (h : c ∉ s) : splitOnce c s = (s, none) := by
  have hs := (splitOnce_eq c s).1
  rcases hso : splitOnce c s with ⟨l, _ | r⟩
  · rw [hso] at hs
    rw [hs]
    exact congrArg (·, none) (List.append_nil l).symm
  · rw [hso] at hs
    refine absurd ?_ h
    rw [hs]
    exact List.mem_append_right l List.mem_cons_self

/-- A version without build metadata, read as the comparator it is given to. -/
theorem Comparator.parse_caret {text : String} {v : Version} (h : Version.parse text = some v)
    (hbuild : v.build = []) :
    Comparator.parse ('^' :: text.toList) =
      some ⟨.caret, v.major, some v.minor, some v.patch, v.pre⟩ := by
  have hchars := (Version.readFrom_parse h).1.isVersionChar hbuild
  have hplus : '+' ∉ text.toList := fun hmem => by
    rcases hchars _ hmem with hp | hp | hp <;> cases hp
  have htrim : trim ('^' :: text.toList) = '^' :: text.toList := by
    refine trim_eq fun c hc => ?_
    rcases List.mem_cons.1 hc with rfl | hc
    · decide
    · exact isSpace_eq_false (hchars c hc)
  have hrest : trimStart text.toList = text.toList :=
    trimStart_eq fun c hc => isSpace_eq_false (hchars c hc)
  have hnot : ('^' :: text.toList == ['*']) = false := by
    rw [List.cons_beq_cons]; rfl
  rw [parse]
  dsimp only
  rw [htrim, hnot, if_neg Bool.false_ne_true]
  rw [show splitOp ('^' :: text.toList) = (.caret, text.toList) from rfl]
  dsimp only
  rw [hrest, List.contains_eq_mem, decide_eq_false hplus, Bool.false_or]
  -- From here the version's own parse took the same steps.
  rw [Version.parse] at h
  split at h
  · cases h
  next hne =>
  rw [splitOnce_of_not_mem hplus] at h
  obtain ⟨build, -, h⟩ := Option.bind_eq_some_iff.1 h
  dsimp only at h
  rcases hdash : splitOnce '-' text.toList with ⟨core, p⟩
  rw [hdash] at h
  obtain ⟨pre, hpre, h⟩ := Option.bind_eq_some_iff.1 h
  split at h
  next x y z hparts =>
    obtain ⟨major, hmajor, h⟩ := Option.bind_eq_some_iff.1 h
    obtain ⟨minor, hminor, h⟩ := Option.bind_eq_some_iff.1 h
    obtain ⟨patch, hpatch, h⟩ := Option.bind_eq_some_iff.1 h
    obtain rfl := Option.some.inj h
    have hempty : text.toList.isEmpty = false := by
      rw [Bool.or_eq_true, not_or] at hne
      exact Bool.eq_false_iff.2 hne.1
    rw [hempty, if_neg Bool.false_ne_true]
    dsimp only
    rw [hpre, hparts]
    simp [hmajor, part_number hminor, part_number hpatch]
  next => cases h

/-- A version as a requirement, if it has no build metadata and leaves room for the mark. -/
theorem Req.parse_caret {text : String} {v : Version} (h : Version.parse text = some v)
    (hbuild : v.build = []) (hlen : text.utf8ByteSize < maxVersionLen) :
    Req.parse (Requirement.caret text).text =
      some ⟨[⟨.caret, v.major, some v.minor, some v.patch, v.pre⟩]⟩ := by
  have hchars := (Version.readFrom_parse h).1.isVersionChar hbuild
  have hlist : (Requirement.caret text).text.toList = '^' :: text.toList := by
    rw [Requirement.text, String.toList_append]
    rfl
  have hsize : (Requirement.caret text).text.utf8ByteSize = 1 + text.utf8ByteSize := by
    rw [Requirement.text, String.utf8ByteSize_append]
    rfl
  have htrim : trim ('^' :: text.toList) = '^' :: text.toList := by
    refine trim_eq fun c hc => ?_
    rcases List.mem_cons.1 hc with rfl | hc
    · decide
    · exact isSpace_eq_false (hchars c hc)
  have hcomma : ',' ∉ '^' :: text.toList := by
    intro hmem
    rcases List.mem_cons.1 hmem with hmem | hmem
    · cases hmem
    · rcases hchars _ hmem with hc | hc | hc <;> cases hc
  rw [parse, hlist, hsize]
  dsimp only
  rw [htrim, List.splitOn_eq_singleton hcomma, decide_eq_false (by omega), List.isEmpty_cons,
    Bool.or_self, if_neg Bool.false_ne_true]
  simp [Comparator.parse_caret h hbuild, maxComparators]

/-- Precedence is a total preorder on all versions, and SemVer's order on parsed ones; a parsed version
is read back from its print, and from a caret before it if it has no build metadata and leaves room; and
a parsed requirement accepts the versions in all its intervals, of the pre-releases those it names. -/
theorem versions_in_order :
    (∀ u v w : Version, (u.precedence v).swap = v.precedence u ∧
      (u.precedence v ≠ .gt → v.precedence w ≠ .gt → u.precedence w ≠ .gt)) ∧
    (∀ s t v w, Version.parse s = some v → Version.parse t = some w →
      (v.precedence w).Compares v.key w.key) ∧
    (∀ s v, Version.parse s = some v → Version.parse v.display = some v ∧
      (v.build = [] → s.utf8ByteSize < maxVersionLen →
        Req.parse (Requirement.caret v.display).text =
          some ⟨[⟨.caret, v.major, some v.minor, some v.patch, v.pre⟩]⟩)) ∧
    ∀ s t r v, Req.parse s = some r → Version.parse t = some v →
      (r.accepts v = true ↔ (∀ c ∈ r.comparators, v.key ∈ c.interval) ∧ (v.pre = [] ∨
        ∃ c ∈ r.comparators, c.pre ≠ [] ∧
          c.major = v.major ∧ c.minor = some v.minor ∧ c.patch = some v.patch)) := by
  refine ⟨fun u v w => ⟨precedence_swap u v, precedence_trans⟩, ?_, ?_, ?_⟩
  · intro s t v w hv hw
    exact precedence_compares (Version.readFrom_parse hv).1.pre (Version.readFrom_parse hw).1.pre
  · intro s v hv
    rw [Version.display_parse hv]
    exact ⟨hv, fun hbuild hlen => Req.parse_caret hv hbuild hlen⟩
  · intro s t r v hr hv
    exact Req.accepts_iff (Req.isPre_parse hr) (Version.readFrom_parse hv).1.pre

/-- `1.2.3-rc` from its print, and `1.9.0` in the interval of `^1.2`. -/
theorem versions_in_order_caret :
    Version.parse (Version.display ⟨1, 2, 3, ['r', 'c'], []⟩) = some ⟨1, 2, 3, ['r', 'c'], []⟩ ∧
      (Req.accepts ⟨[⟨.caret, 1, some 2, none, []⟩]⟩ ⟨1, 9, 0, [], []⟩ = true ↔
        (∀ c ∈ [(⟨.caret, 1, some 2, none, []⟩ : Comparator)], Version.key ⟨1, 9, 0, [], []⟩ ∈ c.interval) ∧
          (([] : List Char) = [] ∨ ∃ c ∈ [(⟨.caret, 1, some 2, none, []⟩ : Comparator)], c.pre ≠ [] ∧
            c.major = 1 ∧ c.minor = some 9 ∧ c.patch = some 0)) :=
  ⟨(versions_in_order.2.2.1 "1.2.3-rc" _ (by decide)).1,
    versions_in_order.2.2.2 "^1.2" "1.9.0" _ _ (by decide) (by decide)⟩

/-- A pre-release of the version a caret's bound names is below that version, and is refused. -/
theorem caret_refuses_prerelease_of_bound :
    satisfies "2.0.0-alpha" "^1.2.3, >=2.0.0-alpha" = some false ∧
      satisfies "2.0.0-alpha" ">=1.2.3, <2.0.0, >=2.0.0-alpha" = some true := by
  decide

end NanoChrono.Ncpkg
