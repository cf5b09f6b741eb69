import Mathlib.Tactic

/-! # One clock against another

A pair of counters is sampled. An interval that deviates from the rate of the baseline so far is a step, and restarts
the baseline; a baseline that is long enough is judged by its rate. The differences are taken modulo `2 ^ 64` and the
products in 128 bits. The counts behind the readings (`Reading`) have neither limit, and what a verdict says is said of
them (`Meets`). The code answers so in every run in which no count goes back and no product is too large
(`CrossCheck.judged`). -/

namespace NanoChrono.Clock

/-! ## The source's operations -/

/-- What the comparison says now. -/
inductive Verdict where
  /-- Not enough baseline yet to judge the rate. -/
  | warming
  /-- The rates agree; the measured difference in parts per million. -/
  | agree (ppm : ℤ)
  /-- The rates disagree by more than the tolerance. -/
  | drift (ppm : ℤ)
  /-- One clock jumped relative to the other, by this many nanoseconds (primary minus reference). -/
  | step (ns : ℤ)
deriving DecidableEq, Repr

namespace Verdict

/-- A verdict that says a clock jumped. -/
def isStep : Verdict → Bool
  | step _ => true
  | _ => false

/-- A verdict that says the rates disagree. -/
def isDrift : Verdict → Bool
  | drift _ => true
  | _ => false

end Verdict

/-- What a comparison is set up with. -/
structure CrossCheck.Setup where
  primary_hz : BitVec 64
  reference_hz : BitVec 64
  /-- Rate disagreement that counts as drift. -/
  tolerance_ppm : BitVec 32
  /-- How uncertain one sample's pairing is, in nanoseconds. -/
  sample_uncertainty_ns : BitVec 64
deriving DecidableEq, Repr

/-- One primary-versus-reference comparison. -/
structure CrossCheck extends CrossCheck.Setup where
  origin : Option (BitVec 64 × BitVec 64)
  last : Option (BitVec 64 × BitVec 64)
  steps : ℕ
  verdict : Verdict
deriving DecidableEq, Repr

/-- A 128-bit result, which wraps. -/
def i128 (x : ℤ) : ℤ := x.bmod (2 ^ 128)

/-- A number cast to 64 bits, which drops the rest. -/
def i64 (x : ℤ) : ℤ := x.bmod (2 ^ 64)

namespace CrossCheck

/-- No sample yet. -/
def new (setup : Setup) : CrossCheck := { setup with origin := none, last := none, steps := 0, verdict := .warming }

/-- Nanoseconds of a count of ticks. -/
def ns (ticks hz : BitVec 64) : ℤ := (i128 (ticks.toNat * 1000000000)).tdiv (max hz.toNat 1)

namespace Setup

/-- The baseline a rate judgement needs. -/
def min_baseline_ns (s : Setup) : ℕ :=
  let tolerance := max s.tolerance_ppm.toNat 1
  min (min (s.sample_uncertainty_ns.toNat * 2) (2 ^ 64 - 1) * 10 % 2 ^ 64 * 1000000) (2 ^ 64 - 1) / tolerance

end Setup

/-- Adds one paired sample. -/
def sample (c : CrossCheck) (primary reference : BitVec 64) : CrossCheck :=
  match c.origin with
  | none => { c with origin := some (primary, reference), last := some (primary, reference), verdict := .warming }
  | some origin =>
    let last := c.last.getD origin
    let c := { c with last := some (primary, reference) }
    let dp := ns (primary - last.1) c.primary_hz
    let dr := ns (reference - last.2) c.reference_hz
    let base_p := ns (last.1 - origin.1) c.primary_hz
    let base_r := ns (last.2 - origin.2) c.reference_hz
    -- The first interval after the origin only establishes the rate.
    let expected := if base_r > 0 then (i128 (dr * base_p)).tdiv base_r else dp
    let slack := i128 (i128 (2 * c.sample_uncertainty_ns.toNat) +
      (i128 (i128 |dr| * c.tolerance_ppm.toNat)).tdiv 1000000)
    let off := i128 (dp - expected)
    if i128 |off| > slack then
      { c with
        steps := min (c.steps + 1) (2 ^ 32 - 1)
        origin := some (primary, reference)
        verdict := .step (max (-(2 ^ 63)) (min off (2 ^ 63 - 1))) }
    else
      let bp := ns (primary - origin.1) c.primary_hz
      let br := ns (reference - origin.2) c.reference_hz
      if br < c.min_baseline_ns ∨ br ≤ 0 then { c with verdict := .warming }
      else
        let ppm := i64 ((i128 (i128 (bp - br) * 1000000)).tdiv br)
        { c with verdict := if ppm.natAbs > c.tolerance_ppm.toNat then .drift ppm else .agree ppm }

/-- The states after each of a list of samples. -/
@[grind =] def run : CrossCheck → List (BitVec 64 × BitVec 64) → List CrossCheck
  | _, [] => []
  | c, s :: rest => c.sample s.1 s.2 :: run (c.sample s.1 s.2) rest

end CrossCheck

/-! ## What a verdict says -/

/-- The two counts at one sample, as they are and not as 64 bits show them: setting a counter moves its count, and a
counter that passes its top goes on. -/
structure Reading where
  primary : ℤ
  reference : ℤ
deriving DecidableEq, Repr

namespace Reading

/-- The readings the two counters give. -/
def shown (s : Reading) : BitVec 64 × BitVec 64 := (BitVec.ofInt 64 s.primary, BitVec.ofInt 64 s.reference)

end Reading

namespace CrossCheck.Setup

variable (s : Setup)

/-- Nanoseconds of a difference of the primary's counts, with its sign. -/
def primary_ns (ticks : ℤ) : ℤ := (ticks * 1000000000).tdiv (max s.primary_hz.toNat 1)

/-- Nanoseconds of a difference of the reference's counts, with its sign. -/
def reference_ns (ticks : ℤ) : ℤ := (ticks * 1000000000).tdiv (max s.reference_hz.toNat 1)

section

-- The baseline's start, the sample before and this one.
variable (origin last now : Reading)

/-- How far the primary went in the interval. -/
def dp : ℤ := s.primary_ns (now.primary - last.primary)

/-- How far the reference went in it. -/
def dr : ℤ := s.reference_ns (now.reference - last.reference)

/-- How far the primary had gone in the baseline. -/
def base_p : ℤ := s.primary_ns (last.primary - origin.primary)

/-- How far the reference had gone in it. -/
def base_r : ℤ := s.reference_ns (last.reference - origin.reference)

/-- How far an interval deviates from the rate the baseline has established, if it has. -/
def deviation : ℤ :=
  s.dp last now -
    if s.base_r origin last > 0 then (s.dr last now * s.base_p origin last).tdiv (s.base_r origin last)
    else s.dp last now

/-- What sampling explains: the uncertainty at both ends and the wander tolerated over the interval. -/
def slack : ℤ := 2 * s.sample_uncertainty_ns.toNat + (|s.dr last now| * s.tolerance_ppm.toNat).tdiv 1000000

/-- The measured difference of the rates, in whole parts per million. -/
def measured_ppm : ℤ :=
  ((s.base_p origin now - s.base_r origin now) * 1000000).tdiv (s.base_r origin now)

end

end CrossCheck.Setup

/-- What a sample's verdict says of the counts. -/
structure Meets (s : CrossCheck.Setup) (origin last now : Reading) (v : Verdict) : Prop where
  /-- A step is reported just where the interval deviates by more than the slack. -/
  step_iff : v.isStep ↔ s.slack last now < |s.deviation origin last now|
  /-- Its nanoseconds are the deviation, with its sign, as 64 bits hold it. -/
  step_ns : ∀ d, v = .step d → d = max (-(2 ^ 63)) (min (s.deviation origin last now) (2 ^ 63 - 1))
  /-- Otherwise, once the baseline is long enough, the rates are said to drift just where their difference exceeds the
  tolerance. -/
  drift_iff : ¬ v.isStep → 0 < s.base_r origin now → s.min_baseline_ns ≤ s.base_r origin now →
    (v.isDrift ↔ s.tolerance_ppm.toNat < |s.measured_ppm origin now|) ∧
      (v = .drift (s.measured_ppm origin now) ∨ v = .agree (s.measured_ppm origin now))
  /-- Before that nothing is said. -/
  warming : ¬ v.isStep → (s.base_r origin now ≤ 0 ∨ s.base_r origin now < s.min_baseline_ns) → v = .warming

/-- The baseline's start after a verdict: a step restarts it. -/
def Verdict.next (v : Verdict) (origin now : Reading) : Reading := if v.isStep then now else origin

/-- Each verdict of a run says what it should of the counts, the baseline restarting at each step. -/
def Judged (s : CrossCheck.Setup) : Reading → Reading → List Reading → List Verdict → Prop
  | _, _, [], vs => vs = []
  | origin, last, now :: rest, vs =>
    ∃ v tail, vs = v :: tail ∧ Meets s origin last now v ∧ Judged s (v.next origin now) now rest tail

/-! ## Runs the code can follow -/

/-- An interval whose differences and products fit: no count has gone back in it or in its baseline, none has gained
`2 ^ 64`, the extrapolated advance fits 128 bits before it is divided and the rate's difference 64. -/
structure Fits (s : CrossCheck.Setup) (origin last now : Reading) : Prop where
  primary : origin.primary ≤ last.primary ∧ last.primary ≤ now.primary ∧ now.primary < origin.primary + 2 ^ 64
  reference :
    origin.reference ≤ last.reference ∧ last.reference ≤ now.reference ∧ now.reference < origin.reference + 2 ^ 64
  product : s.dr last now * s.base_p origin last < 2 ^ 127
  rate : |(s.base_p origin now - s.base_r origin now) * 1000000| < 2 ^ 63 * max 1 (s.base_r origin now)

/-- Every interval of a run fits, the baseline restarting where one deviates by more than the slack. -/
def RunFits (s : CrossCheck.Setup) : Reading → Reading → List Reading → Prop
  | _, _, [] => True
  | origin, last, now :: rest =>
    Fits s origin last now ∧
      RunFits s (if s.slack last now < |s.deviation origin last now| then now else origin) now rest

/-- Two counters at constant rates: the primary's time is the reference's times `ρ` and a constant, and at no sample do
the two reads lie further apart than the uncertainty. -/
def Steady (s : CrossCheck.Setup) (ρ c : ℚ) (samples : List Reading) : Prop :=
  ∀ x ∈ samples,
    |(x.primary * 1000000000 / max s.primary_hz.toNat 1 : ℚ) -
      ρ * (x.reference * 1000000000 / max s.reference_hz.toNat 1 : ℚ) - c| ≤ s.sample_uncertainty_ns.toNat

/-- The baseline has established the rate: over the interval it leads to within the tolerated wander, less a
nanosecond of rounding, of where the counters' own rate leads. -/
def Established (s : CrossCheck.Setup) (ρ : ℚ) (origin last now : Reading) : Prop :=
  0 < s.base_r origin last →
    |ρ * ((now.reference - last.reference) * 1000000000 / max s.reference_hz.toNat 1 : ℚ) -
        s.dr last now * s.base_p origin last / s.base_r origin last| + 1 ≤
      s.dr last now * s.tolerance_ppm.toNat / 1000000

/-- It has at every interval. -/
def RunEstablished (s : CrossCheck.Setup) (ρ : ℚ) (origin : Reading) : Reading → List Reading → Prop
  | _, [] => True
  | last, now :: rest => Established s ρ origin last now ∧ RunEstablished s ρ origin now rest

/-! ## Arithmetic -/

/-- A number of 128 bits does not wrap. -/
theorem i128_eq {x : ℤ} (h : |x| < 2 ^ 127) : i128 x = x := by
  obtain ⟨hl, hu⟩ := abs_lt.mp h
  unfold i128
  apply Int.bmod_eq_of_le_mul_two
  · push_cast
    omega
  · push_cast
    omega

/-- A number of 64 bits is cast to itself. -/
theorem i64_eq {x : ℤ} (h : |x| < 2 ^ 63) : i64 x = x := by
  obtain ⟨hl, hu⟩ := abs_lt.mp h
  unfold i64
  apply Int.bmod_eq_of_le_mul_two
  · push_cast
    omega
  · push_cast
    omega

/-- A wrapping difference of readings is the counts' own, where that is a number of 64 bits. -/
theorem toNat_sub_shown {a b : ℤ} (hle : b ≤ a) (hlt : a < b + 2 ^ 64) :
    ((BitVec.ofInt 64 a - BitVec.ofInt 64 b).toNat : ℤ) = a - b := by
  have hsub : BitVec.ofInt 64 a - BitVec.ofInt 64 b = BitVec.ofInt 64 (a - b) := by
    rw [BitVec.sub_eq_add_neg, ← BitVec.ofInt_neg, ← BitVec.ofInt_add, ← sub_eq_add_neg]
  rw [hsub, BitVec.toNat_ofInt, Int.toNat_of_nonneg (Int.emod_nonneg _ (by norm_num))]
  apply Int.emod_eq_of_lt
  · omega
  · push_cast
    omega

/-- A count of nanoseconds is no more than the ticks' own product, which is small. -/
theorem nanoseconds_bounds {t : ℤ} (hnonneg : 0 ≤ t) (hlt : t < 2 ^ 64) (hz : ℕ) :
    0 ≤ (t * 1000000000).tdiv (max hz 1) ∧ (t * 1000000000).tdiv (max hz 1) < 2 ^ 94 := by
  have hproduct : 0 ≤ t * 1000000000 := by positivity
  rw [Int.tdiv_eq_ediv_of_nonneg hproduct]
  constructor
  · exact Int.ediv_nonneg hproduct (by positivity)
  · have hle := Int.ediv_le_self (max (hz : ℤ) 1) hproduct
    omega

/-- The nanoseconds of two readings are those of the counts. -/
theorem CrossCheck.ns_shown {a b : ℤ} (hle : b ≤ a) (hlt : a < b + 2 ^ 64) (hz : BitVec 64) :
    CrossCheck.ns (BitVec.ofInt 64 a - BitVec.ofInt 64 b) hz = ((a - b) * 1000000000).tdiv (max hz.toNat 1) := by
  unfold CrossCheck.ns
  rw [toNat_sub_shown hle hlt, i128_eq]
  rw [abs_of_nonneg (by omega)]
  omega

/-- A quotient is small where what is divided is that many times smaller than it might be. -/
theorem abs_tdiv_lt {x y k : ℤ} (hy : 0 < y) (h : |x| < k * y) : |x.tdiv y| < k := by
  have habs : |x.tdiv y| = |x| / y := by
    rw [Int.abs_eq_natAbs, Int.natAbs_tdiv, Int.abs_eq_natAbs]
    nth_rewrite 2 [← Int.natAbs_of_nonneg hy.le]
    rfl
  rw [habs]
  exact Int.ediv_lt_of_lt_mul hy h

/-! ## One sample -/

/-- The verdict on an interval, with no limit on the numbers. -/
def CrossCheck.Setup.judge (s : CrossCheck.Setup) (origin last now : Reading) : Verdict :=
  if s.slack last now < |s.deviation origin last now| then
    .step (max (-(2 ^ 63)) (min (s.deviation origin last now) (2 ^ 63 - 1)))
  else if s.base_r origin now < s.min_baseline_ns ∨ s.base_r origin now ≤ 0 then .warming
  else if s.tolerance_ppm.toNat < |s.measured_ppm origin now| then .drift (s.measured_ppm origin now)
  else .agree (s.measured_ppm origin now)

namespace CrossCheck.Setup

variable (s : CrossCheck.Setup) (origin last now : Reading)

/-- It is a step just where the interval deviates. -/
theorem judge_isStep : (s.judge origin last now).isStep ↔ s.slack last now < |s.deviation origin last now| := by
  unfold judge
  split_ifs <;> simp_all [Verdict.isStep]

/-- It says what a verdict should. -/
theorem judge_meets : Meets s origin last now (s.judge origin last now) where
  step_iff := s.judge_isStep origin last now
  step_ns := by
    intro d hd
    unfold judge at hd
    split_ifs at hd with hstep
    exact (Verdict.step.inj hd).symm
  drift_iff := by
    intro hstep hpos hlong
    rw [judge_isStep] at hstep
    have hready : ¬ (s.base_r origin now < s.min_baseline_ns ∨ s.base_r origin now ≤ 0) := by omega
    unfold judge
    rw [if_neg hstep, if_neg hready]
    split_ifs with hdrift
    · exact ⟨by simp [Verdict.isDrift, hdrift], .inl rfl⟩
    · exact ⟨by simp [Verdict.isDrift, hdrift], .inr rfl⟩
  warming := by
    intro hstep hshort
    rw [judge_isStep] at hstep
    unfold judge
    rw [if_neg hstep, if_pos hshort.symm]

variable {s origin last now}

/-- The reference's times in an interval that fits. -/
theorem reference_bounds (h : Fits s origin last now) :
    (0 ≤ s.dr last now ∧ s.dr last now < 2 ^ 94) ∧ (0 ≤ s.base_r origin last ∧ s.base_r origin last < 2 ^ 94) ∧
      0 ≤ s.base_r origin now ∧ s.base_r origin now < 2 ^ 94 := by
  obtain ⟨hfirst, hsecond, htop⟩ := h.reference
  exact ⟨nanoseconds_bounds (by omega) (by omega) _, nanoseconds_bounds (by omega) (by omega) _,
    nanoseconds_bounds (by omega) (by omega) _⟩

/-- The primary's. -/
theorem primary_bounds (h : Fits s origin last now) :
    (0 ≤ s.dp last now ∧ s.dp last now < 2 ^ 94) ∧ (0 ≤ s.base_p origin last ∧ s.base_p origin last < 2 ^ 94) ∧
      0 ≤ s.base_p origin now ∧ s.base_p origin now < 2 ^ 94 := by
  obtain ⟨hfirst, hsecond, htop⟩ := h.primary
  exact ⟨nanoseconds_bounds (by omega) (by omega) _, nanoseconds_bounds (by omega) (by omega) _,
    nanoseconds_bounds (by omega) (by omega) _⟩

/-- The extrapolated advance in 128 bits is the true one. -/
theorem product_eq (h : Fits s origin last now) :
    i128 (s.dr last now * s.base_p origin last) = s.dr last now * s.base_p origin last := by
  have hr := (reference_bounds h).1.1
  have hp := (primary_bounds h).2.1.1
  apply i128_eq
  rw [abs_of_nonneg (mul_nonneg hr hp)]
  exact h.product

/-- The deviation is small. -/
theorem deviation_bounds (h : Fits s origin last now) : |s.deviation origin last now| < 2 ^ 127 := by
  obtain ⟨⟨hdr, -⟩, ⟨hbase, -⟩, -⟩ := reference_bounds h
  obtain ⟨⟨hdp, hdp'⟩, ⟨hbase_p, -⟩, -⟩ := primary_bounds h
  have hproduct := h.product
  unfold deviation
  split_ifs with hpos
  · have hnonneg := mul_nonneg hdr hbase_p
    have hquotient := Int.ediv_nonneg hnonneg hbase
    have hle := Int.ediv_le_self (s.base_r origin last) hnonneg
    rw [Int.tdiv_eq_ediv_of_nonneg hnonneg, abs_lt]
    omega
  · simp

/-- The slack in 128 bits is the true one. -/
theorem slack_eq (h : Fits s origin last now) :
    i128 (i128 (2 * s.sample_uncertainty_ns.toNat) +
      (i128 (i128 |s.dr last now| * s.tolerance_ppm.toNat)).tdiv 1000000) = s.slack last now := by
  obtain ⟨⟨hdr, hdr'⟩, -⟩ := reference_bounds h
  have hu := s.sample_uncertainty_ns.isLt
  have ht := s.tolerance_ppm.isLt
  have hproduct : |s.dr last now| * s.tolerance_ppm.toNat < 2 ^ 126 := by
    rw [abs_of_nonneg hdr]
    calc s.dr last now * s.tolerance_ppm.toNat ≤ s.dr last now * 2 ^ 32 := by gcongr; exact_mod_cast ht.le
      _ < 2 ^ 94 * 2 ^ 32 := by gcongr
      _ = 2 ^ 126 := by norm_num
  have hnonneg : 0 ≤ |s.dr last now| * s.tolerance_ppm.toNat := by positivity
  have hle := Int.ediv_le_self 1000000 hnonneg
  have hquotient := Int.ediv_nonneg hnonneg (by norm_num : (0 : ℤ) ≤ 1000000)
  rw [i128_eq (x := |s.dr last now|), i128_eq (x := |s.dr last now| * s.tolerance_ppm.toNat), i128_eq (x := 2 * _),
    i128_eq]
  · rfl
  · rw [Int.tdiv_eq_ediv_of_nonneg hnonneg, abs_of_nonneg (by omega)]
    omega
  · rw [abs_of_nonneg (by omega)]
    omega
  · rw [abs_of_nonneg hnonneg]
    omega
  · rw [abs_abs, abs_of_nonneg hdr]
    omega

/-- The measured difference in 128 bits, cast to 64, is the true one. -/
theorem ppm_eq (h : Fits s origin last now) (hpos : 0 < s.base_r origin now) :
    i64 ((i128 (i128 (s.base_p origin now - s.base_r origin now) * 1000000)).tdiv (s.base_r origin now)) =
      s.measured_ppm origin now := by
  obtain ⟨-, -, hbr, hbr'⟩ := reference_bounds h
  obtain ⟨-, -, hbp, hbp'⟩ := primary_bounds h
  have hrate := h.rate
  rw [max_eq_right (by omega)] at hrate
  rw [i128_eq (x := s.base_p origin now - _), i128_eq, i64_eq]
  · rfl
  · exact abs_tdiv_lt hpos hrate
  · rw [abs_lt]
    omega
  · rw [abs_lt]
    omega

end CrossCheck.Setup

namespace CrossCheck

variable {c : CrossCheck} {origin last now : Reading}

/-- One sample of the code: where the interval fits, its verdict is the one with no limit on the numbers. -/
theorem sample_shown (horigin : c.origin = some origin.shown) (hlast : c.last = some last.shown)
    (h : Fits c.toSetup origin last now) :
    c.sample now.shown.1 now.shown.2 =
      { c with
        last := some now.shown
        origin := some ((c.judge origin last now).next origin now).shown
        steps := if (c.judge origin last now).isStep then min (c.steps + 1) (2 ^ 32 - 1) else c.steps
        verdict := c.judge origin last now } := by
  obtain ⟨hp, hp', hp''⟩ := h.primary
  obtain ⟨hr, hr', hr''⟩ := h.reference
  have hdp : ns (now.shown.1 - last.shown.1) c.primary_hz = c.dp last now := ns_shown hp' (by omega) _
  have hdr : ns (now.shown.2 - last.shown.2) c.reference_hz = c.dr last now := ns_shown hr' (by omega) _
  have hbase_p : ns (last.shown.1 - origin.shown.1) c.primary_hz = c.base_p origin last := ns_shown hp (by omega) _
  have hbase_r : ns (last.shown.2 - origin.shown.2) c.reference_hz = c.base_r origin last := ns_shown hr (by omega) _
  have hbp : ns (now.shown.1 - origin.shown.1) c.primary_hz = c.base_p origin now := ns_shown (by omega) (by omega) _
  have hbr : ns (now.shown.2 - origin.shown.2) c.reference_hz = c.base_r origin now := ns_shown (by omega) (by omega) _
  have hoff := Setup.deviation_bounds h
  have hdeviation : i128 (c.dp last now -
      if c.base_r origin last > 0 then (i128 (c.dr last now * c.base_p origin last)).tdiv (c.base_r origin last)
      else c.dp last now) = c.deviation origin last now := by
    rw [Setup.product_eq h]
    exact i128_eq hoff
  have habs : i128 |c.deviation origin last now| = |c.deviation origin last now| := i128_eq (by rwa [abs_abs])
  unfold sample
  rw [horigin, hlast]
  simp only [Option.getD_some, hdp, hdr, hbase_p, hbase_r, hbp, hbr, hdeviation, habs, Setup.slack_eq h, gt_iff_lt]
  unfold Setup.judge Verdict.next
  by_cases hstep : c.slack last now < |c.deviation origin last now|
  · simp [hstep, Verdict.isStep]
  by_cases hshort : c.base_r origin now < c.min_baseline_ns ∨ c.base_r origin now ≤ 0
  · simp [hstep, hshort, Verdict.isStep]
  -- The rate is divided by a baseline that is not empty.
  have hpos : 0 < c.base_r origin now := by omega
  rw [Setup.ppm_eq h hpos]
  have hover : (c.measured_ppm origin now).natAbs > c.tolerance_ppm.toNat ↔
      (c.tolerance_ppm.toNat : ℤ) < |c.measured_ppm origin now| := by
    rw [Int.abs_eq_natAbs]
    omega
  simp only [if_neg hstep, if_neg hshort, hover]
  split_ifs <;> simp_all [Verdict.isStep]

/-! ## Runs -/

/-- How many steps a run has reported. -/
def stepped (vs : List Verdict) : ℕ := vs.countP Verdict.isStep

/-- Each state of a run has counted the steps up to it, as long as 32 bits can. -/
def Counted (before : ℕ) (states : List CrossCheck) : Prop :=
  ∀ i (h : i < states.length),
    states[i].steps = min (before + stepped ((states.take (i + 1)).map CrossCheck.verdict)) (2 ^ 32 - 1)

/-- A run from a baseline: every verdict says what it should, and every step is counted once. -/
theorem run_judged (rest : List Reading) :
    ∀ {c : CrossCheck} {origin last : Reading} {before : ℕ}, c.origin = some origin.shown → c.last = some last.shown →
      c.steps = min before (2 ^ 32 - 1) → RunFits c.toSetup origin last rest →
      Judged c.toSetup origin last rest ((run c (rest.map Reading.shown)).map CrossCheck.verdict) ∧
        Counted before (run c (rest.map Reading.shown)) := by
  induction rest with
  | nil =>
    intro c origin last before _ _ _ _
    exact ⟨rfl, fun i h => absurd h (Nat.not_lt_zero i)⟩
  | cons now rest ih =>
    intro c origin last before horigin hlast hsteps hfits
    obtain ⟨hnow, hrest⟩ := hfits
    have hsample := sample_shown horigin hlast hnow
    set v := c.judge origin last now with hv
    set after := c.sample now.shown.1 now.shown.2 with hafter
    have hnext : v.next origin now =
        if c.slack last now < |c.deviation origin last now| then now else origin := by
      unfold Verdict.next
      simp only [hv, Setup.judge_isStep]
    have hsetup : after.toSetup = c.toSetup := by rw [hsample]
    have hverdict : after.verdict = v := by rw [hsample]
    have hcount : after.steps = min (before + if v.isStep then 1 else 0) (2 ^ 32 - 1) := by
      rw [hsample]
      simp only [hsteps]
      split_ifs <;> omega
    have hfrom := @ih after (v.next origin now) now (before + if v.isStep then 1 else 0)
      (by rw [hsample]) (by rw [hsample]) hcount (by rw [hsetup, hnext]; exact hrest)
    obtain ⟨hjudged, hcounted⟩ := hfrom
    rw [hsetup] at hjudged
    constructor
    · refine ⟨v, (run after (rest.map Reading.shown)).map CrossCheck.verdict, ?_, Setup.judge_meets _ _ _ _, hjudged⟩
      rw [← hverdict]
      rfl
    · intro i h
      match i with
      | 0 =>
        show after.steps = _
        rw [hcount]
        simp [run, stepped, ← hafter, hverdict, List.countP_cons]
      | i + 1 =>
        have hlt : i < (run after (rest.map Reading.shown)).length := by
          simpa [run, ← hafter] using h
        have hi := hcounted i hlt
        show (run after (rest.map Reading.shown))[i].steps = _
        rw [hi]
        simp only [run, List.map_cons, ← hafter, List.take_succ_cons, stepped, List.countP_cons, hverdict]
        omega

end CrossCheck

/-! ## Counters at constant rates -/

/-- A quotient of integers is the fraction's floor. -/
theorem tdiv_bounds {x y : ℤ} (hx : 0 ≤ x) (hy : 0 < y) :
    ((x.tdiv y : ℤ) : ℚ) ≤ x / y ∧ (x / y : ℚ) < (x.tdiv y : ℤ) + 1 := by
  have hy' : (0 : ℚ) < y := by exact_mod_cast hy
  have hle := Int.ediv_mul_le x hy.ne'
  have hlt := Int.lt_ediv_add_one_mul_self x hy
  rw [Int.tdiv_eq_ediv_of_nonneg hx, le_div_iff₀ hy', div_lt_iff₀ hy']
  exact ⟨by exact_mod_cast hle, by exact_mod_cast hlt⟩

/-- An interval of two steady counters does not deviate by more than the slack, where the baseline has established the
rate. -/
theorem not_step_of_steady {s : CrossCheck.Setup} {ρ c : ℚ} {samples : List Reading} {origin last now : Reading}
    (hsteady : Steady s ρ c samples) (hlast : last ∈ samples) (hnow : now ∈ samples) (hfits : Fits s origin last now)
    (hestablished : Established s ρ origin last now) : |s.deviation origin last now| ≤ s.slack last now := by
  obtain ⟨⟨hdr, -⟩, ⟨hbase, -⟩, -⟩ := CrossCheck.Setup.reference_bounds hfits
  obtain ⟨-, ⟨hbase_p, -⟩, -⟩ := CrossCheck.Setup.primary_bounds hfits
  have hwander : 0 ≤ |s.dr last now| * s.tolerance_ppm.toNat := by positivity
  by_cases hpos : s.base_r origin last > 0
  swap
  · -- An empty baseline has no rate to deviate from.
    have hslack : 0 ≤ (|s.dr last now| * s.tolerance_ppm.toNat).tdiv 1000000 := Int.tdiv_nonneg hwander (by norm_num)
    unfold CrossCheck.Setup.deviation CrossCheck.Setup.slack
    rw [if_neg hpos, sub_self, abs_zero]
    positivity
  have hrate := hestablished hpos
  -- The three quotients, each within one of its fraction.
  have hnonneg := hfits.primary.2.1
  obtain ⟨hdp, hdp'⟩ := tdiv_bounds (x := (now.primary - last.primary) * 1000000000) (y := max s.primary_hz.toNat 1)
    (by omega) (by omega)
  obtain ⟨hquotient, hquotient'⟩ := tdiv_bounds (mul_nonneg hdr hbase_p) hpos
  obtain ⟨-, hslack⟩ := tdiv_bounds hwander (by norm_num : (0 : ℤ) < 1000000)
  have herror := hsteady now hnow
  have herror' := hsteady last hlast
  change ((s.dp last now : ℤ) : ℚ) ≤ _ at hdp
  change _ < ((s.dp last now : ℤ) : ℚ) + 1 at hdp'
  push_cast at hdp hdp' hquotient hquotient' hslack
  rw [abs_of_nonneg (by exact_mod_cast hdr : (0 : ℚ) ≤ s.dr last now)] at hslack
  have hbetween : |((now.primary - last.primary) * 1000000000 / max s.primary_hz.toNat 1 : ℚ) -
      ρ * ((now.reference - last.reference) * 1000000000 / max s.reference_hz.toNat 1 : ℚ)| ≤
      2 * s.sample_uncertainty_ns.toNat := by
    refine le_trans (le_of_eq ?_) (le_trans (abs_sub _ _) (add_le_add herror herror') |>.trans (le_of_eq ?_))
    · congr 1
      ring
    · ring
  have hwithin : (|s.deviation origin last now| : ℚ) < s.slack last now + 1 := by
    unfold CrossCheck.Setup.deviation CrossCheck.Setup.slack
    rw [if_pos hpos]
    rw [abs_le] at hbetween
    have hnear := abs_le.mp (le_sub_iff_add_le.mpr hrate)
    push_cast at hbetween hnear ⊢
    rw [abs_lt]
    constructor <;> linarith [hbetween.1, hbetween.2, hnear.1, hnear.2]
  have hlt : |s.deviation origin last now| < s.slack last now + 1 := by exact_mod_cast hwithin
  omega

/-- A run of two steady counters reports no step. -/
theorem steady_run {s : CrossCheck.Setup} {ρ c : ℚ} {samples : List Reading} {origin : Reading}
    (hsteady : Steady s ρ c samples) (rest : List Reading) :
    ∀ {last : Reading} {vs : List Verdict}, last ∈ samples → (∀ x ∈ rest, x ∈ samples) → RunFits s origin last rest →
      RunEstablished s ρ origin last rest → Judged s origin last rest vs → ∀ v ∈ vs, ¬ v.isStep := by
  induction rest with
  | nil =>
    intro last vs _ _ _ _ hjudged v hv
    rw [show vs = [] from hjudged] at hv
    exact absurd hv List.not_mem_nil
  | cons now rest ih =>
    intro last vs hlast hmem hfits hestablished hjudged v hv
    obtain ⟨hnow, hrest⟩ := hfits
    obtain ⟨w, tail, rfl, hmeets, htail⟩ := hjudged
    have hstays := not_step_of_steady hsteady hlast (hmem now List.mem_cons_self) hnow hestablished.1
    rw [if_neg (not_lt.mpr hstays)] at hrest
    have hw : ¬ w.isStep := fun hstep => absurd (hmeets.step_iff.mp hstep) (not_lt.mpr hstays)
    rw [Verdict.next, if_neg hw] at htail
    rcases List.mem_cons.mp hv with rfl | hv
    · exact hw
    · exact ih (hmem now List.mem_cons_self) (fun x hx => hmem x (List.mem_cons_of_mem _ hx)) hrest hestablished.2
        htail v hv

/-- The baseline a rate needs, where twenty times the uncertainty is a number of 64 bits. -/
theorem CrossCheck.Setup.min_baseline_ns_eq (s : CrossCheck.Setup)
    (h : 20 * s.sample_uncertainty_ns.toNat < 2 ^ 64) :
    s.min_baseline_ns =
      min (20 * s.sample_uncertainty_ns.toNat * 1000000) (2 ^ 64 - 1) / max s.tolerance_ppm.toNat 1 := by
  have htwice : min (s.sample_uncertainty_ns.toNat * 2) (2 ^ 64 - 1) * 10 = 20 * s.sample_uncertainty_ns.toNat := by
    omega
  unfold min_baseline_ns
  rw [htwice, Nat.mod_eq_of_lt h]

/-! ## The comparison -/

/-- The state of a run after its first sample. -/
def CrossCheck.begun (s : CrossCheck.Setup) (first : Reading) : CrossCheck :=
  (CrossCheck.new s).sample first.shown.1 first.shown.2

/-- **The cross-check.** In a run in which no count goes back, none gains `2 ^ 64` over a baseline and no product is too
large, each verdict says of the counts what it should, each step is counted once, and where the counters are at
constant rates and the baseline has established them no step is reported. -/
theorem CrossCheck.judged (s : CrossCheck.Setup) (first : Reading) (rest : List Reading)
    (huncertainty : 20 * s.sample_uncertainty_ns.toNat < 2 ^ 64) (hfits : RunFits s first first rest) :
    (begun s first).verdict = .warming ∧ (begun s first).steps = 0 ∧
      Judged s first first rest ((run (begun s first) (rest.map Reading.shown)).map CrossCheck.verdict) ∧
      Counted 0 (run (begun s first) (rest.map Reading.shown)) ∧
      s.min_baseline_ns =
        min (20 * s.sample_uncertainty_ns.toNat * 1000000) (2 ^ 64 - 1) / max s.tolerance_ppm.toNat 1 ∧
      ∀ ρ c : ℚ, Steady s ρ c (first :: rest) → RunEstablished s ρ first first rest →
        ∀ v ∈ (run (begun s first) (rest.map Reading.shown)).map CrossCheck.verdict, ¬ v.isStep := by
  obtain ⟨hjudged, hcounted⟩ :=
    @run_judged rest (begun s first) first first 0 rfl rfl rfl hfits
  refine ⟨rfl, rfl, hjudged, hcounted, s.min_baseline_ns_eq huncertainty, ?_⟩
  intro ρ c hsteady hestablished
  exact steady_run hsteady rest List.mem_cons_self (fun x hx => List.mem_cons_of_mem _ hx) hfits hestablished hjudged

/-- A counter at a gigahertz and a reference at the same rate, read within a microsecond of each other. -/
def gigahertz : CrossCheck.Setup := ⟨1000000000, 1000000000, 200, 1000⟩

/-- Its rates and its uncertainty, as numbers. -/
theorem gigahertz_numbers :
    gigahertz.primary_hz.toNat = 1000000000 ∧ gigahertz.reference_hz.toNat = 1000000000 ∧
      gigahertz.tolerance_ppm.toNat = 200 ∧ gigahertz.sample_uncertainty_ns.toNat = 1000 := by
  decide

/-- Three seconds of it, the second reading late by nine tenths of the uncertainty. -/
theorem CrossCheck.judged_gigahertz :
    let rest : List Reading := [⟨1000000900, 1000000000⟩, ⟨2000000000, 2000000000⟩]
    Counted 0 (run (begun gigahertz ⟨0, 0⟩) (rest.map Reading.shown)) ∧
      ∀ v ∈ (run (begun gigahertz ⟨0, 0⟩) (rest.map Reading.shown)).map CrossCheck.verdict, ¬ v.isStep := by
  have hfits : RunFits gigahertz ⟨0, 0⟩ ⟨0, 0⟩ [⟨1000000900, 1000000000⟩, ⟨2000000000, 2000000000⟩] :=
    ⟨⟨by decide, by decide, by decide, by decide⟩, ⟨by decide, by decide, by decide, by decide⟩, trivial⟩
  have hall := CrossCheck.judged gigahertz ⟨0, 0⟩ [⟨1000000900, 1000000000⟩, ⟨2000000000, 2000000000⟩]
    (by decide) hfits
  refine ⟨hall.2.2.2.1, hall.2.2.2.2.2 1 0 ?_ ?_⟩
  · intro x hx
    obtain ⟨hp, hr, -, hu⟩ := gigahertz_numbers
    rw [hp, hr, hu]
    simp only [List.mem_cons, List.not_mem_nil, or_false] at hx
    rcases hx with rfl | rfl | rfl <;> norm_num
  · refine ⟨fun h => absurd h (by decide), fun _ => ?_, trivial⟩
    obtain ⟨-, hr, ht, -⟩ := gigahertz_numbers
    have hdr : gigahertz.dr ⟨1000000900, 1000000000⟩ ⟨2000000000, 2000000000⟩ = 1000000000 := by decide
    have hbase_p : gigahertz.base_p ⟨0, 0⟩ ⟨1000000900, 1000000000⟩ = 1000000900 := by decide
    have hbase_r : gigahertz.base_r ⟨0, 0⟩ ⟨1000000900, 1000000000⟩ = 1000000000 := by decide
    rw [hdr, hbase_p, hbase_r, hr, ht]
    norm_num

/-- A run that goes wrong: two counters at one rate whose first interval was ten microseconds are said to have jumped by
a tenth of a second, and a counter set back by half a second is said to have jumped ahead by as much as can be said. -/
theorem CrossCheck.misjudged :
    Steady gigahertz 1 0 [⟨0, 0⟩, ⟨11000, 10000⟩, ⟨1000010000, 1000010000⟩] ∧
      (run (begun gigahertz ⟨0, 0⟩) ([⟨11000, 10000⟩, ⟨1000010000, 1000010000⟩].map Reading.shown)).map
        CrossCheck.verdict = [.warming, .step (-100001000)] ∧
      (run (begun gigahertz ⟨0, 0⟩) ([⟨1000000000, 1000000000⟩, ⟨500000000, 2000000000⟩].map Reading.shown)).map
        CrossCheck.verdict = [.agree 0, .step (2 ^ 63 - 1)] ∧
      gigahertz.deviation ⟨0, 0⟩ ⟨1000000000, 1000000000⟩ ⟨500000000, 2000000000⟩ = -1500000000 := by
  refine ⟨?_, by decide, by decide, by decide⟩
  intro x hx
  obtain ⟨hp, hr, -, hu⟩ := gigahertz_numbers
  rw [hp, hr, hu]
  simp only [List.mem_cons, List.not_mem_nil, or_false] at hx
  rcases hx with rfl | rfl | rfl <;> norm_num

end NanoChrono.Clock
