import Mathlib.Logic.Function.Iterate
import NanoChrono.Rng.Health

/-! # The jitter collector

One measurement reads the counter, walks a region, runs a hash loop and reads the counter again. What the
counters read is an input: measurement `k` of a collector finds the readings `env k`, and these may be any. -/

namespace NanoChrono.Rng

namespace RngError

/-- The error for a set of latched health bits, worst first. -/
def fromHealth (bits : Nat) : Option RngError :=
  if bits &&& FAIL_RCT_PERMANENT ≠ 0 then some .rctPermanent
  else if bits &&& FAIL_APT_PERMANENT ≠ 0 then some .aptPermanent
  else if bits &&& FAIL_LAG_PERMANENT ≠ 0 then some .lagPermanent
  else if bits &&& FAIL_RCT ≠ 0 then some .rct
  else if bits &&& FAIL_APT ≠ 0 then some .apt
  else if bits &&& FAIL_LAG ≠ 0 then some .lag
  else none

end RngError

/-- Bytes between consecutive accesses of the memory walk. -/
def STRIDE : Nat := 127

/-- Start-up measurements do this many times the work. -/
def STARTUP_FACTOR : Nat := 3

/-- Start-up: measurements discarded, then measurements judged. -/
def STARTUP_WARMUP : Nat := 100
def STARTUP_SAMPLES : Nat := 1024

/-- Backward steps of the counter tolerated during start-up. -/
def STARTUP_BACKWARDS : Nat := 3

/-- A granularity at or above half of `i32::MAX` is too coarse to use. -/
def GRANULARITY_LIMIT : Nat := 0x7FFFFFFF / 2

/-- Domain byte of a jitter block in the pool. -/
def DOMAIN_JITTER : UInt8 := 0x01

def U64_MAX : Nat := 2 ^ 64 - 1

def U32_MAX : Nat := 2 ^ 32 - 1

/-- What one measurement reads: the counter before and after the work, and the side counter likewise. -/
structure Reading where
  t₀ : UInt64
  t₁ : UInt64
  side₀ : UInt64
  side₁ : UInt64
deriving DecidableEq, Repr

/-- One classified measurement. -/
structure Sample where
  /-- The measurement's duration divided by the counter's granularity. -/
  delta : Nat
  /-- Zero delta, or zero first or second difference. -/
  stuck : Bool
  /-- Health bits this sample tripped. -/
  fail : Nat
  /-- The sampler's difference across the measurement, zero without one. -/
  side : UInt64
deriving DecidableEq, Repr

/-- What start-up found: the counter's granularity, the stuck samples and the backward steps of the counter, and
the sum of absolute differences between adjacent deltas. -/
structure StartupReport where
  granularity : Nat
  stuck : Nat
  backwards : Nat
  variation : Nat
deriving DecidableEq, Repr

/-- The collector. What the bytes of its region are is never used. -/
structure Jitter where
  regionLen : Nat
  pos : Nat
  memSteps : Nat
  hashLoops : Nat
  granularity : Nat
  prevDelta : Nat
  prevD1 : Nat
  digest : Vector UInt8 32
  health : Health
  sampler : Bool
  samples : Nat
  stuck : Nat
  /-- The measurements made so far. -/
  measured : Nat
deriving DecidableEq, Repr

/-- How far two numbers are apart. -/
def absDiff (a b : Nat) : Nat := (a - b) + (b - a)

/-- Euclid's greatest common divisor. -/
def gcd (a b : Nat) : Nat := if _h : b = 0 then a else gcd b (a % b)
termination_by b
decreasing_by exact Nat.mod_lt a (Nat.pos_of_ne_zero _h)

namespace Jitter

def MIN_REGION_LEN : Nat := 2 ^ 10

def MAX_REGION_LEN : Nat := 2 ^ 29

/-- A collector over a region whose length is a power of two from 1 KiB to 512 MiB. -/
def new (regionLen osr memSteps hashLoops : Nat) (sampler : Bool) : Except RngError Jitter :=
  if ¬(regionLen.isPowerOfTwo ∧ MIN_REGION_LEN ≤ regionLen ∧ regionLen ≤ MAX_REGION_LEN) then .error .misuse
  else if OSR_MAX < osr then .error .misuse
  else .ok {
    regionLen
    pos := 0
    memSteps := max memSteps 1
    hashLoops := max hashLoops 1
    granularity := 1
    prevDelta := 0
    prevD1 := 0
    digest := .replicate 32 0
    health := .new (if osr = 0 then OSR_DEFAULT else osr)
    sampler
    samples := 0
    stuck := 0
    measured := 0 }

/-- The resilient step after an intermittent failure: a higher rate and one more hash loop. -/
def retune (j : Jitter) (osr : Nat) : Jitter :=
  { j with health := j.health.retune osr, hashLoops := min (j.hashLoops + 1) U32_MAX }

/-- The memory walk, masked to the region. -/
def walk (j : Jitter) (steps : Nat) : Jitter :=
  { j with pos := (fun pos => (pos + STRIDE) &&& (j.regionLen - 1))^[steps] j.pos }

section Measure

variable (m : Machine) (env : Nat → Reading)

/-- One turn of the dispersion loop: the digest before it, hashed with the health counters. -/
def disperseOnce (j : Jitter) (turn : Nat) : Jitter :=
  { j with digest := m.sha3_256 (j.digest.toList ++ leBytes 4 j.health.rctRun ++ leBytes 4 j.health.aptCount ++
      leBytes 4 j.health.aptSeen ++ leBytes 4 j.health.lagHits ++ leBytes 8 j.samples ++ leBytes 8 j.pos ++
      leBytes 4 turn) }

def disperse (j : Jitter) (loops : Nat) : Jitter := (List.range loops).foldl (disperseOnce m) j

/-- Reads the counter around one walk and one hash loop. -/
def measure (j : Jitter) (steps loops : Nat) : Reading × Jitter :=
  (env j.measured, { (j.walk steps).disperse m loops with measured := j.measured + 1 })

/-- The side counter's difference across a measurement. -/
def sideOf (j : Jitter) (r : Reading) : UInt64 := if j.sampler then r.side₁ - r.side₀ else 0

/-- Normalises a raw duration, runs the stuck test and the health tests. -/
def classify (j : Jitter) (raw : Nat) (side : UInt64) : Sample × Jitter :=
  let delta := raw / max j.granularity 1
  let d1 := absDiff delta j.prevDelta
  let d2 := absDiff d1 j.prevD1
  let stuck := delta = 0 ∨ d1 = 0 ∨ d2 = 0
  let h := j.health.observe delta stuck
  (⟨delta, stuck, h.1, side⟩, { j with
    prevD1 := d1
    prevDelta := delta
    health := h.2
    samples := (j.samples + 1) % 2 ^ 64
    stuck := if stuck then (j.stuck + 1) % 2 ^ 64 else j.stuck })

/-- One measurement at the running work level. -/
def sample (j : Jitter) : Sample × Jitter :=
  let r := j.measure m env j.memSteps j.hashLoops
  r.2.classify (r.1.t₁ - r.1.t₀).toNat (j.sideOf r.1)

/-! ## Start-up -/

/-- Warm-up: caches, predictors and the stuck test's history. -/
@[grind =] def warmUp (steps loops : Nat) : Nat → Jitter → Jitter
  | 0, j => j
  | n + 1, j =>
    let r := j.measure m env steps loops
    let delta := (r.1.t₁ - r.1.t₀).toNat
    warmUp steps loops n { r.2 with prevD1 := absDiff delta j.prevDelta, prevDelta := delta }

end Measure

end Jitter

/-- What start-up keeps between the samples it judges. -/
structure Judging where
  jitter : Jitter
  stuck : Nat
  backwards : Nat
  variation : Nat
  divisor : Nat
  previous : Option Nat
  judged : Nat
  fail : Nat
  /-- The samples judged, the last one first. -/
  seen : List Sample

namespace Jitter

section Startup

variable (m : Machine) (env : Nat → Reading)

/-- Judges a raw duration that is one. -/
def judgeRaw (s : Judging) (raw : Nat) (side : UInt64) : Judging :=
  let c := s.jitter.classify raw side
  { s with
    jitter := c.2
    divisor := gcd s.divisor raw
    variation := match s.previous with
      | some prev => min (s.variation + absDiff raw prev) U64_MAX
      | none => s.variation
    previous := some raw
    stuck := if c.1.stuck then s.stuck + 1 else s.stuck
    fail := s.fail ||| c.1.fail
    judged := s.judged + 1
    seen := c.1 :: s.seen }

/-- One measurement of start-up, and the error it ends in if it does. -/
def judge (steps loops : Nat) (s : Judging) : Judging × Option RngError :=
  let r := s.jitter.measure m env steps loops
  let s := { s with jitter := r.2 }
  if r.1.t₀ = 0 ∨ r.1.t₁ = 0 then (s, some .timer)
  else
    let raw := (r.1.t₁ - r.1.t₀).toNat
    if U64_MAX / 2 < raw then
      -- Read earlier than the read before it.
      let s := { s with backwards := s.backwards + 1 }
      if STARTUP_BACKWARDS < s.backwards then (s, some .timer) else (s, none)
    else if raw = 0 then
      -- The whole measurement fit inside one tick: no resolution.
      (s, some .timer)
    else (judgeRaw s raw (s.jitter.sideOf r.1), none)

/-- The measurements of start-up, up to the one that ends it. -/
@[grind =] def judgeAll (steps loops : Nat) : Nat → Judging → Judging × Option RngError
  | 0, s => (s, none)
  | n + 1, s =>
    match judge m env steps loops s with
    | (s, some e) => (s, some e)
    | (s, none) => judgeAll steps loops n s

/-- What start-up makes of the samples it judged. -/
def startupVerdict (osr fail stuck judged variation divisor : Nat) : Except RngError Unit :=
  match RngError.fromHealth fail with
  | some e => .error e
  | none =>
    if judged * 9 ≤ stuck * 10 then .error .timer
    else if min (variation * osr) U64_MAX < judged then .error .timer
    else if divisor = 0 ∨ GRANULARITY_LIMIT ≤ divisor then .error .timer
    else .ok ()

/-- The collector as start-up begins to judge. -/
def warmedUp (j : Jitter) : Jitter :=
  let steps := min (j.memSteps * STARTUP_FACTOR) U32_MAX
  let loops := min (j.hashLoops * STARTUP_FACTOR) U32_MAX
  warmUp m env steps loops STARTUP_WARMUP { j with granularity := 1, health := .new j.health.osr.val }

/-- What start-up has judged when its measurements are over. -/
def judged (j : Jitter) : Judging × Option RngError :=
  let steps := min (j.memSteps * STARTUP_FACTOR) U32_MAX
  let loops := min (j.hashLoops * STARTUP_FACTOR) U32_MAX
  judgeAll m env steps loops STARTUP_SAMPLES ⟨j.warmedUp m env, 0, 0, 0, 0, none, 0, 0, []⟩

/-- The start-up validation, which also learns the granularity. On success the health windows start clean. -/
def startup (j : Jitter) : Jitter × Except RngError StartupReport :=
  match j.judged m env with
  | (s, some e) => (s.jitter, .error e)
  | (s, none) =>
    match startupVerdict j.health.osr.val s.fail s.stuck s.judged s.variation s.divisor with
    | .error e => (s.jitter, .error e)
    | .ok () =>
      ({ s.jitter with
          granularity := s.divisor
          prevDelta := s.jitter.prevDelta / s.divisor
          prevD1 := s.jitter.prevD1 / s.divisor
          health := .new j.health.osr.val },
        .ok ⟨s.divisor, s.stuck, s.backwards, s.variation⟩)

end Startup

/-! ## Collection -/

/-- The rate the collector runs at. -/
def osr (j : Jitter) : Nat := j.health.osr.val

section Samples

variable {m : Machine} {env : Nat → Reading} (j : Jitter)

theorem disperse_health (loops : Nat) :
    (j.disperse m loops).health = j.health ∧ (j.disperse m loops).granularity = j.granularity ∧
      (j.disperse m loops).prevDelta = j.prevDelta ∧ (j.disperse m loops).prevD1 = j.prevD1 ∧
      (j.disperse m loops).sampler = j.sampler := by
  unfold disperse
  induction List.range loops generalizing j with
  | nil => exact ⟨rfl, rfl, rfl, rfl, rfl⟩
  | cons turn turns ih => exact ih (j.disperseOnce m turn)

/-- A measurement changes nothing that the tests go by. -/
theorem measure_health (steps loops : Nat) :
    (j.measure m env steps loops).2.health = j.health ∧
      (j.measure m env steps loops).2.granularity = j.granularity ∧
      (j.measure m env steps loops).2.prevDelta = j.prevDelta ∧
      (j.measure m env steps loops).2.prevD1 = j.prevD1 ∧ (j.measure m env steps loops).2.sampler = j.sampler :=
  disperse_health (j.walk steps) loops

@[simp]
theorem sample_measured : (j.sample m env).2.measured = j.measured + 1 := rfl

/-- The tests are fed each sample. -/
theorem sample_health :
    (j.sample m env).2.health = (j.health.observe (j.sample m env).1.delta (j.sample m env).1.stuck).2 ∧
      (j.sample m env).1.fail = (j.health.observe (j.sample m env).1.delta (j.sample m env).1.stuck).1 := by
  rw [← (@measure_health m env j j.memSteps j.hashLoops).1]
  exact ⟨rfl, rfl⟩

@[simp]
theorem sample_osr : (j.sample m env).2.health.osr = j.health.osr := by
  rw [j.sample_health.1, observe_osr]

end Samples

/-- Where no error is made of the bits of a sample, no test raised any. -/
theorem fromHealth_none {r a l : Nat} (hr : r = 0 ∨ r = FAIL_RCT ∨ r = FAIL_RCT_PERMANENT)
    (ha : a = 0 ∨ a = FAIL_APT ∨ a = FAIL_APT_PERMANENT) (hl : l = 0 ∨ l = FAIL_LAG ∨ l = FAIL_LAG_PERMANENT)
    (hnone : RngError.fromHealth (r ||| a ||| l) = none) : r = 0 ∧ a = 0 ∧ l = 0 := by
  rcases hr with rfl | rfl | rfl <;> rcases ha with rfl | rfl | rfl <;> rcases hl with rfl | rfl | rfl <;>
    first
    | exact ⟨rfl, rfl, rfl⟩
    | exact absurd hnone (by decide)

/-- A sample that raises no error: a stuck one is counted, and is not the last of a run that is too long. -/
theorem sample_run {m : Machine} {env : Nat → Reading} {j : Jitter}
    (hnone : RngError.fromHealth (j.sample m env).1.fail = none) :
    if (j.sample m env).1.stuck then
      (j.sample m env).2.health.rctRun = min (j.health.rctRun + 1) Health.COUNT_MAX ∧
        (j.sample m env).2.health.rctRun < rctCutoff j.health.osr false
    else (j.sample m env).2.health.rctRun = 0 := by
  obtain ⟨hhealth, hfail⟩ := @sample_health m env j
  rw [hfail] at hnone
  have hrct := (fromHealth_none (rct_bits _ _) (apt_bits _ _) (lag_bits _ _) hnone).1
  rw [hhealth, observe_rctRun]
  rw [Health.rct] at hrct ⊢
  cases hstuck : (j.sample m env).1.stuck with
  | false => rfl
  | true =>
    simp only [hstuck, not_true_eq_false, if_false, if_true] at hrct ⊢
    refine ⟨trivial, ?_⟩
    by_contra hle
    rw [if_pos (Nat.not_lt.1 hle)] at hrct
    split at hrct <;> exact absurd hrct (by decide)

section Collect

variable (m : Machine) (env : Nat → Reading)

/-- The samples that can be taken until `left` are collected, or until a run of stuck ones is too long. -/
def patience (j : Jitter) (left : Nat) : Nat :=
  left * (rctCutoff j.health.osr false + 1) + (rctCutoff j.health.osr false - j.health.rctRun)

/-- Every sample without an error brings the end nearer. -/
theorem patience_lt {m : Machine} {env : Nat → Reading} {j : Jitter} {left : Nat}
    (hnone : RngError.fromHealth (j.sample m env).1.fail = none) :
    if (j.sample m env).1.stuck then (j.sample m env).2.patience left < j.patience left
    else (j.sample m env).2.patience left < j.patience (left + 1) := by
  have hrun := sample_run hnone
  rw [patience, patience, patience, sample_osr]
  have hcutoff : rctCutoff j.health.osr false ≤ Health.COUNT_MAX := by
    rw [rctCutoff, clampOsr_val]
    exact (Nat.mul_le_mul_left _ j.health.osr.le_max).trans (by decide)
  split at hrun
  case isTrue hstuck =>
    rw [if_pos hstuck]
    omega
  case isFalse hstuck =>
    rw [if_neg hstuck, Nat.add_mul]
    omega

/-- The block of a sample: its delta, the domain, the digest that travels with it and the side counter. -/
def sampleBlock (s : Sample) (digest : Vector UInt8 32) : Bytes :=
  block (leBytes 8 s.delta ++ [DOMAIN_JITTER] ++ digest.toList ++ leBytes 8 s.side.toNat)

/-- Absorbs samples until `need` have been, `got` of them so far. Stuck ones are measured again. -/
def collectFrom (need : Nat) (j : Jitter) (sponge : List Bytes) (got : Nat) :
    Jitter × List Bytes × Except RngError Nat :=
  if hmore : got < need then
    match hnone : RngError.fromHealth (j.sample m env).1.fail with
    | some e => ((j.sample m env).2, sponge, .error e)
    | none =>
      if hstuck : (j.sample m env).1.stuck then
        have : (j.sample m env).2.patience (need - got) < j.patience (need - got) := by
          have hlt := @patience_lt m env j (need - got) hnone
          rwa [if_pos hstuck] at hlt
        collectFrom need (j.sample m env).2 sponge got
      else
        have : (j.sample m env).2.patience (need - (got + 1)) < j.patience (need - got) := by
          have hlt := @patience_lt m env j (need - (got + 1)) hnone
          rw [if_neg hstuck, show need - (got + 1) + 1 = need - got by omega] at hlt
          exact hlt
        collectFrom need (j.sample m env).2 (sponge ++ [sampleBlock (j.sample m env).1 (j.sample m env).2.digest])
          (got + 1)
  else (j, sponge, .ok got)
termination_by j.patience (need - got)

/-- Absorbs as many samples that are not stuck as the rate asks for `bits` bits. -/
def collect (j : Jitter) (sponge : List Bytes) (bits : Nat) : Jitter × List Bytes × Except RngError Nat :=
  collectFrom m env (min (bits * j.osr) U32_MAX) j sponge 0

end Collect

section Rates

variable {m : Machine} {env : Nat → Reading}

theorem collectFrom_osr (need : Nat) (j : Jitter) (sponge : List Bytes) (got : Nat) :
    (collectFrom m env need j sponge got).1.health.osr = j.health.osr := by
  fun_induction collectFrom m env need j sponge got with
  | case1 j sponge got hmore e hnone => exact j.sample_osr
  | case2 j sponge got hmore hnone hstuck hlt ih => exact ih.trans j.sample_osr
  | case3 j sponge got hmore hnone hstuck hlt ih => exact ih.trans j.sample_osr
  | case4 j sponge got hmore => rfl

theorem collect_osr (j : Jitter) (sponge : List Bytes) (bits : Nat) :
    (j.collect m env sponge bits).1.osr = j.osr :=
  congrArg Osr.val (collectFrom_osr _ j sponge 0)

/-- A rate within the tables' range is taken as it is. -/
theorem retune_osr {j : Jitter} {osr : Nat} (hmin : OSR_MIN ≤ osr) (hmax : osr ≤ OSR_MAX) :
    (j.retune osr).osr = osr :=
  congrArg Osr.val (clampOsr_val ⟨osr, hmin, hmax⟩)

/-- A start-up that passes leaves the rate as it is, and the health windows clean. -/
theorem startup_ok {j j' : Jitter} {report : StartupReport} (h : j.startup m env = (j', .ok report)) :
    j'.health = .new j.osr := by
  unfold startup at h
  split at h
  · cases h
  · split at h
    · cases h
    · cases h
      rfl

theorem startup_osr {j j' : Jitter} {report : StartupReport} (h : j.startup m env = (j', .ok report)) :
    j'.osr = j.osr := by
  rw [osr, startup_ok h]
  exact congrArg Osr.val (clampOsr_val j.health.osr)

end Rates

end Jitter

/-- What collecting a jitter seed leaves: the source's state, its collector, the blocks of the seed, and the error
if there was one. -/
structure Collected where
  state : JitterState
  jitter : Jitter
  seed : List Bytes
  result : Except RngError Unit

section CollectJitter

variable (m : Machine) (env : Nat → Reading)

/-- Collects a credited jitter seed by the resilient rule: an intermittent failure discards the block, raises the
rate and re-validates the timer, and past `OSR_MAX` the failure is permanent. -/
def collectJitter (bits : Nat) (state : JitterState) (j : Jitter) (seed : List Bytes) : Collected :=
  match hcollect : j.collect m env seed bits with
  | (j₁, seed₁, .ok _) => ⟨state, j₁, seed₁, .ok ()⟩
  | (j₁, seed₁, .error e) =>
    if ¬e.isIntermittent then ⟨state, j₁, seed₁, .error e⟩
    else if hosr : OSR_MAX < j₁.osr + 1 then ⟨state, j₁, seed₁, .error e.escalate⟩
    else
      match hstartup : (j₁.retune (j₁.osr + 1)).startup m env with
      | (j₂, .error e) => ⟨.failed e, j₂, [], .error e⟩
      | (j₂, .ok _) =>
        have : OSR_MAX - j₂.osr < OSR_MAX - j.osr := by
          have hsame := @Jitter.collect_osr m env j seed bits
          rw [hcollect] at hsame
          have hmin : OSR_MIN ≤ j₁.osr + 1 := Nat.le_add_left _ _
          have hnext := (Jitter.startup_osr hstartup).trans (Jitter.retune_osr hmin (Nat.not_lt.1 hosr))
          dsimp only at hsame
          omega
        collectJitter bits .ready j₂ []
termination_by OSR_MAX - j.osr

end CollectJitter

end NanoChrono.Rng
