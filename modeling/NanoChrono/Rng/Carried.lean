import NanoChrono.Rng.Degraded
import NanoChrono.Rng.Startup

/-! # The counters across a change of rate

`retune` keeps the counters of the health tests, so that a source that keeps failing escalates. Between the failure
and the next collection the source must pass start-up again, and what that leaves are new tests. -/

namespace NanoChrono.Rng

/-- The counters of the tests are the same. -/
structure SameCounters (h g : Health) : Prop where
  rctRun : g.rctRun = h.rctRun
  aptCount : g.aptCount = h.aptCount
  aptSeen : g.aptSeen = h.aptSeen
  lagScores : g.lagScores = h.lagScores
  lagObserved : g.lagObserved = h.lagObserved
  lagHits : g.lagHits = h.lagHits
  lagRun : g.lagRun = h.lagRun

namespace Health

/-- Within a window the reference has been counted. -/
def Referenced (h : Health) : Prop := 0 < h.aptSeen → 0 < h.aptCount

theorem new_referenced (osr : Nat) : (Health.new osr).Referenced := fun hseen => absurd hseen (Nat.lt_irrefl 0)

/-- A sample that is the first of its window is counted, and after it the count never goes down. -/
theorem Referenced.apt {h : Health} (href : h.Referenced) (delta : Nat) : 0 < (h.apt delta).2.aptCount := by
  unfold Health.apt
  split
  case isTrue => exact Nat.one_pos
  case isFalse hseen =>
    have hcount := href (Nat.pos_of_ne_zero hseen)
    dsimp only
    split
    · exact Nat.succ_pos _
    · exact hcount

theorem Referenced.rct {h : Health} (href : h.Referenced) (stuck : Bool) : (h.rct stuck).2.Referenced := by
  unfold Health.rct
  split <;> exact href

theorem Referenced.observe {h : Health} (href : h.Referenced) (delta : Nat) (stuck : Bool) :
    0 < (h.observe delta stuck).2.aptCount := by
  rw [Health.observe]
  dsimp only
  rw [(LagOnly.lag delta _).aptCount]
  exact (href.rct stuck).apt delta

end Health

namespace Jitter

/-- The collectors that calls on a new one lead to. -/
inductive Reached (m : Machine) (env : Nat → Reading) : Jitter → Prop
  | new {j : Jitter} {regionLen osr memSteps hashLoops : Nat} {sampler : Bool} :
      Jitter.new regionLen osr memSteps hashLoops sampler = .ok j → Reached m env j
  | startup {j : Jitter} : Reached m env j → Reached m env (j.startup m env).1
  | sample {j : Jitter} : Reached m env j → Reached m env (j.sample m env).2
  | collect {j : Jitter} (sponge : List Bytes) (bits : Nat) :
      Reached m env j → Reached m env (j.collect m env sponge bits).1
  | retune {j : Jitter} (osr : Nat) : Reached m env j → Reached m env (j.retune osr)

section Runs

variable {m : Machine} {env : Nat → Reading}

theorem sample_referenced {j : Jitter} (href : j.health.Referenced) : 0 < (j.sample m env).2.health.aptCount := by
  rw [(@sample_health m env j).1]
  exact href.observe _ _

theorem collectFrom_referenced {need : Nat} {j : Jitter} {sponge : List Bytes} {got : Nat}
    (href : j.health.Referenced) :
    (collectFrom m env need j sponge got).1.health.Referenced ∧
      ((∃ e, (collectFrom m env need j sponge got).2.2 = .error e) →
        0 < (collectFrom m env need j sponge got).1.health.aptCount) := by
  fun_induction collectFrom m env need j sponge got with
  | case1 j sponge got hmore e hnone => exact ⟨fun _ => sample_referenced href, fun _ => sample_referenced href⟩
  | case2 j sponge got hmore hnone hstuck hlt ih => exact ih fun _ => sample_referenced href
  | case3 j sponge got hmore hnone hstuck hlt ih => exact ih fun _ => sample_referenced href
  | case4 j sponge got hmore =>
    refine ⟨href, fun herror => ?_⟩
    obtain ⟨e, he⟩ := herror
    cases he

theorem judge_referenced {steps loops : Nat} {s : Judging} (href : s.jitter.health.Referenced) :
    (judge m env steps loops s).1.jitter.health.Referenced := by
  have hmeasured : (s.jitter.measure m env steps loops).2.health.Referenced := by
    rw [(@measure_health m env s.jitter steps loops).1]
    exact href
  unfold judge
  dsimp only
  split
  · exact hmeasured
  · split
    · split <;> exact hmeasured
    · split
      · exact hmeasured
      · exact fun _ => hmeasured.observe _ _

theorem judgeAll_referenced {steps loops n : Nat} {s : Judging} (href : s.jitter.health.Referenced) :
    (judgeAll m env steps loops n s).1.jitter.health.Referenced := by
  induction n generalizing s with
  | zero => exact href
  | succ n ih =>
    have hone := @judge_referenced m env steps loops s href
    rw [judgeAll]
    split
    case h_1 s' e hjudge =>
      rw [hjudge] at hone
      exact hone
    case h_2 s' hjudge =>
      rw [hjudge] at hone
      exact ih hone

theorem warmUp_health (steps loops n : Nat) (j : Jitter) : (warmUp m env steps loops n j).health = j.health := by
  induction n generalizing j with
  | zero => rfl
  | succ n ih => exact (ih _).trans (@measure_health m env j steps loops).1

theorem startup_referenced (j : Jitter) : (j.startup m env).1.health.Referenced := by
  have hwarm : (j.warmedUp m env).health.Referenced := by
    rw [warmedUp, warmUp_health]
    exact Health.new_referenced _
  have hjudged : (j.judged m env).1.jitter.health.Referenced := judgeAll_referenced hwarm
  unfold startup
  split
  case h_1 s e hends =>
    rw [hends] at hjudged
    exact hjudged
  case h_2 s hends =>
    rw [hends] at hjudged
    split
    · exact hjudged
    · exact Health.new_referenced _

/-- Every collector has its reference counted. -/
theorem Reached.referenced {j : Jitter} (h : Reached m env j) : j.health.Referenced := by
  induction h with
  | new hnew =>
    unfold Jitter.new at hnew
    split at hnew
    · cases hnew
    · split at hnew
      · cases hnew
      · cases hnew
        exact Health.new_referenced _
  | startup _ _ => exact startup_referenced _
  | sample _ ih => exact fun _ => sample_referenced ih
  | collect sponge bits _ ih => exact (collectFrom_referenced ih).1
  | retune osr _ ih => exact ih

end Runs

/-- A collection from `j` fails intermittently at `j₁` below the highest rate, and start-up passes at the next one: the
next collection begins at `j₂`. -/
structure Raised (m : Machine) (env : Nat → Reading) (seed : List Bytes) (bits : Nat) (j j₁ j₂ : Jitter) : Prop where
  failed : ∃ seed₁ e, j.collect m env seed bits = (j₁, seed₁, .error e) ∧ e.isIntermittent = true
  below : j₁.osr + 1 ≤ OSR_MAX
  passed : ∃ report, (j₁.retune (j₁.osr + 1)).startup m env = (j₂, .ok report)

section Raising

variable {m : Machine} {env : Nat → Reading} {seed : List Bytes} {bits : Nat} {j j₁ j₂ : Jitter}

/-- That is what `collect_jitter` does: it goes on with the collector of the raised rate. -/
theorem Raised.collectJitter (h : Raised m env seed bits j j₁ j₂) (state : JitterState) :
    Rng.collectJitter m env bits state j seed = Rng.collectJitter m env bits .ready j₂ [] := by
  obtain ⟨⟨seed₁, e, hcollect, hintermittent⟩, hbelow, report, hpassed⟩ := h
  rw [Rng.collectJitter]
  split
  case h_1 hok => cases hok.symm.trans hcollect
  case h_2 j₁' seed₁' e' herror =>
    cases herror.symm.trans hcollect
    rw [if_neg (not_not.2 hintermittent), dif_neg (Nat.not_lt.2 hbelow)]
    split
    case h_1 j₂' e'' hfails => cases hfails.symm.trans hpassed
    case h_2 j₂' report' hpasses =>
      cases hpasses.symm.trans hpassed
      rfl

/-- Whatever the samples were, the counters that the collection after a raised rate begins with are not those at the
failure: they are all zero, and a failure is never before the first sample of a window is counted. -/
theorem raised_counters (hreached : Reached m env j) (hraised : Raised m env seed bits j j₁ j₂) :
    ¬SameCounters j₁.health j₂.health := by
  obtain ⟨⟨seed₁, e, hcollect, -⟩, -, report, hpassed⟩ := hraised
  intro hsame
  have hfailed := (@collectFrom_referenced m env (min (bits * j.osr) U32_MAX) j seed 0 hreached.referenced).2
  rw [show collectFrom m env _ j seed 0 = j.collect m env seed bits from rfl, hcollect] at hfailed
  have hcounted : 0 < j₁.health.aptCount := hfailed ⟨e, rfl⟩
  have hclean : j₂.health.aptCount = 0 := by
    rw [startup_ok hpassed]
    rfl
  exact absurd (hsame.aptCount.symm.trans hclean) hcounted.ne'

end Raising

/-! ## A source that is stuck after its start-up -/

/-- At the lowest rate the thirtieth stuck sample fails the repetition count, and nothing fails before. -/
theorem verdict_stuck :
    ∀ k < 30, verdict (clampOsr 1) (fun _ => 0) (fun _ => true) k = if k = 29 then FAIL_RCT else 0 := by
  decide

section Stuck

variable {m : Machine} {env : Nat → Reading} {j : Jitter}

/-- A duration below the granularity is stuck. -/
theorem sample_coarse (hgranularity : 2 ≤ j.granularity) (hraw : rawOf env j.measured = 1) :
    (j.sample m env).1.delta = 0 ∧ (j.sample m env).1.stuck = true ∧
      (j.sample m env).2.granularity = j.granularity := by
  obtain ⟨-, hsame, -, -, -⟩ := @measure_health m env j j.memSteps j.hashLoops
  have hdelta : (j.sample m env).1.delta = 0 := by
    change rawOf env j.measured / max (j.measure m env j.memSteps j.hashLoops).2.granularity 1 = 0
    rw [hsame, hraw]
    exact Nat.div_eq_of_lt (by omega)
  exact ⟨hdelta, decide_eq_true (.inl hdelta), hsame⟩

/-- One of a run of stuck samples from new tests. -/
theorem sample_stuck {k : Nat} (hk : k < 30) (hfollows : Follows (fun _ => 0) (fun _ => true) k j.health)
    (hosr : j.health.osr = clampOsr 1) (hgranularity : 2 ≤ j.granularity) (hraw : rawOf env j.measured = 1) :
    RngError.fromHealth (j.sample m env).1.fail = (if k = 29 then some .rct else none) ∧
      Follows (fun _ => 0) (fun _ => true) (k + 1) (j.sample m env).2.health := by
  obtain ⟨hdelta, hstuck, -⟩ := @sample_coarse m env j hgranularity hraw
  obtain ⟨hhealth, hfail⟩ := @sample_health m env j
  obtain ⟨hbits, hnext⟩ := hfollows.step
  rw [hdelta, hstuck] at hhealth hfail
  rw [hosr, verdict_stuck k hk] at hbits
  refine ⟨?_, hhealth ▸ hnext⟩
  rw [hfail, hbits]
  split <;> decide

/-- Such durations end a collection at the thirtieth. -/
theorem collectFrom_stuck {need k n : Nat} {sponge : List Bytes} (hk : k + (n + 1) = 30)
    (hfollows : Follows (fun _ => 0) (fun _ => true) k j.health) (hosr : j.health.osr = clampOsr 1)
    (hgranularity : 2 ≤ j.granularity) (hraw : ∀ i < n + 1, rawOf env (j.measured + i) = 1) (hneed : 0 < need) :
    ∃ j₁, collectFrom m env need j sponge 0 = (j₁, sponge, .error .rct) ∧ j₁.measured = j.measured + (n + 1) ∧
      Follows (fun _ => 0) (fun _ => true) 30 j₁.health := by
  induction n generalizing j k with
  | zero =>
    obtain ⟨hend, hnext⟩ := @sample_stuck m env j k (by omega) hfollows hosr hgranularity (hraw 0 Nat.one_pos)
    obtain rfl : k = 29 := by omega
    rw [if_pos rfl] at hend
    rw [collectFrom, dif_pos hneed]
    split
    case h_1 e he =>
      cases hend.symm.trans he
      exact ⟨_, rfl, rfl, hnext⟩
    case h_2 hnone => cases hend.symm.trans hnone
  | succ n ih =>
    obtain ⟨hgoes, hnext⟩ := @sample_stuck m env j k (by omega) hfollows hosr hgranularity (hraw 0 (Nat.succ_pos _))
    obtain ⟨-, hstuck, hsame⟩ := @sample_coarse m env j hgranularity (hraw 0 (Nat.succ_pos _))
    rw [if_neg (by omega)] at hgoes
    have hplace (i : Nat) : (j.sample m env).2.measured + i = j.measured + (i + 1) := by
      rw [sample_measured]
      omega
    obtain ⟨j₁, hcollect, hmeasured, hlast⟩ := ih (k := k + 1) (by omega) hnext (j.sample_osr.trans hosr)
      (hsame ▸ hgranularity) fun i hi => by
        rw [hplace]
        exact hraw (i + 1) (Nat.succ_lt_succ hi)
    refine ⟨j₁, ?_, hmeasured.trans (hplace (n + 1)), hlast⟩
    rw [collectFrom, dif_pos hneed]
    split
    case h_1 e he => cases hgoes.symm.trans he
    case h_2 hnone => rwa [dif_pos hstuck]

end Stuck

/-- A counter that passes start-up, is stuck for thirty samples and passes start-up again. -/
def stuckReadings (k : Nat) : Reading :=
  readingOf (if k < 100 then 1 else if k < 1124 then rising (k - 100) else if k < 1254 then 1 else rising (k - 1254))

theorem stuckReadings_one {k : Nat} (hk : k < 100 ∨ 1124 ≤ k ∧ k < 1254) : rawOf stuckReadings k = 1 := by
  have hone : stuckReadings k = readingOf 1 := by
    rw [stuckReadings]
    rcases hk with hfirst | ⟨hlow, hhigh⟩
    · rw [if_pos hfirst]
    · rw [if_neg (by omega), if_neg (by omega), if_pos hhigh]
  rw [rawOf, hone]
  exact (readingOf_spec (by decide)).1

/-- It rises in two places. -/
theorem stuckReadings_rises {j : Jitter} (hmeasured : j.measured = 0 ∨ j.measured = 1154) : Rises stuckReadings j := by
  have hreading (k : Nat) (hk : k < STARTUP_SAMPLES) :
      stuckReadings (j.measured + STARTUP_WARMUP + k) = readingOf (rising k) := by
    rw [STARTUP_SAMPLES] at hk
    rw [stuckReadings, STARTUP_WARMUP]
    rcases hmeasured with hfirst | hsecond
    · rw [hfirst, if_neg (by omega), if_pos (by omega)]
      exact congrArg (fun k => readingOf (rising k)) (by omega)
    · rw [hsecond, if_neg (by omega), if_neg (by omega), if_neg (by omega)]
      exact congrArg (fun k => readingOf (rising k)) (by omega)
  have hspec (k : Nat) (hk : k < STARTUP_SAMPLES) := readingOf_spec ((rising_le hk).2.trans_lt (by decide))
  have hlast : rawOf stuckReadings (j.measured + 98) = 1 ∧ rawOf stuckReadings (j.measured + 99) = 1 :=
    ⟨stuckReadings_one (by omega), stuckReadings_one (by omega)⟩
  exact {
    reads := fun k hk => by
      rw [hreading k hk]
      exact (hspec k hk).2
    rises := fun k hk => by
      rw [rawOf, hreading k hk]
      exact (hspec k hk).1
    first := by
      rw [hlast.1, hlast.2]
      decide
    near := by
      rw [hlast.2]
      decide }

/-- The collector passes start-up, fails the repetition count, and passes start-up at the next rate. -/
theorem stuck_raised : ∃ j j₁ j₂, Reached zeroMachine stuckReadings j ∧
    Raised zeroMachine stuckReadings [] 321 j j₁ j₂ ∧ j₁.health.rctRun = 30 ∧ j₂.health.rctRun = 0 := by
  have hnew : Jitter.new 1024 1 1 1 false = .ok smallest := by decide
  obtain ⟨j, report, hstartup, -, hgranularity, hmeasured⟩ :=
    startup_rises zeroMachine (stuckReadings_rises (.inl rfl : smallest.measured = 0 ∨ _))
  have hhealth : j.health = .new 1 := startup_ok hstartup
  have hplace : j.measured = 1124 := hmeasured
  have hraw (i : Nat) (hi : i < 30) : rawOf stuckReadings (j.measured + i) = 1 := stuckReadings_one (by omega)
  obtain ⟨j₁, hcollect, hfailed, hfollows⟩ := @collectFrom_stuck zeroMachine stuckReadings j
    (min (321 * j.osr) U32_MAX) 0 29 [] rfl (hhealth ▸ (follows_healthAt 1 (fun _ => []) _ _ 0).1)
    (by rw [hhealth]; rfl) hgranularity.ge hraw (by rw [osr, hhealth]; decide)
  have hrate : j₁.osr = 1 := by
    have hsame := @collect_osr zeroMachine stuckReadings j [] 321
    rw [show j.collect zeroMachine stuckReadings [] 321 = (j₁, [], .error .rct) from hcollect] at hsame
    exact hsame.trans (startup_osr hstartup)
  obtain ⟨j₂, report₂, hagain, -, -, -⟩ := startup_rises zeroMachine
    (@stuckReadings_rises (j₁.retune (j₁.osr + 1)) (.inr (hfailed.trans (by rw [hplace]))))
  refine ⟨j, j₁, j₂, ?_, ⟨⟨[], .rct, hcollect, rfl⟩, by rw [hrate]; decide, report₂, hagain⟩, ?_, ?_⟩
  · have hreached := (Reached.new hnew : Reached zeroMachine stuckReadings smallest).startup
    rwa [hstartup] at hreached
  · rw [hfollows.rct]
    decide
  · rw [startup_ok hagain]
    rfl

/-- Thirty stuck samples in a row count for nothing when collection begins again. -/
theorem stuck_counters_lost : ∃ j j₁ j₂, Reached zeroMachine stuckReadings j ∧
    Raised zeroMachine stuckReadings [] 321 j j₁ j₂ ∧ ¬SameCounters j₁.health j₂.health := by
  obtain ⟨j, j₁, j₂, hreached, hraised, hfailed, hclean⟩ := stuck_raised
  refine ⟨j, j₁, j₂, hreached, hraised, fun hsame => ?_⟩
  have hcarried := hsame.rctRun
  rw [hfailed, hclean] at hcarried
  cases hcarried

theorem raised_counters_stuck : ∃ j j₁ j₂, Raised zeroMachine stuckReadings [] 321 j j₁ j₂ ∧
    ¬SameCounters j₁.health j₂.health := by
  obtain ⟨j, j₁, j₂, hreached, hraised, -, -⟩ := stuck_raised
  exact ⟨j, j₁, j₂, hraised, raised_counters hreached hraised⟩

end Jitter

end NanoChrono.Rng
