import Mathlib.Data.List.Basic
import NanoChrono.Rng.Collected
import NanoChrono.Rng.HealthSpec

/-! # Start-up on raw durations

Start-up judges the durations before it knows their divisor. What it sees of them is said here of a list of
durations, so that the run on the raw ones and the run on the divided ones can be compared. -/

namespace NanoChrono.Rng

/-- The duration that measurement `k` reads. -/
def rawOf (env : Nat → Reading) (k : Nat) : Nat := ((env k).t₁ - (env k).t₀).toNat

/-! ## The tests on a list of durations -/

/-- What the stuck test and the health tests go by. -/
structure Watch where
  prevDelta : Nat
  prevD1 : Nat
  health : Health
deriving DecidableEq, Repr

namespace Watch

/-- A warm-up duration. -/
def warm (w : Watch) (delta : Nat) : Watch := { w with prevD1 := absDiff delta w.prevDelta, prevDelta := delta }

/-- Whether a duration is stuck. -/
def stuck (w : Watch) (delta : Nat) : Bool :=
  delta = 0 ∨ absDiff delta w.prevDelta = 0 ∨ absDiff (absDiff delta w.prevDelta) w.prevD1 = 0

/-- A duration that is judged. -/
def next (w : Watch) (delta : Nat) : Watch :=
  ⟨delta, absDiff delta w.prevDelta, (w.health.observe delta (w.stuck delta)).2⟩

/-- The stuck flags and the health bits of durations. -/
@[grind =] def seen (w : Watch) : List Nat → List (Bool × Nat)
  | [] => []
  | c :: cs => (w.stuck c, (w.health.observe c (w.stuck c)).1) :: (w.next c).seen cs

theorem seen_append (w : Watch) (cs ds : List Nat) : w.seen (cs ++ ds) = w.seen cs ++ (cs.foldl next w).seen ds := by
  induction cs generalizing w with
  | nil => rfl
  | cons c cs ih => exact congrArg (_ :: ·) (ih (w.next c))

end Watch

/-- The sum of the differences between adjacent durations, as far as 64 bits go. -/
def vary (p : Option Nat × Nat) (raw : Nat) : Option Nat × Nat :=
  (some raw, match p.1 with
    | some prev => min (p.2 + absDiff raw prev) U64_MAX
    | none => p.2)

/-- The verdict on a list of durations. -/
def verdictOf (osr : Nat) (w : Watch) (cs : List Nat) : Except RngError Unit :=
  Jitter.startupVerdict osr ((w.seen cs).foldl (fun bits x => bits ||| x.2) 0) ((w.seen cs).countP (·.1)) cs.length
    (cs.foldl vary (none, 0)).2 (cs.foldl gcd 0)

namespace Jitter

/-- What the tests of a collector go by. -/
def watch (j : Jitter) : Watch := ⟨j.prevDelta, j.prevD1, j.health⟩

section Runs

variable {m : Machine} {env : Nat → Reading}

theorem measure_watch (j : Jitter) (steps loops : Nat) : (j.measure m env steps loops).2.watch = j.watch := by
  obtain ⟨hhealth, -, hdelta, hd1, -⟩ := @measure_health m env j steps loops
  rw [watch, watch, hhealth, hdelta, hd1]

/-- The warm-up is that of the tests. -/
theorem warmUp_watch (steps loops n : Nat) (j : Jitter) :
    (warmUp m env steps loops n j).watch =
      ((List.range' j.measured n).map (rawOf env)).foldl Watch.warm j.watch ∧
    (warmUp m env steps loops n j).granularity = j.granularity := by
  induction n generalizing j with
  | zero => exact ⟨rfl, rfl⟩
  | succ n ih =>
    obtain ⟨hhealth, hgranularity, -, -, -⟩ := @measure_health m env j steps loops
    rw [warmUp]
    refine ⟨(ih _).1.trans ?_, (ih _).2.trans hgranularity⟩
    rw [List.range'_succ, List.map_cons, List.foldl_cons]
    simp only [watch, Watch.warm, hhealth]
    rfl

/-- What start-up keeps, when it has judged the durations `cs` with the tests as they were at `w`. -/
structure JudgedList (w : Watch) (cs : List Nat) (s : Judging) : Prop where
  granularity : s.jitter.granularity = 1
  watch : s.jitter.watch = cs.foldl Watch.next w
  seen : s.seen.reverse.map (fun x => (x.stuck, x.fail)) = w.seen cs
  deltas : s.seen.reverse.map (·.delta) = cs
  stuck : s.stuck = (w.seen cs).countP (·.1)
  fail : s.fail = (w.seen cs).foldl (fun bits x => bits ||| x.2) 0
  judged : s.judged = cs.length
  variation : (s.previous, s.variation) = cs.foldl vary (none, 0)
  divisor : s.divisor = cs.foldl gcd 0
  positive : ∀ c ∈ cs, 0 < c

theorem JudgedList.raw {w : Watch} {cs : List Nat} {s : Judging} (h : JudgedList w cs s) {raw : Nat} (hraw : 0 < raw)
    (side : UInt64) : JudgedList w (cs ++ [raw]) (judgeRaw s raw side) := by
  have hone : raw / max s.jitter.granularity 1 = raw := by
    rw [h.granularity]
    exact Nat.div_one raw
  have hstuck : (s.jitter.classify raw side).1.stuck = (cs.foldl Watch.next w).stuck raw := by
    rw [← h.watch]
    simp only [classify, hone]
    rfl
  have hfail : (s.jitter.classify raw side).1.fail =
      ((cs.foldl Watch.next w).health.observe raw ((cs.foldl Watch.next w).stuck raw)).1 := by
    rw [← h.watch]
    simp only [classify, hone]
    rfl
  have hseen : w.seen (cs ++ [raw]) = w.seen cs ++ [((s.jitter.classify raw side).1.stuck,
      (s.jitter.classify raw side).1.fail)] := by
    rw [w.seen_append, hstuck, hfail]
    rfl
  exact {
    granularity := h.granularity
    watch := by
      rw [List.foldl_append, ← h.watch]
      simp only [judgeRaw, classify, hone]
      rfl
    seen := by
      rw [hseen, ← h.seen, judgeRaw, List.reverse_cons, List.map_append]
      rfl
    deltas := by
      rw [judgeRaw, List.reverse_cons, List.map_append, h.deltas]
      simp only [classify, hone, List.map_cons, List.map_nil]
    stuck := by
      rw [hseen, List.countP_append, ← h.stuck, judgeRaw]
      dsimp only
      cases (s.jitter.classify raw side).1.stuck <;> rfl
    fail := by
      rw [hseen, List.foldl_append, ← h.fail]
      rfl
    judged := by
      rw [List.length_append, ← h.judged]
      rfl
    variation := by
      rw [List.foldl_append, ← h.variation]
      rfl
    divisor := by
      rw [List.foldl_append, ← h.divisor]
      rfl
    positive := List.forall_mem_append.2 ⟨h.positive, fun c hc => List.mem_singleton.1 hc ▸ hraw⟩ }

/-- The durations of a list that are no backward step of the counter. -/
def forward (raws : List Nat) : List Nat := raws.filter (· ≤ U64_MAX / 2)

/-- One measurement that start-up goes on after: it judged a duration, or the counter went backwards. -/
theorem JudgedList.judge {w : Watch} {cs : List Nat} {s s' : Judging} (h : JudgedList w cs s) {steps loops : Nat}
    (hjudge : Jitter.judge m env steps loops s = (s', none)) :
    JudgedList w (cs ++ forward [rawOf env s.jitter.measured]) s' := by
  obtain ⟨-, hgranularity, -, -, -⟩ := @measure_health m env s.jitter steps loops
  have hmeasured : JudgedList w cs { s with jitter := (s.jitter.measure m env steps loops).2 } := {
    h with
    granularity := hgranularity.trans h.granularity
    watch := (@measure_watch m env s.jitter steps loops).trans h.watch }
  unfold Jitter.judge at hjudge
  dsimp only at hjudge
  split at hjudge
  · cases hjudge
  · split at hjudge
    case isTrue hbackwards =>
      have hskipped : forward [rawOf env s.jitter.measured] = [] :=
        List.filter_cons_of_neg fun hle => Nat.not_le.2 hbackwards (of_decide_eq_true hle)
      rw [hskipped, List.append_nil]
      split at hjudge
      · cases hjudge
      · cases hjudge
        exact { hmeasured with }
    case isFalse hforward =>
      have hkept : forward [rawOf env s.jitter.measured] = [rawOf env s.jitter.measured] :=
        List.filter_cons_of_pos (decide_eq_true (Nat.not_lt.1 hforward))
      split at hjudge
      · cases hjudge
      case isFalse hraw =>
        cases hjudge
        rw [hkept]
        exact hmeasured.raw (Nat.pos_of_ne_zero hraw) _

theorem JudgedList.judgeAll {w : Watch} {cs : List Nat} {n : Nat} {s s' : Judging} (h : JudgedList w cs s)
    {steps loops : Nat} (hjudge : Jitter.judgeAll m env steps loops n s = (s', none)) :
    JudgedList w (cs ++ forward ((List.range' s.jitter.measured n).map (rawOf env))) s' := by
  induction n generalizing cs s with
  | zero =>
    cases hjudge
    exact (List.append_nil cs).symm ▸ h
  | succ n ih =>
    have hcount := @judge_measured m env steps loops s
    rw [Jitter.judgeAll] at hjudge
    split at hjudge
    case h_1 => cases hjudge
    case h_2 s₁ hone =>
      rw [hone] at hcount
      have hrest := ih (h.judge hone) hjudge
      rw [hcount, List.append_assoc, forward, forward, ← List.filter_append] at hrest
      exact hrest

/-- The durations of a collector's warm-up. -/
def warmDeltas (env : Nat → Reading) (j : Jitter) : List Nat :=
  (List.range' j.measured STARTUP_WARMUP).map (rawOf env)

/-- The durations that start-up judges. -/
def judgedDeltas (env : Nat → Reading) (j : Jitter) : List Nat :=
  forward ((List.range' (j.measured + STARTUP_WARMUP) STARTUP_SAMPLES).map (rawOf env))

/-- What the tests go by before start-up. -/
def watchBefore (j : Jitter) : Watch := ⟨j.prevDelta, j.prevD1, .new j.osr⟩

/-- Start-up judges a list of durations after its warm-up. -/
theorem judged_list {j : Jitter} {s : Judging} (h : j.judged m env = (s, none)) :
    JudgedList ((warmDeltas env j).foldl Watch.warm (watchBefore j)) (judgedDeltas env j) s := by
  obtain ⟨hwatch, hgranularity⟩ := @warmUp_watch m env (min (j.memSteps * STARTUP_FACTOR) U32_MAX)
    (min (j.hashLoops * STARTUP_FACTOR) U32_MAX) STARTUP_WARMUP { j with
      granularity := 1, health := .new j.health.osr.val }
  have hmeasured : (j.warmedUp m env).measured = j.measured + STARTUP_WARMUP := warmUp_measured _ _ _ _
  have hstart : JudgedList ((warmDeltas env j).foldl Watch.warm (watchBefore j)) []
      ⟨j.warmedUp m env, 0, 0, 0, 0, none, 0, 0, []⟩ := {
    granularity := hgranularity
    watch := hwatch
    seen := rfl
    deltas := rfl
    stuck := rfl
    fail := rfl
    judged := rfl
    variation := rfl
    divisor := rfl
    positive := fun c hc => absurd hc List.not_mem_nil }
  have hlist := hstart.judgeAll h
  rw [List.nil_append] at hlist
  dsimp only at hlist
  rwa [hmeasured] at hlist

/-- What start-up has kept is all that its verdict goes by. -/
theorem JudgedList.verdict {w : Watch} {cs : List Nat} {s : Judging} (h : JudgedList w cs s) (osr : Nat) :
    startupVerdict osr s.fail s.stuck s.judged s.variation s.divisor = verdictOf osr w cs := by
  have hvariation : s.variation = (cs.foldl vary (none, 0)).2 := congrArg Prod.snd h.variation
  rw [verdictOf, h.fail, h.stuck, h.judged, hvariation, h.divisor]

/-- The verdict of start-up is that of the durations it judged. -/
theorem startup_verdict {j j' : Jitter} {report : StartupReport} (h : j.startup m env = (j', .ok report)) :
    ∃ s, j.judged m env = (s, none) ∧ report.granularity = (judgedDeltas env j).foldl gcd 0 ∧
      verdictOf j.osr ((warmDeltas env j).foldl Watch.warm (watchBefore j)) (judgedDeltas env j) = .ok () := by
  unfold startup at h
  split at h
  case h_1 => cases h
  case h_2 s hjudged =>
    have hlist := judged_list hjudged
    split at h
    case h_1 => cases h
    case h_2 hverdict =>
      cases h
      exact ⟨s, hjudged, hlist.divisor, (hlist.verdict j.osr).symm.trans hverdict⟩

end Runs

end Jitter

/-! ## What the tests see of durations -/

theorem absDiff_eq_zero {a b : Nat} : absDiff a b = 0 ↔ a = b := by
  rw [absDiff]
  omega

namespace Watch

variable {w : Watch}

/-- The flags of durations. -/
def flags (w : Watch) (cs : List Nat) : List Bool := (w.seen cs).map (·.1)

theorem flags_cons (w : Watch) (c : Nat) (cs : List Nat) : w.flags (c :: cs) = w.stuck c :: (w.next c).flags cs := rfl

@[simp]
theorem length_seen (w : Watch) (cs : List Nat) : (w.seen cs).length = cs.length := by
  induction cs generalizing w with
  | nil => rfl
  | cons c cs ih => exact congrArg Nat.succ (ih _)

theorem seen_eq_zip (w : Watch) (cs : List Nat) : w.seen cs = (w.flags cs).zip ((w.seen cs).map (·.2)) := by
  induction cs generalizing w with
  | nil => rfl
  | cons c cs ih => exact congrArg (_ :: ·) (ih (w.next c))

/-- A duration is stuck where it repeats the one before it, or the step to that one. -/
theorem stuck_iff {c : Nat} (hc : 0 < c) :
    w.stuck c = true ↔ c = w.prevDelta ∨ absDiff c w.prevDelta = w.prevD1 := by
  rw [stuck, decide_eq_true_iff, absDiff_eq_zero, absDiff_eq_zero]
  exact or_iff_right hc.ne'

/-- Of a warm-up only the last two durations count. -/
theorem foldl_warm (w : Watch) (raws : List Nat) (a b : Nat) :
    (raws ++ [a, b]).foldl warm w = ⟨b, absDiff b a, w.health⟩ := by
  have hhealth : (raws.foldl warm w).health = w.health := by
    induction raws generalizing w with
    | nil => rfl
    | cons raw raws ih => exact ih (w.warm raw)
  rw [List.foldl_append, ← hhealth]
  rfl

/-- The bits of durations go by their flags and by which of them are equal. -/
theorem seen_bits {delta : Nat → Nat} {stuck : Nat → Bool} {i : Nat} {cs : List Nat}
    (hfollows : Follows delta stuck i w.health) (hdelta : ∀ k < cs.length, cs[k]? = some (delta (i + k)))
    (hstuck : ∀ k < cs.length, (w.flags cs)[k]? = some (stuck (i + k))) :
    (w.seen cs).map (·.2) = (List.range' i cs.length).map (verdict w.health.osr delta stuck) := by
  induction cs generalizing w i with
  | nil => rfl
  | cons c cs ih =>
    have hc : c = delta i := Option.some.inj (hdelta 0 (Nat.succ_pos _))
    have hflag : w.stuck c = stuck i := Option.some.inj (hstuck 0 (Nat.succ_pos _))
    obtain ⟨hbits, hnext⟩ := hfollows.step
    rw [← hflag, ← hc] at hbits hnext
    have hosr : (w.next c).health.osr = w.health.osr := observe_osr _ _ _
    have hrest := @ih (w.next c) (i + 1) hnext
      (fun k hk => (hdelta (k + 1) (Nat.succ_lt_succ hk)).trans (by rw [Nat.add_assoc, Nat.add_comm 1 k]))
      (fun k hk => (hstuck (k + 1) (Nat.succ_lt_succ hk)).trans (by rw [Nat.add_assoc, Nat.add_comm 1 k]))
    rw [seen, List.map_cons, hrest, hosr, List.length_cons, List.range'_succ, List.map_cons]
    exact congrArg (· :: _) hbits

end Watch

namespace Jitter

/-- What a verdict that passes says of the durations. -/
theorem startupVerdict_ok {osr fail stuck judged variation divisor : Nat} :
    startupVerdict osr fail stuck judged variation divisor = .ok () ↔
      RngError.fromHealth fail = none ∧ stuck * 10 < judged * 9 ∧ judged ≤ min (variation * osr) U64_MAX ∧
        0 < divisor ∧ divisor < GRANULARITY_LIMIT := by
  unfold startupVerdict
  split
  case h_1 e he =>
    refine ⟨fun h => (by cases h), fun h => ?_⟩
    cases he.symm.trans h.1
  case h_2 hnone =>
    split
    · exact ⟨fun h => (by cases h), fun h => by omega⟩
    · split
      · exact ⟨fun h => (by cases h), fun h => by omega⟩
      · split
        · exact ⟨fun h => (by cases h), fun h => by omega⟩
        · exact ⟨fun _ => ⟨hnone, by omega, by omega, by omega, by omega⟩, fun _ => rfl⟩

/-- The last two durations of the warm-up are all that the tests know when judging begins. -/
theorem warmDeltas_last (env : Nat → Reading) (j : Jitter) :
    warmDeltas env j = (List.range' j.measured 98).map (rawOf env) ++
      [rawOf env (j.measured + 98), rawOf env (j.measured + 99)] := by
  rw [warmDeltas, STARTUP_WARMUP, List.range'_concat, List.range'_concat, Nat.one_mul, Nat.one_mul, List.append_assoc,
    List.map_append]
  rfl

/-! ## A start-up that passes

A counter whose durations rise faster and faster is never stuck, never repeats itself and is never predicted. -/

/-- Durations that rise faster and faster. -/
def rising (k : Nat) : Nat := 2 * (k * k + k + 1)

theorem rising_succ (k : Nat) : rising (k + 1) = rising k + 4 * (k + 1) := by
  rw [rising, rising]
  ring

theorem rising_lt {k l : Nat} (h : k < l) : rising k < rising l := by
  induction l with
  | zero => exact absurd h (Nat.not_lt_zero k)
  | succ l ih =>
    have hstep := rising_succ l
    rcases Nat.lt_succ_iff_lt_or_eq.1 h with hlt | rfl
    · exact (ih hlt).trans (by omega)
    · omega

theorem rising_inj {k l : Nat} : rising k = rising l ↔ k = l := by
  refine ⟨fun h => ?_, fun h => h ▸ rfl⟩
  rcases Nat.lt_trichotomy k l with hlt | heq | hlt
  · exact absurd h (rising_lt hlt).ne
  · exact heq
  · exact absurd h.symm (rising_lt hlt).ne

/-- None of them is stuck, after one of them that was not far from the duration before it. -/
theorem flags_rising {w : Watch} {i : Nat} (hdelta : w.prevDelta = rising i) (hd1 : w.prevD1 < 4 * (i + 1)) (n : Nat) :
    w.flags ((List.range' (i + 1) n).map rising) = List.replicate n false := by
  induction n generalizing w i with
  | zero => rfl
  | succ n ih =>
    have hpos : 0 < rising (i + 1) := Nat.mul_pos Nat.two_pos (Nat.succ_pos _)
    have hstep : absDiff (rising (i + 1)) w.prevDelta = 4 * (i + 1) := by
      rw [hdelta, rising_succ, absDiff]
      omega
    have hstuck : w.stuck (rising (i + 1)) = false := by
      refine Bool.eq_false_iff.2 fun htrue => ?_
      rcases (Watch.stuck_iff hpos).1 htrue with heq | hsame
      · rw [hdelta] at heq
        exact absurd (rising_inj.1 heq) (Nat.succ_ne_self i)
      · omega
    rw [List.range'_succ, List.map_cons, Watch.flags_cons, hstuck, List.replicate_succ]
    refine congrArg (false :: ·) (ih rfl ?_)
    change absDiff (rising (i + 1)) w.prevDelta < _
    omega

/-- Durations of which no two are equal raise no bit while none is stuck. -/
theorem verdict_distinct (osr : Osr) {stuck : Nat → Bool} {i : Nat} (hstuck : ∀ k ≤ i, stuck k = false) :
    verdict osr rising stuck i = 0 := by
  have hrct : longestRun (fun m => stuck m = true) (i + 1) = 0 :=
    longestRun_eq_zero fun m hm => by simp [hstuck m (Nat.lt_succ_iff.1 hm)]
  have hapt : proportion rising i = 1 := by
    rw [proportion]
    generalize i / APT_WINDOW * APT_WINDOW = first
    induction i % APT_WINDOW with
    | zero => rw [Nat.count_succ, Nat.count_zero, Nat.add_zero, if_pos rfl]
    | succ r ih => rw [Nat.count_succ, ih, if_neg (mt rising_inj.1 (by omega))]
  have hlag : ¬Predicted (lagWindow rising i) (i % LAG_WINDOW) := by
    rintro ⟨hfull, hsame⟩
    have hplace := rising_inj.1 hsame
    rw [LAG_HISTORY] at hfull
    omega
  rw [verdict, hrct, hapt, aptBits_one, if_neg hlag]
  have hzero : rctBits osr 0 = 0 := by
    have hcutoff : 0 < (clampOsr osr.val).val := (clampOsr osr.val).min_le
    rw [rctBits, rctCutoff, rctCutoff, if_neg (by rw [if_pos rfl]; omega), if_neg (by rw [if_neg (by decide)]; omega)]
  rw [hzero]
  rfl

/-- A measurement of some duration. -/
def readingOf (raw : Nat) : Reading := ⟨1, .ofNat (raw + 1), 0, 0⟩

theorem readingOf_spec {raw : Nat} (hraw : raw < U64_MAX) :
    ((readingOf raw).t₁ - (readingOf raw).t₀).toNat = raw ∧ (readingOf raw).t₀ ≠ 0 ∧ (readingOf raw).t₁ ≠ 0 := by
  have hsize : (raw + 1) % 2 ^ 64 = raw + 1 := Nat.mod_eq_of_lt (by rw [U64_MAX] at hraw; omega)
  have hnat : (readingOf raw).t₁.toNat = raw + 1 := by
    rw [readingOf, UInt64.toNat_ofNat', hsize]
  refine ⟨?_, (by decide : (1 : UInt64) ≠ 0), fun hzero => ?_⟩
  · rw [UInt64.toNat_sub, hnat]
    change (2 ^ 64 - 1 + (raw + 1)) % 2 ^ 64 = raw
    rw [U64_MAX] at hraw
    omega
  · rw [hzero] at hnat
    cases hnat

/-- A collector in a region of the smallest size. -/
def smallest : Jitter :=
  { regionLen := 1024, pos := 0, memSteps := 1, hashLoops := 1, granularity := 1, prevDelta := 0, prevD1 := 0,
    digest := .replicate 32 0, health := .new 1, sampler := false, samples := 0, stuck := 0, measured := 0 }

/-- The readings of a start-up whose judged durations rise, from one near the last of the warm-up. -/
structure Rises (env : Nat → Reading) (j : Jitter) : Prop where
  reads : ∀ k < STARTUP_SAMPLES, (env (j.measured + STARTUP_WARMUP + k)).t₀ ≠ 0 ∧
    (env (j.measured + STARTUP_WARMUP + k)).t₁ ≠ 0
  rises : ∀ k < STARTUP_SAMPLES, rawOf env (j.measured + STARTUP_WARMUP + k) = rising k
  first : ¬(rising 0 = rawOf env (j.measured + 99) ∨
    absDiff (rising 0) (rawOf env (j.measured + 99)) =
      absDiff (rawOf env (j.measured + 99)) (rawOf env (j.measured + 98)))
  near : absDiff (rising 0) (rawOf env (j.measured + 99)) < 4

variable {m : Machine} {env : Nat → Reading}

/-- Nothing ends the measurements of a start-up whose durations are neither zero nor backwards. -/
theorem judgeAll_none {steps loops n : Nat} {s : Judging}
    (hreads : ∀ k < n, (env (s.jitter.measured + k)).t₀ ≠ 0 ∧ (env (s.jitter.measured + k)).t₁ ≠ 0)
    (hraw : ∀ k < n, 0 < rawOf env (s.jitter.measured + k) ∧ rawOf env (s.jitter.measured + k) ≤ U64_MAX / 2) :
    (judgeAll m env steps loops n s).2 = none := by
  induction n generalizing s with
  | zero => rfl
  | succ n ih =>
    obtain ⟨hpos, hforward⟩ := hraw 0 (Nat.succ_pos n)
    have hone : (judge m env steps loops s).2 = none := by
      unfold judge
      dsimp only
      split
      case isTrue hzero => exact absurd hzero (not_or.2 (hreads 0 (Nat.succ_pos n)))
      case isFalse =>
        split
        case isTrue hbackwards => exact absurd hforward (Nat.not_le.2 hbackwards)
        case isFalse =>
          split
          case isTrue hzero => exact absurd hzero hpos.ne'
          case isFalse => rfl
    have hcount := @judge_measured m env steps loops s
    rw [judgeAll]
    split
    case h_1 s' e hjudge =>
      rw [hjudge] at hone
      cases hone
    case h_2 s' hjudge =>
      rw [hjudge] at hcount
      dsimp only at hcount
      have hplace (k : Nat) : s'.jitter.measured + k = s.jitter.measured + (k + 1) := by omega
      refine ih (fun k hk => ?_) fun k hk => ?_
      · rw [hplace]
        exact hreads (k + 1) (Nat.succ_lt_succ hk)
      · rw [hplace]
        exact hraw (k + 1) (Nat.succ_lt_succ hk)

/-- Judging that nothing ends takes all of its measurements. -/
theorem judgeAll_all {steps loops n : Nat} {s : Judging} (hnone : (judgeAll m env steps loops n s).2 = none) :
    (judgeAll m env steps loops n s).1.jitter.measured = s.jitter.measured + n := by
  induction n generalizing s with
  | zero => rfl
  | succ n ih =>
    have hone := @judge_measured m env steps loops s
    rw [judgeAll] at hnone ⊢
    split at hnone
    case h_1 => cases hnone
    case h_2 s' hjudge =>
      rw [hjudge] at hone
      dsimp only at hone
      refine (ih hnone).trans ?_
      omega

theorem rising_le {k : Nat} (hk : k < STARTUP_SAMPLES) : 0 < rising k ∧ rising k ≤ U64_MAX / 2 := by
  refine ⟨Nat.mul_pos Nat.two_pos (Nat.succ_pos _), ?_⟩
  have hlast : rising k ≤ rising STARTUP_SAMPLES := (rising_lt hk).le
  exact hlast.trans (by decide)

theorem Rises.judgedDeltas (h : Rises env j) :
    Jitter.judgedDeltas env j = (List.range' 0 STARTUP_SAMPLES).map rising := by
  have hraws : (List.range' (j.measured + STARTUP_WARMUP) STARTUP_SAMPLES).map (rawOf env) =
      (List.range' 0 STARTUP_SAMPLES).map rising := by
    refine List.ext_getElem (by simp) fun k hk _ => ?_
    have hlt : k < STARTUP_SAMPLES := by simpa using hk
    rw [List.getElem_map, List.getElem_map, List.getElem_range', List.getElem_range', Nat.one_mul, Nat.zero_add]
    exact h.rises k hlt
  rw [Jitter.judgedDeltas, hraws, forward, List.filter_eq_self]
  intro raw hraw
  obtain ⟨k, hk, rfl⟩ := List.mem_map.1 hraw
  rw [List.mem_range'_1, Nat.zero_add] at hk
  exact decide_eq_true (rising_le hk.2).2

/-- Such durations are seen without a flag and without a bit. -/
theorem Rises.seen (h : Rises env j) (osr : Nat) :
    (⟨rawOf env (j.measured + 99), absDiff (rawOf env (j.measured + 99)) (rawOf env (j.measured + 98)),
      .new osr⟩ : Watch).seen (Jitter.judgedDeltas env j) = List.replicate STARTUP_SAMPLES (false, 0) := by
  generalize hw : (⟨rawOf env (j.measured + 99), absDiff (rawOf env (j.measured + 99)) (rawOf env (j.measured + 98)),
    .new osr⟩ : Watch) = w
  have hflags : w.flags (Jitter.judgedDeltas env j) = List.replicate STARTUP_SAMPLES false := by
    have hfirst : w.stuck (rising 0) = false := by
      refine Bool.eq_false_iff.2 fun htrue => h.first ?_
      rw [← hw] at htrue
      exact (Watch.stuck_iff Nat.two_pos).1 htrue
    rw [h.judgedDeltas, STARTUP_SAMPLES, List.range'_succ, List.map_cons, Watch.flags_cons, hfirst, List.replicate_succ]
    refine congrArg (false :: ·) (flags_rising rfl ?_ 1023)
    rw [← hw]
    exact h.near
  have hbits : (w.seen (Jitter.judgedDeltas env j)).map (·.2) = List.replicate STARTUP_SAMPLES 0 := by
    have hlength : (Jitter.judgedDeltas env j).length = STARTUP_SAMPLES := by
      rw [h.judgedDeltas, List.length_map, List.length_range']
    have hverdicts := @Watch.seen_bits w rising (fun _ => false) 0 (Jitter.judgedDeltas env j)
      (hw ▸ (follows_healthAt osr (fun _ => []) rising (fun _ => false) 0).1)
      (fun k hk => by
        rw [hlength] at hk
        rw [h.judgedDeltas, List.getElem?_map, List.getElem?_range' hk, Nat.one_mul]
        rfl)
      (fun k hk => by rw [hflags, List.getElem?_replicate_of_lt (hlength ▸ hk)])
    rw [hverdicts, hlength]
    refine List.eq_replicate_iff.2 ⟨by rw [List.length_map, List.length_range'], fun bits hbits => ?_⟩
    obtain ⟨i, -, rfl⟩ := List.mem_map.1 hbits
    exact verdict_distinct _ fun _ _ => rfl
  rw [Watch.seen_eq_zip, hflags, hbits, List.zip_replicate']

/-- Such a start-up passes. -/
theorem startup_rises (m : Machine) (h : Rises env j) :
    ∃ j' report, j.startup m env = (j', .ok report) ∧ report.granularity = 2 ∧ j'.granularity = 2 ∧
      j'.measured = j.measured + STARTUP_WARMUP + STARTUP_SAMPLES := by
  have hstart : (j.warmedUp m env).measured = j.measured + STARTUP_WARMUP := warmUp_measured _ _ _ _
  have hjudged : (j.judged m env).2 = none := by
    refine judgeAll_none (fun k hk => ?_) fun k hk => ?_
    · rw [hstart]
      exact h.reads k hk
    · rw [hstart, h.rises k hk]
      exact rising_le hk
  have hverdict : verdictOf j.osr ((warmDeltas env j).foldl Watch.warm (watchBefore j)) (Jitter.judgedDeltas env j) =
      .ok () := by
    rw [warmDeltas_last, Watch.foldl_warm, verdictOf, startupVerdict_ok]
    rw [show (watchBefore j).health = .new j.osr from rfl, h.seen, h.judgedDeltas, List.length_map, List.length_range']
    have hquiet (n : Nat) : (List.replicate n (false, 0)).foldl (fun bits x => bits ||| x.2) 0 = 0 := by
      induction n with
      | zero => rfl
      | succ n ih => exact ih
    rw [hquiet, List.countP_replicate]
    have hsums : STARTUP_SAMPLES ≤ (((List.range' 0 STARTUP_SAMPLES).map rising).foldl vary (none, 0)).2 ∧
        0 < ((List.range' 0 STARTUP_SAMPLES).map rising).foldl gcd 0 ∧
        ((List.range' 0 STARTUP_SAMPLES).map rising).foldl gcd 0 < GRANULARITY_LIMIT := by decide +kernel
    have hosr : STARTUP_SAMPLES ≤ (((List.range' 0 STARTUP_SAMPLES).map rising).foldl vary (none, 0)).2 * j.osr :=
      hsums.1.trans (Nat.le_mul_of_pos_right _ j.health.osr.min_le)
    exact ⟨rfl, by decide, Nat.le_min.2 ⟨hosr, by decide⟩, hsums.2⟩
  have hlist := @judged_list m env j _ (Prod.ext rfl hjudged)
  have hdivisor : (j.judged m env).1.divisor = 2 := by
    rw [hlist.divisor, h.judgedDeltas]
    decide +kernel
  have hmeasured : (j.judged m env).1.jitter.measured = j.measured + STARTUP_WARMUP + STARTUP_SAMPLES :=
    (judgeAll_all hjudged).trans (congrArg (· + STARTUP_SAMPLES) hstart)
  unfold startup
  split
  case h_1 s e hends => cases (congrArg Prod.snd hends).symm.trans hjudged
  case h_2 s hends =>
    rw [hends] at hlist hdivisor hmeasured
    have hpasses := (hlist.verdict j.osr).trans hverdict
    split
    case h_1 e hfails => cases hfails.symm.trans hpasses
    case h_2 => exact ⟨_, _, rfl, hdivisor, hdivisor, hmeasured⟩

end Jitter

end NanoChrono.Rng
