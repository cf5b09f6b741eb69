import NanoChrono.Rng.Degraded
import NanoChrono.Rng.Startup

/-! # Start-up and the divisor

Start-up learns the divisor of the durations it judges, and the tests have by then been run on the durations as
they are. Dividing keeps which durations are zero and which are equal as long as all are multiples; the durations of
the warm-up, which the first two that are judged are compared with, need not be. -/

namespace NanoChrono.Rng

/-! ## Dividing all durations -/

theorem gcd_eq (a b : Nat) : gcd a b = Nat.gcd a b := by
  fun_induction gcd a b with
  | case1 a => exact (Nat.gcd_zero_right a).symm
  | case2 a b hb ih => rw [ih, Nat.gcd_comm a b, Nat.gcd_rec b a, Nat.gcd_comm]

/-- The divisor divides every duration. -/
theorem foldl_gcd_dvd (cs : List Nat) (d : Nat) : cs.foldl gcd d ∣ d ∧ ∀ c ∈ cs, cs.foldl gcd d ∣ c := by
  induction cs generalizing d with
  | nil => exact ⟨Nat.dvd_refl d, fun c hc => absurd hc List.not_mem_nil⟩
  | cons c cs ih =>
    obtain ⟨hd, hcs⟩ := ih (gcd d c)
    rw [List.foldl_cons]
    have hgcd := gcd_eq d c
    refine ⟨hd.trans (hgcd ▸ Nat.gcd_dvd_left d c), List.forall_mem_cons.2 ⟨hd.trans (hgcd ▸ Nat.gcd_dvd_right d c), hcs⟩⟩

/-- The divisor of multiples is that multiple of the divisor. -/
theorem foldl_gcd_mul (g : Nat) (cs : List Nat) (d : Nat) :
    (cs.map (g * ·)).foldl gcd (g * d) = g * cs.foldl gcd d := by
  induction cs generalizing d with
  | nil => rfl
  | cons c cs ih =>
    rw [List.map_cons, List.foldl_cons, List.foldl_cons, ← ih, gcd_eq, gcd_eq, Nat.gcd_mul_left]

/-- The divisor of durations that are divided by their divisor is one. -/
theorem foldl_gcd_div {cs : List Nat} (hg : 0 < cs.foldl gcd 0) :
    (cs.map (· / cs.foldl gcd 0)).foldl gcd 0 = 1 := by
  have hmul : (cs.map (· / cs.foldl gcd 0)).map (cs.foldl gcd 0 * ·) = cs := by
    rw [List.map_map]
    exact (List.map_congr_left fun c hc => Nat.mul_div_cancel' ((foldl_gcd_dvd cs 0).2 c hc)).trans (List.map_id _)
  have hfold := foldl_gcd_mul (cs.foldl gcd 0) (cs.map (· / cs.foldl gcd 0)) 0
  rw [hmul, Nat.mul_zero] at hfold
  exact Nat.eq_of_mul_eq_mul_left hg (hfold.symm.trans (Nat.mul_one _).symm)

theorem absDiff_mul (g a b : Nat) : absDiff (g * a) (g * b) = g * absDiff a b := by
  rw [absDiff, absDiff, Nat.mul_add, Nat.mul_sub, Nat.mul_sub]

namespace Watch

variable {g : Nat} {w v : Watch}

/-- Where what came before was divided without a rest, no flag changes. -/
theorem flags_mul (hg : 0 < g) (cs : List Nat) (hdelta : w.prevDelta = g * v.prevDelta)
    (hd1 : w.prevD1 = g * v.prevD1) : w.flags (cs.map (g * ·)) = v.flags cs := by
  induction cs generalizing w v with
  | nil => rfl
  | cons c cs ih =>
    have hstuck : w.stuck (g * c) = v.stuck c := by
      simp only [stuck, hdelta, hd1, absDiff_mul, absDiff_eq_zero, Nat.mul_eq_zero, hg.ne', false_or]
    rw [List.map_cons, flags_cons, flags_cons, hstuck]
    congr 1
    refine ih rfl ?_
    change absDiff (g * c) w.prevDelta = g * absDiff c v.prevDelta
    rw [hdelta, absDiff_mul]

/-- Where the flags are the same, so are the bits: multiples are equal where what they are multiples of is. -/
theorem seen_mul (hg : 0 < g) (cs : List Nat) {osr : Nat} (hw : w.health = .new osr) (hv : v.health = .new osr)
    (hflags : w.flags (cs.map (g * ·)) = v.flags cs) : w.seen (cs.map (g * ·)) = v.seen cs := by
  have hnew (delta : Nat → Nat) (stuck : Nat → Bool) : Follows delta stuck 0 (.new osr) :=
    (follows_healthAt osr (fun _ => []) delta stuck 0).1
  have hget (k : Nat) (hk : k < cs.length) : cs[k]? = some (cs.getD (0 + k) 0) := by
    rw [Nat.zero_add, List.getD_eq_getElem?_getD, List.getElem?_eq_getElem hk]
    rfl
  have hflag (k : Nat) (hk : k < cs.length) : (v.flags cs)[k]? = some ((v.flags cs).getD (0 + k) false) := by
    have hlength : k < (v.flags cs).length := by rwa [flags, List.length_map, length_seen]
    rw [Nat.zero_add, List.getD_eq_getElem?_getD, List.getElem?_eq_getElem hlength]
    rfl
  have hbitsV := @seen_bits v (fun k => cs.getD k 0) (fun k => (v.flags cs).getD k false) 0 cs (hv ▸ hnew _ _) hget hflag
  have hbitsW := @seen_bits w (fun k => g * cs.getD k 0) (fun k => (v.flags cs).getD k false) 0 (cs.map (g * ·))
    (hw ▸ hnew _ _)
    (fun k hk => by
      rw [List.getElem?_map, hget k (by simpa using hk)]
      rfl)
    (fun k hk => by
      rw [hflags]
      exact hflag k (by simpa using hk))
  have hsame : (w.seen (cs.map (g * ·))).map (·.2) = (v.seen cs).map (·.2) := by
    rw [hbitsW, hbitsV, hw, hv, List.length_map]
    refine List.map_congr_left fun k _ => verdict_congr fun a _ b _ => ?_
    exact Nat.mul_right_inj hg.ne'
  rw [seen_eq_zip, hflags, hsame, ← seen_eq_zip]

/-- After two durations without a rest, multiples are seen as what they are multiples of, so that only the flags of
these two can differ. -/
theorem seen_div (hg : 0 < g) {c₁ c₂ : Nat} {cs : List Nat} {osr : Nat} (hdvd : ∀ c ∈ c₁ :: c₂ :: cs, g ∣ c)
    (hw : w.health = .new osr) (hv : v.health = .new osr) :
    w.seen (c₁ :: c₂ :: cs) = v.seen ((c₁ :: c₂ :: cs).map (· / g)) ↔
      w.stuck c₁ = v.stuck (c₁ / g) ∧ (w.next c₁).stuck c₂ = (v.next (c₁ / g)).stuck (c₂ / g) := by
  have hmul : ((c₁ :: c₂ :: cs).map (· / g)).map (g * ·) = c₁ :: c₂ :: cs := by
    rw [List.map_map]
    exact (List.map_congr_left fun c hc => Nat.mul_div_cancel' (hdvd c hc)).trans (List.map_id _)
  have hflags : w.flags (c₁ :: c₂ :: cs) = v.flags ((c₁ :: c₂ :: cs).map (· / g)) ↔
      w.stuck c₁ = v.stuck (c₁ / g) ∧ (w.next c₁).stuck c₂ = (v.next (c₁ / g)).stuck (c₂ / g) := by
    have hc₁ : g * (c₁ / g) = c₁ := Nat.mul_div_cancel' (hdvd c₁ (by simp))
    have hc₂ : g * (c₂ / g) = c₂ := Nat.mul_div_cancel' (hdvd c₂ (by simp))
    have hcs : (cs.map (· / g)).map (g * ·) = cs := (List.cons.inj (List.cons.inj hmul).2).2
    -- From the third duration on, both of the durations before it are multiples.
    have hrest : ((w.next c₁).next c₂).flags cs = ((v.next (c₁ / g)).next (c₂ / g)).flags (cs.map (· / g)) := by
      have hmultiples := @flags_mul g ((w.next c₁).next c₂) ((v.next (c₁ / g)).next (c₂ / g)) hg (cs.map (· / g))
        hc₂.symm (by
          change absDiff c₂ c₁ = g * absDiff (c₂ / g) (c₁ / g)
          rw [← absDiff_mul, hc₁, hc₂])
      rwa [hcs] at hmultiples
    rw [List.map_cons, List.map_cons, flags_cons, flags_cons, flags_cons, flags_cons, hrest]
    simp only [List.cons.injEq, and_true]
  refine ⟨fun hseen => hflags.1 (congrArg (·.map (·.1)) hseen), fun hfirst => ?_⟩
  have hsame := hflags.2 hfirst
  have hmultiples := @seen_mul g w v hg ((c₁ :: c₂ :: cs).map (· / g)) osr hw hv (by rw [hmul, hsame])
  rwa [hmul] at hmultiples

end Watch

namespace Jitter

variable {m : Machine} {env : Nat → Reading}

/-- The tests as they are before the judged durations, when the warm-up is divided. -/
def dividedWatch (env : Nat → Reading) (j : Jitter) (g : Nat) : Watch :=
  ((warmDeltas env j).map (· / g)).foldl Watch.warm ⟨j.prevDelta / g, j.prevD1 / g, .new j.osr⟩

/-- Each sample that start-up judges has the flag and the bits that it has when all durations are first divided. -/
def SameSamples (m : Machine) (env : Nat → Reading) (j : Jitter) (g : Nat) : Prop :=
  (j.judged m env).1.seen.reverse.map (fun x => (x.stuck, x.fail)) =
    (dividedWatch env j g).seen ((judgedDeltas env j).map (· / g))

/-- What a start-up that passes says does not change when all durations are first divided by `g`. -/
structure Unchanged (m : Machine) (env : Nat → Reading) (j : Jitter) (g : Nat) : Prop where
  samples : SameSamples m env j g
  verdict : verdictOf j.osr (dividedWatch env j g) ((judgedDeltas env j).map (· / g)) = .ok ()

/-- Whether a duration is as long as the one before it, or as far from it as that one is from the one before. -/
def Repeats (a b c : Nat) : Prop := c = b ∨ absDiff c b = absDiff b a

instance (a b c : Nat) : Decidable (Repeats a b c) :=
  inferInstanceAs (Decidable (c = b ∨ absDiff c b = absDiff b a))

/-- The divisor of the durations that are judged. -/
def divisorOf (env : Nat → Reading) (j : Jitter) : Nat := (judgedDeltas env j).foldl gcd 0

/-- The first two durations that are judged, which are compared with the last two of the warm-up, repeat what came
before them only as they do when all four are divided. -/
structure EvenFirst (a b c₁ c₂ g : Nat) : Prop where
  first : Repeats a b c₁ ↔ Repeats (a / g) (b / g) (c₁ / g)
  second : Repeats b c₁ c₂ ↔ Repeats (b / g) (c₁ / g) (c₂ / g)

/-- The durations start as they do when they are divided, and still vary enough when they are. -/
structure EvenStart (env : Nat → Reading) (j : Jitter) : Prop where
  first : EvenFirst (rawOf env (j.measured + 98)) (rawOf env (j.measured + 99)) ((judgedDeltas env j).getD 0 0)
    ((judgedDeltas env j).getD 1 0) (divisorOf env j)
  varies : (judgedDeltas env j).length ≤
    min ((((judgedDeltas env j).map (· / divisorOf env j)).foldl vary (none, 0)).2 * j.osr) U64_MAX

/-- A start-up that passes has judged two durations at least. -/
theorem judgedDeltas_two {osr : Nat} {w : Watch} {cs : List Nat} (h : verdictOf osr w cs = .ok ()) :
    ∃ c₁ c₂ rest, cs = c₁ :: c₂ :: rest := by
  obtain ⟨-, hstuck, hvaries, -, -⟩ := startupVerdict_ok.1 h
  match cs with
  | [] => exact absurd hstuck (Nat.not_lt_zero _)
  | [c] =>
    have hzero : ([c].foldl vary (none, 0)).2 = 0 := rfl
    rw [hzero, Nat.zero_mul, Nat.zero_min] at hvaries
    cases hvaries
  | c₁ :: c₂ :: rest => exact ⟨c₁, c₂, rest, rfl⟩

theorem dividedWatch_eq (env : Nat → Reading) (j : Jitter) (g : Nat) :
    dividedWatch env j g = ⟨rawOf env (j.measured + 99) / g,
      absDiff (rawOf env (j.measured + 99) / g) (rawOf env (j.measured + 98) / g), .new j.osr⟩ := by
  rw [dividedWatch, warmDeltas_last, List.map_append]
  exact Watch.foldl_warm _ _ _ _

/-- Two flags are the same where what they say is. -/
theorem flag_eq_iff {x y : Bool} {p q : Prop} (hx : x = true ↔ p) (hy : y = true ↔ q) : x = y ↔ (p ↔ q) := by
  rw [← hx, ← hy, Bool.eq_iff_iff]

/-- What is left to compare of a start-up that passes are the first two samples. -/
theorem sameSamples_iff {j j' : Jitter} {report : StartupReport} (h : j.startup m env = (j', .ok report)) :
    SameSamples m env j (divisorOf env j) ↔
      EvenFirst (rawOf env (j.measured + 98)) (rawOf env (j.measured + 99)) ((judgedDeltas env j).getD 0 0)
        ((judgedDeltas env j).getD 1 0) (divisorOf env j) := by
  obtain ⟨s, hjudged, -, hverdict⟩ := startup_verdict h
  have hlist := judged_list hjudged
  have hg : 0 < divisorOf env j := (startupVerdict_ok.1 hverdict).2.2.2.1
  have hdvd : ∀ c ∈ judgedDeltas env j, divisorOf env j ∣ c := (foldl_gcd_dvd (judgedDeltas env j) 0).2
  have hpositive {c : Nat} (hc : c ∈ judgedDeltas env j) : 0 < c ∧ 0 < c / divisorOf env j :=
    ⟨hlist.positive c hc, Nat.div_pos (Nat.le_of_dvd (hlist.positive c hc) (hdvd c hc)) hg⟩
  obtain ⟨c₁, c₂, rest, hcs⟩ := judgedDeltas_two hverdict
  have hget₀ : (judgedDeltas env j).getD 0 0 = c₁ := by rw [hcs]; rfl
  have hget₁ : (judgedDeltas env j).getD 1 0 = c₂ := by rw [hcs]; rfl
  have hc₁ := hpositive (hcs ▸ List.mem_cons_self : c₁ ∈ judgedDeltas env j)
  have hc₂ := hpositive (hcs ▸ List.mem_cons_of_mem _ List.mem_cons_self : c₂ ∈ judgedDeltas env j)
  rw [warmDeltas_last, Watch.foldl_warm] at hlist
  rw [SameSamples, hjudged, hlist.seen, dividedWatch_eq, hget₀, hget₁, hcs, Watch.seen_div hg (hcs ▸ hdvd) rfl rfl,
    flag_eq_iff (Watch.stuck_iff hc₁.1) (Watch.stuck_iff hc₁.2),
    flag_eq_iff (Watch.stuck_iff hc₂.1) (Watch.stuck_iff hc₂.2)]
  exact ⟨fun hsame => ⟨hsame.1, hsame.2⟩, fun heven => ⟨heven.first, heven.second⟩⟩

/-- With the samples the same, only the variation of the durations can make the verdict another. -/
theorem divided_verdict {j j' : Jitter} {report : StartupReport} (h : j.startup m env = (j', .ok report))
    (hsamples : SameSamples m env j (divisorOf env j)) :
    verdictOf j.osr (dividedWatch env j (divisorOf env j)) ((judgedDeltas env j).map (· / divisorOf env j)) = .ok () ↔
      (judgedDeltas env j).length ≤
        min ((((judgedDeltas env j).map (· / divisorOf env j)).foldl vary (none, 0)).2 * j.osr) U64_MAX := by
  obtain ⟨s, hjudged, -, hverdict⟩ := startup_verdict h
  obtain ⟨hnone, hstuck, -, hg, -⟩ := startupVerdict_ok.1 hverdict
  have hone : ((judgedDeltas env j).map (· / divisorOf env j)).foldl gcd 0 = 1 := foldl_gcd_div hg
  rw [SameSamples, hjudged, (judged_list hjudged).seen] at hsamples
  rw [verdictOf, ← hsamples, startupVerdict_ok, List.length_map, hone]
  exact ⟨fun hok => hok.2.2.1, fun hvaries => ⟨hnone, hstuck, hvaries, Nat.one_pos, by decide⟩⟩

/-- A start-up that passes with a divisor says what it would say of the divided durations, exactly where the last two
durations of the warm-up, which have no part in the divisor, are repeated as they are when divided, and the divided
durations vary enough. -/
theorem startup_unchanged_iff {j j' : Jitter} {report : StartupReport} (h : j.startup m env = (j', .ok report)) :
    Unchanged m env j report.granularity ↔ EvenStart env j := by
  obtain ⟨s, -, hgranularity, -⟩ := startup_verdict h
  rw [show report.granularity = divisorOf env j from hgranularity]
  constructor
  · intro hunchanged
    exact ⟨(sameSamples_iff h).1 hunchanged.samples, (divided_verdict h hunchanged.samples).1 hunchanged.verdict⟩
  · intro heven
    have hsamples := (sameSamples_iff h).2 heven.first
    exact ⟨hsamples, (divided_verdict h hsamples).2 heven.varies⟩

/-- A counter whose durations are even, but for the last one of the warm-up. -/
def unevenReadings (k : Nat) : Reading :=
  readingOf (if k < 99 then 1 else if k = 99 then 3 else rising (k - 100))

theorem unevenReadings_rises : Rises unevenReadings smallest := by
  have hreading (k : Nat) (hk : k < STARTUP_SAMPLES) :
      unevenReadings (smallest.measured + STARTUP_WARMUP + k) = readingOf (rising k) := by
    have hplace : smallest.measured + STARTUP_WARMUP + k = 100 + k := congrArg (· + k) (Nat.zero_add _)
    rw [unevenReadings, hplace, if_neg (by omega), if_neg (by omega), Nat.add_sub_cancel_left]
  have hspec (k : Nat) (hk : k < STARTUP_SAMPLES) :=
    readingOf_spec ((rising_le hk).2.trans_lt (by decide))
  exact {
    reads := fun k hk => by
      rw [hreading k hk]
      exact (hspec k hk).2
    rises := fun k hk => by
      rw [rawOf, hreading k hk]
      exact (hspec k hk).1
    first := by decide
    near := by decide }

/-- The durations 3 and 2 are equal when they are divided by 2. -/
theorem uneven_start_changed : Jitter.new 1024 1 1 1 false = .ok smallest ∧
    ∃ j' report, smallest.startup zeroMachine unevenReadings = (j', .ok report) ∧
      ¬Unchanged zeroMachine unevenReadings smallest report.granularity := by
  obtain ⟨j', report, hstartup, hreport, -, -⟩ := startup_rises zeroMachine unevenReadings_rises
  refine ⟨by decide, j', report, hstartup, fun hunchanged => ?_⟩
  obtain ⟨s, -, hgranularity, -⟩ := startup_verdict hstartup
  have hdivisor : divisorOf unevenReadings smallest = report.granularity := hgranularity.symm
  have heven := (sameSamples_iff hstartup).1 (hdivisor ▸ hunchanged.samples)
  have hdeltas : (judgedDeltas unevenReadings smallest).getD 0 0 = 2 := by
    rw [unevenReadings_rises.judgedDeltas]
    rfl
  have hrepeats := heven.first.2
  rw [hdeltas, hdivisor, hreport] at hrepeats
  revert hrepeats
  decide

theorem uneven_start_unchanged : ∃ j' report,
    smallest.startup zeroMachine unevenReadings = (j', .ok report) ∧
      (Unchanged zeroMachine unevenReadings smallest report.granularity ↔ EvenStart unevenReadings smallest) := by
  obtain ⟨j', report, hstartup, -⟩ := startup_rises zeroMachine unevenReadings_rises
  exact ⟨j', report, hstartup, startup_unchanged_iff hstartup⟩

end Jitter

end NanoChrono.Rng
