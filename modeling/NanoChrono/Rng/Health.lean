import Mathlib.Data.Nat.Count
import NanoChrono.Rng.Device

/-! # The continuous health tests

Three tests watch every sample of the jitter source, stuck or not: the repetition count, the adaptive
proportion and the lag predictor. The code keeps counters and windows, and every window ends with a reset.
What these stand for is said over the whole sequence of samples, without a state: the counters are then those
of the definitions at every sample, whatever the oversampling rate was changed to between them. -/

namespace NanoChrono.Rng

/-! ## Cutoffs -/

def FAIL_RCT : Nat := 1 <<< 0
def FAIL_APT : Nat := 1 <<< 1
def FAIL_LAG : Nat := 1 <<< 2
def FAIL_RCT_PERMANENT : Nat := 1 <<< 3
def FAIL_APT_PERMANENT : Nat := 1 <<< 4
def FAIL_LAG_PERMANENT : Nat := 1 <<< 5

/-- Lowest oversampling rate: one bit of entropy credited per sample. -/
def OSR_MIN : Nat := 1

/-- The default: a third of a bit per sample. -/
def OSR_DEFAULT : Nat := 3

/-- An oversampling rate in the tables' range. -/
structure Osr where
  val : Nat
  min_le : OSR_MIN ≤ val
  le_max : val ≤ OSR_MAX
deriving DecidableEq, Repr

/-- `osr` clamped into the tables' range. -/
def clampOsr (osr : Nat) : Osr :=
  if hlow : osr < OSR_MIN then ⟨OSR_MIN, Nat.le_refl _, by decide⟩
  else if hhigh : OSR_MAX < osr then ⟨OSR_MAX, by decide, Nat.le_refl _⟩
  else ⟨osr, Nat.le_of_not_lt hlow, Nat.le_of_not_lt hhigh⟩

@[simp]
theorem clampOsr_val (osr : Osr) : clampOsr osr.val = osr := by
  rw [clampOsr, dif_neg (Nat.not_lt.2 osr.min_le), dif_neg (Nat.not_lt.2 osr.le_max)]

/-- A cutoff for each oversampling rate. -/
abbrev Table := Vector Nat 20

/-- The entry of an oversampling rate. -/
def Table.at (table : Table) (osr : Osr) : Nat :=
  table.get ⟨osr.val - 1, Nat.sub_one_lt_of_le osr.min_le osr.le_max⟩

/-- Samples per APT window. -/
def APT_WINDOW : Nat := 512

def APT_INTERMITTENT : Table :=
  ⟨#[325, 422, 459, 477, 488, 494, 499, 502, 505, 507, 508, 509, 510, 511, 512, 512, 512, 512, 512, 512], rfl⟩

def APT_PERMANENT : Table :=
  ⟨#[355, 447, 479, 494, 502, 507, 510, 512, 512, 512, 512, 512, 512, 512, 512, 512, 512, 512, 512, 512], rfl⟩

/-- Samples the lag predictor remembers. -/
abbrev LAG_HISTORY : Nat := 8

/-- Samples per lag-predictor window. -/
def LAG_WINDOW : Nat := 131072

/-- Correct predictions per window. -/
def LAG_GLOBAL_INTERMITTENT : Table :=
  ⟨#[66443, 93504, 104761, 110875, 114707, 117330, 119237, 120686, 121823, 122739, 123493, 124124, 124660, 125120,
    125520, 125871, 126181, 126457, 126704, 126926], rfl⟩

/-- Longest run of correct predictions. -/
def LAG_LOCAL_INTERMITTENT : Table :=
  ⟨#[38, 75, 111, 146, 181, 215, 250, 284, 318, 351, 385, 419, 452, 485, 518, 551, 584, 617, 650, 683], rfl⟩

def LAG_GLOBAL_PERMANENT : Table :=
  ⟨#[66876, 93896, 105108, 111188, 114993, 117596, 119486, 120920, 122045, 122951, 123696, 124318, 124847, 125301,
    125695, 126041, 126346, 126617, 126860, 127079], rfl⟩

def LAG_LOCAL_PERMANENT : Table :=
  ⟨#[60, 119, 177, 234, 291, 347, 404, 460, 516, 571, 627, 683, 738, 793, 848, 903, 958, 1013, 1068, 1123], rfl⟩

/-- The RCT cutoff: thirty for each step of the rate, and twice that for the permanent one. -/
def rctCutoff (osr : Osr) (permanent : Bool) : Nat := (if permanent then 60 else 30) * (clampOsr osr.val).val

/-! ## The tests -/

/-- The three tests' state for one source. -/
structure Health where
  osr : Osr
  /-- Repetition count. -/
  rctRun : Nat
  /-- Adaptive proportion. -/
  aptReference : Nat
  aptCount : Nat
  aptSeen : Nat
  /-- Lag predictor. -/
  lagHistory : Vector Nat 8
  lagScores : Vector Nat 8
  lagBest : Fin 8
  lagObserved : Nat
  lagHits : Nat
  lagRun : Nat
deriving DecidableEq, Repr

namespace Health

def new (osr : Nat) : Health :=
  { osr := clampOsr osr
    rctRun := 0
    aptReference := 0
    aptCount := 0
    aptSeen := 0
    lagHistory := .replicate 8 0
    lagScores := .replicate 8 0
    lagBest := ⟨0, by decide⟩
    lagObserved := 0
    lagHits := 0
    lagRun := 0 }

/-- Moves to a new oversampling rate, keeping every counter. -/
def retune (h : Health) (osr : Nat) : Health := { h with osr := clampOsr osr }

/-- The largest count of 32 bits. -/
def COUNT_MAX : Nat := 2 ^ 32 - 1

/-- Consecutive stuck samples. -/
def rct (h : Health) (stuck : Bool) : Nat × Health :=
  if ¬stuck then (0, { h with rctRun := 0 })
  else
    let run := min (h.rctRun + 1) COUNT_MAX
    let fail :=
      if rctCutoff h.osr true ≤ run then FAIL_RCT_PERMANENT
      else if rctCutoff h.osr false ≤ run then FAIL_RCT
      else 0
    (fail, { h with rctRun := run })

/-- How often the first sample of a window comes back in it. -/
def apt (h : Health) (delta : Nat) : Nat × Health :=
  if h.aptSeen = 0 then
    -- First sample of a window: the reference, counted once.
    (0, { h with aptReference := delta, aptCount := 1, aptSeen := 1 })
  else
    let count := if delta = h.aptReference then h.aptCount + 1 else h.aptCount
    let seen := h.aptSeen + 1
    let fail :=
      if APT_PERMANENT.at h.osr ≤ count then FAIL_APT_PERMANENT
      else if APT_INTERMITTENT.at h.osr ≤ count then FAIL_APT
      else 0
    (fail, { h with aptCount := count, aptSeen := if APT_WINDOW ≤ seen then 0 else seen })

/-- Where the sample `k + 1` before sample `n` is kept. -/
def back (n : Nat) (k : Fin 8) : Fin 8 := ⟨(n - k - 1) % 8, Nat.mod_lt _ (by decide)⟩

/-- The best lag's prediction of a sample. -/
def predict (h : Health) (delta : Nat) : Nat × Health :=
  if h.lagHistory.get (back h.lagObserved h.lagBest) = delta then
    let hits := h.lagHits + 1
    let run := h.lagRun + 1
    let fail :=
      if LAG_LOCAL_PERMANENT.at h.osr ≤ run ∨ LAG_GLOBAL_PERMANENT.at h.osr ≤ hits then FAIL_LAG_PERMANENT
      else if LAG_LOCAL_INTERMITTENT.at h.osr ≤ run ∨ LAG_GLOBAL_INTERMITTENT.at h.osr ≤ hits then FAIL_LAG
      else 0
    (fail, { h with lagHits := hits, lagRun := run })
  else (0, { h with lagRun := 0 })

/-- Scores one lag on a sample. The best predicts the next one, and of two as good the shorter. -/
def score (delta : Nat) (h : Health) (k : Fin 8) : Health :=
  if h.lagHistory.get (back h.lagObserved k) = delta then
    let scores := h.lagScores.set k (h.lagScores.get k + 1)
    let best := scores.get h.lagBest
    if best < scores.get k ∨ scores.get k = best ∧ k < h.lagBest then
      { h with lagScores := scores, lagBest := k }
    else { h with lagScores := scores }
  else h

/-- Keeps a sample, and starts over at the end of a window. -/
def keep (h : Health) (delta : Nat) : Health :=
  let observed := h.lagObserved + 1
  if LAG_WINDOW ≤ observed then
    { h with
      lagHistory := .replicate 8 0
      lagScores := .replicate 8 0
      lagBest := ⟨0, by decide⟩
      lagObserved := 0
      lagHits := 0
      lagRun := 0 }
  else
    { h with
      lagHistory := h.lagHistory.set (h.lagObserved % 8) delta (Nat.mod_lt _ (by decide))
      lagObserved := observed }

/-- How well the samples before it predict a sample. -/
def lag (h : Health) (delta : Nat) : Nat × Health :=
  if hfill : h.lagObserved < LAG_HISTORY then
    -- Filling the history: nothing to predict from yet.
    (0, { h with lagHistory := h.lagHistory.set h.lagObserved delta hfill, lagObserved := h.lagObserved + 1 })
  else
    let p := h.predict delta
    (p.1, ((List.finRange 8).foldl (score delta) p.2).keep delta)

/-- Feeds one sample: its normalised delta and whether it was stuck. The failure bits it raised are given. -/
def observe (h : Health) (delta : Nat) (stuck : Bool) : Nat × Health :=
  let r := h.rct stuck
  let a := r.2.apt delta
  let l := a.2.lag delta
  (r.1 ||| a.1 ||| l.1, l.2)

end Health

/-! ## What each test leaves alone -/

/-- Two states that differ in the lag predictor at most. -/
structure LagOnly (h g : Health) : Prop where
  osr : g.osr = h.osr
  rctRun : g.rctRun = h.rctRun
  aptReference : g.aptReference = h.aptReference
  aptCount : g.aptCount = h.aptCount
  aptSeen : g.aptSeen = h.aptSeen

namespace LagOnly

theorem refl (h : Health) : LagOnly h h := ⟨rfl, rfl, rfl, rfl, rfl⟩

theorem trans {h g k : Health} (hg : LagOnly h g) (hk : LagOnly g k) : LagOnly h k :=
  ⟨hk.osr.trans hg.osr, hk.rctRun.trans hg.rctRun, hk.aptReference.trans hg.aptReference,
    hk.aptCount.trans hg.aptCount, hk.aptSeen.trans hg.aptSeen⟩

theorem score (delta : Nat) (h : Health) (k : Fin 8) : LagOnly h (h.score delta k) := by
  unfold Health.score
  split
  · dsimp only
    split <;> exact ⟨rfl, rfl, rfl, rfl, rfl⟩
  · exact refl h

theorem foldl_score (delta : Nat) (ks : List (Fin 8)) (h : Health) : LagOnly h (ks.foldl (Health.score delta) h) := by
  induction ks generalizing h with
  | nil => exact refl h
  | cons k ks ih => exact (score delta h k).trans (ih _)

theorem predict (delta : Nat) (h : Health) : LagOnly h (h.predict delta).2 := by
  unfold Health.predict
  split <;> exact ⟨rfl, rfl, rfl, rfl, rfl⟩

theorem keep (delta : Nat) (h : Health) : LagOnly h (h.keep delta) := by
  unfold Health.keep
  dsimp only
  split <;> exact ⟨rfl, rfl, rfl, rfl, rfl⟩

theorem lag (delta : Nat) (h : Health) : LagOnly h (h.lag delta).2 := by
  unfold Health.lag
  split
  · exact ⟨rfl, rfl, rfl, rfl, rfl⟩
  · dsimp only
    exact ((predict delta h).trans (foldl_score delta _ _)).trans (keep delta _)

end LagOnly

@[simp]
theorem rct_osr (h : Health) (stuck : Bool) : (h.rct stuck).2.osr = h.osr := by
  unfold Health.rct
  split <;> rfl

@[simp]
theorem apt_osr (h : Health) (delta : Nat) : (h.apt delta).2.osr = h.osr ∧ (h.apt delta).2.rctRun = h.rctRun := by
  unfold Health.apt
  split <;> exact ⟨rfl, rfl⟩

@[simp]
theorem observe_osr (h : Health) (delta : Nat) (stuck : Bool) : (h.observe delta stuck).2.osr = h.osr := by
  rw [Health.observe]
  dsimp only
  rw [(LagOnly.lag delta _).osr, (apt_osr _ _).1, rct_osr]

/-- Only the repetition count test counts stuck samples. -/
theorem observe_rctRun (h : Health) (delta : Nat) (stuck : Bool) :
    (h.observe delta stuck).2.rctRun = (h.rct stuck).2.rctRun := by
  rw [Health.observe]
  dsimp only
  rw [(LagOnly.lag delta _).rctRun, (apt_osr _ _).2]

/-! ## The bits of a sample -/

/-- A test raises its permanent bit, its intermittent bit or none. -/
theorem graded {p q : Prop} [Decidable p] [Decidable q] (a b : Nat) :
    (if p then a else if q then b else 0) = 0 ∨ (if p then a else if q then b else 0) = b ∨
      (if p then a else if q then b else 0) = a := by
  split
  · exact .inr (.inr rfl)
  · split
    · exact .inr (.inl rfl)
    · exact .inl rfl

theorem rct_bits (h : Health) (stuck : Bool) :
    (h.rct stuck).1 = 0 ∨ (h.rct stuck).1 = FAIL_RCT ∨ (h.rct stuck).1 = FAIL_RCT_PERMANENT := by
  unfold Health.rct
  split
  · exact .inl rfl
  · exact graded _ _

theorem apt_bits (h : Health) (delta : Nat) :
    (h.apt delta).1 = 0 ∨ (h.apt delta).1 = FAIL_APT ∨ (h.apt delta).1 = FAIL_APT_PERMANENT := by
  unfold Health.apt
  split
  · exact .inl rfl
  · exact graded _ _

theorem lag_bits (h : Health) (delta : Nat) :
    (h.lag delta).1 = 0 ∨ (h.lag delta).1 = FAIL_LAG ∨ (h.lag delta).1 = FAIL_LAG_PERMANENT := by
  unfold Health.lag Health.predict
  split
  · exact .inl rfl
  · split
    · exact graded _ _
    · exact .inl rfl

end NanoChrono.Rng
