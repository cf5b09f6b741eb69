import NanoChrono.Ecc.Protected

/-! # The stopwatch

The stopwatch keeps its total, the start of its live segment and its laps in protected words, and its storage may be
damaged between two operations. What it is for is the list of its segments (`Timing`): the intervals of the counter
it has measured since it was last started afresh or reset. Whatever the order of operations and damage, the stored
words are within their tolerance of that list's numbers (`Run.refines`). -/

namespace NanoChrono.Clock

open Ecc

/-! ## The source's operations -/

/-- Where the stopwatch is in its cycle. -/
inductive StopwatchState where
  /-- Never started, or reset. Elapsed is zero. -/
  | reset
  /-- Counting. -/
  | running
  /-- Frozen, resumable. -/
  | paused
  /-- Frozen by an explicit stop. -/
  | stopped
deriving DecidableEq, Repr

/-- A start/pause/resume/stop stopwatch over a counter. -/
structure Stopwatch where
  state : StopwatchState
  /-- Total from all completed segments. -/
  accumulatedNs : Protected
  /-- Counter value at the start of the live segment. -/
  startUnits : Option Protected
  /-- Elapsed at each recorded lap. -/
  laps : List Protected
  /-- What the last scrub found. -/
  lastIntegrity : Integrity
deriving DecidableEq, Repr

/-- The greatest count of nanoseconds. -/
def U64_MAX : Nat := 2 ^ 64 - 1

def saturatingAdd (x y : BitVec 64) : BitVec 64 := BitVec.ofNat 64 (min (x.toNat + y.toNat) U64_MAX)

namespace Stopwatch

def new : Stopwatch := ⟨.reset, Protected.new 0, none, [], .clean⟩

/-- Verifies and repairs every stored word, returning the worst outcome. -/
@[grind =] def verify (s : Stopwatch) : Stopwatch × Integrity :=
  let accumulated := s.accumulatedNs.verify
  let start := s.startUnits.map Protected.verify
  let laps := s.laps.map Protected.verify
  let worst := laps.foldl (fun worst lap => worst.max lap.2)
    (match start with
      | some start => accumulated.2.max start.2
      | none => accumulated.2)
  ({ s with
      accumulatedNs := accumulated.1
      startUnits := start.map Prod.fst
      laps := laps.map Prod.fst
      lastIntegrity := worst }, worst)

/-- Starts from zero, discarding any previous total and laps. -/
def start (_ : Stopwatch) (now : BitVec 64) : Stopwatch :=
  ⟨.running, Protected.new 0, some (Protected.new now), [], .clean⟩

/-- Resumes from the accumulated total without discarding it. -/
def resume (s : Stopwatch) (now : BitVec 64) : Stopwatch :=
  if s.state = .running then s
  else { s.verify.1 with startUnits := some (Protected.new now), state := .running }

/-- Clears everything back to zero. -/
def reset (_ : Stopwatch) : Stopwatch := ⟨.reset, Protected.new 0, none, [], .clean⟩

section

-- The calibration's conversion of counter units.
variable (unitsToNs : BitVec 64 → BitVec 64)

/-- Total elapsed nanoseconds, including the live segment when running. -/
def elapsedNs (s : Stopwatch) (now : BitVec 64) : BitVec 64 :=
  let accumulated := s.accumulatedNs.getChecked.1
  match s.startUnits with
  | some start => saturatingAdd accumulated (unitsToNs (now - start.getChecked.1))
  | none => accumulated

/-- Folds the live segment into the total, scrubbed before it. -/
def freeze (s : Stopwatch) (now : BitVec 64) : Stopwatch :=
  let s := s.verify.1
  match s.startUnits with
  | some start =>
    { s with
      startUnits := none
      accumulatedNs := s.accumulatedNs.set (saturatingAdd s.accumulatedNs.get (unitsToNs (now - start.get))) }
  | none => s

/-- Folds the live segment into the total and freezes. -/
def pause (s : Stopwatch) (now : BitVec 64) : Stopwatch :=
  if s.state ≠ .running then s else { s.freeze unitsToNs now with state := .paused }

/-- Freezes and marks the run as finished. Still resumable. -/
def stop (s : Stopwatch) (now : BitVec 64) : Stopwatch :=
  let s := if s.state = .running then s.freeze unitsToNs now else s
  { s with state := .stopped }

/-- Records the current elapsed time as a lap and returns it. -/
def lap (s : Stopwatch) (now : BitVec 64) : Stopwatch × BitVec 64 :=
  let s := s.verify.1
  let elapsed := s.elapsedNs unitsToNs now
  ({ s with laps := s.laps ++ [Protected.new elapsed] }, elapsed)

/-- The single "primary action" the space bar drives: start, pause, resume. -/
def toggle (s : Stopwatch) (now : BitVec 64) : Stopwatch :=
  match s.state with
  | .reset => s.start now
  | .running => s.pause unitsToNs now
  | .paused => s.resume now
  | .stopped => s.resume now

end

end Stopwatch

/-! ## What it measures -/

/-- An operation; the counter is read by those that need it. -/
inductive Op where
  | start
  | resume
  | pause
  | stop
  | toggle
  | lap
  | reset
  | verify
deriving DecidableEq, Repr

/-- The operations so far, each with the counter when it was made. -/
abbrev Log := List (Op × BitVec 64)

/-- The intervals measured since the last fresh start or reset: those that ended and the start of the one that has
not, and the laps kept since then. -/
structure Timing where
  state : StopwatchState
  completed : List (BitVec 64 × BitVec 64)
  live : Option (BitVec 64)
  laps : List (BitVec 64)

namespace Timing

def new : Timing := ⟨.reset, [], none, []⟩

/-- The live segment, ended. -/
def ended (t : Timing) (now : BitVec 64) : List (BitVec 64 × BitVec 64) :=
  t.completed ++ (t.live.map fun start => (start, now)).toList

/-- The counter readings that bound the segments, in order. -/
def readings (t : Timing) : List (BitVec 64) :=
  t.completed.flatMap (fun segment => [segment.1, segment.2]) ++ t.live.toList

section

variable (unitsToNs : BitVec 64 → BitVec 64)

/-- The converted segments' sum, no further than a word goes. -/
def sum (segments : List (BitVec 64 × BitVec 64)) : Nat :=
  min ((segments.map fun segment => (unitsToNs (segment.2 - segment.1)).toNat).sum) U64_MAX

/-- The time measured so far. -/
def elapsed (t : Timing) (now : BitVec 64) : Nat := sum unitsToNs (t.ended now)

/-- The segment that begins. -/
def resume (t : Timing) (now : BitVec 64) : Timing :=
  if t.state = .running then t else { t with state := .running, live := some now }

/-- The segment that ends, if one is live. -/
def freeze (t : Timing) (now : BitVec 64) (state : StopwatchState) : Timing :=
  { t with state, completed := t.ended now, live := none }

/-- What an operation does to the list of segments and to the laps. -/
def step (t : Timing) (now : BitVec 64) : Op → Timing
  | .start => ⟨.running, [], some now, []⟩
  | .resume => t.resume now
  | .pause => if t.state = .running then t.freeze now .paused else t
  | .stop => t.freeze now .stopped
  | .toggle =>
    match t.state with
    | .reset => ⟨.running, [], some now, []⟩
    | .running => t.freeze now .paused
    | .paused => t.resume now
    | .stopped => t.resume now
  | .lap => { t with laps := t.laps ++ [BitVec.ofNat 64 (t.elapsed unitsToNs now)] }
  | .reset => new
  | .verify => t

end

end Timing

/-- The segments and laps of a log. -/
def timing (unitsToNs : BitVec 64 → BitVec 64) (log : Log) : Timing :=
  log.foldl (fun t x => t.step unitsToNs x.2 x.1) Timing.new

/-! ## Runs -/

section Runs

variable (unitsToNs : BitVec 64 → BitVec 64)

def Stopwatch.step (s : Stopwatch) (now : BitVec 64) : Op → Stopwatch
  | .start => s.start now
  | .resume => s.resume now
  | .pause => s.pause unitsToNs now
  | .stop => s.stop unitsToNs now
  | .toggle => s.toggle unitsToNs now
  | .lap => (s.lap unitsToNs now).1
  | .reset => s.reset
  | .verify => s.verify.1

/-- Flips in a word's storage that leave it within its tolerance of the value it was within it of before. -/
def Hit (p p' : Protected) : Prop := ∃ value, p.Damaged value ∧ p'.Damaged value

/-- Flips in any of the stored words. -/
structure Stopwatch.Hit (s s' : Stopwatch) : Prop where
  state : s'.state = s.state
  accumulated : Clock.Hit s.accumulatedNs s'.accumulatedNs
  start : Option.Rel Clock.Hit s.startUnits s'.startUnits
  laps : List.Forall₂ Clock.Hit s.laps s'.laps

/-- No operation of a log is later than a reading of the counter. -/
def Log.Until (log : Log) (now : BitVec 64) : Prop := ∀ x ∈ log, x.2 ≤ now

/-- The stopwatches that operations lead to, on a counter that never goes back, whatever is flipped in between. -/
inductive Run : Log → Stopwatch → Prop where
  | new : Run [] Stopwatch.new
  | step {log : Log} {s : Stopwatch} (op : Op) (now : BitVec 64) (hrun : Run log s) (hclock : log.Until now) :
      Run (log ++ [(op, now)]) (s.step unitsToNs now op)
  | hit {log : Log} {s s' : Stopwatch} (hrun : Run log s) (hhit : s.Hit s') : Run log s'

end Runs

/-! ## The stored words stand for the segments -/

theorem saturatingAdd_toNat (x y : BitVec 64) : (saturatingAdd x y).toNat = min (x.toNat + y.toNat) U64_MAX := by
  rw [saturatingAdd, BitVec.toNat_ofNat, U64_MAX]
  omega

/-- The stored words are within their tolerance of the segments' numbers, and a segment is live while running. -/
structure Refines (unitsToNs : BitVec 64 → BitVec 64) (t : Timing) (s : Stopwatch) : Prop where
  state : s.state = t.state
  live : t.live.isSome ↔ t.state = .running
  accumulated : ∃ total : BitVec 64, s.accumulatedNs.Damaged total ∧ total.toNat = Timing.sum unitsToNs t.completed
  start : Option.Rel Protected.Damaged t.live s.startUnits
  laps : List.Forall₂ Protected.Damaged t.laps s.laps

section

variable {unitsToNs : BitVec 64 → BitVec 64} {t : Timing} {s : Stopwatch}

/-- One segment more is its nanoseconds more. -/
theorem Timing.sum_snoc (segments : List (BitVec 64 × BitVec 64)) (start now : BitVec 64) :
    sum unitsToNs (segments ++ [(start, now)]) =
      min (sum unitsToNs segments + (unitsToNs (now - start)).toNat) U64_MAX := by
  rw [sum, sum, List.map_append, List.sum_append]
  simp only [List.map_cons, List.map_nil, List.sum_cons, List.sum_nil, Nat.add_zero]
  omega

theorem Refines.new : Refines unitsToNs Timing.new Stopwatch.new where
  state := rfl
  live := by simp [Timing.new]
  accumulated := ⟨0, Protected.damaged_new 0, by simp [Timing.new, Timing.sum]⟩
  start := Option.Rel.none
  laps := List.Forall₂.nil

theorem Refines.start_fresh (now : BitVec 64) : Refines unitsToNs ⟨.running, [], some now, []⟩ (s.start now) where
  state := rfl
  live := by simp
  accumulated := ⟨0, Protected.damaged_new 0, by simp [Timing.sum]⟩
  start := Option.Rel.some (Protected.damaged_new now)
  laps := List.Forall₂.nil

/-- The elapsed time read is that of the segments. -/
theorem Refines.elapsed (h : Refines unitsToNs t s) (now : BitVec 64) :
    (s.elapsedNs unitsToNs now).toNat = t.elapsed unitsToNs now := by
  obtain ⟨total, hdamaged, htotal⟩ := h.accumulated
  rw [Stopwatch.elapsedNs, (Protected.getChecked_of_damaged hdamaged).1, Timing.elapsed, Timing.ended]
  cases hlive : t.live with
  | none =>
    have hstart := h.start
    rw [hlive] at hstart
    cases hunits : s.startUnits with
    | none => simpa using htotal
    | some p =>
      rw [hunits] at hstart
      cases hstart
  | some units =>
    have hstart := h.start
    rw [hlive] at hstart
    cases hunits : s.startUnits with
    | none =>
      rw [hunits] at hstart
      cases hstart
    | some p =>
      rw [hunits] at hstart
      obtain ⟨hstart⟩ := hstart
      dsimp only
      rw [(Protected.getChecked_of_damaged hstart).1, saturatingAdd_toNat, htotal]
      exact (Timing.sum_snoc t.completed units now).symm

/-- A scrub keeps every number. -/
theorem Refines.verify (h : Refines unitsToNs t s) : Refines unitsToNs t s.verify.1 where
  state := h.state
  live := h.live
  accumulated := by
    obtain ⟨total, hdamaged, htotal⟩ := h.accumulated
    exact ⟨total, Protected.damaged_verify hdamaged, htotal⟩
  start := by
    have hstart := h.start
    rw [Stopwatch.verify]
    dsimp only
    generalize t.live = live at hstart ⊢
    generalize s.startUnits = units at hstart ⊢
    cases hstart with
    | none => exact Option.Rel.none
    | some hdamaged => exact Option.Rel.some (Protected.damaged_verify hdamaged)
  laps := by
    rw [Stopwatch.verify]
    dsimp only
    rw [List.map_map, List.forall₂_map_right_iff]
    exact h.laps.imp fun _ _ => Protected.damaged_verify

/-- Freezing ends the live segment: its nanoseconds go into the total. -/
theorem Refines.freeze (h : Refines unitsToNs t s) (now : BitVec 64) {state : StopwatchState}
    (hstate : state ≠ .running) :
    Refines unitsToNs (t.freeze now state) { s.freeze unitsToNs now with state } where
  state := rfl
  live := by
    rw [Timing.freeze]
    simpa using hstate
  accumulated := by
    obtain ⟨total, hdamaged, htotal⟩ := h.accumulated
    have hstart := h.start
    rw [Timing.freeze, Timing.ended, Stopwatch.freeze, Stopwatch.verify]
    dsimp only
    generalize t.live = live at hstart ⊢
    generalize s.startUnits = units at hstart ⊢
    cases hstart with
    | none => exact ⟨total, Protected.damaged_verify hdamaged, by simpa using htotal⟩
    | @some units p hunits =>
      -- Both words have just been scrubbed, so the plain reads are right.
      have hget : p.verify.1.get = units := Protected.verify_value hunits
      have hgetTotal : s.accumulatedNs.verify.1.get = total := Protected.verify_value hdamaged
      dsimp only [Option.map]
      rw [hget, hgetTotal, Protected.set_eq]
      refine ⟨saturatingAdd total (unitsToNs (now - units)), Protected.damaged_new _, ?_⟩
      rw [saturatingAdd_toNat, htotal]
      exact (Timing.sum_snoc t.completed units now).symm
  start := by
    have hstart := h.start
    rw [Timing.freeze, Stopwatch.freeze, Stopwatch.verify]
    dsimp only
    generalize t.live = live at hstart
    generalize s.startUnits = units at hstart ⊢
    cases hstart with
    | none => exact Option.Rel.none
    | some _ => exact Option.Rel.none
  laps := by
    have hlaps := h.verify.laps
    rw [Timing.freeze, Stopwatch.freeze]
    dsimp only
    split
    · exact hlaps
    · exact hlaps

/-- Resuming begins a segment. -/
theorem Refines.resume (h : Refines unitsToNs t s) (now : BitVec 64) :
    Refines unitsToNs (t.resume now) (s.resume now) := by
  rw [Timing.resume, Stopwatch.resume, h.state]
  split
  · exact h
  · exact { h.verify with
      state := rfl
      live := by simp
      start := Option.Rel.some (Protected.damaged_new now) }

theorem Refines.pause (h : Refines unitsToNs t s) (now : BitVec 64) :
    Refines unitsToNs (if t.state = .running then t.freeze now .paused else t) (s.pause unitsToNs now) := by
  rw [Stopwatch.pause, h.state]
  by_cases hrunning : t.state = .running
  · rw [if_pos hrunning, if_neg (not_not.mpr hrunning)]
    exact h.freeze now (by decide)
  · rw [if_neg hrunning, if_pos hrunning]
    exact h

/-- Stopping ends the live segment, where there is one. -/
theorem Refines.stop (h : Refines unitsToNs t s) (now : BitVec 64) :
    Refines unitsToNs (t.freeze now .stopped) (s.stop unitsToNs now) := by
  rw [Stopwatch.stop, h.state]
  by_cases hrunning : t.state = .running
  · rw [if_pos hrunning]
    exact h.freeze now (by decide)
  · rw [if_neg hrunning]
    have hnone : t.live = none := by
      have hlive := h.live
      cases hunits : t.live with
      | none => rfl
      | some units => exact absurd (hlive.mp (by rw [hunits]; rfl)) hrunning
    rw [Timing.freeze, Timing.ended, hnone, Option.map_none, Option.toList_none, List.append_nil]
    exact { h with
      state := rfl
      live := by simp
      start := by
        have hstart := h.start
        rw [hnone] at hstart
        exact hstart }

/-- A lap keeps the time elapsed. -/
theorem Refines.lap (h : Refines unitsToNs t s) (now : BitVec 64) :
    Refines unitsToNs { t with laps := t.laps ++ [BitVec.ofNat 64 (t.elapsed unitsToNs now)] }
      (s.lap unitsToNs now).1 := by
  refine { h.verify with laps := ?_ }
  rw [Stopwatch.lap]
  dsimp only
  rw [← h.verify.elapsed now, BitVec.ofNat_toNat, BitVec.setWidth_eq]
  exact List.rel_append h.verify.laps (List.Forall₂.cons (Protected.damaged_new _) List.Forall₂.nil)

/-- Each operation of the source does to its words what it is to do to the segments. -/
theorem Refines.step (h : Refines unitsToNs t s) (now : BitVec 64) (op : Op) :
    Refines unitsToNs (t.step unitsToNs now op) (s.step unitsToNs now op) := by
  cases op with
  | start => exact @Refines.start_fresh unitsToNs s now
  | resume => exact h.resume now
  | pause => exact h.pause now
  | stop => exact h.stop now
  | toggle =>
    rw [Timing.step, Stopwatch.step, Stopwatch.toggle, h.state]
    cases hstate : t.state with
    | reset => exact @Refines.start_fresh unitsToNs s now
    | running =>
      have hpause := h.pause now
      rw [if_pos hstate] at hpause
      exact hpause
    | paused => exact h.resume now
    | stopped => exact h.resume now
  | lap => exact h.lap now
  | reset => exact Refines.new
  | verify => exact h.verify

/-- A tolerated flip leaves a word within its tolerance of its value. -/
theorem Hit.damaged {p p' : Protected} {value : BitVec 64} (hhit : Hit p p') (h : p.Damaged value) :
    p'.Damaged value := by
  obtain ⟨held, hbefore, hafter⟩ := hhit
  rw [Protected.damaged_unique h hbefore]
  exact hafter

/-- Flips between two operations leave every number. -/
theorem Refines.hit {s' : Stopwatch} (h : Refines unitsToNs t s) (hhit : s.Hit s') : Refines unitsToNs t s' where
  state := hhit.state.trans h.state
  live := h.live
  accumulated := by
    obtain ⟨total, hdamaged, htotal⟩ := h.accumulated
    exact ⟨total, hhit.accumulated.damaged hdamaged, htotal⟩
  start := by
    have hstart := h.start
    have hhits := hhit.start
    generalize t.live = live at hstart ⊢
    generalize s.startUnits = units at hstart hhits
    generalize s'.startUnits = units' at hhits ⊢
    cases hstart with
    | none =>
      cases hhits with
      | none => exact Option.Rel.none
    | some hdamaged =>
      cases hhits with
      | some hhit => exact Option.Rel.some (hhit.damaged hdamaged)
  laps := by
    have hlaps := h.laps
    have hhits := hhit.laps
    generalize t.laps = laps at hlaps ⊢
    generalize s.laps = stored at hlaps hhits
    generalize s'.laps = stored' at hhits ⊢
    induction hlaps generalizing stored' with
    | nil =>
      cases hhits with
      | nil => exact List.Forall₂.nil
    | cons hdamaged _ ih =>
      cases hhits with
      | cons hhit hrest => exact List.Forall₂.cons (hhit.damaged hdamaged) (ih _ hrest)

/-- In every run the stored words stand for the segments and the laps of its operations. -/
theorem Run.refines {log : Log} (hrun : Run unitsToNs log s) : Refines unitsToNs (timing unitsToNs log) s := by
  induction hrun with
  | new => exact Refines.new
  | step op now _ _ ih =>
    rw [timing, List.foldl_append]
    exact ih.step now op
  | hit _ hhit ih => exact ih.hit hhit

/-! ## The segments do not overlap -/

theorem Timing.readings_freeze (t : Timing) (now : BitVec 64) (state : StopwatchState) :
    (t.freeze now state).readings = t.readings ∨ (t.freeze now state).readings = t.readings ++ [now] := by
  rw [freeze, readings, readings, ended]
  cases t.live with
  | none => exact Or.inl (by simp)
  | some start => exact Or.inr (by simp)

theorem Timing.readings_resume (hlive : t.live.isSome ↔ t.state = .running) (now : BitVec 64) :
    (t.resume now).readings = t.readings ∨ (t.resume now).readings = t.readings ++ [now] := by
  rw [resume]
  split
  next => exact Or.inl rfl
  next hrunning =>
    have hnone : t.live = none := by
      cases hunits : t.live with
      | none => rfl
      | some units => exact absurd (hlive.mp (by rw [hunits]; rfl)) hrunning
    rw [readings, readings, hnone]
    exact Or.inr (by simp)

/-- An operation keeps the readings and may add the counter's, or begins anew. -/
theorem Timing.readings_step (hlive : t.live.isSome ↔ t.state = .running) (now : BitVec 64) (op : Op) :
    ((t.step unitsToNs now op).readings = t.readings ∨ (t.step unitsToNs now op).readings = t.readings ++ [now]) ∨
      (t.step unitsToNs now op).readings = [now] ∨ (t.step unitsToNs now op).readings = [] := by
  cases op with
  | start => exact Or.inr (Or.inl rfl)
  | resume => exact Or.inl (readings_resume hlive now)
  | pause =>
    rw [step]
    split
    · exact Or.inl (t.readings_freeze now _)
    · exact Or.inl (Or.inl rfl)
  | stop => exact Or.inl (t.readings_freeze now _)
  | toggle =>
    rw [step]
    split
    · exact Or.inr (Or.inl rfl)
    · exact Or.inl (t.readings_freeze now _)
    · exact Or.inl (readings_resume hlive now)
    · exact Or.inl (readings_resume hlive now)
  | lap => exact Or.inl (Or.inl rfl)
  | reset => exact Or.inr (Or.inr rfl)
  | verify => exact Or.inl (Or.inl rfl)

/-- The bounds of the segments are in the order of the counter, and none is later than the log. -/
theorem Run.ordered {log : Log} (hrun : Run unitsToNs log s) :
    (timing unitsToNs log).readings.Pairwise (· ≤ ·) ∧ ∀ r ∈ (timing unitsToNs log).readings, ∃ x ∈ log, r ≤ x.2 := by
  induction hrun with
  | new => exact ⟨List.Pairwise.nil, fun r hr => absurd hr List.not_mem_nil⟩
  | @step log s op now hbefore hclock ih =>
    obtain ⟨hsorted, hbounded⟩ := ih
    have hstep : timing unitsToNs (log ++ [(op, now)]) = (timing unitsToNs log).step unitsToNs now op := by
      rw [timing, List.foldl_append]
      rfl
    have hlast : ∀ r, r = now → ∃ x ∈ log ++ [(op, now)], r ≤ x.2 := fun r hr =>
      ⟨(op, now), List.mem_append_right _ List.mem_cons_self, by rw [hr]; exact BitVec.le_refl now⟩
    have hkept : ∀ r ∈ (timing unitsToNs log).readings, ∃ x ∈ log ++ [(op, now)], r ≤ x.2 := by
      intro r hr
      obtain ⟨x, hx, hle⟩ := hbounded r hr
      exact ⟨x, List.mem_append_left _ hx, hle⟩
    rw [hstep]
    rcases Timing.readings_step hbefore.refines.live now op with (heq | heq) | heq | heq
    · rw [heq]
      exact ⟨hsorted, hkept⟩
    · rw [heq]
      constructor
      · refine List.pairwise_append.mpr ⟨hsorted, List.pairwise_singleton _ _, ?_⟩
        intro r hr r' hr'
        obtain rfl := List.mem_singleton.mp hr'
        obtain ⟨x, hx, hle⟩ := hbounded r hr
        exact BitVec.le_trans hle (hclock x hx)
      · intro r hr
        rcases List.mem_append.mp hr with hr | hr
        · exact hkept r hr
        · exact hlast r (List.mem_singleton.mp hr)
    · rw [heq]
      exact ⟨List.pairwise_singleton _ _, fun r hr => hlast r (List.mem_singleton.mp hr)⟩
    · rw [heq]
      exact ⟨List.Pairwise.nil, fun r hr => absurd hr List.not_mem_nil⟩
  | hit _ _ ih => exact ih

/-- The stopwatch's account, after any operations and any tolerated flips between them: the elapsed time is the sum
of the segments since the last fresh start or reset with the live one, as a reading and as a lap; no interval of the
counter is in two of them; a start is stored exactly while running; and the laps read back as they were recorded. -/
theorem Run.accounts {log : Log} (hrun : Run unitsToNs log s) :
    (∀ now, log.Until now → (s.elapsedNs unitsToNs now).toNat = (timing unitsToNs log).elapsed unitsToNs now ∧
      (s.lap unitsToNs now).2 = s.elapsedNs unitsToNs now) ∧
    ((timing unitsToNs log).readings.Pairwise (· ≤ ·) ∧
      ∀ now, log.Until now → ∀ r ∈ (timing unitsToNs log).readings, r ≤ now) ∧
    (s.state = (timing unitsToNs log).state ∧ (s.startUnits.isSome ↔ s.state = .running)) ∧
    s.laps.map (fun lap => lap.getChecked.1) = (timing unitsToNs log).laps := by
  have hrefines := hrun.refines
  obtain ⟨hsorted, hbounded⟩ := hrun.ordered
  refine ⟨fun now _ => ⟨hrefines.elapsed now, ?_⟩, ⟨hsorted, ?_⟩, ⟨hrefines.state, ?_⟩, ?_⟩
  · apply BitVec.eq_of_toNat_eq
    rw [hrefines.elapsed now]
    exact hrefines.verify.elapsed now
  · intro now hnow r hr
    obtain ⟨x, hx, hle⟩ := hbounded r hr
    exact BitVec.le_trans hle (hnow x hx)
  · have hlive := hrefines.live
    have hstart := hrefines.start
    rw [hrefines.state, ← hlive]
    generalize (timing unitsToNs log).live = live at hstart ⊢
    generalize s.startUnits = units at hstart ⊢
    cases hstart with
    | none => rfl
    | some _ => exact Iff.rfl
  · have hlaps := hrefines.laps
    generalize (timing unitsToNs log).laps = laps at hlaps ⊢
    generalize s.laps = stored at hlaps ⊢
    induction hlaps with
    | nil => rfl
    | cons hdamaged _ ih => rw [List.map_cons, ih, (Protected.getChecked_of_damaged hdamaged).1]

end

/-- A stopwatch paused at forty nanoseconds. -/
def pausedAtForty : Stopwatch := ⟨.paused, Protected.new 40, none, [Protected.new 20], .clean⟩

/-- It, with two bits of its total and one of its lap flipped. -/
def pausedHit : Stopwatch :=
  { pausedAtForty with
    accumulatedNs := { Protected.new 40 with value := 40 ^^^ 3 }
    laps := [{ Protected.new 20 with check := Ecc.checkBits 20 ^^^ 1 }] }

theorem run_pausedAtForty :
    Run (fun units => 2 * units) [(.start, 10), (.lap, 20), (.pause, 30)] pausedAtForty := by
  have hsteps : ((Stopwatch.new.step (fun units => 2 * units) 10 .start).step (fun units => 2 * units) 20 .lap).step
      (fun units => 2 * units) 30 .pause = pausedAtForty := by
    decide +kernel
  rw [← hsteps]
  exact Run.step .pause 30 (Run.step .lap 20 (Run.step .start 10 Run.new (by simp [Log.Until])) (by simp [Log.Until]))
    (by simp [Log.Until])

theorem pausedAtForty_hit : pausedAtForty.Hit pausedHit where
  state := rfl
  accumulated := ⟨40, Protected.damaged_new 40, by decide, by decide, by decide⟩
  start := Option.Rel.none
  laps := List.Forall₂.cons
    ⟨20, Protected.damaged_new 20, by decide, by decide, by decide⟩ List.Forall₂.nil

/-- Two segments of twenty and fifty units of two nanoseconds, with a lap, a pause and damage in between. -/
theorem Run.accounts_two_segments : ∃ s, Run (fun units => 2 * units)
      [(.start, 10), (.lap, 20), (.pause, 30), (.resume, 100), (.stop, 150)] s ∧
    (s.elapsedNs (fun units => 2 * units) 200).toNat = 140 ∧ s.laps.map (fun lap => lap.getChecked.1) = [20] :=
  have hstopped := Run.step .stop 150 (Run.step .resume 100 (Run.hit run_pausedAtForty pausedAtForty_hit)
    (by simp [Log.Until])) (by simp [Log.Until])
  have haccounts := hstopped.accounts
  ⟨_, hstopped, (haccounts.1 200 (by simp [Log.Until])).1.trans (by decide),
    haccounts.2.2.2.trans (by decide)⟩

end NanoChrono.Clock
