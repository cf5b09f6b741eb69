import NanoChrono.Rng.Pool

/-! # The pool with its jitter source

`Device` is the pool together with the oversampling rate its jitter source runs at, which only ever
rises. Its reads go into the caller's buffer, and every operation notes what happened in a trace of
events: the failures the jitter source ended in, the seeds, and the bytes drawn. -/

/-! ## The jitter source

The pool collects a jitter seed by the resilient rule: an intermittent failure discards the block,
raises the oversampling rate and re-validates the timer, and past `OSR_MAX` the failure is permanent.
What the health tests say of each attempt is an input, `Attempt`; the loop over the attempts, and what
it makes of the other sources when it fails, is the pool's. -/

namespace NanoChrono.Rng

def OSR_MAX : Nat := 20

namespace RngError

/-- An intermittent failure: retried at a higher oversampling rate, not fatal. -/
def isIntermittent : RngError → Bool
  | rct | apt | lag | memory => true
  | _ => false

/-- The permanent counterpart of an intermittent failure. -/
def escalate : RngError → RngError
  | rct => rctPermanent
  | apt => aptPermanent
  | lag => lagPermanent
  | memory => memoryPermanent
  | other => other

/-- A failure of the jitter source's health tests that is not retried. -/
def isPermanent : RngError → Bool
  | rctPermanent | aptPermanent | lagPermanent | memoryPermanent => true
  | _ => false

end RngError

/-- One attempt at a jitter seed: the blocks absorbed, the failure that cut it short, and what the
re-validation after a discarded block says. -/
structure Attempt where
  absorbed : List Bytes
  failure : Option RngError
  restart : Except RngError Unit

/-- Collects a credited jitter seed: the oversampling rate it ends at, and the blocks kept or the
failure. Attempt `k` runs at rate `osr`. -/
def collect (attempts : Nat → Attempt) (osr k : Nat) : Nat × Except RngError (List Bytes) :=
  match (attempts k).failure with
  | none => (osr, .ok (attempts k).absorbed)
  | some e =>
    if ¬ e.isIntermittent then (osr, .error e)
    else if _h : osr + 1 > OSR_MAX then (osr, .error e.escalate)
    else
      -- The block is discarded, and the timer must pass start-up again at the new rate.
      match (attempts k).restart with
      | .error e => (osr + 1, .error e)
      | .ok () => collect attempts (osr + 1) (k + 1)
termination_by OSR_MAX - osr

/-- What the sources deliver to one seed: the jitter source's attempts, whether a side counter is read
along, the words of the two instructions until they return none, and the embedder's bytes with the
eighths of a bit it vouches for. -/
structure Supply where
  attempts : Nat → Attempt
  sampler : Bool
  rdseed : List UInt64
  rdrand : List UInt64
  external : Option (Bytes × Nat)

namespace Supply

variable (s : Supply)

/-- The sources as a seed sees them: the jitter source collects only when it is ready. -/
def sources (state : JitterState) (osr : Nat) : Sources :=
  let run := if state = .ready then collect s.attempts osr 0 else (osr, .ok [])
  { jitter := run.2
    sampler := s.sampler
    osr := run.1
    rdseed := s.rdseed
    rdrand := s.rdrand
    external := s.external }

/-- Attempt `n` is the one kept: it did not fail, and every earlier one was discarded and followed by
a re-validation that passed. -/
def Kept (n : Nat) : Prop :=
  (s.attempts n).failure = none ∧
    ∀ i < n, (∃ e, (s.attempts i).failure = some e ∧ e.isIntermittent = true) ∧
      (s.attempts i).restart = .ok ()

/-- Bits credited without the jitter source: RDSEED at half its width, then the embedder's bytes if
they are still needed. -/
def fallback (need : Nat) : Nat :=
  let words := 32 * min ((2 * need + 63) / 64) s.rdseed.length
  match s.external with
  | some (_, eighths) => if words < need then words + EXTERNAL_BYTES * min eighths 8 else words
  | none => words

end Supply

/-- A collection that succeeds keeps the blocks of one attempt, the last. -/
theorem collect_ok {attempts : Nat → Attempt} {osr k : Nat} {blocks : List Bytes}
    (h : (collect attempts osr k).2 = .ok blocks) :
    ∃ n, k ≤ n ∧ (attempts n).failure = none ∧ (attempts n).absorbed = blocks ∧
      ∀ i, k ≤ i → i < n → (∃ e, (attempts i).failure = some e ∧ e.isIntermittent = true) ∧
        (attempts i).restart = .ok () := by
  induction osr, k using collect.induct attempts with
  | case1 osr k hfail =>
    rw [collect, hfail] at h
    exact ⟨k, le_rfl, hfail, Except.ok.inj h, fun i hk hi => absurd hi (Nat.not_lt.2 hk)⟩
  | case2 osr k e hfail hi =>
    rw [collect, hfail] at h
    simp only [hi] at h
    cases h
  | case3 osr k e hfail hi hosr =>
    rw [collect, hfail] at h
    simp only [hi, hosr, if_false, dif_pos] at h
    cases h
  | case4 osr k e hfail hi hosr e' hrestart =>
    rw [collect, hfail] at h
    simp only [hi, hosr, hrestart, if_false, dif_neg, not_false_eq_true] at h
    cases h
  | case5 osr k e hfail hi hosr hrestart ih =>
    rw [collect, hfail] at h
    simp only [hi, hosr, hrestart, if_false, dif_neg, not_false_eq_true] at h
    obtain ⟨n, hn, hnone, hblocks, hbefore⟩ := ih h
    refine ⟨n, by omega, hnone, hblocks, fun i hk hlt => ?_⟩
    by_cases hik : i = k
    · subst hik
      exact ⟨⟨e, hfail, by simpa using hi⟩, hrestart⟩
    · exact hbefore i (by omega) hlt

/-- The blocks of a jitter seed are those of the attempt that was kept. -/
theorem Supply.kept_of_collect {s : Supply} {osr : Nat} {blocks : List Bytes}
    (h : (collect s.attempts osr 0).2 = .ok blocks) :
    ∃ n, s.Kept n ∧ (s.attempts n).absorbed = blocks := by
  obtain ⟨n, -, hnone, hblocks, hbefore⟩ := collect_ok h
  exact ⟨n, ⟨hnone, fun i hi => hbefore i (Nat.zero_le i) hi⟩, hblocks⟩

/-- What a seed was made from. -/
structure Grant where
  /-- Whether the jitter source was ready, and the rate it ran at. -/
  jitter : JitterState
  osr : Nat
  supply : Supply
  seed : Seed

/-- What happens to the pool. -/
inductive Event where
  /-- The jitter source ended in a failure, when these sources stood by. -/
  | reported (e : RngError) (s : Supply)
  /-- A seed. -/
  | seeded (g : Grant)
  /-- A block or chunk of output. -/
  | drew (mode : Mode) (out : Bytes)
  /-- The generator was erased on request. -/
  | wiped

/-- The pool, and its jitter source's oversampling rate. -/
structure Device where
  pool : Pool
  osr : Nat

/-- What an operation returns, and what happened on the way. -/
structure Outcome (α : Type) where
  device : Device
  result : Except RngError α
  events : List Event

/-- What a start meets: the known-answer tests, the timer's start-up, and the first seed's sources. -/
structure Start where
  tests : Tests
  startup : Except RngError Unit
  supply : Supply

/-- Erases a buffer. -/
def wipeBytes (out : Bytes) : Bytes := List.replicate out.length 0

/-- Overwrites `out` from `done` on. -/
def write (out : Bytes) (done : Nat) (bytes : Bytes) : Bytes :=
  out.take done ++ bytes ++ out.drop (done + bytes.length)

/-- What a read leaves: the pool, the caller's buffer, the length read or the error, and the events. -/
structure Filled where
  device : Device
  buffer : Bytes
  result : Except RngError Nat
  events : List Event

namespace Device

variable (m : Machine) (d : Device)

/-- A pool as it is constructed, at a rate from 1 to `OSR_MAX`. -/
def new (config : Config) (osr : Nat) : Device := ⟨.new config, osr⟩

/-- The sources as the pool's next seed sees them. -/
def sources (s : Supply) : Sources := s.sources d.pool.jitterState d.osr

/-- The failure the jitter source ends in, if it is asked for a seed and cannot give one. -/
def report (s : Supply) : List Event :=
  match (d.sources s).jitter with
  | .error e => [.reported e s]
  | .ok _ => []

/-- (Re)seeds the pool from `s`. -/
@[grind =] def reseed (s : Supply) : Outcome Unit :=
  let after : Device := ⟨(d.pool.reseed m (d.sources s)).1, (d.sources s).osr⟩
  match (d.pool.gather m (d.sources s)).2 with
  | .error e => ⟨after, .error e, d.report s⟩
  | .ok seed => ⟨after, .ok (), d.report s ++ [.seeded ⟨d.pool.jitterState, d.osr, s, seed⟩]⟩

/-- Notes an error, and takes the pool out of service if it is a permanent one. -/
def record (e : RngError) : Device := { d with pool := d.pool.record e }

/-- The timer's start-up. -/
def startJitter (startup : Except RngError Unit) : Device :=
  { d with pool := d.pool.startJitter startup }

/-- The failure a start-up ends in. -/
def startReport (b : Start) : List Event :=
  match b.startup with
  | .error e => [.reported e b.supply]
  | .ok () => []

/-- Known-answer tests, jitter start-up and the first seed. -/
def start (b : Start) : Outcome Unit :=
  match d.pool.state with
  | .failed e => ⟨d, .error e, []⟩
  | .ready => ⟨d, .ok (), []⟩
  | .cold =>
    match d.pool.selftest m b.tests with
    | (p, .error e) => ⟨{ d with pool := p }, .error e, []⟩
    | (p, .ok ()) =>
      let o := ({ d with pool := p }.startJitter b.startup).reseed m b.supply
      match o.result with
      | .error e => ⟨o.device.record e, .error e, startReport b ++ o.events⟩
      | .ok () =>
        ⟨{ o.device with pool := { o.device.pool with state := .ready } }, .ok (),
          startReport b ++ o.events⟩

/-- A seed, if one is due before the next output. -/
def reseedIfDue (mode : Mode) (s : Supply) : Outcome Unit :=
  if mode = .true ∨ ¬ d.pool.drbg.seeded ∨ d.pool.sinceReseed ≥ d.pool.config.reseedInterval then
    d.reseed m s
  else ⟨d, .ok (), []⟩

/-- `n` bytes of output, from the generator or the output stage. -/
def draw (mode : Mode) (n : Nat) : Device × Except RngError Bytes :=
  match mode with
  | .true =>
    let step := d.pool.drbg.generate m n []
    ({ d with pool := { d.pool with drbg := step.1 } }, .ok step.2.toList)
  | .fast =>
    let p := d.pool.foldIfPending m
    match p.stream.generate m n with
    | (stream, .error e) => ({ d with pool := { p with stream := stream }.record e }, .error e)
    | (stream, .ok r) => ({ d with pool := { p with stream := stream } }, .ok (r.output m).toList)

/-- Counts output against the reseed interval. -/
def count (n : Nat) : Device := { d with pool := d.pool.count n }

/-- The turns of a read into `out`, `done` of its `len` bytes written. Turn `k` finds the sources
`env k`. -/
def fillFrom (mode : Mode) (env : Nat → Supply) (d : Device) (out : Bytes) (k len done : Nat) :
    Filled :=
  if _h : done < len then
    let o := d.reseedIfDue m mode (env k)
    match o.result with
    | .error e => ⟨o.device.record e, wipeBytes out, .error e, o.events⟩
    | .ok () =>
      let n := min (len - done) mode.limit
      match o.device.draw m mode n with
      | (d, .error e) => ⟨d, wipeBytes out, .error e, o.events⟩
      | (d, .ok bytes) =>
        let rest := fillFrom mode env (d.count n) (write out done bytes) (k + 1) len (done + n)
        ⟨rest.device, rest.buffer, rest.result, o.events ++ .drew mode bytes :: rest.events⟩
  else ⟨d, out, .ok done, []⟩
termination_by len - done
decreasing_by
  have : 0 < mode.limit := by cases mode <;> decide
  omega

/-- Fills `out`, or returns an error and leaves `out` zeroed. -/
def fill (out : Bytes) (mode : Mode) (b : Start) (env : Nat → Supply) : Filled :=
  if out.isEmpty then ⟨d, out, .ok 0, []⟩
  else
    let o := d.start m b
    match o.result with
    | .error e => ⟨o.device, wipeBytes out, .error e, o.events⟩
    | .ok () =>
      let rest := fillFrom m mode env o.device out 0 out.length 0
      ⟨rest.device, rest.buffer, rest.result, o.events ++ rest.events⟩

end Device

/-- A request to the pool, with what it meets. -/
inductive Call where
  | start (b : Start)
  | selftest (t : Tests)
  | fill (out : Bytes) (mode : Mode) (b : Start) (env : Nat → Supply)
  | stir (tag value now : UInt64)
  | wipe

namespace Device

/-- One request: the device after it, and what happened. -/
def serve (m : Machine) (d : Device) : Call → Device × List Event
  | .start b => ((d.start m b).device, (d.start m b).events)
  | .selftest t => ({ d with pool := (d.pool.selftest m t).1 }, [])
  | .fill out mode b env => ((d.fill m out mode b env).device, (d.fill m out mode b env).events)
  | .stir tag value now => ({ d with pool := d.pool.stir tag value now }, [])
  | .wipe => ({ d with pool := d.pool.wipe }, [.wiped])

/-- The device after a run of requests. -/
@[grind =] def after (m : Machine) (d : Device) : List Call → Device
  | [] => d
  | r :: rs => after m (d.serve m r).1 rs

/-- What happened in a run of requests. -/
@[grind =] def trace (m : Machine) (d : Device) : List Call → List Event
  | [] => []
  | r :: rs => (d.serve m r).2 ++ trace m (d.serve m r).1 rs

end Device

end NanoChrono.Rng
