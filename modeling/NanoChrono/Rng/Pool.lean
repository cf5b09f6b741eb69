import NanoChrono.Rng.Stream

/-! # The entropy pool

The pool seeds XDRBG-256 from its sources and keys the output stage from it. Its keys change in four
places: at a seed, at an event fold, with every request of the output stage, and when it is wiped.

What the sources deliver, whether a known-answer test passes and whether the timer starts up are
inputs of each operation, `Tests`, `Boot` and `Sources`; the pool's own bookkeeping for the status
call is left out. -/

namespace NanoChrono.Rng

/-! ## XDRBG-256 -/

def STATE_LEN : Nat := 64

/-- Output per generate call. -/
def BLOCK_LEN : Nat := 32

def MAX_ALPHA : Nat := 84

/-- The byte that keeps the XOF inputs of instantiate, reseed and generate (0, 1, 2) apart. -/
def encoding (op : Nat) (alpha : Bytes) : UInt8 := .ofNat (op * 85 + min alpha.length MAX_ALPHA)

/-- An XDRBG-256 instance. -/
structure Xdrbg where
  v : Vector UInt8 64
  seeded : Bool
deriving DecidableEq, Repr

namespace Xdrbg

def new : Xdrbg := ⟨.replicate 64 0, false⟩

/-- First seeding. -/
def instantiate (m : Machine) (_ : Xdrbg) (seed alpha : Bytes) : Xdrbg :=
  let alpha := alpha.take MAX_ALPHA
  ⟨m.shake256 (seed ++ alpha ++ [encoding 0 alpha]) 64, true⟩

/-- Folds fresh seed material into the state. -/
def reseed (m : Machine) (d : Xdrbg) (seed alpha : Bytes) : Xdrbg :=
  let alpha := alpha.take MAX_ALPHA
  ⟨m.shake256 (d.v.toList ++ seed ++ alpha ++ [encoding 1 alpha]) 64, true⟩

/-- `n` bytes of output, at most a block of a seeded generator's, and the stepped state. -/
def generate (m : Machine) (d : Xdrbg) (n : Nat) (alpha : Bytes) : Xdrbg × Vector UInt8 n :=
  let alpha := alpha.take MAX_ALPHA
  let t := m.shake256 (d.v.toList ++ alpha ++ [encoding 2 alpha]) (64 + n)
  ({ d with v := .ofFn fun i : Fin 64 => t[i] }, .ofFn fun i : Fin n => t[64 + i.val])

def wipe (_ : Xdrbg) : Xdrbg := new

end Xdrbg

/-! ## The pool -/

def SEED_BITS : Nat := 256
def COMPLIANCE_MARGIN : Nat := 65
def HW_EXTRA_WORDS : Nat := 4
def EXTERNAL_BYTES : Nat := 64
def EVENT_FOLD : Nat := 64
def RATE : Nat := 136

/-- The text's bytes. -/
def label (s : String) : Bytes := s.toUTF8.toList

def STREAM_KEY_LABEL : Bytes := label "NC_RNG output stage key"

def EVENTS_LABEL : Bytes := label "NC_RNG events"

/-- How the pool is set up. -/
structure Config where
  compliance : Bool
  reseedInterval : Nat
  requireJitter : Bool
  engine : EngineChoice
deriving DecidableEq, Repr

/-- Credited bits per seed. -/
def Config.seedBits (c : Config) : Nat := SEED_BITS + if c.compliance then COMPLIANCE_MARGIN else 0

inductive PoolState where
  | cold
  | ready
  | failed (e : RngError)
deriving DecidableEq, Repr

inductive JitterState where
  | untested
  | ready
  | failed (e : RngError)
deriving DecidableEq, Repr

/-- How a read is served. -/
inductive Mode where
  | fast
  | true
deriving DecidableEq, Repr

/-- The most a read draws at once. -/
def Mode.limit : Mode → Nat
  | .fast => CHUNK
  | .true => BLOCK_LEN

/-- The known-answer tests' results. -/
structure Tests where
  keccak : Bool
  xdrbg : Bool
  stream : Engine → Bool

/-- What the sources deliver to one seed: the blocks the jitter source collects, at the oversampling
rate it ends up with, or its failure; the words the two instructions return until they return none;
and the embedder's bytes with the eighths of a bit it vouches for. -/
structure Sources where
  jitter : Except RngError (List Bytes)
  sampler : Bool
  osr : Nat
  rdseed : List UInt64
  rdrand : List UInt64
  external : Option (Bytes × Nat)

/-- What a start meets: the tests, the timer's start-up, and the first seed's sources. -/
structure Boot where
  tests : Tests
  startup : Except RngError Unit
  sources : Sources

/-- The pool. -/
structure Pool where
  config : Config
  jitterState : JitterState
  drbg : Xdrbg
  stream : Stream
  /-- What has been stirred in since the last seed or fold. -/
  events : Bytes
  eventsPending : Nat
  state : PoolState
  selftestPassed : Bool
  reseeds : Nat
  sinceReseed : Nat
deriving DecidableEq, Repr

/-- A number's bytes, little-endian. -/
def leBytes (width n : Nat) : Bytes := (List.range width).map fun i => .ofNat (n / 256 ^ i)

/-- A block of the sponge's rate. -/
def block (b : Bytes) : Bytes := b ++ List.replicate (RATE - b.length) 0

/-- One hardware word as its own block. -/
def wordBlock (domain : UInt8) (word : UInt64) : Bytes := block (leBytes 8 word.toNat ++ [domain])

/-- The blocks absorbed for a seed, the bits credited to it, and the sources that took part. -/
structure Seed where
  blocks : List Bytes
  credited : Nat
  sources : Nat

namespace Seed

/-- RDSEED, credited at half its width only if the seed is short; otherwise a few words ride along. -/
def rdseed (seed : Seed) (need : Nat) (words : List UInt64) : Seed :=
  let short := seed.credited < need
  let words := words.take (if short then (2 * need + 63) / 64 else HW_EXTRA_WORDS)
  { blocks := seed.blocks ++ words.map (wordBlock 0x02)
    credited := if short then seed.credited + 32 * words.length else seed.credited
    sources := if words = [] then seed.sources else seed.sources + 2 }

/-- RDRAND: mixed, never credited. -/
def rdrand (seed : Seed) (words : List UInt64) : Seed :=
  let words := words.take HW_EXTRA_WORDS
  { seed with
    blocks := seed.blocks ++ words.map (wordBlock 0x03)
    sources := if words = [] then seed.sources else seed.sources + 4 }

/-- The embedder's source, credited only if still short. -/
def external (seed : Seed) (need : Nat) : Option (Bytes × Nat) → Seed
  | none => seed
  | some (bytes, eighths) =>
    { blocks := seed.blocks ++ [block (bytes ++ [0x04])]
      credited := if seed.credited < need then seed.credited + EXTERNAL_BYTES * min eighths 8
        else seed.credited
      sources := seed.sources + 32 }

end Seed

namespace Pool

variable (m : Machine)

def new (config : Config) : Pool :=
  ⟨config, .untested, .new, .new, [], 0, .cold, false, 0, 0⟩

/-- An error that takes the pool out of service. -/
def permanent (p : Pool) (e : RngError) : Bool :=
  [.selfTest, .rctPermanent, .aptPermanent, .lagPermanent, .memoryPermanent].contains e ||
    (p.config.requireJitter && e == .timer)

/-- Notes an error, and takes the pool out of service if it is a permanent one. -/
def record (p : Pool) (e : RngError) : Pool :=
  if p.permanent e then
    { p with drbg := p.drbg.wipe, stream := p.stream.wipe, state := .failed e }
  else p

/-- The jitter source's own failure if it has one. -/
def jitterError (p : Pool) : RngError :=
  match p.jitterState with
  | .failed e => e
  | _ => .noSource

/-- A new key for the output stage, from the generator. The nonce counter is not touched. -/
def keyStream (p : Pool) : Pool :=
  let step := p.drbg.generate m 32 STREAM_KEY_LABEL
  { p with drbg := step.1, stream := p.stream.rekey step.2 }

/-- Re-runs the known-answer tests and settles the output stage's engine: a hardware path that fails
is replaced by ChaCha20. -/
def selftest (p : Pool) (t : Tests) : Pool × Except RngError Unit :=
  if ¬ (t.keccak && t.xdrbg && t.stream .chaCha20) then
    ({ p with selftestPassed := false }.record .selfTest, .error .selfTest)
  else
    let wanted := match p.config.engine with
      | .auto => Engine.detect m
      | .software => .chaCha20
    let engine := if wanted = .chaCha20 ∨ t.stream wanted then wanted else .chaCha20
    ({ p with stream := p.stream.setEngine m engine, selftestPassed := true }, .ok ())

/-- Timing jitter: the credited, health-tested primary. -/
def collectJitter (p : Pool) (s : Sources) : Pool × Seed :=
  if p.jitterState = .ready then
    match s.jitter with
    | .ok blocks => (p, ⟨blocks, p.config.seedBits, if s.sampler then 1 + 8 else 1⟩)
    | .error e => ({ p with jitterState := .failed e }, ⟨[], 0, 0⟩)
  else (p, ⟨[], 0, 0⟩)

/-- The events stirred in since the last seed, as one digest. -/
def mixEvents (p : Pool) (seed : Seed) : Pool × Seed :=
  if p.eventsPending > 0 then
    ({ p with events := [], eventsPending := 0 },
      { seed with
        blocks := seed.blocks ++
          [block ((m.sha3_256 p.events).toList ++ [0x05] ++ leBytes 8 p.eventsPending)]
        sources := seed.sources + 16 })
  else (p, seed)

/-- Gathers every source, or fails if fewer than the configured bits could be credited. -/
def gather (p : Pool) (s : Sources) : Pool × Except RngError Seed :=
  let need := p.config.seedBits
  let (p, seed) := p.collectJitter s
  if p.config.requireJitter ∧ seed.credited < need then (p, .error p.jitterError)
  else
    let seed := ((seed.rdseed need s.rdseed).rdrand s.rdrand).external need s.external
    let (p, seed) := p.mixEvents m seed
    if seed.credited < need then (p, .error p.jitterError) else (p, .ok seed)

/-- (Re)seeds the generator from what is gathered, and the output stage from the generator. -/
@[grind =] def reseed (p : Pool) (s : Sources) : Pool × Except RngError Unit :=
  match p.gather m s with
  | (p, .error e) => (p, .error e)
  | (p, .ok seed) =>
    let material := (m.shake256 seed.blocks.flatten STATE_LEN).toList
    let alpha := leBytes 8 p.reseeds ++ leBytes 4 seed.sources ++ leBytes 4 s.osr
    let drbg := if p.drbg.seeded then p.drbg.reseed m material alpha
      else p.drbg.instantiate m material alpha
    ({ { p with drbg := drbg }.keyStream m with
      reseeds := (p.reseeds + 1) % 2 ^ 64, sinceReseed := 0 }, .ok ())

/-- What the timer's start-up leaves the jitter source in. -/
def startJitter (p : Pool) : Except RngError Unit → Pool
  | .ok () => { p with jitterState := .ready }
  | .error e => { p with jitterState := .failed e }

/-- Known-answer tests, jitter start-up and the first seed. -/
@[grind =] def start (p : Pool) (b : Boot) : Pool × Except RngError Unit :=
  match p.state with
  | .failed e => (p, .error e)
  | .ready => (p, .ok ())
  | .cold =>
    match p.selftest m b.tests with
    | (p, .error e) => (p, .error e)
    | (p, .ok ()) =>
      -- A timer that fails start-up is not fatal: the seed may come from another source.
      match (p.startJitter b.startup).reseed m b.sources with
      | (p, .error e) => (p.record e, .error e)
      | (p, .ok ()) => ({ p with state := .ready }, .ok ())

/-- Folds the stirred events into the generator as additional input and rekeys the output stage. -/
def foldEvents (p : Pool) : Pool :=
  let digest := (m.sha3_256 p.events).toList
  { p with
    events := []
    eventsPending := 0
    drbg := p.drbg.reseed m digest EVENTS_LABEL }.keyStream m

/-- What a part of a read does: the pool after it, the bytes read, and the requests it made of the
output stage. -/
structure Read where
  pool : Pool
  result : Except RngError Bytes
  requests : List Request

/-- A seed, if one is due before the next output. -/
def reseedIfDue (p : Pool) (mode : Mode) (s : Sources) : Pool × Except RngError Unit :=
  if mode = .true ∨ ¬ p.drbg.seeded ∨ p.sinceReseed ≥ p.config.reseedInterval then p.reseed m s
  else (p, .ok ())

/-- An event fold, once enough events are pending. -/
def foldIfPending (p : Pool) : Pool := if p.eventsPending ≥ EVENT_FOLD then p.foldEvents m else p

/-- One turn of a read: a seed if one is due, then `n` bytes of output. -/
def fillChunk (p : Pool) (mode : Mode) (s : Sources) (n : Nat) : Read :=
  match p.reseedIfDue m mode s with
  | (p, .error e) => ⟨p.record e, .error e, []⟩
  | (p, .ok ()) =>
    match mode with
    | .true =>
      let step := p.drbg.generate m n []
      ⟨{ p with drbg := step.1 }, .ok step.2.toList, []⟩
    | .fast =>
      let p := p.foldIfPending m
      match p.stream.generate m n with
      | (stream, .error e) => ⟨{ p with stream := stream }.record e, .error e, []⟩
      | (stream, .ok r) => ⟨{ p with stream := stream }, .ok (r.output m).toList, [r]⟩

/-- Counts output against the reseed interval. -/
def count (p : Pool) (n : Nat) : Pool := { p with sinceReseed := (p.sinceReseed + n) % 2 ^ 64 }

/-- The turns of a read, `left` bytes to go. Turn `k` finds the sources `env k`. -/
def fillFrom (mode : Mode) (env : Nat → Sources) (p : Pool) (k left : Nat) : Read :=
  if _h : left = 0 then ⟨p, .ok [], []⟩
  else
    let n := min left mode.limit
    let turn := p.fillChunk m mode (env k) n
    match turn.result with
    | .error _ => turn
    | .ok out =>
      let rest := fillFrom mode env (turn.pool.count n) (k + 1) (left - n)
      ⟨rest.pool, rest.result.map (out ++ ·), turn.requests ++ rest.requests⟩
termination_by left
decreasing_by
  have : 0 < mode.limit := by cases mode <;> decide
  omega

/-- Reads `len` bytes, or returns an error: never a part of them. -/
def fill (p : Pool) (len : Nat) (mode : Mode) (b : Boot) (env : Nat → Sources) : Read :=
  if len = 0 then ⟨p, .ok [], []⟩
  else
    match p.start m b with
    | (p, .error e) => ⟨p, .error e, []⟩
    | (p, .ok ()) => fillFrom m mode env p 0 len

/-- Mixes in an event: a tag, a value and the counter at the moment of the call. -/
def stir (p : Pool) (tag value now : UInt64) : Pool :=
  { p with
    events := p.events ++ leBytes 8 tag.toNat ++ leBytes 8 value.toNat ++ leBytes 8 now.toNat
    eventsPending := (p.eventsPending + 1) % 2 ^ 64 }

/-- Erases the generator and the pending events; the next read starts over from the self-tests. -/
def wipe (p : Pool) : Pool :=
  { p with
    drbg := p.drbg.wipe
    stream := p.stream.wipe
    events := []
    eventsPending := 0
    state := if p.state = .ready then .cold else p.state }

end Pool

/-- An operation on the pool, with what it meets. -/
inductive Op where
  | start (b : Boot)
  | selftest (t : Tests)
  | fill (len : Nat) (mode : Mode) (b : Boot) (env : Nat → Sources)
  | stir (tag value now : UInt64)
  | wipe

namespace Pool

/-- One operation: the pool after it, and the requests it made of the output stage. -/
def step (m : Machine) (p : Pool) : Op → Pool × List Request
  | .start b => ((p.start m b).1, [])
  | .selftest t => ((p.selftest m t).1, [])
  | .fill len mode b env => ((p.fill m len mode b env).pool, (p.fill m len mode b env).requests)
  | .stir tag value now => (p.stir tag value now, [])
  | .wipe => (p.wipe, [])

/-- The requests of a run of operations. -/
def requests (m : Machine) (p : Pool) : List Op → List Request
  | [] => []
  | o :: os => (p.step m o).2 ++ requests m (p.step m o).1 os

end Pool

end NanoChrono.Rng
