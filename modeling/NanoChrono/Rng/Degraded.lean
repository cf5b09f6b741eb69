import NanoChrono.Rng.Credit
import NanoChrono.Rng.Nonces

/-! # Seeded without the jitter source

Where RDSEED and the embedder's bytes make up a seed, the pool starts and serves whatever the jitter
source reports. -/

namespace NanoChrono.Rng

variable {m : Machine} {d : Device} {s : Supply}

/-- The other sources make up a seed, and the configuration lets them. -/
def Supply.StandsIn (s : Supply) (c : Config) : Prop :=
  c.requireJitter = false ∧ c.seedBits ≤ s.fallback c.seedBits

/-- A device whose output stage serves a request. -/
structure Device.Serving (c : Config) (d : Device) : Prop where
  config : d.pool.config = c
  keyed : d.pool.stream.keyed = true
  nonces : d.pool.stream.nextNonce + 1 < 2 ^ 64
  quiet : d.pool.eventsPending < EVENT_FOLD

namespace Pool

theorem mixEvents_pending (p : Pool) (seed : Seed) : (p.mixEvents m seed).1.eventsPending = 0 := by
  rw [mixEvents]
  split
  · rfl
  · next h => exact Nat.eq_zero_of_not_pos h

@[simp] theorem keyStream_keyed (p : Pool) : (p.keyStream m).stream.keyed = true := by
  simp only [keyStream, Stream.rekey]

@[simp] theorem keyStream_pending (p : Pool) :
    (p.keyStream m).eventsPending = p.eventsPending := by
  simp only [keyStream]

end Pool

namespace Device

variable {c : Config}

/-- The other sources make up a seed even when the jitter source gives none. -/
theorem gather_granted (hconfig : d.pool.config = c) (h : s.StandsIn c) :
    ∃ p seed, d.pool.gather m (d.sources s) = (p, .ok seed) ∧ p.eventsPending = 0 := by
  subst hconfig
  obtain ⟨hrequire, hfull⟩ := h
  obtain ⟨blocks, hready, hok⟩ | hshort := d.pool.collectJitter_cases (d.sources s)
  · obtain ⟨bits, hp⟩ := Pool.collectJitter_ready hready hok
    simp only [Pool.gather, hp, Nat.lt_irrefl, and_false, if_false]
    rw [if_neg]
    · exact ⟨_, _, rfl, Pool.mixEvents_pending _ _⟩
    · rw [Pool.mixEvents_credited, Seed.full_credited (Nat.lt_irrefl _)]
      exact Nat.lt_irrefl _
  · obtain ⟨p', hp, hconfig, -⟩ := Pool.collectJitter_short hshort
    simp only [Pool.gather, hp, hconfig, hrequire, Bool.false_eq_true, false_and, if_false]
    rw [if_neg]
    · exact ⟨_, _, rfl, Pool.mixEvents_pending _ _⟩
    · have hcredited := Seed.empty_credited d.pool.config.seedBits_pos s
      rw [Pool.mixEvents_credited]
      exact hcredited ▸ Nat.not_lt.2 hfull

/-- Such a seed keys the output stage. -/
theorem reseed_granted (hconfig : d.pool.config = c) (h : s.StandsIn c)
    (hnonces : d.pool.stream.nextNonce + 1 < 2 ^ 64) :
    (d.reseed m s).result = .ok () ∧ Serving c (d.reseed m s).device := by
  obtain ⟨p, seed, hg, hpending⟩ := gather_granted (m := m) hconfig h
  have hnonce := d.pool.reseed_nextNonce m (d.sources s)
  have hframe := d.pool.gather_frame (m := m) (d.sources s)
  rw [hg] at hframe
  simp only [reseed, hg]
  refine ⟨trivial, ?_, ?_, ?_, ?_⟩
  · simp only [Pool.reseed, hg, Pool.keyStream_config]
    exact hframe.1.trans hconfig
  · simp only [Pool.reseed, hg, Pool.keyStream_keyed]
  · rw [hnonce]
    exact hnonces
  · simp only [Pool.reseed, hg, Pool.keyStream_pending, hpending]
    decide

/-- All known answers come out. -/
def Passes (t : Tests) : Prop := t.keccak = true ∧ t.xdrbg = true ∧ t.stream .chaCha20 = true

theorem selftest_passes (p : Pool) {t : Tests} (h : Passes t) :
    ∃ p', p.selftest m t = (p', .ok ()) ∧ p'.config = p.config ∧
      p'.stream.nextNonce = p.stream.nextNonce := by
  have hall : (t.keccak && t.xdrbg && t.stream .chaCha20) = true := by
    rw [h.1, h.2.1, h.2.2]
    rfl
  rw [Pool.selftest, if_neg (not_not_intro hall)]
  exact ⟨_, rfl, rfl, Stream.setEngine_nextNonce m _ _⟩

/-- A start from cold that the other sources can seed succeeds, whatever the timer's start-up says. -/
theorem start_granted {b : Start} (hcold : d.pool.state = .cold) (hconfig : d.pool.config = c)
    (htests : Passes b.tests) (h : b.supply.StandsIn c)
    (hnonces : d.pool.stream.nextNonce + 1 < 2 ^ 64) :
    (d.start m b).result = .ok () ∧ Serving c (d.start m b).device ∧
      (d.start m b).device.pool.state = .ready := by
  obtain ⟨p, hp, hpconfig, hpnonce⟩ := selftest_passes (m := m) d.pool htests
  have hstarted : (startJitter { d with pool := p } b.startup).pool.config = c ∧
      (startJitter { d with pool := p } b.startup).pool.stream.nextNonce + 1 < 2 ^ 64 := by
    rw [startJitter]
    cases b.startup <;> exact ⟨hpconfig.trans hconfig, by rw [← hpnonce] at hnonces; exact hnonces⟩
  obtain ⟨hok, hserving⟩ := reseed_granted (m := m) hstarted.1 h hstarted.2
  simp only [start, hcold, hp, hok]
  exact ⟨trivial, ⟨hserving.config, hserving.keyed, hserving.nonces, hserving.quiet⟩, trivial⟩

/-- A serving device draws a chunk. -/
theorem Serving.draw (h : Serving c d) {n : Nat} (hn : n ≤ CHUNK) :
    ∃ d' bytes, d.draw m .fast n = (d', .ok bytes) := by
  have hquiet : d.pool.foldIfPending m = d.pool := by
    rw [Pool.foldIfPending, if_neg (Nat.not_le.2 h.quiet)]
  have hserves : ¬ (¬ d.pool.stream.keyed = true ∨ n > CHUNK) := by
    rw [not_or]
    exact ⟨not_not_intro h.keyed, Nat.not_lt.2 hn⟩
  simp only [Device.draw, hquiet, Stream.generate, if_neg hserves, if_pos h.nonces]
  exact ⟨_, _, rfl⟩

theorem Serving.reseedIfDue (h : Serving c d) (hs : s.StandsIn c) (mode : Mode) :
    (d.reseedIfDue m mode s).result = .ok () ∧ Serving c (d.reseedIfDue m mode s).device := by
  rw [Device.reseedIfDue]
  split
  · exact reseed_granted h.config hs h.nonces
  · exact ⟨rfl, h⟩

/-- A read of a chunk at most, once the start has succeeded, is one draw. -/
theorem fill_chunk {b : Start} (env : Nat → Supply) {out : Bytes}
    (hstart : (d.start m b).result = .ok ()) (h : Serving c (d.start m b).device)
    (henv : (env 0).StandsIn c) (hne : out ≠ []) (hout : out.length ≤ CHUNK) :
    (d.fill m out .fast b env).result = .ok out.length ∧
      ∃ past bytes, (d.fill m out .fast b env).events = past ++ [.drew .fast bytes] ∧
        bytes.length = out.length := by
  obtain ⟨hseed, hserving⟩ := h.reseedIfDue (m := m) henv .fast
  have hmin : min (out.length - 0) (Mode.limit .fast) = out.length := by
    rw [Nat.sub_zero]
    exact Nat.min_eq_left hout
  obtain ⟨d', bytes, hdraw⟩ := hserving.draw (m := m) hout
  have hlen : bytes.length = out.length := length_draw (by rw [hdraw])
  have hpos : 0 < out.length := List.length_pos_iff.2 hne
  have hturn : fillFrom m .fast env (d.start m b).device out 0 out.length 0 = _ :=
    fillFrom_turn hpos hseed (by rw [hmin]; exact hdraw)
  dsimp only at hturn
  rw [hmin, Nat.zero_add out.length, fillFrom_end (Nat.lt_irrefl _)] at hturn
  simp only [fill, List.isEmpty_iff, hne, if_false, hstart, hturn]
  exact ⟨trivial, _, bytes, (List.append_assoc _ _ _).symm, hlen⟩

end Device

end NanoChrono.Rng

/-! ## Reads are whole, and seeded

`run_seeded` puts the two halves together: what a read leaves in the buffer, and what its bytes were
drawn from. The interval of zero is where its bound is a byte more than interval and chunk. -/

namespace NanoChrono.Rng

/-- Reads are whole or zeroed, for every pool state and whatever the sources deliver; and in every run
of a pool output is drawn only from a seed that follows the crediting rules, in `Mode.true` a block
from a seed of its own, and between two seeds fewer bytes than the interval and a chunk. -/
theorem run_seeded (m : Machine) (config : Config) (osr : Nat) (rs : List Call)
    (hinterval : config.reseedInterval ≤ 2 ^ 64 - CHUNK) :
    (∀ (d : Device) (out : Bytes) (mode : Mode) (b : Start) (env : Nat → Supply),
      (∃ e, (d.fill m out mode b env).result = .error e ∧
        (d.fill m out mode b env).buffer = List.replicate out.length 0) ∨
      ((d.fill m out mode b env).result = .ok out.length ∧
        (d.fill m out mode b env).buffer.length = out.length ∧
        (d.fill m out mode b env).buffer = drawn (d.fill m out mode b env).events)) ∧
    ∀ past e future, (Device.new config osr).trace m rs = past ++ e :: future →
      (ledger past).Allows config (max 1 config.reseedInterval + CHUNK) e := by
  refine ⟨fun d => d.fill_whole, fun past e future htrace => ?_⟩
  have hmax : max 1 config.reseedInterval + CHUNK ≤ 2 ^ 64 := by
    rw [CHUNK] at *
    omega
  have hlegal := (Device.trace_keeps (m := m) le_rfl hmax (Device.new_accounted config osr) rs).1
  rw [htrace] at hlegal
  exact hlegal.allows

/-- A machine whose every computation gives zeros. -/
def zeroMachine : Machine :=
  ⟨fun _ => false, fun _ _ _ _ _ => 0, fun _ n => .replicate n 0, fun _ => .replicate 32 0⟩

/-- A timer that cannot be used, and an embedder whose bytes carry full entropy. -/
def hosted : Supply :=
  ⟨fun _ => ⟨[], some .timer, .error .timer⟩, false, [], [], some (List.replicate 64 0, 8)⟩

/-- A start over the embedder's bytes, after the timer's start-up said `startup`. -/
def hostedStart (startup : Except RngError Unit) : Start := ⟨⟨true, true, fun _ => true⟩, startup, hosted⟩

/-- The manual's defaults, with the engine in software. -/
def defaults (interval : Nat) : Config := ⟨true, interval, false, .software⟩

theorem hosted_standsIn (interval : Nat) : hosted.StandsIn (defaults interval) :=
  ⟨rfl, show 321 ≤ hosted.fallback 321 by decide⟩

theorem run_seeded_default :
    (2 ^ 20 ≤ 2 ^ 64 - CHUNK) ∧ ∀ past e future,
      (Device.new (defaults (2 ^ 20)) 3).trace zeroMachine
        [.fill [1, 2, 3] .fast (hostedStart (.error .timer)) fun _ => hosted] = past ++ e :: future →
      (ledger past).Allows (defaults (2 ^ 20)) (2 ^ 20 + CHUNK) e :=
  ⟨by decide, (run_seeded zeroMachine (defaults (2 ^ 20)) 3 _ (by decide)).2⟩

/-- With an interval of zero a whole chunk is drawn from one seed. -/
theorem zero_interval_draws_chunk :
    ¬ ∀ past e future, (Device.new (defaults 0) 3).trace zeroMachine
        [.fill (List.replicate CHUNK 0) .fast (hostedStart (.error .timer)) fun _ => hosted] =
          past ++ e :: future →
      (ledger past).Allows (defaults 0) ((defaults 0).reseedInterval + CHUNK) e := by
  intro h
  have hstart := Device.start_granted (m := zeroMachine) (d := Device.new (defaults 0) 3)
    (b := hostedStart (.error .timer)) rfl rfl ⟨rfl, rfl, rfl⟩ (hosted_standsIn 0) (by decide)
  have hne : (List.replicate CHUNK 0 : Bytes) ≠ [] := by
    rw [CHUNK, List.replicate_succ]
    exact List.cons_ne_nil _ _
  have hlen : (List.replicate CHUNK 0 : Bytes).length = CHUNK := List.length_replicate
  obtain ⟨-, past, bytes, hevents, hbytes⟩ := Device.fill_chunk (fun _ => hosted) hstart.1 hstart.2.1
    (hosted_standsIn 0) hne (le_of_eq hlen)
  have hallowed := h past (.drew .fast bytes) [] (by
    rw [Device.trace, Device.trace, List.append_nil, Device.serve]
    exact hevents)
  have hlt : (ledger past).since + bytes.length < 0 + CHUNK := hallowed.1
  omega

end NanoChrono.Rng
