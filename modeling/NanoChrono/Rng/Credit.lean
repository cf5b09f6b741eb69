import NanoChrono.Rng.Served

/-! # Output is seeded

A ledger follows a trace: the last seed since construction or a wipe, and the bytes drawn since.
No byte is drawn without a seed that was credited in full, every block read in `Mode.true` has a seed
of its own, and the interval bounds what is drawn between two seeds: `trace_keeps`. -/

namespace NanoChrono.Rng

variable {m : Machine} {d d' : Device} {s : Supply} {mode : Mode}

/-! ## The ledger -/

/-- The crediting rules: a seed carries the configured bits, either from the jitter source, whose
blocks are then those of the attempt it kept, or, when the jitter source could not be asked or gave
none and is not required, from RDSEED at 32 bits a word and the embedder's bytes. -/
inductive Grant.Fair (config : Config) (g : Grant) : Prop where
  | jitter (n : Nat) (hready : g.jitter = .ready) (hkept : g.supply.Kept n)
      (hblocks : (g.supply.attempts n).absorbed <+: g.seed.blocks)
      (hcredited : g.seed.credited = config.seedBits)
  | fallback (hjitter : g.jitter = .ready → ∃ e, (collect g.supply.attempts g.osr 0).2 = .error e)
      (hrequire : config.requireJitter = false)
      (hcredited : g.seed.credited = g.supply.fallback config.seedBits)
      (hneed : config.seedBits ≤ g.seed.credited)

/-- The last seed since construction or a wipe, and the bytes drawn since a seed. -/
structure Ledger where
  seed : Option Grant
  since : Nat

namespace Ledger

def new : Ledger := ⟨none, 0⟩

/-- What an event adds. -/
def note (l : Ledger) : Event → Ledger
  | .reported _ _ => l
  | .seeded g => ⟨some g, 0⟩
  | .drew _ out => { l with since := l.since + out.length }
  | .wiped => { l with seed := none }

/-- What may be drawn when `l` is the ledger: only from a fair seed, at most `limit` bytes of one seed,
and in `Mode.true` a block only, the first bytes of its seed. -/
def Allows (config : Config) (limit : Nat) (l : Ledger) : Event → Prop
  | .drew mode out => l.since + out.length < limit ∧ (∃ g, l.seed = some g ∧ g.Fair config) ∧
      (mode = .true → out.length ≤ BLOCK_LEN ∧ l.since = 0)
  | _ => True

end Ledger

/-- The ledger after a trace. -/
def ledger (es : List Event) : Ledger := es.foldl Ledger.note .new

/-- Every event of a trace that starts at `l` is allowed. -/
def Legal (config : Config) (limit : Nat) (l : Ledger) : List Event → Prop
  | [] => True
  | e :: es => l.Allows config limit e ∧ Legal config limit (l.note e) es

theorem Legal.append {config : Config} {limit : Nat} {l : Ledger} {es fs : List Event}
    (h : Legal config limit l es) (h' : Legal config limit (es.foldl Ledger.note l) fs) :
    Legal config limit l (es ++ fs) := by
  induction es generalizing l with
  | nil => exact h'
  | cons e es ih => exact ⟨h.1, ih h.2 h'⟩

theorem Legal.allows {config : Config} {limit : Nat} {l : Ledger} {past future : List Event}
    {e : Event} (h : Legal config limit l (past ++ e :: future)) :
    (past.foldl Ledger.note l).Allows config limit e := by
  induction past generalizing l with
  | nil => exact h.1
  | cons p past ih => exact ih h.2

/-! ## Credit -/

namespace Pool

variable {p : Pool} {src : Sources}

theorem collectJitter_ready {blocks : List Bytes} (hready : p.jitterState = .ready)
    (h : src.jitter = .ok blocks) :
    ∃ n, p.collectJitter src = (p, ⟨blocks, p.config.seedBits, n⟩) :=
  ⟨_, by rw [collectJitter, if_pos hready, h]⟩

/-- A jitter source that gives no seed leaves nothing in it. -/
theorem collectJitter_short (h : p.jitterState = .ready → ∃ e, src.jitter = .error e) :
    ∃ p', p.collectJitter src = (p', ⟨[], 0, 0⟩) ∧ p'.config = p.config ∧ p'.drbg = p.drbg ∧
      p'.sinceReseed = p.sinceReseed := by
  rw [collectJitter]
  split
  · next hready =>
    obtain ⟨e, he⟩ := h hready
    rw [he]
    exact ⟨_, rfl, rfl, rfl, rfl⟩
  · exact ⟨_, rfl, rfl, rfl, rfl⟩

theorem collectJitter_cases (p : Pool) (src : Sources) :
    (∃ blocks, p.jitterState = .ready ∧ src.jitter = .ok blocks) ∨
      (p.jitterState = .ready → ∃ e, src.jitter = .error e) := by
  by_cases hready : p.jitterState = .ready
  · cases h : src.jitter with
    | ok blocks => exact .inl ⟨blocks, hready, rfl⟩
    | error e => exact .inr fun _ => ⟨e, rfl⟩
  · exact .inr fun h => absurd h hready

end Pool

theorem Config.seedBits_pos (c : Config) : 0 < c.seedBits := Nat.add_pos_left (by decide) _

namespace Seed

variable {seed : Seed} {need : Nat}

/-- A seed that has its bits is credited no more. -/
theorem full_credited (h : ¬ seed.credited < need) (words words' : List UInt64)
    (external : Option (Bytes × Nat)) :
    (((seed.rdseed need words).rdrand words').external need external).credited = seed.credited := by
  cases external <;> simp only [Seed.external, Seed.rdrand, Seed.rdseed, h, if_false]

/-- An empty seed is credited what the sources that stand in for the jitter source give. -/
theorem empty_credited (hneed : 0 < need) (s : Supply) :
    ((((⟨[], 0, 0⟩ : Seed).rdseed need s.rdseed).rdrand s.rdrand).external need s.external).credited =
      s.fallback need := by
  cases h : s.external with
  | none =>
    simp only [Seed.external, Seed.rdrand, Seed.rdseed, Supply.fallback, hneed, if_true, h,
      List.length_take, Nat.zero_add]
  | some e =>
    obtain ⟨bytes, eighths⟩ := e
    simp only [Seed.external, Seed.rdrand, Seed.rdseed, Supply.fallback, hneed, if_true, h,
      List.length_take, Nat.zero_add]

theorem blocks_prefix (seed : Seed) (need : Nat) (words words' : List UInt64)
    (external : Option (Bytes × Nat)) :
    seed.blocks <+: (((seed.rdseed need words).rdrand words').external need external).blocks := by
  cases external <;>
    simp only [Seed.external, Seed.rdrand, Seed.rdseed, List.append_assoc, List.prefix_append]

end Seed

namespace Pool

variable {p : Pool} {seed : Seed}

theorem mixEvents_credited (p : Pool) (seed : Seed) :
    (p.mixEvents m seed).2.credited = seed.credited := by
  rw [mixEvents]
  split <;> rfl

theorem mixEvents_blocks (p : Pool) (seed : Seed) :
    seed.blocks <+: (p.mixEvents m seed).2.blocks := by
  rw [mixEvents]
  split
  · exact List.prefix_append _ _
  · exact List.prefix_rfl

/-- The parts of a pool that gathering a seed leaves alone. -/
theorem gather_frame (p : Pool) (src : Sources) :
    (p.gather m src).1.config = p.config ∧ (p.gather m src).1.drbg = p.drbg ∧
      (p.gather m src).1.sinceReseed = p.sinceReseed := by
  have hcollect : ∃ p' seed, p.collectJitter src = (p', seed) ∧ p'.config = p.config ∧
      p'.drbg = p.drbg ∧ p'.sinceReseed = p.sinceReseed := by
    obtain ⟨blocks, hready, hok⟩ | hshort := p.collectJitter_cases src
    · obtain ⟨n, hp⟩ := collectJitter_ready hready hok
      exact ⟨_, _, hp, rfl, rfl, rfl⟩
    · obtain ⟨p', hp, h⟩ := collectJitter_short hshort
      exact ⟨p', _, hp, h⟩
  have hmix : ∀ (q : Pool) seed, (q.mixEvents m seed).1.config = q.config ∧
      (q.mixEvents m seed).1.drbg = q.drbg ∧ (q.mixEvents m seed).1.sinceReseed = q.sinceReseed := by
    intro q seed
    rw [mixEvents]
    split <;> exact ⟨rfl, rfl, rfl⟩
  obtain ⟨p', seed, hp, hconfig, hdrbg, hsince⟩ := hcollect
  simp only [gather, hp]
  split
  · exact ⟨hconfig, hdrbg, hsince⟩
  · obtain ⟨h₁, h₂, h₃⟩ := hmix p' (((seed.rdseed p.config.seedBits src.rdseed).rdrand
      src.rdrand).external p.config.seedBits src.external)
    split <;> exact ⟨h₁.trans hconfig, h₂.trans hdrbg, h₃.trans hsince⟩

end Pool

namespace Device

/-- What is gathered for a seed follows the crediting rules. -/
theorem gather_fair {seed : Seed} (h : (d.pool.gather m (d.sources s)).2 = .ok seed) :
    Grant.Fair d.pool.config ⟨d.pool.jitterState, d.osr, s, seed⟩ := by
  have hneed := d.pool.config.seedBits_pos
  obtain ⟨blocks, hready, hok⟩ | hshort := d.pool.collectJitter_cases (d.sources s)
  · -- The jitter source credits the seed, and nothing else adds to it.
    have hcollect : (collect s.attempts d.osr 0).2 = .ok blocks := by
      simpa only [sources, Supply.sources, hready, if_true] using hok
    obtain ⟨n, hkept, habsorbed⟩ := Supply.kept_of_collect hcollect
    obtain ⟨bits, hp⟩ := Pool.collectJitter_ready hready hok
    simp only [Pool.gather, hp, Nat.lt_irrefl, and_false, if_false] at h
    split at h
    · cases h
    · obtain rfl := Except.ok.inj h
      refine .jitter n hready hkept ?_ ?_
      · rw [habsorbed]
        exact (Seed.blocks_prefix ⟨blocks, _, bits⟩ _ _ _ _).trans (Pool.mixEvents_blocks _ _)
      · rw [Pool.mixEvents_credited, Seed.full_credited (Nat.lt_irrefl _)]
  · obtain ⟨p', hp, hconfig, -⟩ := Pool.collectJitter_short hshort
    simp only [Pool.gather, hp, hneed, and_true, hconfig] at h
    split at h
    · cases h
    next hrequire =>
    split at h
    · cases h
    next hfull =>
    obtain rfl := Except.ok.inj h
    have hcredited := (p'.mixEvents_credited (m := m) _).trans (Seed.empty_credited hneed s)
    refine .fallback (fun hready => ?_) (by simpa using hrequire) hcredited (Nat.le_of_not_lt hfull)
    simpa only [sources, Supply.sources, show d.pool.jitterState = .ready from hready, if_true]
      using hshort hready

end Device

/-! ## The generator's flag -/

namespace Xdrbg

@[simp] theorem instantiate_seeded (d : Xdrbg) (seed alpha : Bytes) :
    (d.instantiate m seed alpha).seeded = true := rfl

@[simp] theorem reseed_seeded (d : Xdrbg) (seed alpha : Bytes) :
    (d.reseed m seed alpha).seeded = true := rfl

@[simp] theorem generate_seeded (d : Xdrbg) (n : Nat) (alpha : Bytes) :
    (d.generate m n alpha).1.seeded = d.seeded := by
  simp only [Xdrbg.generate]

end Xdrbg

namespace Pool

variable (p : Pool)

@[simp] theorem keyStream_config : (p.keyStream m).config = p.config := by
  simp only [keyStream]

@[simp] theorem keyStream_sinceReseed : (p.keyStream m).sinceReseed = p.sinceReseed := by
  simp only [keyStream]

@[simp] theorem keyStream_seeded : (p.keyStream m).drbg.seeded = p.drbg.seeded := by
  simp only [keyStream, Xdrbg.generate_seeded]

@[simp] theorem foldEvents_config : (p.foldEvents m).config = p.config := by
  rw [foldEvents, keyStream_config]

@[simp] theorem foldEvents_sinceReseed : (p.foldEvents m).sinceReseed = p.sinceReseed := by
  rw [foldEvents, keyStream_sinceReseed]

@[simp] theorem foldEvents_seeded : (p.foldEvents m).drbg.seeded = true := by
  rw [foldEvents, keyStream_seeded, Xdrbg.reseed_seeded]

end Pool

/-! ## The invariant -/

/-- A pool that is no further seeded than it was. -/
structure Pool.Steady (p p' : Pool) : Prop where
  config : p'.config = p.config
  seeded : p'.drbg.seeded = true → p.drbg.seeded = true
  since : p'.drbg.seeded = true → p'.sinceReseed = p.sinceReseed

namespace Pool.Steady

variable {p q r : Pool}

theorem refl (p : Pool) : Steady p p := ⟨rfl, id, fun _ => rfl⟩

theorem trans (h : Steady p q) (h' : Steady q r) : Steady p r where
  config := h'.config.trans h.config
  seeded hr := h.seeded (h'.seeded hr)
  since hr := (h'.since hr).trans (h.since (h'.seeded hr))

theorem of_eq (hconfig : q.config = p.config) (hdrbg : q.drbg = p.drbg)
    (hsince : q.sinceReseed = p.sinceReseed) : Steady p q :=
  ⟨hconfig, fun h => hdrbg ▸ h, fun _ => hsince⟩

theorem record (p : Pool) (e : RngError) : Steady p (p.record e) := by
  rw [Pool.record]
  split
  · exact ⟨rfl, fun h => (by cases h), fun h => (by cases h)⟩
  · exact refl p

theorem selftest (p : Pool) (t : Tests) : Steady p (p.selftest m t).1 := by
  rw [Pool.selftest]
  split
  · have h : Steady p { p with selftestPassed := false } := of_eq rfl rfl rfl
    exact h.trans (record _ .selfTest)
  · exact of_eq rfl rfl rfl

theorem startJitter (p : Pool) (startup : Except RngError Unit) :
    Steady p (p.startJitter startup) := by
  cases startup <;> exact of_eq rfl rfl rfl

end Pool.Steady

/-- The ledger agrees with the pool: a seeded generator has a fair seed, and counts what was drawn
since. -/
structure Accounted (c : Config) (d : Device) (l : Ledger) : Prop where
  config : d.pool.config = c
  seeded : d.pool.drbg.seeded = true →
    (∃ g, l.seed = some g ∧ g.Fair c) ∧ d.pool.sinceReseed = l.since

namespace Accounted

variable {c : Config} {l : Ledger} {limit : Nat}

theorem steady (h : Accounted c d l) (hp : d.pool.Steady d'.pool) : Accounted c d' l where
  config := hp.config.trans h.config
  seeded hs := ⟨(h.seeded (hp.seeded hs)).1, (hp.since hs).trans (h.seeded (hp.seeded hs)).2⟩

/-- A wipe leaves nothing to account for. -/
theorem wipe (h : Accounted c d l) :
    Accounted c { d with pool := d.pool.wipe } (l.note .wiped) where
  config := h.config
  seeded hs := by cases hs

end Accounted

/-- What a step keeps: a legal trace, and the account. -/
def Keeps (c : Config) (limit : Nat) (l : Ledger) (es : List Event) (d : Device) : Prop :=
  Legal c limit l es ∧ Accounted c d (es.foldl Ledger.note l)

namespace Keeps

variable {c : Config} {limit : Nat} {l : Ledger} {es fs : List Event}

theorem nil (h : Accounted c d l) : Keeps c limit l [] d := ⟨trivial, h⟩

theorem append (h : Legal c limit l es)
    (h' : Keeps c limit (es.foldl Ledger.note l) fs d) : Keeps c limit l (es ++ fs) d := by
  refine ⟨h.append h'.1, ?_⟩
  rw [List.foldl_append]
  exact h'.2

theorem steady (h : Keeps c limit l es d) (hp : d.pool.Steady d'.pool) :
    Keeps c limit l es d' := ⟨h.1, h.2.steady hp⟩

end Keeps

namespace Device

variable {c : Config} {l : Ledger} {limit : Nat}

/-- What a seed does: it is refused and the generator is left alone, or the generator is seeded from
what was gathered. -/
theorem reseed_cases (d : Device) (s : Supply) :
    (∃ e d', d.reseed m s = ⟨d', .error e, d.report s⟩ ∧ d.pool.Steady d'.pool) ∨
    ∃ seed d', d.reseed m s =
        ⟨d', .ok (), d.report s ++ [.seeded ⟨d.pool.jitterState, d.osr, s, seed⟩]⟩ ∧
      Grant.Fair d.pool.config ⟨d.pool.jitterState, d.osr, s, seed⟩ ∧
      d'.pool.config = d.pool.config ∧ d'.pool.drbg.seeded = true ∧ d'.pool.sinceReseed = 0 := by
  have hframe := d.pool.gather_frame (m := m) (d.sources s)
  cases hg : d.pool.gather m (d.sources s) with
  | mk p r =>
  rw [hg] at hframe
  obtain ⟨hconfig, hdrbg, hsince⟩ := hframe
  cases r with
  | error e =>
    refine .inl ⟨e, ⟨p, (d.sources s).osr⟩, ?_, .of_eq hconfig hdrbg hsince⟩
    simp only [reseed, Pool.reseed, hg]
  | ok seed =>
    refine .inr ⟨seed, ⟨(d.pool.reseed m (d.sources s)).1, (d.sources s).osr⟩, ?_,
      gather_fair (by rw [hg]), ?_⟩
    · simp only [reseed, hg]
    · simp only [Pool.reseed, hg]
      refine ⟨by rw [Pool.keyStream_config, hconfig], ?_, trivial⟩
      rw [Pool.keyStream_seeded]
      split
      · rw [Xdrbg.reseed_seeded]
      · rw [Xdrbg.instantiate_seeded]

theorem report_legal (d : Device) (s : Supply) : Legal c limit l (d.report s) := by
  rw [report]
  split
  · exact ⟨trivial, trivial⟩
  · trivial

@[simp] theorem note_report (d : Device) (s : Supply) : (d.report s).foldl Ledger.note l = l := by
  rw [report]
  split <;> rfl

/-- A seed keeps the account, and opens a new one. -/
theorem reseed_keeps (limit : Nat) (h : Accounted c d l) (s : Supply) :
    Keeps c limit l (d.reseed m s).events (d.reseed m s).device ∧
      ((d.reseed m s).result = .ok () → (d.reseed m s).device.pool.drbg.seeded = true ∧
        (d.reseed m s).device.pool.sinceReseed = 0) := by
  obtain ⟨e, d', hr, hsteady⟩ | ⟨seed, d', hr, hfair, hconfig, hseeded, hsince⟩ :=
    reseed_cases (m := m) d s
  · rw [hr]
    refine ⟨⟨report_legal d s, ?_⟩, fun h => by cases h⟩
    rw [note_report]
    exact h.steady hsteady
  · rw [hr]
    refine ⟨.append (report_legal d s) ⟨⟨trivial, trivial⟩, ?_⟩, fun _ => ⟨hseeded, hsince⟩⟩
    exact ⟨hconfig.trans h.config, fun _ => ⟨⟨_, rfl, h.config ▸ hfair⟩, hsince⟩⟩

/-- Before output the generator is seeded, by a seed of its own in `Mode.true`, and the interval has
not passed. -/
theorem reseedIfDue_keeps (limit : Nat) (h : Accounted c d l) (mode : Mode) (s : Supply) :
    Keeps c limit l (d.reseedIfDue m mode s).events (d.reseedIfDue m mode s).device ∧
      ((d.reseedIfDue m mode s).result = .ok () →
        (d.reseedIfDue m mode s).device.pool.drbg.seeded = true ∧
        (d.reseedIfDue m mode s).device.pool.sinceReseed < max 1 c.reseedInterval ∧
        (mode = .true → (d.reseedIfDue m mode s).device.pool.sinceReseed = 0)) := by
  rw [reseedIfDue]
  split
  · obtain ⟨hkeeps, hok⟩ := reseed_keeps (m := m) limit h s
    refine ⟨hkeeps, fun hr => ?_⟩
    obtain ⟨hseeded, hsince⟩ := hok hr
    exact ⟨hseeded, by omega, fun _ => hsince⟩
  · next hdue =>
    rw [not_or, not_or, h.config] at hdue
    exact ⟨.nil h, fun _ => ⟨by simpa using hdue.2.1,
      lt_of_lt_of_le (Nat.lt_of_not_le hdue.2.2) (le_max_right _ _), fun ht => absurd ht hdue.1⟩⟩

theorem foldIfPending_steady (p : Pool) : p.drbg.seeded = true →
    (p.foldIfPending m).config = p.config ∧ (p.foldIfPending m).drbg.seeded = true ∧
      (p.foldIfPending m).sinceReseed = p.sinceReseed := by
  intro hseeded
  rw [Pool.foldIfPending]
  split
  · exact ⟨p.foldEvents_config, p.foldEvents_seeded, p.foldEvents_sinceReseed⟩
  · exact ⟨rfl, hseeded, rfl⟩

/-- Output leaves the account as it is, but for the bytes drawn. -/
theorem draw_steady (d : Device) (mode : Mode) (n : Nat) (hseeded : d.pool.drbg.seeded = true) :
    d.pool.Steady (d.draw m mode n).1.pool ∧
      (∀ bytes, (d.draw m mode n).2 = .ok bytes →
        (d.draw m mode n).1.pool.drbg.seeded = true) := by
  cases mode with
  | true =>
    simp only [draw]
    refine ⟨⟨rfl, fun _ => hseeded, fun _ => rfl⟩, fun _ _ => ?_⟩
    rw [Xdrbg.generate_seeded, hseeded]
  | fast =>
    obtain ⟨hconfig, hs, hsince⟩ := foldIfPending_steady (m := m) d.pool hseeded
    have hfold : d.pool.Steady (d.pool.foldIfPending m) := ⟨hconfig, fun _ => hseeded, fun _ => hsince⟩
    obtain hg | ⟨r, hg, -⟩ := Stream.generate_cases m (d.pool.foldIfPending m).stream n
    · simp only [draw, hg]
      exact ⟨hfold.trans (.record _ _), fun bytes h => by cases h⟩
    · simp only [draw, hg]
      exact ⟨hfold.trans (.of_eq rfl rfl rfl), fun _ _ => hs⟩

theorem startReport_legal (b : Start) : Legal c limit l (startReport b) := by
  rw [startReport]
  split
  · exact ⟨trivial, trivial⟩
  · trivial

@[simp] theorem note_startReport (b : Start) : (startReport b).foldl Ledger.note l = l := by
  rw [startReport]
  split <;> rfl

theorem start_keeps (limit : Nat) (h : Accounted c d l) (b : Start) :
    Keeps c limit l (d.start m b).events (d.start m b).device := by
  rw [start]
  split
  · exact .nil h
  · exact .nil h
  · have htests := Pool.Steady.selftest (m := m) d.pool b.tests
    split
    · next heq =>
      rw [heq] at htests
      exact (Keeps.nil h).steady htests
    · next p heq =>
      rw [heq] at htests
      have hjitter : d.pool.Steady (p.startJitter b.startup) := htests.trans (.startJitter p b.startup)
      have hstarted : Accounted c (startJitter { d with pool := p } b.startup) l := h.steady hjitter
      obtain ⟨hkeeps, -⟩ := reseed_keeps (m := m) limit hstarted b.supply
      have hall : Keeps c limit l (startReport b ++ _) _ :=
        .append (startReport_legal b) (by rw [note_startReport]; exact hkeeps)
      dsimp only
      split
      · exact hall.steady (.record _ _)
      · exact hall.steady (.of_eq rfl rfl rfl)

theorem limit_le_chunk (mode : Mode) : mode.limit ≤ CHUNK := by cases mode <;> decide

/-- Output that follows its seed is allowed, and counted. -/
theorem draw_keeps {n : Nat} {bytes : Bytes} {e : Device} (hlimit : max 1 c.reseedInterval + CHUNK ≤ limit)
    (hmax : limit ≤ 2 ^ 64) (h : Accounted c d l) (hseeded : d.pool.drbg.seeded = true)
    (hsince : d.pool.sinceReseed < max 1 c.reseedInterval)
    (htrue : mode = .true → d.pool.sinceReseed = 0) (hn : n ≤ mode.limit)
    (hdraw : d.draw m mode n = (e, .ok bytes)) : Keeps c limit l [.drew mode bytes] (e.count n) := by
  have hlen : bytes.length = n := length_draw (by rw [hdraw])
  obtain ⟨hsteady, hkept⟩ := draw_steady (m := m) d mode n hseeded
  rw [hdraw] at hsteady hkept
  obtain ⟨hfair, heq⟩ := h.seeded hseeded
  have hchunk := limit_le_chunk mode
  refine ⟨⟨⟨by omega, hfair, fun ht => ?_⟩, trivial⟩, hsteady.config.trans h.config, fun _ => ⟨hfair, ?_⟩⟩
  · subst ht
    exact ⟨by rw [hlen]; exact hn, by rw [← heq]; exact htrue rfl⟩
  · have hkeep : e.pool.sinceReseed = d.pool.sinceReseed := hsteady.since (hkept bytes rfl)
    show (e.pool.sinceReseed + n) % 2 ^ 64 = l.since + bytes.length
    rw [hkeep, heq, hlen, Nat.mod_eq_of_lt (by omega)]

theorem fillFrom_keeps (hlimit : max 1 c.reseedInterval + CHUNK ≤ limit) (hmax : limit ≤ 2 ^ 64)
    (env : Nat → Supply) (out : Bytes) (k len done : Nat) (h : Accounted c d l) :
    Keeps c limit l (fillFrom m mode env d out k len done).events
      (fillFrom m mode env d out k len done).device := by
  induction hleft : len - done using Nat.strong_induction_on generalizing d l out k done with
  | h left ih =>
  by_cases hlt : done < len
  · obtain ⟨hkeeps, hok⟩ := reseedIfDue_keeps (m := m) limit h mode (env k)
    have hpos : 0 < mode.limit := by cases mode <;> decide
    cases hres : (d.reseedIfDue m mode (env k)).result with
    | error e =>
      rw [fillFrom_unseeded hlt hres]
      exact hkeeps.steady (.record _ _)
    | ok u =>
      obtain ⟨hseeded, hsince, htrue⟩ := hok hres
      cases hdraw : (d.reseedIfDue m mode (env k)).device.draw m mode
          (min (len - done) mode.limit) with
      | mk d' r =>
      cases r with
      | error e =>
        rw [fillFrom_refused hlt hres hdraw]
        have hsteady := (draw_steady (m := m) _ mode (min (len - done) mode.limit) hseeded).1
        rw [hdraw] at hsteady
        exact hkeeps.steady hsteady
      | ok bytes =>
        have hdrew := draw_keeps (m := m) hlimit hmax hkeeps.2 hseeded hsince htrue
          (Nat.min_le_right _ _) hdraw
        rw [fillFrom_turn hlt hres hdraw]
        have hrest := ih (len - (done + min (len - done) mode.limit)) (by omega)
          (Rng.write out done bytes) (k + 1) (done + min (len - done) mode.limit) hdrew.2 rfl
        exact .append hkeeps.1 (.append hdrew.1 hrest)
  · rw [fillFrom_end hlt]
    exact .nil h

theorem fill_keeps (hlimit : max 1 c.reseedInterval + CHUNK ≤ limit) (hmax : limit ≤ 2 ^ 64)
    (h : Accounted c d l) (out : Bytes) (mode : Mode) (b : Start) (env : Nat → Supply) :
    Keeps c limit l (d.fill m out mode b env).events (d.fill m out mode b env).device := by
  rw [fill]
  split
  · exact .nil h
  · have hstart := start_keeps (m := m) limit h b
    dsimp only
    split
    · exact hstart
    · exact .append hstart.1 (fillFrom_keeps hlimit hmax env out 0 out.length 0 hstart.2)

theorem serve_keeps (hlimit : max 1 c.reseedInterval + CHUNK ≤ limit) (hmax : limit ≤ 2 ^ 64)
    (h : Accounted c d l) (r : Call) : Keeps c limit l (d.serve m r).2 (d.serve m r).1 := by
  cases r with
  | start b => exact start_keeps limit h b
  | selftest t => exact .nil (h.steady (.selftest d.pool t))
  | fill out mode b env => exact fill_keeps hlimit hmax h out mode b env
  | stir tag value now => exact .nil (h.steady (.of_eq rfl rfl rfl))
  | wipe => exact ⟨⟨trivial, trivial⟩, h.wipe⟩

/-- The trace of a run is legal, and the account of it agrees with the pool. -/
theorem trace_keeps (hlimit : max 1 c.reseedInterval + CHUNK ≤ limit) (hmax : limit ≤ 2 ^ 64)
    (h : Accounted c d l) (rs : List Call) : Keeps c limit l (d.trace m rs) (d.after m rs) := by
  induction rs generalizing d l with
  | nil => exact .nil h
  | cons r rs ih =>
    have hstep := serve_keeps (m := m) hlimit hmax h r
    exact .append hstep.1 (ih hstep.2)

theorem new_accounted (config : Config) (osr : Nat) : Accounted config (new config osr) .new :=
  ⟨rfl, fun h => (by cases h)⟩

end Device

end NanoChrono.Rng
