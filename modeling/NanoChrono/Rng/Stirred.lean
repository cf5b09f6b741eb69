import NanoChrono.Rng.Degraded

/-! # Stirred events

Events wait in a sponge of their own until a seed or a fold takes them into the generator. What happens to them is
followed through a trace: which were stirred, which seeds were tried from which pool, and what each seed and each fold
that succeeded was made of. A seed drains the sponge before it is known whether it can be credited. -/

namespace NanoChrono.Rng

/-- What happens to the waiting events. -/
inductive Feed where
  | stirred (record : Bytes)
  /-- A seed is tried, by this pool from these sources. -/
  | tried (p : Pool) (s : Sources)
  /-- A seed succeeded. -/
  | seeded (seed : Seed)
  /-- A fold of the waiting events, as this digest. -/
  | folded (digest : Vector UInt8 32)

/-- A step of the pool: an operation but erasure, or one of the two that reads make on their way. -/
inductive Step where
  | start (b : Boot)
  | selftest (t : Tests)
  | fill (len : Nat) (mode : Mode) (b : Boot) (env : Nat → Sources)
  | stir (tag value now : UInt64)
  | reseed (s : Sources)
  | fold

namespace Pool

section Feeds

variable (m : Machine)

/-- A seed, tried and perhaps made. -/
def reseedFeeds (p : Pool) (s : Sources) : List Feed :=
  .tried p s :: match (p.gather m s).2 with
    | .ok seed => [.seeded seed]
    | .error _ => []

def startFeeds (p : Pool) (b : Boot) : List Feed :=
  match p.state with
  | .cold =>
    match p.selftest m b.tests with
    | (_, .error _) => []
    | (p, .ok ()) => (p.startJitter b.startup).reseedFeeds m b.sources
  | _ => []

def dueFeeds (p : Pool) (mode : Mode) (s : Sources) : List Feed :=
  if mode = .true ∨ ¬ p.drbg.seeded ∨ p.sinceReseed ≥ p.config.reseedInterval then p.reseedFeeds m s else []

def foldFeeds (p : Pool) : List Feed := [.folded (m.sha3_256 p.events)]

def pendingFeeds (p : Pool) : List Feed := if p.eventsPending ≥ EVENT_FOLD then p.foldFeeds m else []

def chunkFeeds (p : Pool) (mode : Mode) (s : Sources) : List Feed :=
  p.dueFeeds m mode s ++
    match p.reseedIfDue m mode s with
    | (_, .error _) => []
    | (p, .ok ()) =>
      match mode with
      | .true => []
      | .fast => p.pendingFeeds m

/-- What the turns of a read do, `left` bytes to go. -/
def fillFromFeeds (mode : Mode) (env : Nat → Sources) (p : Pool) (k left : Nat) : List Feed :=
  if _h : left = 0 then []
  else
    let n := min left mode.limit
    let turn := p.fillChunk m mode (env k) n
    p.chunkFeeds m mode (env k) ++
      match turn.result with
      | .error _ => []
      | .ok _ => fillFromFeeds mode env (turn.pool.count n) (k + 1) (left - n)
termination_by left
decreasing_by
  have : 0 < mode.limit := by cases mode <;> decide
  omega

def fillFeeds (p : Pool) (len : Nat) (mode : Mode) (b : Boot) (env : Nat → Sources) : List Feed :=
  if len = 0 then []
  else
    p.startFeeds m b ++
      match p.start m b with
      | (_, .error _) => []
      | (p, .ok ()) => p.fillFromFeeds m mode env 0 len

/-- The pool after a step. -/
def take (p : Pool) : Step → Pool
  | .start b => (p.start m b).1
  | .selftest t => (p.selftest m t).1
  | .fill len mode b env => (p.fill m len mode b env).pool
  | .stir tag value now => p.stir tag value now
  | .reseed s => (p.reseed m s).1
  | .fold => p.foldEvents m

end Feeds

/-! ## When a seed takes the events -/

/-- The seed before the events are mixed in. -/
def seedOf (p : Pool) (s : Sources) : Seed :=
  (((p.collectJitter s).2.rdseed p.config.seedBits s.rdseed).rdrand s.rdrand).external p.config.seedBits s.external

/-- A seed gets as far as the events: it is not given up for want of the jitter source. -/
def Reaches (p : Pool) (s : Sources) : Prop :=
  ¬(p.config.requireJitter = true ∧ (p.collectJitter s).2.credited < p.config.seedBits)

/-- A seed is credited in full. -/
def Credits (p : Pool) (s : Sources) : Prop := p.config.seedBits ≤ (p.seedOf s).credited

/-- A seed leaves no event behind: it is credited if it drains any, and it drains them if it is credited. -/
structure Spares (p : Pool) (s : Sources) : Prop where
  credited : p.Reaches s → p.eventsPending ≠ 0 → p.Credits s
  drained : p.Reaches s → p.Credits s → p.events ≠ [] → p.eventsPending ≠ 0

instance (p : Pool) (s : Sources) : Decidable (p.Reaches s) := inferInstanceAs (Decidable (¬(_ ∧ _)))

instance (p : Pool) (s : Sources) : Decidable (p.Credits s) := inferInstanceAs (Decidable (_ ≤ _))

end Pool

/-! ## The events that wait -/

/-- The events that wait after something happened. -/
def wait (waiting : List Bytes) : Feed → List Bytes
  | .stirred record => waiting ++ [record]
  | .tried _ _ => waiting
  | .seeded _ | .folded _ => []

/-- The events stirred since the last seed or fold of a trace. -/
def waiting (es : List Feed) : List Bytes := es.foldl wait []

/-- A seed or a fold takes in all of the events that wait: a seed a block with their digest and their number, and a
fold their digest. -/
def Absorbs (m : Machine) (records : List Bytes) : Feed → Prop
  | .seeded seed => records = [] ∨
      block ((m.sha3_256 records.flatten).toList ++ [0x05] ++ leBytes 8 records.length) ∈ seed.blocks
  | .folded digest => digest = m.sha3_256 records.flatten
  | _ => True

/-- Every seed and fold of a trace takes in the events that wait for it. -/
def AllAbsorbed (m : Machine) (records : List Bytes) : List Feed → Prop
  | [] => True
  | e :: es => Absorbs m records e ∧ AllAbsorbed m (wait records e) es

namespace AllAbsorbed

variable {m : Machine} {records : List Bytes}

theorem append {es fs : List Feed} (h : AllAbsorbed m records es) (h' : AllAbsorbed m (es.foldl wait records) fs) :
    AllAbsorbed m records (es ++ fs) := by
  induction es generalizing records with
  | nil => exact h'
  | cons e es ih => exact ⟨h.1, ih h.2 h'⟩

end AllAbsorbed

/-! ## One step -/

/-- The bytes of a number are those of what is left of it in their width. -/
theorem leBytes_mod (width n : Nat) : leBytes width n = leBytes width (n % 256 ^ width) := by
  refine List.map_congr_left fun i hi => ?_
  have hpow : 256 ^ width = 256 ^ i * (256 * 256 ^ (width - i - 1)) := by
    rw [← Nat.pow_succ', ← Nat.pow_add]
    congr 1
    have := List.mem_range.1 hi
    omega
  rw [hpow, Nat.mod_mul_right_div_self]
  refine UInt8.toNat_inj.1 ?_
  rw [UInt8.toNat_ofNat', UInt8.toNat_ofNat']
  exact (Nat.mod_mul_right_mod _ _ _).symm

namespace Pool

variable {m : Machine} {p : Pool} {s : Sources}

/-- The pool's sponge holds the events that wait, and its counter their number as far as 64 bits go. -/
structure Tracks (p : Pool) (records : List Bytes) : Prop where
  events : p.events = records.flatten
  pending : p.eventsPending = records.length % 2 ^ 64
  filled : ∀ record ∈ records, record ≠ []

/-- Two pools whose waiting events are the same. -/
def SameEvents (p q : Pool) : Prop := q.events = p.events ∧ q.eventsPending = p.eventsPending

theorem Tracks.same {q : Pool} {records : List Bytes} (h : p.Tracks records) (hsame : p.SameEvents q) : q.Tracks records :=
  ⟨hsame.1.trans h.events, hsame.2.trans h.pending, h.filled⟩

theorem tracks_empty (hevents : p.events = []) (hpending : p.eventsPending = 0) : p.Tracks [] :=
  ⟨hevents, hpending, fun _ hmem => absurd hmem List.not_mem_nil⟩

theorem Tracks.eq_nil {records : List Bytes} (h : p.Tracks records) (hevents : p.events = []) : records = [] := by
  cases records with
  | nil => rfl
  | cons record records =>
    have hflat := h.events.symm.trans hevents
    exact absurd (List.append_eq_nil_iff.1 hflat).1 (h.filled record List.mem_cons_self)

theorem record_same (p : Pool) (e : RngError) : p.SameEvents (p.record e) := by
  unfold record
  split <;> exact ⟨rfl, rfl⟩

theorem selftest_same (p : Pool) (t : Tests) : p.SameEvents (p.selftest m t).1 := by
  unfold selftest
  split
  · exact record_same _ _
  · exact ⟨rfl, rfl⟩

theorem startJitter_same (p : Pool) (startup : Except RngError Unit) : p.SameEvents (p.startJitter startup) := by
  cases startup <;> exact ⟨rfl, rfl⟩

theorem collectJitter_same (p : Pool) (s : Sources) :
    p.SameEvents (p.collectJitter s).1 ∧ (p.collectJitter s).1.config = p.config := by
  unfold collectJitter
  split
  · split <;> exact ⟨⟨rfl, rfl⟩, rfl⟩
  · exact ⟨⟨rfl, rfl⟩, rfl⟩

/-- The events, if any, are drained, and add a block to the seed; its credit stays what it was. -/
theorem mixEvents_spec (p : Pool) (seed : Seed) :
    (p.mixEvents m seed).2.credited = seed.credited ∧
      if p.eventsPending ≠ 0 then
        (p.mixEvents m seed).1.events = [] ∧ (p.mixEvents m seed).1.eventsPending = 0 ∧
          block ((m.sha3_256 p.events).toList ++ [0x05] ++ leBytes 8 p.eventsPending) ∈ (p.mixEvents m seed).2.blocks
      else p.SameEvents (p.mixEvents m seed).1 := by
  unfold mixEvents
  by_cases hsome : p.eventsPending ≠ 0
  · rw [if_pos (Nat.pos_of_ne_zero hsome), if_pos hsome]
    exact ⟨rfl, rfl, rfl, List.mem_append_right _ List.mem_cons_self⟩
  · rw [if_neg (by omega), if_neg hsome]
    exact ⟨rfl, rfl, rfl⟩

/-- What a seed is gathered from, and where it is given up. -/
theorem gather_eq (p : Pool) (s : Sources) :
    p.gather m s =
      if p.Reaches s then
        (((p.collectJitter s).1.mixEvents m (p.seedOf s)).1,
          if p.Credits s then .ok ((p.collectJitter s).1.mixEvents m (p.seedOf s)).2
          else .error ((p.collectJitter s).1.mixEvents m (p.seedOf s)).1.jitterError)
      else ((p.collectJitter s).1, .error (p.collectJitter s).1.jitterError) := by
  have hconfig := (p.collectJitter_same s).2
  have hcredited := ((p.collectJitter s).1.mixEvents_spec (m := m) (p.seedOf s)).1
  rw [gather]
  simp only
  rw [hconfig]
  by_cases hearly : p.config.requireJitter = true ∧ (p.collectJitter s).2.credited < p.config.seedBits
  · have hgiven : ¬p.Reaches s := not_not.2 hearly
    rw [if_pos hearly, if_neg hgiven]
  · have hreaches : p.Reaches s := hearly
    rw [if_neg hearly, if_pos hreaches]
    change (if ((p.collectJitter s).1.mixEvents m (p.seedOf s)).2.credited < p.config.seedBits then _ else _) = _
    rw [hcredited]
    by_cases hshort : (p.seedOf s).credited < p.config.seedBits
    · have hcredits : ¬p.Credits s := Nat.not_le.2 hshort
      rw [if_pos hshort, if_neg hcredits]
      rfl
    · have hcredits : p.Credits s := Nat.not_lt.1 hshort
      rw [if_neg hshort, if_pos hcredits]
      rfl

/-- A seed that is made takes in the events that wait; one that is not made loses none that its condition spares. -/
theorem Tracks.gather {records : List Bytes} (h : p.Tracks records) (hspares : p.Spares s) :
    (∀ seed, (p.gather m s).2 = .ok seed → Absorbs m records (.seeded seed) ∧ (p.gather m s).1.Tracks []) ∧
      ∀ e, (p.gather m s).2 = .error e → (p.gather m s).1.Tracks records := by
  obtain ⟨hsame, -⟩ := p.collectJitter_same s
  obtain ⟨-, hmixed⟩ := (p.collectJitter s).1.mixEvents_spec (m := m) (p.seedOf s)
  rw [hsame.1, hsame.2] at hmixed
  rw [gather_eq]
  by_cases hreaches : p.Reaches s
  · rw [if_pos hreaches]
    by_cases hcredits : p.Credits s
    · rw [if_pos hcredits]
      refine ⟨fun seed hseed => ?_, fun e he => by cases he⟩
      cases hseed
      by_cases hsome : p.eventsPending ≠ 0
      · rw [if_pos hsome] at hmixed
        obtain ⟨hevents, hpending, hblock⟩ := hmixed
        refine ⟨.inr ?_, tracks_empty hevents hpending⟩
        rw [h.events, h.pending] at hblock
        rw [leBytes_mod]
        exact hblock
      · rw [if_neg hsome] at hmixed
        have hempty : p.events = [] := by
          by_contra hevents
          exact hsome (hspares.drained hreaches hcredits hevents)
        have hnone := h.eq_nil hempty
        subst hnone
        exact ⟨.inl rfl, h.same ⟨hmixed.1.trans hsame.1, hmixed.2.trans hsame.2⟩⟩
    · rw [if_neg hcredits]
      refine ⟨fun seed hseed => (by cases hseed), fun e he => ?_⟩
      have hnone : ¬p.eventsPending ≠ 0 := fun hsome => hcredits (hspares.credited hreaches hsome)
      rw [if_neg hnone] at hmixed
      exact h.same ⟨hmixed.1.trans hsame.1, hmixed.2.trans hsame.2⟩
  · rw [if_neg hreaches]
    refine ⟨fun seed hseed => ?_, fun e _ => h.same hsame⟩
    cases hseed

/-- What a part of a run does, for the events that wait before it: every seed and fold takes them in, and the pool after
it holds those that wait then. -/
structure Keeps (m : Machine) (records : List Bytes) (es : List Feed) (p' : Pool) : Prop where
  absorbed : AllAbsorbed m records es
  tracks : p'.Tracks (es.foldl wait records)

/-- Every seed that a part of a run tries spares the events. -/
def AllSpared (es : List Feed) : Prop := ∀ p s, Feed.tried p s ∈ es → p.Spares s

theorem AllSpared.left {es fs : List Feed} (h : AllSpared (es ++ fs)) : AllSpared es :=
  fun p s hmem => h p s (List.mem_append_left _ hmem)

theorem AllSpared.right {es fs : List Feed} (h : AllSpared (es ++ fs)) : AllSpared fs :=
  fun p s hmem => h p s (List.mem_append_right _ hmem)

namespace Keeps

variable {records : List Bytes} {es fs : List Feed} {q r : Pool}

theorem nothing (h : p.Tracks records) : Keeps m records [] p := ⟨trivial, h⟩

theorem append (h : Keeps m records es q) (h' : Keeps m (es.foldl wait records) fs r) : Keeps m records (es ++ fs) r :=
  ⟨h.absorbed.append h'.absorbed, by
    rw [List.foldl_append]
    exact h'.tracks⟩

theorem same (h : Keeps m records es q) (hsame : q.SameEvents r) : Keeps m records es r :=
  ⟨h.absorbed, h.tracks.same hsame⟩

end Keeps

variable {records : List Bytes}

@[simp]
theorem keyStream_events (p : Pool) : (p.keyStream m).events = p.events := by
  simp only [keyStream]

@[simp]
theorem keyStream_eventsPending (p : Pool) : (p.keyStream m).eventsPending = p.eventsPending := by
  simp only [keyStream]

/-- What the generator makes of the gathered seed does not touch the events. -/
theorem reseed_same (p : Pool) (s : Sources) : (p.gather m s).1.SameEvents (p.reseed m s).1 := by
  unfold reseed
  split
  case h_1 hgather => rw [hgather]; exact ⟨rfl, rfl⟩
  case h_2 p' seed hgather =>
    rw [hgather]
    simp only [SameEvents, keyStream_events, keyStream_eventsPending, and_self]

theorem reseedFeeds_ok {seed : Seed} (h : (p.gather m s).2 = .ok seed) :
    p.reseedFeeds m s = [.tried p s, .seeded seed] := by
  rw [reseedFeeds, h]

theorem reseedFeeds_error {e : RngError} (h : (p.gather m s).2 = .error e) : p.reseedFeeds m s = [.tried p s] := by
  rw [reseedFeeds, h]

theorem reseed_keeps (h : p.Tracks records) (s : Sources) (hspared : AllSpared (p.reseedFeeds m s)) :
    Keeps m records (p.reseedFeeds m s) (p.reseed m s).1 := by
  have hsame := @reseed_same m p s
  obtain ⟨hseeded, hfailed⟩ := h.gather (m := m) (hspared p s List.mem_cons_self)
  cases hgather : (p.gather m s).2 with
  | error e =>
    rw [reseedFeeds_error hgather]
    exact ⟨⟨trivial, trivial⟩, (hfailed e hgather).same hsame⟩
  | ok seed =>
    obtain ⟨habsorbed, htracks⟩ := hseeded seed hgather
    rw [reseedFeeds_ok hgather]
    exact ⟨⟨trivial, habsorbed, trivial⟩, htracks.same hsame⟩

theorem foldEvents_events (p : Pool) : (p.foldEvents m).events = [] ∧ (p.foldEvents m).eventsPending = 0 := by
  simp only [foldEvents, keyStream_events, keyStream_eventsPending, and_self]

/-- A fold takes in all that waits. -/
theorem foldEvents_keeps (h : p.Tracks records) : Keeps m records (p.foldFeeds m) (p.foldEvents m) := by
  obtain ⟨hevents, hpending⟩ := @foldEvents_events m p
  refine ⟨⟨?_, trivial⟩, tracks_empty hevents hpending⟩
  rw [Absorbs, h.events]

theorem foldIfPending_keeps (h : p.Tracks records) : Keeps m records (p.pendingFeeds m) (p.foldIfPending m) := by
  unfold pendingFeeds foldIfPending
  split
  · exact foldEvents_keeps h
  · exact .nothing h

/-- A start tries the first seed where the pool is cold and the self-tests pass. -/
theorem startFeeds_cold (hstate : p.state = .cold) (b : Boot) :
    ((p.selftest m b.tests).2 = .ok () → p.startFeeds m b =
      ((p.selftest m b.tests).1.startJitter b.startup).reseedFeeds m b.sources) ∧
    ∀ e, (p.selftest m b.tests).2 = .error e → p.startFeeds m b = [] ∧ (p.start m b).1 = (p.selftest m b.tests).1 := by
  rw [startFeeds, start, hstate]
  rcases p.selftest m b.tests with ⟨p', e | -⟩
  · exact ⟨fun h => (by cases h), fun _ _ => ⟨rfl, rfl⟩⟩
  · exact ⟨fun _ => rfl, fun _ h => (by cases h)⟩

/-- The pool after a start that tried the first seed has the events of that seed's pool. -/
theorem start_same (hstate : p.state = .cold) (b : Boot) (htests : (p.selftest m b.tests).2 = .ok ()) :
    (((p.selftest m b.tests).1.startJitter b.startup).reseed m b.sources).1.SameEvents (p.start m b).1 := by
  rw [start, hstate]
  rcases htest : p.selftest m b.tests with ⟨p', e | -⟩
  · rw [htest] at htests
    cases htests
  · dsimp only
    rcases (p'.startJitter b.startup).reseed m b.sources with ⟨q, e | -⟩
    · exact record_same q e
    · exact ⟨rfl, rfl⟩

theorem start_keeps (h : p.Tracks records) (b : Boot) (hspared : AllSpared (p.startFeeds m b)) :
    Keeps m records (p.startFeeds m b) (p.start m b).1 := by
  cases hstate : p.state with
  | failed e =>
    rw [startFeeds, start, hstate]
    exact .nothing h
  | ready =>
    rw [startFeeds, start, hstate]
    exact .nothing h
  | cold =>
    obtain ⟨hpassed, hfailed⟩ := @startFeeds_cold m p hstate b
    have htested := h.same (@selftest_same m p b.tests)
    cases htests : (p.selftest m b.tests).2 with
    | error e =>
      obtain ⟨hfeeds, hafter⟩ := hfailed e htests
      rw [hfeeds, hafter]
      exact .nothing htested
    | ok _ =>
      rw [hpassed htests] at hspared ⊢
      exact (reseed_keeps (htested.same (startJitter_same _ _)) _ hspared).same (start_same hstate b htests)

theorem reseedIfDue_keeps (h : p.Tracks records) (mode : Mode) (s : Sources) (hspared : AllSpared (p.dueFeeds m mode s)) :
    Keeps m records (p.dueFeeds m mode s) (p.reseedIfDue m mode s).1 := by
  unfold dueFeeds at hspared ⊢
  unfold reseedIfDue
  split
  case isTrue hdue =>
    rw [if_pos hdue] at hspared
    exact reseed_keeps h s hspared
  case isFalse => exact .nothing h

/-- One turn of a read: a seed if one is due, and a fold once enough events wait. -/
theorem fillChunk_keeps (h : p.Tracks records) (mode : Mode) (s : Sources) (n : Nat)
    (hspared : AllSpared (p.chunkFeeds m mode s)) :
    Keeps m records (p.chunkFeeds m mode s) (p.fillChunk m mode s n).pool := by
  unfold chunkFeeds at hspared ⊢
  have hdue := reseedIfDue_keeps h mode s hspared.left
  unfold fillChunk
  rcases hseed : p.reseedIfDue m mode s with ⟨q, e | ⟨⟩⟩
  · rw [hseed] at hdue
    rw [List.append_nil]
    exact hdue.same (record_same q e)
  · rw [hseed] at hdue
    cases mode with
    | true =>
      rw [List.append_nil]
      exact hdue.same ⟨rfl, rfl⟩
    | fast =>
      have hfold := hdue.append (foldIfPending_keeps hdue.tracks)
      dsimp only
      rcases (q.foldIfPending m).stream.generate m n with ⟨stream, e | r⟩
      · exact (hfold.same ⟨rfl, rfl⟩).same (record_same _ e)
      · exact hfold.same ⟨rfl, rfl⟩

theorem count_same (p : Pool) (n : Nat) : p.SameEvents (p.count n) := ⟨rfl, rfl⟩

theorem fillFrom_keeps (mode : Mode) (env : Nat → Sources) (k left : Nat) {p : Pool} {records : List Bytes}
    (h : p.Tracks records) (hspared : AllSpared (p.fillFromFeeds m mode env k left)) :
    Keeps m records (p.fillFromFeeds m mode env k left) (p.fillFrom m mode env k left).pool := by
  induction left using Nat.strong_induction_on generalizing p k records with
  | _ left ih =>
    rw [fillFromFeeds] at hspared ⊢
    rw [fillFrom]
    split
    case isTrue => exact .nothing h
    case isFalse hleft =>
      rw [dif_neg hleft] at hspared
      have hturn := fillChunk_keeps h mode (env k) (min left mode.limit) hspared.left
      have hrest := hspared.right
      dsimp only at hrest ⊢
      cases hresult : (p.fillChunk m mode (env k) (min left mode.limit)).result with
      | error e =>
        rw [List.append_nil]
        exact hturn
      | ok out =>
        rw [hresult] at hrest
        have hlimit : 0 < mode.limit := by cases mode <;> decide
        exact hturn.append (ih (left - min left mode.limit) (by omega) (k + 1)
          (hturn.same (count_same _ _)).tracks hrest)

theorem fill_keeps (h : p.Tracks records) (len : Nat) (mode : Mode) (b : Boot) (env : Nat → Sources)
    (hspared : AllSpared (p.fillFeeds m len mode b env)) :
    Keeps m records (p.fillFeeds m len mode b env) (p.fill m len mode b env).pool := by
  unfold fillFeeds at hspared ⊢
  unfold fill
  split
  case isTrue => exact .nothing h
  case isFalse hlen =>
    rw [if_neg hlen] at hspared
    have hstart := start_keeps h b hspared.left
    have hrest := hspared.right
    rcases hs : p.start m b with ⟨q, e | ⟨⟩⟩
    · rw [hs] at hstart
      rw [List.append_nil]
      exact hstart
    · rw [hs] at hstart hrest
      exact hstart.append (fillFrom_keeps mode env 0 len hstart.tracks hrest)

end Pool

end NanoChrono.Rng
