import Mathlib

/-! # Probing the hypervisor again

Every probe makes the guest leave to its hypervisor, and a guest that does so in a loop looks like an
attack. A process probes once, when its report is first read, and again only when it is asked to and
the wait is over. Whatever is called and whatever the clock shows, the probes of any stretch of time
are no more than the waits that fit into it, rounded up (`probes_in_window`). -/

namespace NanoChrono.Hypervisor

/-- Seconds between two probes unless the wait is turned off. -/
def DEFAULT_COOLDOWN_S : UInt32 := 10

/-- Nanoseconds of a second. -/
def SECOND : ℕ := 1000000000

def U32_MAX : ℕ := 2 ^ 32 - 1

/-- `div_ceil(1_000_000_000) as u32` -/
def seconds (ns : ℕ) : UInt32 := .ofNat ((ns + (SECOND - 1)) / SECOND)

/-! ## The gate -/

/-- The cooldown gate. -/
structure Gate where
  cooldown_s : UInt32
  last_ns : Option ℕ
  probes : ℕ
deriving DecidableEq

namespace Gate

def new : Gate := ⟨DEFAULT_COOLDOWN_S, none, 0⟩

/-- Turns the wait on or off. -/
def set_cooldown_enabled (g : Gate) (on : Bool) : Gate :=
  { g with cooldown_s := if on then DEFAULT_COOLDOWN_S else 0 }

/-- Nanoseconds that the wait takes. -/
def window (g : Gate) : ℕ := g.cooldown_s.toNat * SECOND

/-- Nanoseconds until the next probe is allowed. -/
def remaining_ns (g : Gate) (now : ℕ) : ℕ :=
  match g.last_ns with
  | none => 0
  | some last => if g.cooldown_s = 0 then 0 else g.window - (now - last)

/-- Asks to probe now, and records the probe; or how many nanoseconds remain. -/
def try_begin (g : Gate) (now : ℕ) : Except ℕ Unit × Gate :=
  if 0 < g.remaining_ns now then (.error (g.remaining_ns now), g)
  else (.ok (), { g with last_ns := some now, probes := min (g.probes + 1) U32_MAX })

/-- With the wait on, a probe is let through just when none came before or the wait since the last is over. -/
theorem remaining_eq_zero_iff (g : Gate) (hon : g.cooldown_s ≠ 0) (now : ℕ) :
    g.remaining_ns now = 0 ↔ ∀ last, g.last_ns = some last → last + g.window ≤ now := by
  have hpos : 0 < g.window := by
    have hne : g.cooldown_s.toNat ≠ 0 := fun h => hon (UInt32.toNat_inj.mp h)
    unfold window SECOND
    omega
  rw [remaining_ns]
  cases g.last_ns with
  | none => simp
  | some last =>
    simp only [if_neg hon, Option.some.injEq, forall_eq']
    omega

end Gate

/-! ## The process -/

/-- What a process has: whether its first report is there, its gate, and when it probed, latest first. -/
structure Process where
  detected : Bool
  gate : Gate
  probed : List ℕ

namespace Process

def new : Process := ⟨false, .new, []⟩

/-- The first report, probed at most once; the gate counts it. -/
def cached (p : Process) (now : ℕ) : Process :=
  if p.detected then p
  else ⟨true, (p.gate.try_begin now).2, now :: p.probed⟩

/-- Probes again, unless the wait is not over. The clock is read twice. -/
def reprobe (p : Process) (first now : ℕ) : Except UInt32 Unit × Process :=
  let p := p.cached first
  match p.gate.try_begin now with
  | (.error remaining, gate) => (.error (seconds remaining), { p with gate })
  | (.ok (), gate) => (.ok (), { p with gate, probed := now :: p.probed })

/-- What a process may be asked, and what its clock shows then. -/
inductive Call where
  /-- `cached`, `latest` and `reprobe_wait_s` -/
  | read (now : ℕ)
  | reprobe (first now : ℕ)
  | setCooldownEnabled (on : Bool)

def call (p : Process) : Call → Process
  | .read now => p.cached now
  | .reprobe first now => (p.reprobe first now).2
  | .setCooldownEnabled on => { p with gate := p.gate.set_cooldown_enabled on }

/-- The gate knows of every probe, and with the wait on each came a whole wait after the one before it. -/
structure Waits (p : Process) : Prop where
  on : p.gate.cooldown_s = DEFAULT_COOLDOWN_S
  fresh : p.detected = false → p.probed = []
  last : p.gate.last_ns = p.probed.head?
  count : p.gate.probes = min p.probed.length U32_MAX
  apart : p.probed.Pairwise fun later earlier => earlier + 10 * SECOND ≤ later

theorem waits_new : Waits new := ⟨rfl, fun _ => rfl, rfl, rfl, .nil⟩

/-- A probe that the gate lets through is recorded. -/
theorem Waits.record {p : Process} (h : Waits p) {now : ℕ} (hzero : p.gate.remaining_ns now = 0) (detected : Bool)
    (hdetected : detected = true) : Waits ⟨detected, (p.gate.try_begin now).2, now :: p.probed⟩ := by
  have hbegin : p.gate.try_begin now =
      (.ok (), { p.gate with last_ns := some now, probes := min (p.gate.probes + 1) U32_MAX }) := by
    rw [Gate.try_begin, if_neg (by omega)]
  have hwindow : p.gate.window = 10 * SECOND := by
    rw [Gate.window, h.on]
    rfl
  rw [hbegin]
  refine ⟨h.on, fun hno => by simp [hdetected] at hno, rfl, ?_, List.pairwise_cons.mpr ⟨?_, h.apart⟩⟩
  · show min (p.gate.probes + 1) U32_MAX = min (p.probed.length + 1) U32_MAX
    rw [h.count]
    omega
  · -- The last probe is a wait back, and the ones before it are further back.
    rw [Gate.remaining_eq_zero_iff _ (by rw [h.on]; decide), h.last, hwindow] at hzero
    have hapart := h.apart
    intro earlier hearlier
    cases hp : p.probed with
    | nil => simp [hp] at hearlier
    | cons last rest =>
      rw [hp] at hzero hearlier hapart
      have hlast : last + 10 * SECOND ≤ now := hzero last rfl
      rcases List.mem_cons.mp hearlier with rfl | hrest
      · exact hlast
      · have := (List.pairwise_cons.mp hapart).1 earlier hrest
        omega

theorem Waits.cached {p : Process} (h : Waits p) (now : ℕ) : Waits (p.cached now) := by
  rw [Process.cached]
  cases hdetected : p.detected with
  | true => exact h
  | false =>
    have hlast : p.gate.last_ns = none := by rw [h.last, h.fresh hdetected]; rfl
    exact h.record (by rw [Gate.remaining_ns, hlast]) true rfl

/-- A call keeps the waits, as long as it does not turn them off. -/
theorem Waits.call {p : Process} (h : Waits p) (c : Call) (hc : ∀ on, c = .setCooldownEnabled on → on = true) :
    Waits (p.call c) := by
  cases c with
  | read now => exact h.cached now
  | setCooldownEnabled on =>
    rw [hc on rfl]
    exact ⟨rfl, h.fresh, h.last, h.count, h.apart⟩
  | reprobe first now =>
    have hcached := h.cached first
    have hdetected : (p.cached first).detected = true := by
      rw [Process.cached]
      split
      · assumption
      · rfl
    show Waits (p.reprobe first now).2
    rw [Process.reprobe]
    by_cases hzero : (p.cached first).gate.remaining_ns now = 0
    · have hrecord := hcached.record hzero _ hdetected
      rw [Gate.try_begin, if_neg (by omega)] at hrecord ⊢
      exact hrecord
    · rw [Gate.try_begin, if_pos (by omega)]
      exact hcached

theorem Waits.run {p : Process} (h : Waits p) (calls : List Call)
    (hon : ∀ on, .setCooldownEnabled on ∈ calls → on = true) : Waits (calls.foldl Process.call p) := by
  induction calls generalizing p with
  | nil => exact h
  | cons c calls ih =>
    have hcall := h.call c fun on hc => hon on (hc ▸ List.mem_cons_self)
    exact ih hcall fun on hc => hon on (List.mem_cons_of_mem c hc)

end Process

/-! ## Any stretch of time -/

/-- Moments a wait apart: in a stretch there are no more than fit. -/
theorem length_of_apart {w start d : ℕ} {l : List ℕ} (hw : 0 < w)
    (hl : l.Pairwise fun later earlier => earlier + w ≤ later) (hin : ∀ x ∈ l, start ≤ x ∧ x < start + d) :
    l.length * w ≤ d + (w - 1) := by
  -- The latest moment ends the stretch in which the ones before it lie.
  induction l generalizing d with
  | nil => simp
  | cons later l ih =>
    obtain ⟨hlater, hrest⟩ := List.pairwise_cons.mp hl
    obtain ⟨hstart, hend⟩ := hin later List.mem_cons_self
    cases l with
    | nil => simp only [List.length_cons, List.length_nil]; omega
    | cons earlier l =>
      have hearlier := hlater earlier List.mem_cons_self
      have hfirst := (hin earlier (by simp)).1
      have hshort := @ih (later - w + 1 - start) hrest fun x hx => by
        have hx' := hlater x hx
        have := (hin x (List.mem_cons_of_mem _ hx)).1
        omega
      rw [List.length_cons, Nat.add_mul]
      omega

/-- However a process is called, and whatever its clock shows each time, as long as the wait is not turned off: a
stretch of `d` nanoseconds sees at most one probe for each ten seconds of it, begun ones included. -/
theorem probes_in_window (calls : List Process.Call)
    (hon : ∀ on, .setCooldownEnabled on ∈ calls → on = true) (start d : ℕ) :
    ((calls.foldl Process.call .new).probed.filter fun t => start ≤ t ∧ t < start + d).length ≤
        (d + (10 * SECOND - 1)) / (10 * SECOND) ∧
      (calls.foldl Process.call .new).gate.probes =
        min (calls.foldl Process.call .new).probed.length U32_MAX := by
  have hwaits := Process.waits_new.run calls hon
  refine ⟨?_, hwaits.count⟩
  rw [Nat.le_div_iff_mul_le (by decide)]
  exact length_of_apart (by decide) (hwaits.apart.filter _) fun t ht => by simpa using (List.mem_filter.mp ht).2

/-- Three requests, of which the second comes too soon, on a clock that has gone back before the third. -/
theorem probes_in_window_thrice :
    ((([.read 5, .reprobe 6 10000000004, .reprobe 7 10000000005, .reprobe 8 9] : List Process.Call).foldl Process.call
      .new).probed.filter fun t => 0 ≤ t ∧ t < 0 + 20000000000).length ≤ 2 :=
  (probes_in_window [.read 5, .reprobe 6 10000000004, .reprobe 7 10000000005, .reprobe 8 9] (by simp) 0
    20000000000).1

end NanoChrono.Hypervisor
