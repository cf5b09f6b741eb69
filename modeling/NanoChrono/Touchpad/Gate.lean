import Mathlib.Tactic

/-! # The touchpad's readiness gate

A touchpad raises a pin when it has a report. Once the pin is known, the bus is read only when the
pin says so, except that one poll in sixty-four reads it anyway, to audit the gate: three audits in
a row that find a report drop it. Whether the pin had announced the report is not asked, so a strike
is right just where no audit finds a report that the pin announced (`judged_iff`). -/

namespace NanoChrono.Touchpad

/-! ## Calibration -/

/-- A pad of the GPIO controller. -/
abbrev Pad := UInt32

/-- Seen high while a report was waiting. -/
def SEEN_BUSY_HIGH : UInt8 := 1

/-- Seen low while a report was waiting. -/
def SEEN_BUSY_LOW : UInt8 := 2

/-- Seen high while nothing was waiting. -/
def SEEN_IDLE_HIGH : UInt8 := 4

/-- Seen low while nothing was waiting. -/
def SEEN_IDLE_LOW : UInt8 := 8

/-- Samples of each class required before an answer is offered. -/
def NEEDED : ℕ := 4

/-- `u32::saturating_add(1)`. -/
def saturating_succ (n : ℕ) : ℕ := min (n + 1) (2 ^ 32 - 1)

/-- Learns which pad is the interrupt line: the pads watched, each with what it has been seen to
do. -/
structure Calibration where
  pads : List (Pad × UInt8)
  reports : ℕ
  quiet : ℕ
deriving DecidableEq

namespace Calibration

variable (c : Calibration)

/-- Reads every candidate's level. -/
def sample (levels : Pad → Bool) : List Bool := c.pads.map fun pad => levels pad.1

/-- Files a sample under what the poll that followed it found. -/
def observe (sample : List Bool) (had_report : Bool) : Calibration :=
  if sample.length ≠ c.pads.length then c
  else
    { pads := List.zipWith (fun pad high => (pad.1, pad.2 ||| match had_report, high with
        | true, true => SEEN_BUSY_HIGH
        | true, false => SEEN_BUSY_LOW
        | false, true => SEEN_IDLE_HIGH
        | false, false => SEEN_IDLE_LOW)) c.pads sample
      reports := if had_report then saturating_succ c.reports else c.reports
      quiet := if had_report then c.quiet else saturating_succ c.quiet }

/-- The one pad that correlates, and the level that means "a report is waiting". -/
def settled : Option (Pad × Bool) :=
  if c.reports < NEEDED ∨ c.quiet < NEEDED then none
  else
    match c.pads.filterMap fun pad =>
      if pad.2 = SEEN_BUSY_HIGH ||| SEEN_IDLE_LOW then some (pad.1, true)
      else if pad.2 = SEEN_BUSY_LOW ||| SEEN_IDLE_HIGH then some (pad.1, false)
      else none with
    | [answer] => some answer
    | _ => none

end Calibration

/-! ## The gate -/

/-- How a pad was arrived at. -/
inductive Mapping where
  | tabled (platform : String)
  | calibrated
deriving DecidableEq

/-- Whether the bus is read at every poll, or when the pin says so. -/
inductive Gate where
  | blind
  | learning (calibration : Calibration)
  | gated (pad : Pad) (asserted : Bool) (mapping : Mapping) (skipped strikes : ℕ)
deriving DecidableEq

/-- Wrong-gate strikes tolerated before the gate is abandoned. -/
def GATE_STRIKES : ℕ := 3

/-- How often a gated driver reads the bus even though the pin said quiet. -/
def AUDIT_EVERY : UInt32 := 64

/-- How many failed reads in a row before the touchpad is given up on. -/
def GIVE_UP_AFTER : ℕ := 16

def MAX_INPUT_REPORT : ℕ := 64

/-- Files a poll's outcome against the gate, and moves it if warranted. -/
def Gate.judge (sample : Option (List Bool)) (audit had_report : Bool) : Gate → Gate
  | .blind => .blind
  | .learning calibration =>
    match sample with
    | none => .learning calibration
    | some sample =>
      let calibration := calibration.observe sample had_report
      match calibration.settled with
      | some (pad, asserted) => .gated pad asserted .calibrated 0 0
      | none => .learning calibration
  | .gated pad asserted mapping skipped strikes =>
    let strikes := if audit then if had_report then saturating_succ strikes else 0 else strikes
    if strikes ≥ GATE_STRIKES then .blind else .gated pad asserted mapping skipped strikes

/-- A touchpad, as far as polling reads it. -/
structure I2cHid where
  max_input_length : UInt16
  gate : Gate
  polls : UInt32
  failures : ℕ

/-- What a poll meets: the levels of the pins before the bus is read, and the bytes that the device
answers with, if it answers. -/
structure Poll where
  levels : Pad → Bool
  answer : Option (ℕ → UInt8)

namespace I2cHid

variable {α : Type*} (decode : List UInt8 → Option α) (d : I2cHid)

/-- The bytes that a poll asks for. -/
def want : ℕ := min d.max_input_length.toNat MAX_INPUT_REPORT

/-- The length that an answer states of itself. -/
def length (buffer : ℕ → UInt8) : ℕ := (buffer 0).toNat + 256 * (buffer 1).toNat

/-- A length of zero is "nothing waiting"; one beyond what was asked for is not read. -/
def had_report (buffer : ℕ → UInt8) : Bool := 3 ≤ length buffer ∧ length buffer ≤ d.want

/-- Reads the input register, and files the outcome. -/
def read (sample : Option (List Bool)) (audit : Bool) : Option (ℕ → UInt8) → I2cHid × Option α
  | none => ({ d with failures := d.failures + 1 }, none)
  | some buffer =>
    let found := d.had_report buffer
    ({ d with failures := 0, gate := d.gate.judge sample audit found },
      if !found then none
      else decode ((List.range (length buffer - 2)).map fun i => buffer (2 + i)))

/-- Reads one report, if the device has one waiting. -/
def poll (p : Poll) : I2cHid × Option α :=
  if d.failures ≥ GIVE_UP_AFTER then (d, none)
  else if d.want < 3 then (d, none)
  else
    let d := { d with polls := d.polls + 1 }
    let audit : Bool := d.polls % AUDIT_EVERY = 0
    match d.gate with
    | .blind => d.read decode none audit p.answer
    | .learning calibration => d.read decode (some (calibration.sample p.levels)) audit p.answer
    | .gated pad asserted mapping skipped strikes =>
      if !audit ∧ p.levels pad ≠ asserted then
        ({ d with gate := .gated pad asserted mapping (saturating_succ skipped) strikes }, none)
      else d.read decode none audit p.answer

/-- A run of polls. -/
def run (polls : List Poll) : I2cHid := polls.foldl (fun d p => (d.poll decode p).1) d

/-! ## Audits -/

/-- The poll reads the bus as an audit, and the device answers. -/
def Audits (p : Poll) : Prop :=
  (d.failures < GIVE_UP_AFTER ∧ 3 ≤ d.want) ∧ (d.polls + 1) % AUDIT_EVERY = 0 ∧ p.answer.isSome

instance (p : Poll) : Decidable (d.Audits p) := inferInstanceAs (Decidable ((_ ∧ _) ∧ _ ∧ _))

/-- A report is waiting. -/
def Waits (p : Poll) : Prop := p.answer.any d.had_report

instance (p : Poll) : Decidable (d.Waits p) := inferInstanceAs (Decidable (_ = true))

/-- The strikes of a gated driver. -/
@[grind =] def strikes : Option ℕ :=
  match d.gate with
  | .gated _ _ _ _ strikes => some strikes
  | _ => none

/-- The poll counts a strike: there is one more, or the gate is dropped. -/
def Strikes (p : Poll) : Prop :=
  ∃ k, d.strikes = some k ∧
    ((d.poll decode p).1.strikes = some (k + 1) ∨ (d.poll decode p).1.gate = .blind)

/-- The polls of a run, each with the driver before it. -/
@[grind =] def trace : I2cHid → List Poll → List (I2cHid × Poll)
  | _, [] => []
  | d, p :: polls => (d, p) :: trace (d.poll decode p).1 polls

/-- Strikes are counted for what they are to be counted for: an audit that finds a report while the
pin is not asserted; a pad that is asserted whenever a report waits keeps the gate, and three such
audits in a row drop it. -/
structure Judged (pad : Pad) (asserted : Bool) (polls : List Poll) : Prop where
  strikes : ∀ e ∈ trace decode d polls, e.1.Strikes decode e.2 →
    e.1.Audits e.2 ∧ e.1.Waits e.2 ∧ e.2.levels pad ≠ asserted
  kept : (∀ e ∈ trace decode d polls, e.1.Waits e.2 → e.2.levels pad = asserted) →
    (d.run decode polls).gate ≠ .blind
  dropped : ∀ es, es.length = 3 → es <:+: (trace decode d polls).filter (fun e => e.1.Audits e.2) →
    (∀ e ∈ es, e.1.Waits e.2 ∧ e.2.levels pad ≠ asserted) → (d.run decode polls).gate = .blind

/-! ## One poll -/

section Step

variable {d} {pad : Pad} {asserted : Bool} {mapping : Mapping} {skipped k : ℕ}

/-- A gate that has been dropped stays so. -/
theorem poll_blind (h : d.gate = .blind) (p : Poll) : (d.poll decode p).1.gate = .blind := by
  rw [poll]
  split
  · exact h
  · split
    · exact h
    · simp only [h]
      cases p.answer <;> rfl

/-- What a gated driver makes of a read. -/
theorem judge_gated (hk : k < GATE_STRIKES) (sample : Option (List Bool)) (audit found : Bool) :
    (Gate.gated pad asserted mapping skipped k).judge sample audit found =
      if audit ∧ found ∧ k + 1 = GATE_STRIKES then .blind
      else .gated pad asserted mapping skipped (if audit then if found then k + 1 else 0 else k) := by
  rw [GATE_STRIKES] at hk
  have hsucc : saturating_succ k = k + 1 := min_eq_left (by omega)
  rw [Gate.judge, GATE_STRIKES]
  cases audit with
  | false => simp only [Bool.false_eq_true, if_false, false_and, if_neg (Nat.not_le.mpr hk)]
  | true =>
    cases found with
    | false => simp
    | true =>
      simp only [if_true, hsucc, true_and]
      by_cases hlast : k + 1 = 3
      · rw [if_pos (by omega), if_pos hlast]
      · rw [if_neg (by omega), if_neg hlast]

/-- **One poll of a gated driver**: an audit that finds a report counts, one that finds none starts
over, and no other poll does anything to the strikes. -/
theorem poll_gated (h : d.gate = .gated pad asserted mapping skipped k) (hk : k < GATE_STRIKES)
    (p : Poll) : ∃ skipped', (d.poll decode p).1.gate =
      if d.Audits p ∧ d.Waits p ∧ k + 1 = GATE_STRIKES then .blind
      else .gated pad asserted mapping skipped'
        (if d.Audits p then if d.Waits p then k + 1 else 0 else k) := by
  rw [GATE_STRIKES] at hk
  by_cases hup : d.failures < GIVE_UP_AFTER ∧ 3 ≤ d.want
  · rw [poll, if_neg (by omega), if_neg (by omega)]
    simp only [h]
    by_cases haudit : (d.polls + 1) % AUDIT_EVERY = 0
    · simp only [haudit, decide_true, Bool.not_true, Bool.false_eq_true, false_and, if_false]
      cases hanswer : p.answer with
      | none => exact ⟨skipped, by simp [read, Audits, hanswer]⟩
      | some buffer =>
        have haudits : d.Audits p := ⟨hup, haudit, by rw [hanswer]; rfl⟩
        have hwaits : d.Waits p ↔ d.had_report buffer = true := by rw [Waits, hanswer]; rfl
        refine ⟨skipped, ?_⟩
        rw [read, judge_gated hk]
        simp only [haudits, hwaits, true_and, if_true]
        rfl
    · have haudits : ¬d.Audits p := fun h => haudit h.2.1
      simp only [haudit, decide_false, Bool.not_false, true_and, haudits, false_and, if_false]
      by_cases hlevel : p.levels pad = asserted
      · rw [if_neg fun h => h hlevel]
        cases p.answer with
        | none => exact ⟨skipped, by rw [read]⟩
        | some buffer =>
          refine ⟨skipped, ?_⟩
          rw [read, judge_gated hk]
          simp only [Bool.false_eq_true, false_and, if_false]
      · exact ⟨saturating_succ skipped, by rw [if_pos hlevel]⟩
  · have haudits : ¬d.Audits p := fun h => hup h.1
    refine ⟨skipped, ?_⟩
    rw [if_neg fun h => haudits h.1, if_neg haudits, poll]
    by_cases hfailures : d.failures ≥ GIVE_UP_AFTER
    · rw [if_pos hfailures, h]
    · rw [if_neg hfailures, if_pos (by omega), h]

/-- A driver whose gate has closed on a pad: it is gated on it still, or blind. -/
def Closed (d : I2cHid) (pad : Pad) (asserted : Bool) : Prop :=
  d.gate = .blind ∨
    ∃ mapping skipped k, d.gate = .gated pad asserted mapping skipped k ∧ k < GATE_STRIKES

/-- A poll keeps it so. -/
theorem poll_closed (h : d.Closed pad asserted) (p : Poll) :
    (d.poll decode p).1.Closed pad asserted := by
  rcases h with h | ⟨mapping, skipped, k, h, hk⟩
  · exact .inl (poll_blind decode h p)
  · obtain ⟨skipped', hpoll⟩ := poll_gated decode h hk p
    rw [GATE_STRIKES] at hk hpoll
    by_cases hlast : d.Audits p ∧ d.Waits p ∧ k + 1 = 3
    · exact .inl (hpoll.trans (if_pos hlast))
    · refine .inr ⟨mapping, skipped', _, hpoll.trans (if_neg hlast), ?_⟩
      rw [GATE_STRIKES]
      split
      · next haudits =>
        split
        · next hwaits => exact lt_of_le_of_ne hk fun h => hlast ⟨haudits, hwaits, h⟩
        · exact Nat.zero_lt_succ 2
      · exact hk

/-- A strike is counted for an audit that finds a report, and for each. -/
theorem strikes_iff (h : d.gate = .gated pad asserted mapping skipped k) (hk : k < GATE_STRIKES)
    (p : Poll) : d.Strikes decode p ↔ d.Audits p ∧ d.Waits p := by
  obtain ⟨skipped', hpoll⟩ := poll_gated decode h hk p
  have hstrikes : d.strikes = some k := by rw [strikes, h]
  constructor
  · rintro ⟨k', hk', hafter⟩
    obtain rfl : k = k' := Option.some_inj.mp (hstrikes.symm.trans hk')
    by_contra hnot
    rw [if_neg fun h => hnot ⟨h.1, h.2.1⟩] at hpoll
    rcases hafter with hafter | hafter
    · rw [strikes, hpoll] at hafter
      have hsame := Option.some_inj.mp hafter
      split at hsame
      · next haudits => exact absurd hsame (by rw [if_neg fun hw => hnot ⟨haudits, hw⟩]; omega)
      · omega
    · rw [hpoll] at hafter
      cases hafter
  · rintro ⟨haudits, hwaits⟩
    refine ⟨k, hstrikes, ?_⟩
    by_cases hlast : k + 1 = GATE_STRIKES
    · exact .inr (hpoll.trans (if_pos ⟨haudits, hwaits, hlast⟩))
    · left
      rw [strikes, hpoll, if_neg fun h => hlast h.2.2, if_pos haudits, if_pos hwaits]

end Step

/-! ## Runs -/

section Run

variable {d} {pad : Pad} {asserted : Bool}

/-- Every driver of a run has closed its gate on the pad. -/
theorem trace_closed (h : d.Closed pad asserted) (polls : List Poll) :
    ∀ e ∈ trace decode d polls, e.1.Closed pad asserted := by
  induction polls generalizing d with
  | nil => exact fun e he => absurd he List.not_mem_nil
  | cons p polls ih =>
    rw [trace, List.forall_mem_cons]
    exact ⟨h, ih (poll_closed decode h p)⟩

/-- The polls of a trace are the run's. -/
theorem mem_trace {polls : List Poll} {e : I2cHid × Poll} (he : e ∈ trace decode d polls) :
    e.2 ∈ polls := by
  induction polls generalizing d with
  | nil => exact absurd he List.not_mem_nil
  | cons p polls ih =>
    rcases List.mem_cons.mp he with rfl | he
    · exact List.mem_cons_self
    · exact List.mem_cons_of_mem p (ih he)

theorem run_blind (h : d.gate = .blind) (polls : List Poll) : (d.run decode polls).gate = .blind := by
  induction polls generalizing d with
  | nil => exact h
  | cons p polls ih => exact ih (poll_blind decode h p)

/-- A run without an audit that finds a report keeps the gate. -/
theorem run_kept (polls : List Poll)
    (hnone : ∀ e ∈ trace decode d polls, e.1.gate ≠ .blind → e.1.Audits e.2 → ¬e.1.Waits e.2)
    (h : d.Closed pad asserted) (hgated : d.gate ≠ .blind) : (d.run decode polls).gate ≠ .blind := by
  induction polls generalizing d with
  | nil => exact hgated
  | cons p polls ih =>
    rw [trace, List.forall_mem_cons] at hnone
    refine ih hnone.2 (poll_closed decode h p) ?_
    obtain ⟨mapping, skipped, k, hgate, hk⟩ := h.resolve_left hgated
    obtain ⟨skipped', hpoll⟩ := poll_gated decode hgate hk p
    rw [hpoll, if_neg fun h => hnone.1 hgated h.1 h.2.1]
    exact Gate.noConfusion

/-- Audits that find a report drop the gate as soon as they are enough. -/
theorem run_dropped (es : List (I2cHid × Poll)) (polls : List Poll) (h : d.Closed pad asserted)
    (henough : ∀ k, d.strikes = some k → GATE_STRIKES ≤ k + es.length)
    (hes : es <+: (trace decode d polls).filter (fun e => e.1.Audits e.2))
    (hwaits : ∀ e ∈ es, e.1.Waits e.2) : (d.run decode polls).gate = .blind := by
  induction polls generalizing d es with
  | nil =>
    rcases h with h | ⟨mapping, skipped, k, h, hk⟩
    · exact h
    · obtain rfl : es = [] := List.prefix_nil.mp hes
      exact absurd (henough k (by rw [strikes, h])) (Nat.not_le.mpr hk)
  | cons p polls ih =>
    have hnext := poll_closed decode h p
    rcases h with h | ⟨mapping, skipped, k, h, hk⟩
    · exact run_blind decode h (p :: polls)
    · have henough := henough k (by rw [strikes, h])
      obtain ⟨skipped', hpoll⟩ := poll_gated decode h hk p
      rw [trace, List.filter_cons] at hes
      by_cases haudits : d.Audits p
      · -- this poll is the first of the audits
        rw [if_pos (decide_eq_true haudits)] at hes
        cases es with
        | nil => exact absurd henough (Nat.not_le.mpr hk)
        | cons e es =>
          obtain ⟨hfirst, hrest⟩ := List.cons_prefix_cons.mp hes
          subst hfirst
          rw [List.forall_mem_cons] at hwaits
          by_cases hlast : k + 1 = GATE_STRIKES
          · exact run_blind decode (hpoll.trans (if_pos ⟨haudits, hwaits.1, hlast⟩)) polls
          · refine ih es hnext (fun k' hk' => ?_) hrest hwaits.2
            rw [strikes, hpoll, if_neg fun h => hlast h.2.2, if_pos haudits, if_pos hwaits.1] at hk'
            obtain rfl := Option.some_inj.mp hk'
            rw [List.length_cons] at henough
            omega
      · rw [if_neg (by simp [haudits])] at hes
        refine ih es hnext (fun k' hk' => ?_) hes hwaits
        rw [strikes, hpoll, if_neg fun h => haudits h.1, if_neg haudits] at hk'
        obtain rfl := Option.some_inj.mp hk'
        exact henough

/-- The same for audits anywhere in the run. -/
theorem run_dropped_infix (es : List (I2cHid × Poll)) (polls : List Poll) (h : d.Closed pad asserted)
    (henough : GATE_STRIKES ≤ es.length)
    (hes : es <:+: (trace decode d polls).filter (fun e => e.1.Audits e.2))
    (hwaits : ∀ e ∈ es, e.1.Waits e.2) : (d.run decode polls).gate = .blind := by
  have hfirst := fun hes => run_dropped decode es polls h
    (fun k _ => henough.trans (Nat.le_add_left _ k)) hes hwaits
  induction polls generalizing d with
  | nil => exact hfirst (List.infix_nil.mp hes ▸ List.nil_prefix)
  | cons p polls ih =>
    have hnext := poll_closed decode h p
    rw [trace, List.filter_cons] at hes
    have hlater := fun hes => ih hnext hes fun hes => run_dropped decode es polls hnext
      (fun k _ => henough.trans (Nat.le_add_left _ k)) hes hwaits
    by_cases haudits : d.Audits p
    · rw [if_pos (decide_eq_true haudits)] at hes
      rcases List.infix_cons_iff.mp hes with hes | hes
      · exact hfirst (by rw [trace, List.filter_cons, if_pos (decide_eq_true haudits)]; exact hes)
      · exact hlater hes
    · rw [if_neg (by simp [haudits])] at hes
      exact hlater hes

/-- **After the gate has closed, strikes are counted for what they are to be counted for exactly if
no audit of a gated driver finds a report while the pin is asserted.** -/
theorem judged_iff {mapping : Mapping} {skipped : ℕ} (d : I2cHid) (pad : Pad) (asserted : Bool)
    (h : d.gate = .gated pad asserted mapping skipped 0) (polls : List Poll) :
    d.Judged decode pad asserted polls ↔ ∀ e ∈ trace decode d polls, e.1.gate ≠ .blind →
      e.1.Audits e.2 → e.1.Waits e.2 → e.2.levels pad ≠ asserted := by
  have hclosed : d.Closed pad asserted := .inr ⟨mapping, skipped, 0, h, by decide⟩
  have htrace := trace_closed decode hclosed polls
  constructor
  · intro hjudged e he hgated haudits hwaits
    obtain ⟨mapping', skipped', k, hgate, hk⟩ := (htrace e he).resolve_left hgated
    exact (hjudged.strikes e he ((strikes_iff decode hgate hk e.2).mpr ⟨haudits, hwaits⟩)).2.2
  · intro hright
    refine ⟨fun e he hstrikes => ?_, fun hfaithful => ?_, fun es hes hinfix hfound => ?_⟩
    · rcases htrace e he with hblind | ⟨mapping', skipped', k, hgate, hk⟩
      · obtain ⟨k, hk, -⟩ := hstrikes
        rw [strikes, hblind] at hk
        cases hk
      · obtain ⟨haudits, hwaits⟩ := (strikes_iff decode hgate hk e.2).mp hstrikes
        exact ⟨haudits, hwaits, hright e he (by rw [hgate]; exact Gate.noConfusion) haudits hwaits⟩
    · refine run_kept decode polls (fun e he hgated haudits hwaits => ?_) hclosed
        (by rw [h]; exact Gate.noConfusion)
      exact hright e he hgated haudits hwaits (hfaithful e he hwaits)
    · exact run_dropped_infix decode es polls hclosed hes.ge hinfix fun e he => (hfound e he).1

end Run

/-! ## A finger that moves -/

/-- Low while a report waits, and one always does. -/
def moving : Poll := ⟨fun _ => false, some fun i => if i = 0 then 5 else 0⟩

/-- Gated on a pad that is low while a report waits. -/
def closed : I2cHid := ⟨5, .gated 0 false .calibrated 0 0, 63, 0⟩

theorem judged_iff_closed : closed.Judged (fun _ => some ()) 0 false [moving] ↔
    ∀ e ∈ trace (fun _ => some ()) closed [moving], e.1.gate ≠ .blind → e.1.Audits e.2 →
      e.1.Waits e.2 → e.2.levels 0 ≠ false :=
  judged_iff _ closed 0 false rfl [moving]

/-- The pad is right at every poll, and the gate is dropped all the same at the third audit. -/
theorem gate_lost : (∀ e ∈ trace (fun _ => some ()) closed (List.replicate 129 moving),
      e.2.levels 0 = false) ∧
    (closed.run (fun _ => some ()) (List.replicate 129 moving)).gate = .blind ∧
    ¬closed.Judged (fun _ => some ()) 0 false (List.replicate 129 moving) := by
  have hlow : ∀ e ∈ trace (fun _ => some ()) closed (List.replicate 129 moving),
      e.2.levels 0 = false := fun e he => by
    rw [List.eq_of_mem_replicate (mem_trace _ he)]
    rfl
  have hblind : (closed.run (fun _ => some ()) (List.replicate 129 moving)).gate = .blind := by
    decide +kernel
  exact ⟨hlow, hblind, fun h => h.kept (fun e he _ => hlow e he) hblind⟩

end I2cHid

end NanoChrono.Touchpad
