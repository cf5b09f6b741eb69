import Mathlib.Tactic

/-! # The power confirmation

A restart or a shutdown waits for a code that is shown on the screen. The state is translated as it stands: the
pending request with the digits typed so far, the misses in a row and the time the lockout ends. Runs are lists of
events with their replies, in the order of a clock that never goes back, and what is said of the code holds of
every run. -/

namespace NanoChrono.Power

/-! ## The source's state -/

/-- Digits in a confirmation code. -/
def CODE_DIGITS : Nat := 2

/-- How long a shown code stays valid. -/
def CONFIRM_WINDOW_NS : Nat := 10000000000

/-- Lockout after the first miss; doubled per consecutive miss. -/
def LOCKOUT_BASE_NS : Nat := 5000000000

/-- The ceiling the doubling stops at. -/
def LOCKOUT_MAX_NS : Nat := 600000000000

def U32_MAX : Nat := 2 ^ 32 - 1

def U64_MAX : Nat := 2 ^ 64 - 1

/-- What the confirmation guards. -/
inductive Action where
  | restart
  | shutdown
deriving DecidableEq

/-- Why `request` did not show a code. -/
inductive Refused where
  /-- Locked out after a miss; this many nanoseconds remain. -/
  | lockedOut (remainingNs : Nat)
deriving DecidableEq

/-- What one typed digit did. -/
inductive Outcome where
  /-- Right so far; more digits to go. -/
  | pending
  /-- The whole code was typed: the caller must carry the action out. -/
  | confirmed (action : Action)
  /-- Wrong digit: cancelled, and the lockout has started. -/
  | rejected
  /-- Nothing was pending, or it had expired; the digit meant nothing here. -/
  | idle
deriving DecidableEq

abbrev Code := Vector UInt8 CODE_DIGITS

/-- A request that waits for its code, with the number of digits typed. -/
structure Pending where
  action : Action
  code : Code
  typed : Fin CODE_DIGITS
  sinceNs : UInt64
deriving DecidableEq

/-- The confirmation state. One per screen that offers restart/shut down. -/
structure Confirm where
  pool : UInt64
  pending : Option Pending
  /-- The misses in a row, up to `U32_MAX`. -/
  misses : Nat
  /-- The end of the lockout, up to `U64_MAX`. -/
  lockedUntilNs : Nat
deriving DecidableEq

/-- SplitMix64's finaliser. -/
def mix (z : UInt64) : UInt64 :=
  let z := (z ^^^ (z >>> 30)) * 0xBF58476D1CE4E5B9
  let z := (z ^^^ (z >>> 27)) * 0x94D049BB133111EB
  z ^^^ (z >>> 31)

/-- The decimal digits drawn from a number, the lowest first, and what is left of it. -/
def drawDigits (r : UInt64) : Code × UInt64 :=
  (List.finRange CODE_DIGITS).foldl (fun x i => (x.1.set i.val (x.2 % 10).toUInt8 i.isLt, x.2 / 10))
    (Vector.replicate CODE_DIGITS 0, r)

namespace Confirm

def new : Confirm := ⟨0x9E3779B97F4A7C15, none, 0, 0⟩

/-- Folds unpredictable bits into the pool. -/
def stir (c : Confirm) (entropy : UInt64) : Confirm :=
  { c with pool := mix (c.pool ^^^ entropy) + 0x9E3779B97F4A7C15 }

@[simp] theorem stir_pending (c : Confirm) (entropy : UInt64) : (c.stir entropy).pending = c.pending := by
  rw [stir]

@[simp] theorem stir_misses (c : Confirm) (entropy : UInt64) : (c.stir entropy).misses = c.misses := by
  rw [stir]

@[simp] theorem stir_lockedUntilNs (c : Confirm) (entropy : UInt64) :
    (c.stir entropy).lockedUntilNs = c.lockedUntilNs := by
  rw [stir]

/-- Nanoseconds until a request is allowed again; 0 = now. -/
def lockoutRemainingNs (c : Confirm) (now : UInt64) : Nat := c.lockedUntilNs - now.toNat

/-- Asks for `action`: the code to show, or why there is none. -/
def request (c : Confirm) (action : Action) (now entropy : UInt64) : Confirm × Except Refused Code :=
  let remainingNs := c.lockoutRemainingNs now
  if remainingNs > 0 then ({ c with pending := none }, .error (.lockedOut remainingNs))
  else
    let c := c.stir (entropy ^^^ (now <<< 32 ||| now >>> 32))
    let drawn := drawDigits (mix c.pool)
    -- The pool is advanced so the next code is not this one's neighbour.
    let c := c.stir drawn.2
    ({ c with pending := some ⟨action, drawn.1, ⟨0, Nat.zero_lt_two⟩, now⟩ }, .ok drawn.1)

/-- The pending request, if it has not expired. -/
def live (c : Confirm) (now : UInt64) : Option Pending :=
  c.pending.filter fun p => now.toNat - p.sinceNs.toNat < CONFIRM_WINDOW_NS

/-- Drops the pending request without penalty. -/
def cancel (c : Confirm) : Confirm := { c with pending := none }

/-- Feeds one typed digit. Anything above 9 counts as a wrong digit. -/
def digit (c : Confirm) (d : UInt8) (now : UInt64) : Confirm × Outcome :=
  match c.live now with
  | none => ({ c with pending := none }, .idle)
  | some p =>
    if p.code.get p.typed ≠ d then
      let shift := min c.misses 16
      let lockout := min (min (LOCKOUT_BASE_NS * 2 ^ shift) U64_MAX) LOCKOUT_MAX_NS
      ({ c with
          pending := none
          misses := min (c.misses + 1) U32_MAX
          lockedUntilNs := min (now.toNat + lockout) U64_MAX }, .rejected)
    else if h : p.typed.val + 1 < CODE_DIGITS then
      ({ c with pending := some { p with typed := ⟨p.typed.val + 1, h⟩ } }, .pending)
    else ({ c with pending := none, misses := 0 }, .confirmed p.action)

end Confirm

/-! ## Runs -/

/-- What the screen does to the confirmation. -/
inductive Event where
  | request (action : Action) (now entropy : UInt64)
  | digit (d : UInt8) (now : UInt64)
  | cancel
  | stir (entropy : UInt64)
deriving DecidableEq

/-- What it answers. -/
inductive Reply where
  | request (r : Except Refused Code)
  | digit (o : Outcome)
  | done
deriving DecidableEq

namespace Event

/-- The time of an event that has one. -/
def time? : Event → Option UInt64
  | .request _ now _ => some now
  | .digit _ now => some now
  | .cancel => none
  | .stir _ => none

def digit? : Event → Option UInt8
  | .digit d _ => some d
  | _ => none

end Event

def Confirm.step (c : Confirm) : Event → Confirm × Reply
  | .request action now entropy => let r := c.request action now entropy; (r.1, .request r.2)
  | .digit d now => let r := c.digit d now; (r.1, .digit r.2)
  | .cancel => (c.cancel, .done)
  | .stir entropy => (c.stir entropy, .done)

abbrev History := List (Event × Reply)

/-- No event of a history is later than a time. -/
def History.Until (h : History) (now : UInt64) : Prop := ∀ x ∈ h, ∀ t ∈ x.1.time?, t ≤ now

/-- The histories of a screen whose clock never goes back, with the state each ends in. -/
inductive Run : History → Confirm → Prop where
  | start : Run [] Confirm.new
  | step {h : History} {c : Confirm} (e : Event) (hrun : Run h c) (hclock : ∀ now ∈ e.time?, h.Until now) :
      Run (h ++ [(e, (c.step e).2)]) (c.step e).1

/-- The misses since the last confirmation. -/
def History.misses (h : History) : Nat :=
  h.foldl (fun n x => match x.2 with
    | .digit .rejected => n + 1
    | .digit (.confirmed _) => 0
    | _ => n) 0

/-- The lockout of a miss, by its place among those in a row. -/
def lockout (k : Nat) : Nat := min (LOCKOUT_BASE_NS * 2 ^ (k - 1)) LOCKOUT_MAX_NS

/-- A stir, or a digit within the window of a request. -/
def Within (since : UInt64) : Event → Prop
  | .digit _ now => since ≤ now ∧ now.toNat < since.toNat + CONFIRM_WINDOW_NS
  | .stir _ => True
  | _ => False

/-- The last accepted request of a history, with the digits typed since, all in its window and nothing else but
stirs in between. -/
def Asked (h : History) (action : Action) (since : UInt64) (code : Code) (digits : List UInt8) : Prop :=
  ∃ before entropy after, h = before ++ (.request action since entropy, .request (.ok code)) :: after ∧
    (∀ x ∈ after, Within since x.1) ∧ after.filterMap (fun x => x.1.digit?) = digits

/-! ## What one step does -/

/-- A run's last step. -/
theorem Run.last {h : History} {x : Event × Reply} {c : Confirm} (hrun : Run (h ++ [x]) c) :
    ∃ c', Run h c' ∧ (∀ now ∈ x.1.time?, h.Until now) ∧ x.2 = (c'.step x.1).2 ∧ c = (c'.step x.1).1 := by
  generalize hall : h ++ [x] = all at hrun
  cases hrun with
  | start => simp at hall
  | step e hbefore hclock =>
    obtain ⟨rfl, hlast⟩ := List.append_inj' hall rfl
    obtain rfl := List.singleton_inj.mp hlast
    exact ⟨_, hbefore, hclock, rfl, rfl⟩

/-- The source stops the doubling at sixteen, where it is long past the ceiling. -/
theorem lockout_eq (misses : Nat) :
    min (min (LOCKOUT_BASE_NS * 2 ^ min misses 16) U64_MAX) LOCKOUT_MAX_NS = lockout (misses + 1) := by
  rw [lockout, Nat.add_sub_cancel]
  rcases Nat.le_total misses 16 with hle | hge
  · rw [Nat.min_eq_left hle]
    have hpow : 2 ^ misses ≤ 2 ^ 16 := Nat.pow_le_pow_right Nat.zero_lt_two hle
    rw [LOCKOUT_BASE_NS, U64_MAX, LOCKOUT_MAX_NS]
    omega
  · rw [Nat.min_eq_right hge]
    have hpow : 2 ^ 16 ≤ 2 ^ misses := Nat.pow_le_pow_right Nat.zero_lt_two hge
    rw [LOCKOUT_BASE_NS, U64_MAX, LOCKOUT_MAX_NS]
    omega

/-- The pending request that is still live. -/
theorem Confirm.live_eq_some {c : Confirm} {now : UInt64} {p : Pending} :
    c.live now = some p ↔ c.pending = some p ∧ now.toNat - p.sinceNs.toNat < CONFIRM_WINDOW_NS := by
  rw [Confirm.live, Option.filter_eq_some_iff, decide_eq_true_iff]

/-- What a digit does to a state in which nothing is live. -/
theorem Confirm.digit_idle {c : Confirm} {d : UInt8} {now : UInt64} (h : c.live now = none) :
    c.digit d now = ({ c with pending := none }, .idle) := by
  rw [Confirm.digit, h]

/-- All a digit does: nothing is live, it is the wrong one, it is the next one, or it is the last one. -/
theorem Confirm.digit_cases (c : Confirm) (d : UInt8) (now : UInt64) :
    c.digit d now = ({ c with pending := none }, .idle) ∨
    ∃ p, c.live now = some p ∧
      (c.digit d now = (⟨c.pool, none, min (c.misses + 1) U32_MAX,
          min (now.toNat + lockout (c.misses + 1)) U64_MAX⟩, .rejected) ∨
        p.code.get p.typed = d ∧
        ((∃ h : p.typed.val + 1 < CODE_DIGITS,
          c.digit d now = ({ c with pending := some { p with typed := ⟨p.typed.val + 1, h⟩ } }, .pending)) ∨
        (p.typed.val + 1 = CODE_DIGITS ∧
          c.digit d now = ({ c with pending := none, misses := 0 }, .confirmed p.action)))) := by
  cases hlive : c.live now with
  | none => exact Or.inl (Confirm.digit_idle hlive)
  | some p =>
    refine Or.inr ⟨p, rfl, ?_⟩
    rw [Confirm.digit, hlive]
    dsimp only
    by_cases hd : p.code.get p.typed = d
    · rw [if_neg (not_not.mpr hd)]
      refine Or.inr ⟨hd, ?_⟩
      by_cases hmore : p.typed.val + 1 < CODE_DIGITS
      · rw [dif_pos hmore]
        exact Or.inl ⟨hmore, rfl⟩
      · rw [dif_neg hmore]
        exact Or.inr ⟨Nat.le_antisymm p.typed.isLt (Nat.not_lt.mp hmore), rfl⟩
    · rw [if_pos hd, lockout_eq]
      exact Or.inl rfl

/-! ## What is pending was asked for -/

theorem Asked.stir {h : History} {action : Action} {since : UInt64} {code : Code} {digits : List UInt8}
    (hasked : Asked h action since code digits) (entropy : UInt64) (r : Reply) :
    Asked (h ++ [(.stir entropy, r)]) action since code digits := by
  obtain ⟨before, e, after, rfl, hwithin, rfl⟩ := hasked
  refine ⟨before, e, after ++ [(.stir entropy, r)], by simp, ?_, by simp [Event.digit?]⟩
  intro x hx
  rcases List.mem_append.mp hx with hx | hx
  · exact hwithin x hx
  · obtain rfl := List.mem_singleton.mp hx
    exact trivial

theorem Asked.digit {h : History} {action : Action} {since : UInt64} {code : Code} {digits : List UInt8}
    (hasked : Asked h action since code digits) {d : UInt8} {now : UInt64} (hclock : h.Until now)
    (hwindow : now.toNat - since.toNat < CONFIRM_WINDOW_NS) (r : Reply) :
    Asked (h ++ [(.digit d now, r)]) action since code (digits ++ [d]) := by
  obtain ⟨before, e, after, rfl, hwithin, rfl⟩ := hasked
  refine ⟨before, e, after ++ [(.digit d now, r)], by simp, ?_, by simp [Event.digit?]⟩
  intro x hx
  rcases List.mem_append.mp hx with hx | hx
  · exact hwithin x hx
  · obtain rfl := List.mem_singleton.mp hx
    have hsince : since ≤ now := hclock _ (List.mem_append_right _ List.mem_cons_self) _ rfl
    rw [UInt64.le_iff_toNat_le] at hsince
    rw [Within]
    exact ⟨UInt64.le_iff_toNat_le.mpr hsince, by omega⟩

/-- What a step leaves pending: what it accepted, or what was pending before it. -/
theorem Confirm.step_pending {c : Confirm} {e : Event} {p : Pending} (h : (c.step e).1.pending = some p) :
    (∃ entropy, e = .request p.action p.sinceNs entropy ∧ (c.step e).2 = .request (.ok p.code) ∧
      p.typed.val = 0 ∧ c.lockedUntilNs ≤ p.sinceNs.toNat) ∨
    (∃ d now q, ∃ hmore : q.typed.val + 1 < CODE_DIGITS, e = .digit d now ∧ c.live now = some q ∧
      q.code.get q.typed = d ∧ p = { q with typed := ⟨q.typed.val + 1, hmore⟩ }) ∨
    (∃ entropy, e = .stir entropy ∧ c.pending = some p) := by
  cases e with
  | request action now entropy =>
    rw [Confirm.step, Confirm.request] at h ⊢
    dsimp only at h ⊢
    split at h
    next => cases h
    next hfree =>
      rw [if_neg hfree]
      obtain rfl := Option.some.inj h
      rw [Confirm.lockoutRemainingNs] at hfree
      exact Or.inl ⟨entropy, rfl, rfl, rfl, show c.lockedUntilNs ≤ now.toNat by omega⟩
  | digit d now =>
    rw [Confirm.step] at h
    dsimp only at h
    rcases c.digit_cases d now with heq | ⟨q, hlive, heq | ⟨hd, ⟨hmore, heq⟩ | ⟨-, heq⟩⟩⟩
    · rw [heq] at h
      cases h
    · rw [heq] at h
      cases h
    · rw [heq] at h
      exact Or.inr (Or.inl ⟨d, now, q, hmore, rfl, hlive, hd, (Option.some.inj h).symm⟩)
    · rw [heq] at h
      cases h
  | cancel => exact absurd h (by simp [Confirm.step, Confirm.cancel])
  | stir entropy => exact Or.inr (Or.inr ⟨entropy, rfl, by simpa [Confirm.step] using h⟩)

/-- The digits typed of a code, one more. -/
theorem take_typed {code : Code} {typed : Fin CODE_DIGITS} {d : UInt8} (h : code.get typed = d) :
    code.toList.take (typed.val + 1) = code.toList.take typed.val ++ [d] := by
  rw [List.take_add_one, ← h, List.getElem?_eq_getElem (by simp), Option.toList_some]
  rfl

/-- In every run the pending request is the last accepted one, and its count is that of the code's digits typed
since, which were right. -/
theorem Run.asked {h : History} {c : Confirm} (hrun : Run h c) :
    ∀ p, c.pending = some p → Asked h p.action p.sinceNs p.code (p.code.toList.take p.typed.val) := by
  induction hrun with
  | start =>
    intro p hp
    cases hp
  | @step h c e hrun hclock ih =>
    intro p hp
    rcases Confirm.step_pending hp with ⟨entropy, rfl, hreply, hzero, -⟩ | ⟨d, now, q, hmore, rfl, hlive, hd, rfl⟩ |
      ⟨entropy, rfl, hbefore⟩
    · rw [hreply, hzero]
      exact ⟨h, entropy, [], rfl, fun x hx => absurd hx List.not_mem_nil, rfl⟩
    · obtain ⟨hpending, hwindow⟩ := Confirm.live_eq_some.mp hlive
      rw [take_typed hd]
      exact (ih q hpending).digit (hclock now rfl) hwindow _
    · exact (ih p hbefore).stir entropy _

/-- A confirmation answers the last accepted request. -/
theorem Run.confirmed {h : History} {d : UInt8} {now : UInt64} {action : Action} {c : Confirm}
    (hrun : Run (h ++ [(.digit d now, .digit (.confirmed action))]) c) :
    ∃ since code, Asked (h ++ [(.digit d now, .digit (.confirmed action))]) action since code code.toList := by
  obtain ⟨c', hbefore, hclock, hreply, -⟩ := hrun.last
  have houtcome : (c'.digit d now).2 = .confirmed action := (Reply.digit.inj hreply).symm
  rcases c'.digit_cases d now with heq | ⟨p, hlive, heq | ⟨hd, ⟨hmore, heq⟩ | ⟨hlast, heq⟩⟩⟩
  · rw [heq] at houtcome
    cases houtcome
  · rw [heq] at houtcome
    cases houtcome
  · rw [heq] at houtcome
    cases houtcome
  · rw [heq] at houtcome
    obtain rfl := Outcome.confirmed.inj houtcome
    obtain ⟨hpending, hwindow⟩ := Confirm.live_eq_some.mp hlive
    have hasked := (hbefore.asked p hpending).digit (d := d) (hclock now rfl) hwindow (.digit (.confirmed p.action))
    rw [← take_typed hd, hlast, List.take_of_length_le (by simp)] at hasked
    exact ⟨p.sinceNs, p.code, hasked⟩

/-! ## Lockouts -/

theorem Confirm.pending_lockedUntilNs (c : Confirm) (p : Option Pending) (r : Except Refused Code) :
    (({ c with pending := p }, r) : Confirm × Except Refused Code).1.lockedUntilNs = c.lockedUntilNs := rfl

theorem Confirm.pending_misses (c : Confirm) (p : Option Pending) (r : Except Refused Code) :
    (({ c with pending := p }, r) : Confirm × Except Refused Code).1.misses = c.misses := rfl

/-- A request leaves the lockout and the misses as they are. -/
theorem Confirm.request_frame (c : Confirm) (action : Action) (now entropy : UInt64) :
    (c.request action now entropy).1.lockedUntilNs = c.lockedUntilNs ∧
      (c.request action now entropy).1.misses = c.misses := by
  rw [Confirm.request]
  dsimp only
  split
  · exact ⟨rfl, rfl⟩
  · generalize drawDigits _ = drawn
    generalize hstirred : (c.stir _).stir _ = stirred
    constructor
    · rw [Confirm.pending_lockedUntilNs, ← hstirred, Confirm.stir_lockedUntilNs, Confirm.stir_lockedUntilNs]
    · rw [Confirm.pending_misses, ← hstirred, Confirm.stir_misses, Confirm.stir_misses]

/-- The lockout and the misses change at a miss and, the misses, at a confirmation. -/
theorem Confirm.step_locked (c : Confirm) (e : Event) :
    ((c.step e).1.lockedUntilNs = c.lockedUntilNs ∧
      ((∃ action, (c.step e).2 = .digit (.confirmed action) ∧ (c.step e).1.misses = 0) ∨
        (∀ action, (c.step e).2 ≠ .digit (.confirmed action)) ∧ (c.step e).2 ≠ .digit .rejected ∧
          (c.step e).1.misses = c.misses)) ∨
    ∃ d now p, e = .digit d now ∧ c.live now = some p ∧ (c.step e).2 = .digit .rejected ∧
      (c.step e).1 = ⟨c.pool, none, min (c.misses + 1) U32_MAX,
        min (now.toNat + lockout (c.misses + 1)) U64_MAX⟩ := by
  cases e with
  | request action now entropy =>
    obtain ⟨hlocked, hmisses⟩ := c.request_frame action now entropy
    exact Or.inl ⟨hlocked, Or.inr ⟨by simp [Confirm.step], by simp [Confirm.step], hmisses⟩⟩
  | digit d now =>
    rw [Confirm.step]
    dsimp only
    rcases c.digit_cases d now with heq | ⟨p, hlive, heq | ⟨hd, ⟨hmore, heq⟩ | ⟨-, heq⟩⟩⟩
    · rw [heq]
      exact Or.inl ⟨rfl, Or.inr ⟨by simp, by simp, rfl⟩⟩
    · rw [heq]
      exact Or.inr ⟨d, now, p, rfl, hlive, rfl, rfl⟩
    · rw [heq]
      exact Or.inl ⟨rfl, Or.inr ⟨by simp, by simp, rfl⟩⟩
    · rw [heq]
      exact Or.inl ⟨rfl, Or.inl ⟨p.action, rfl, rfl⟩⟩
  | cancel => exact Or.inl ⟨rfl, Or.inr ⟨by simp [Confirm.step], by simp [Confirm.step], rfl⟩⟩
  | stir entropy =>
    exact Or.inl ⟨c.stir_lockedUntilNs entropy, Or.inr ⟨by simp [Confirm.step], by simp [Confirm.step],
      c.stir_misses entropy⟩⟩

/-- What is pending was accepted when no lockout was on. -/
theorem Run.unlocked {h : History} {c : Confirm} (hrun : Run h c) :
    ∀ p, c.pending = some p → ∃ x ∈ h, ∃ t ∈ x.1.time?, c.lockedUntilNs ≤ t.toNat := by
  induction hrun with
  | start =>
    intro p hp
    cases hp
  | @step h c e hrun hclock ih =>
    intro p hp
    rcases c.step_locked e with ⟨hlocked, -⟩ | ⟨_, _, _, -, -, -, heq⟩
    · rw [hlocked]
      have hmore : (∃ q, c.pending = some q) →
          ∃ x ∈ h ++ [(e, (c.step e).2)], ∃ t ∈ x.1.time?, c.lockedUntilNs ≤ t.toNat := by
        intro ⟨q, hq⟩
        obtain ⟨x, hx, hlate⟩ := ih q hq
        exact ⟨x, List.mem_append_left _ hx, hlate⟩
      rcases Confirm.step_pending hp with ⟨entropy, rfl, -, -, hfree⟩ | ⟨_, _, q, -, -, hlive, -, -⟩ |
        ⟨_, -, hbefore⟩
      · exact ⟨_, List.mem_append_right _ List.mem_cons_self, p.sinceNs, rfl, hfree⟩
      · exact hmore ⟨q, (Confirm.live_eq_some.mp hlive).1⟩
      · exact hmore ⟨p, hbefore⟩
    · rw [heq] at hp
      cases hp

/-- While locked out no request is pending. -/
theorem Run.locked_none {h : History} {c : Confirm} (hrun : Run h c) {now : UInt64} (hnow : h.Until now)
    (hlocked : now.toNat < c.lockedUntilNs) : c.pending = none := by
  cases hpending : c.pending with
  | none => rfl
  | some p =>
    obtain ⟨x, hx, t, ht, hlate⟩ := hrun.unlocked p hpending
    have hle := UInt64.le_iff_toNat_le.mp (hnow x hx t ht)
    omega

/-- A history's misses, one event more. -/
theorem History.misses_snoc (h : History) (x : Event × Reply) :
    History.misses (h ++ [x]) = match x.2 with
      | .digit .rejected => h.misses + 1
      | .digit (.confirmed _) => 0
      | _ => h.misses := by
  rw [History.misses, List.foldl_append]
  rfl

/-- The source's count of misses is that of the history, as far as it goes. -/
theorem Run.misses {h : History} {c : Confirm} (hrun : Run h c) : c.misses = min h.misses U32_MAX := by
  induction hrun with
  | start => rfl
  | @step h c e hrun hclock ih =>
    rw [History.misses_snoc]
    rcases c.step_locked e with ⟨-, ⟨action, hreply, hmisses⟩ | ⟨hnot, hnot', hmisses⟩⟩ | ⟨_, _, _, -, -, hreply, heq⟩
    · rw [hmisses, hreply]
      rfl
    · rw [hmisses, ih]
      dsimp only
      split
      next hreply => exact absurd hreply hnot'
      next hreply => exact absurd hreply (hnot _)
      next => rfl
    · rw [heq, hreply, ih]
      show min (min h.misses U32_MAX + 1) U32_MAX = min (h.misses + 1) U32_MAX
      omega

/-- Past the ceiling a lockout is the same however many misses there were. -/
theorem lockout_min (misses : Nat) : lockout (min misses U32_MAX + 1) = lockout (misses + 1) := by
  rw [← lockout_eq, ← lockout_eq, show min (min misses U32_MAX) 16 = min misses 16 by rw [U32_MAX]; omega]

/-- The end of the lockout of a miss. -/
def lockedUntil (h : History) (now : UInt64) : Nat := min (now.toNat + lockout (h.misses + 1)) U64_MAX

/-- A miss sets its lockout, which stands until another miss, and there is none before it ends. -/
theorem Run.locked {h : History} {d : UInt8} {now : UInt64} (after : History) :
    ∀ {c : Confirm}, Run (h ++ (.digit d now, .digit .rejected) :: after) c →
      ((∀ x ∈ after, x.2 ≠ .digit .rejected) ∨ ∀ x ∈ after, ∀ t ∈ x.1.time?, t.toNat < lockedUntil h now) →
      c.lockedUntilNs = lockedUntil h now := by
  induction after using List.reverseRecOn with
  | nil =>
    intro c hrun _
    obtain ⟨c', hbefore, -, hreply, rfl⟩ := hrun.last
    rcases c'.step_locked (.digit d now) with ⟨-, ⟨action, hconfirmed, -⟩ | ⟨-, hnot, -⟩⟩ | ⟨_, _, _, he, -, -, heq⟩
    · rw [← hreply] at hconfirmed
      cases hconfirmed
    · exact absurd hreply.symm hnot
    · obtain ⟨rfl, rfl⟩ := Event.digit.inj he
      rw [heq]
      dsimp only
      rw [hbefore.misses, lockout_min, lockedUntil]
  | append_singleton after x ih =>
    intro c hrun hquiet
    rw [← List.cons_append, ← List.append_assoc] at hrun
    obtain ⟨c', hbefore, hclock, hreply, rfl⟩ := hrun.last
    have hlocked : c'.lockedUntilNs = lockedUntil h now := by
      refine ih hbefore (hquiet.imp ?_ ?_)
      · exact fun hnone y hy => hnone y (List.mem_append_left _ hy)
      · exact fun hearly y hy => hearly y (List.mem_append_left _ hy)
    rcases c'.step_locked x.1 with ⟨hsame, -⟩ | ⟨d', now', p, he, hlive, hmiss, -⟩
    · rw [hsame, hlocked]
    · -- A miss needs a pending request: before the lockout ends there is none.
      rcases hquiet with hnone | hearly
      · exact absurd (hreply.trans hmiss) (hnone x (List.mem_append_right _ List.mem_cons_self))
      · have htime : now' ∈ x.1.time? := by
          rw [he]
          rfl
        have hlt := hearly x (List.mem_append_right _ List.mem_cons_self) now' htime
        have hnone := hbefore.locked_none (hclock now' htime) (by rw [hlocked]; exact hlt)
        rw [(Confirm.live_eq_some.mp hlive).1] at hnone
        cases hnone

/-- A request is refused while locked out and accepted otherwise. -/
theorem Confirm.request_reply (c : Confirm) (action : Action) (now entropy : UInt64) :
    (now.toNat < c.lockedUntilNs → (c.request action now entropy).2 = .error (.lockedOut (c.lockedUntilNs - now.toNat))) ∧
      (c.lockedUntilNs ≤ now.toNat → ∃ code, (c.request action now entropy).2 = .ok code) := by
  rw [Confirm.request, Confirm.lockoutRemainingNs]
  dsimp only
  constructor
  · intro hlt
    rw [if_pos (by omega)]
  · intro hle
    rw [if_neg (by omega)]
    exact ⟨_, rfl⟩

/-- In every run a confirmation is of the last accepted request, its code's digits typed one after the other within
its window; while locked out nothing is pending; and a miss locks requests for its lockout, or to the end of the
clock if that comes first. -/
theorem Run.safe {h : History} {c : Confirm} (hrun : Run h c) :
    (∀ before d now action, h = before ++ [(.digit d now, .digit (.confirmed action))] →
      ∃ since code, Asked h action since code code.toList) ∧
    (∀ now, h.Until now → now.toNat < c.lockedUntilNs → c.pending = none) ∧
    (∀ before d now after action t entropy reply,
      h = before ++ (.digit d now, .digit .rejected) :: after ++ [(.request action t entropy, reply)] →
      (t.toNat < lockedUntil before now → reply = .request (.error (.lockedOut (lockedUntil before now - t.toNat)))) ∧
      (lockedUntil before now ≤ t.toNat → (∀ x ∈ after, x.2 ≠ .digit .rejected) →
        ∃ code, reply = .request (.ok code))) := by
  refine ⟨?_, fun now => hrun.locked_none, ?_⟩
  · rintro before d now action rfl
    exact hrun.confirmed
  · rintro before d now after action t entropy reply rfl
    obtain ⟨c', hbefore, hclock, hreply, -⟩ := hrun.last
    obtain ⟨hrefused, haccepted⟩ := c'.request_reply action t entropy
    constructor
    · intro hlt
      have hearly : ∀ x ∈ after, ∀ u ∈ x.1.time?, u.toNat < lockedUntil before now := by
        intro x hx u hu
        have hle := UInt64.le_iff_toNat_le.mp
          (hclock t rfl x (List.mem_append_right _ (List.mem_cons_of_mem _ hx)) u hu)
        omega
      have hlocked := hbefore.locked after (Or.inr hearly)
      rw [hlocked] at hrefused
      exact hreply.trans (congrArg Reply.request (hrefused hlt))
    · intro hle hnone
      have hlocked := hbefore.locked after (Or.inl hnone)
      rw [hlocked] at haccepted
      obtain ⟨code, hcode⟩ := haccepted hle
      exact ⟨code, hreply.trans (congrArg Reply.request hcode)⟩

/-- The source's answers to a list of events, from the start. -/
def replay (events : List Event) : History × Confirm :=
  events.foldl (fun x e => (x.1 ++ [(e, (x.2.step e).2)], (x.2.step e).1)) ([], Confirm.new)

theorem replay_snoc (events : List Event) (e : Event) :
    replay (events ++ [e]) =
      ((replay events).1 ++ [(e, ((replay events).2.step e).2)], ((replay events).2.step e).1) := by
  rw [replay, List.foldl_append]
  rfl

theorem replay_events (events : List Event) : (replay events).1.map Prod.fst = events := by
  induction events using List.reverseRecOn with
  | nil => rfl
  | append_singleton events e ih =>
    rw [replay_snoc]
    dsimp only
    rw [List.map_append, ih, List.map_cons, List.map_nil]

/-- Events in the order of the clock, with the source's answers, are a run. -/
theorem replay_run (events : List Event) (hclock : (events.filterMap Event.time?).Pairwise (· ≤ ·)) :
    Run (replay events).1 (replay events).2 := by
  induction events using List.reverseRecOn with
  | nil => exact Run.start
  | append_singleton events e ih =>
    rw [List.filterMap_append, List.pairwise_append] at hclock
    obtain ⟨hsorted, -, hlast⟩ := hclock
    rw [replay_snoc]
    refine Run.step e (ih hsorted) ?_
    intro now hnow x hx t ht
    have hevent : x.1 ∈ events := by
      have hmem := List.mem_map_of_mem (f := Prod.fst) hx
      rwa [replay_events] at hmem
    exact hlast t (List.mem_filterMap.mpr ⟨x.1, hevent, ht⟩) now (List.mem_filterMap.mpr ⟨e, List.mem_cons_self, hnow⟩)

/-- A miss within five seconds of the end of the clock locks requests for less than the lockout. -/
theorem lockout_cut_short : ¬ ∀ (h : History) (c : Confirm), Run h c →
    ∀ before d now after action t entropy reply,
      h = before ++ (.digit d now, .digit .rejected) :: after ++ [(.request action t entropy, reply)] →
      t.toNat < now.toNat + lockout (History.misses before + 1) → ∃ r, reply = .request (.error r) := by
  intro hclaim
  have hrun := replay_run [.request .restart 0xFFFFFFFFFFFFFFFE 0, .digit 10 0xFFFFFFFFFFFFFFFE,
    .request .restart 0xFFFFFFFFFFFFFFFF 0] (by decide)
  have hhistory : (replay [.request .restart 0xFFFFFFFFFFFFFFFE 0, .digit 10 0xFFFFFFFFFFFFFFFE,
      .request .restart 0xFFFFFFFFFFFFFFFF 0]).1 =
      [(.request .restart 0xFFFFFFFFFFFFFFFE 0, .request (.ok #v[0, 3]))] ++
        (.digit 10 0xFFFFFFFFFFFFFFFE, .digit .rejected) :: [] ++
        [(.request .restart 0xFFFFFFFFFFFFFFFF 0, .request (.ok #v[7, 3]))] := by
    decide
  obtain ⟨r, hr⟩ := hclaim _ _ hrun _ _ _ _ _ _ _ _ hhistory (by decide)
  cases hr

/-- A restart confirmed, its code's digits typed with a stir in between, and a shutdown that a wrong digit locks
out. -/
theorem Run.safe_demo :
    (∃ since code, Asked (replay [.request .restart 1000000000 1234, .digit 5 1500000000, .stir 7,
      .digit 7 2000000000]).1 .restart since code code.toList) ∧
    ((replay [.request .shutdown 3000000000 5, .digit 10 3000000000, .request .shutdown 4000000000 6]).1.getLast?.map
      Prod.snd = some (.request (.error (.lockedOut 4000000000)))) :=
  have hconfirmed := (replay_run [.request .restart 1000000000 1234, .digit 5 1500000000, .stir 7,
    .digit 7 2000000000] (by decide)).safe.1
      [(.request .restart 1000000000 1234, .request (.ok #v[5, 7])), (.digit 5 1500000000, .digit .pending),
        (.stir 7, .done)] 7 2000000000 .restart (by decide)
  have hhistory : (replay [.request .shutdown 3000000000 5, .digit 10 3000000000,
      .request .shutdown 4000000000 6]).1 =
      [(.request .shutdown 3000000000 5, .request (.ok #v[0, 0]))] ++ (.digit 10 3000000000, .digit .rejected) :: [] ++
        [(.request .shutdown 4000000000 6, .request (.error (.lockedOut 4000000000)))] := by
    decide
  have hrefused := ((replay_run [.request .shutdown 3000000000 5, .digit 10 3000000000,
    .request .shutdown 4000000000 6] (by decide)).safe.2.2 _ _ _ _ _ _ _ _ hhistory).1 (by decide)
  ⟨hconfirmed, by rw [hhistory]; exact congrArg some hrefused⟩

end NanoChrono.Power
