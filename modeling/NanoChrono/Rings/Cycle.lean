import Mathlib.Data.List.Basic
import Mathlib.Data.Nat.ModEq
import Mathlib.Logic.Function.Basic
import Mathlib.Tactic.Ring

/-! # Rings with cycle bits

A ring of `n` entries and a link back to its start. Producer and consumer share no counter: an entry
belongs to a lap if its cycle bit is the lap's, and the bit changes with every lap. What is put on the
ring is what is taken off it, in order (`Served.fetch`), as long as the producer never laps the
consumer and the entry it will write next does not look new: an entry left from before the ring was
started may carry the bit of the lap. -/

namespace NanoChrono.Rings

variable {α : Type*}

/-- An entry: something to execute, or the link back to the start; and its cycle bit. -/
structure Entry (α : Type*) where
  body : Option α
  cycle : Bool

/-- Where a producer or a consumer is: the next entry, and the cycle bit of its lap. -/
@[ext] structure Cursor where
  index : Nat
  cycle : Bool
deriving DecidableEq, Repr

/-- The start of a ring, in the first lap. -/
def Cursor.start : Cursor := ⟨0, true⟩

/-- Puts an entry at the producer's place; at the end of the ring the link is written first. -/
def put (n : Nat) (mem : Nat → Entry α) (p : Cursor) (a : α) : (Nat → Entry α) × Cursor :=
  if p.index ≥ n then
    (Function.update (Function.update mem n ⟨none, p.cycle⟩) 0 ⟨some a, !p.cycle⟩, ⟨1, !p.cycle⟩)
  else (Function.update mem p.index ⟨some a, p.cycle⟩, ⟨p.index + 1, p.cycle⟩)

/-- What the consumer does next: nothing, if the entry is not of its lap; follow the link; or execute
the entry. -/
def fetch (mem : Nat → Entry α) (c : Cursor) : Option (Option α × Cursor) :=
  if (mem c.index).cycle ≠ c.cycle then none
  else
    match (mem c.index).body with
    | none => some (none, ⟨0, !c.cycle⟩)
    | some a => some (some a, ⟨c.index + 1, c.cycle⟩)

/-- The cycle bit of a lap. -/
def phase (lap : Nat) : Bool := lap % 2 == 0

@[simp] theorem phase_succ (lap : Nat) : phase (lap + 1) = !phase lap := by
  have hcases : lap % 2 = 0 ∨ lap % 2 = 1 := by omega
  rcases hcases with h | h
  · simp [phase, h, show (lap + 1) % 2 = 1 by omega]
  · simp [phase, h, show (lap + 1) % 2 = 0 by omega]

/-- Where a cursor is after `count` entries, in which lap. -/
structure At (n : Nat) (c : Cursor) (lap count : Nat) : Prop where
  count : count = lap * n + c.index
  index : c.index ≤ n
  cycle : c.cycle = phase lap

/-- What the producer has left in the ring: the last `n` entries of those put, and the link if it has
been round. -/
structure Produced (n : Nat) (mem : Nat → Entry α) (p : Cursor) (lap : Nat) (puts : List α) : Prop where
  place : At n p lap puts.length
  first : p.index = 0 → lap = 0
  held : ∀ k a, puts[k]? = some a → puts.length ≤ k + n → mem (k % n) = ⟨some a, phase (k / n)⟩
  link : 0 < lap → mem n = ⟨none, phase (lap - 1)⟩

/-- A ring that was just started holds nothing of the new lap. -/
theorem Produced.start (n : Nat) (mem : Nat → Entry α) : Produced n mem Cursor.start 0 [] where
  place := ⟨by simp [Cursor.start], Nat.zero_le _, rfl⟩
  first _ := rfl
  held k a h := by simp at h
  link h := absurd h (Nat.lt_irrefl 0)

theorem mul_add_mod_lt {n lap i : Nat} (h : i < n) : (lap * n + i) % n = i := by
  rw [Nat.mul_comm, Nat.mul_add_mod, Nat.mod_eq_of_lt h]

theorem mul_add_div_lt {n lap i : Nat} (h : i < n) : (lap * n + i) / n = lap := by
  rw [Nat.mul_comm, Nat.mul_add_div (by omega), Nat.div_eq_of_lt h, Nat.add_zero]

/-- Fewer than `n` entries apart are in different places. -/
theorem mod_ne_of_lt {n k m : Nat} (hlt : k < m) (hn : m < k + n) : k % n ≠ m % n := by
  intro h
  have hdvd := (Nat.modEq_iff_dvd' hlt.le).1 h
  have := Nat.le_of_dvd (by omega) hdvd
  omega

/-- The producer puts an entry after those it put before. -/
theorem Produced.put {n : Nat} (hn : 0 < n) {mem : Nat → Entry α} {p : Cursor} {lap : Nat}
    {puts : List α} (h : Produced n mem p lap puts) (a : α) :
    ∃ lap', Produced n (put n mem p a).1 (put n mem p a).2 lap' (puts ++ [a]) := by
  obtain ⟨⟨hcount, hindex, hcycle⟩, -, hheld, hlink⟩ := h
  by_cases hend : p.index ≥ n
  · -- the ring is full: the link is written and the next lap begins
    obtain hfull : p.index = n := by omega
    have hlength : puts.length = (lap + 1) * n := by rw [hcount, hfull, Nat.add_mul, Nat.one_mul]
    have hlap : lap * n + n = (lap + 1) * n := by rw [Nat.add_mul, Nat.one_mul]
    have hother : ∀ k a', puts[k]? = some a' → puts.length + 1 ≤ k + n → k % n ≠ 0 := by
      intro k a' hk hroom hzero
      have hlt : k < puts.length := (List.getElem?_eq_some_iff.1 hk).1
      refine mod_ne_of_lt (n := n) hlt (by omega) ?_
      rw [hzero, hlength, Nat.mul_mod_left]
    rw [Rings.put, if_pos hend]
    dsimp only
    refine ⟨lap + 1, ⟨?_, hn, by rw [hcycle, phase_succ]⟩, fun h => absurd h Nat.one_ne_zero, ?_, ?_⟩
    · rw [List.length_append, hlength]
      rfl
    · intro k a' hk hroom
      rw [List.length_append, List.length_singleton] at hroom
      by_cases hlt : k < puts.length
      · rw [List.getElem?_append_left hlt] at hk
        have hmod := Nat.mod_lt k hn
        rw [Function.update_of_ne (hother k a' hk hroom), Function.update_of_ne (by omega)]
        exact hheld k a' hk (by omega)
      · have hk' : k = puts.length := by
          have := (List.getElem?_eq_some_iff.1 hk).1
          rw [List.length_append, List.length_singleton] at this
          omega
        rw [List.getElem?_append_right (by omega), hk', Nat.sub_self] at hk
        obtain rfl : a = a' := by simpa using hk
        rw [hk', hlength, Nat.mul_mod_left, Nat.mul_div_cancel _ hn, Function.update_self, hcycle,
          phase_succ]
    · intro _
      rw [Function.update_of_ne (by omega), Function.update_self, hcycle, Nat.add_sub_cancel]
  · rw [Rings.put, if_neg hend]
    dsimp only
    have hmod : puts.length % n = p.index := by rw [hcount, mul_add_mod_lt (by omega)]
    have hdiv : puts.length / n = lap := by rw [hcount, mul_add_div_lt (by omega)]
    refine ⟨lap, ⟨?_, by show p.index + 1 ≤ n; omega, hcycle⟩,
      fun h => absurd h (Nat.succ_ne_zero _), ?_, ?_⟩
    · rw [List.length_append, hcount]
      rfl
    · intro k a' hk hroom
      rw [List.length_append, List.length_singleton] at hroom
      by_cases hlt : k < puts.length
      · rw [List.getElem?_append_left hlt] at hk
        have hne := mod_ne_of_lt (n := n) hlt (by omega)
        rw [hmod] at hne
        rw [Function.update_of_ne hne]
        exact hheld k a' hk (by omega)
      · have hk' : k = puts.length := by
          have := (List.getElem?_eq_some_iff.1 hk).1
          rw [List.length_append, List.length_singleton] at this
          omega
        rw [List.getElem?_append_right (by omega), hk', Nat.sub_self] at hk
        obtain rfl : a = a' := by simpa using hk
        rw [hk', hmod, hdiv, Function.update_self, hcycle]
    · intro hpos
      rw [Function.update_of_ne (by omega)]
      exact hlink hpos

/-- A consumer that serves a ring: it has executed the first of what was put, at most a ring's length
is left, and the entry the producer writes next does not look new. -/
structure Served (n : Nat) (mem : Nat → Entry α) (p : Cursor) (puts : List α) (c : Cursor)
    (executed : List α) : Prop where
  produced : ∃ lap, Produced n mem p lap puts
  consumed : ∃ lap, At n c lap executed.length ∧ (c.index = 0 → 0 < lap → lap * n < puts.length)
  done : executed <+: puts
  room : puts.length ≤ executed.length + n
  quiet : (mem p.index).cycle ≠ p.cycle

/-- A consumer that begins on a ring on which no more was put than it holds. -/
theorem Served.start {n : Nat} {mem : Nat → Entry α} {p : Cursor} {lap : Nat} {puts : List α}
    (h : Produced n mem p lap puts) (hroom : puts.length ≤ n) (hquiet : (mem p.index).cycle ≠ p.cycle) :
    Served n mem p puts Cursor.start [] where
  produced := ⟨lap, h⟩
  consumed := ⟨0, ⟨by simp [Cursor.start], Nat.zero_le _, rfl⟩, fun _ h => absurd h (Nat.lt_irrefl 0)⟩
  done := List.nil_prefix
  room := by simpa using hroom
  quiet := hquiet

/-- One more entry is put, while there is room and the next place does not look new. -/
theorem Served.put {n : Nat} (hn : 0 < n) {mem : Nat → Entry α} {p c : Cursor}
    {puts executed : List α} (h : Served n mem p puts c executed) (a : α)
    (hroom : puts.length < executed.length + n)
    (hquiet : ((Rings.put n mem p a).1 (Rings.put n mem p a).2.index).cycle ≠
      (Rings.put n mem p a).2.cycle) :
    Served n (Rings.put n mem p a).1 (Rings.put n mem p a).2 (puts ++ [a]) c executed := by
  obtain ⟨lap, hproduced⟩ := h.produced
  obtain ⟨lap', hat, hfirst⟩ := h.consumed
  refine ⟨hproduced.put hn a, ⟨lap', hat, fun h0 hpos => ?_⟩, h.done.trans (List.prefix_append _ _),
    ?_, hquiet⟩
  · have := hfirst h0 hpos
    rw [List.length_append]
    omega
  · rw [List.length_append, List.length_singleton]
    omega

theorem prefix_concat {l m : List α} {a : α} (h : l <+: m) (ha : m[l.length]? = some a) :
    l ++ [a] <+: m := by
  obtain ⟨t, rfl⟩ := h
  cases t with
  | nil => simp at ha
  | cons b t =>
    rw [List.getElem?_append_right (Nat.le_refl _), Nat.sub_self] at ha
    obtain rfl : b = a := by simpa using ha
    exact ⟨t, by simp⟩

/-- A producer that has put more than the consumer's lap holds is in the next lap. -/
theorem lap_of_next {n lapP lapC i P C : Nat} (hroom : P ≤ C + n) (hlt : C < P)
    (hP : P = lapP * n + i) (hi : i ≤ n) (hzero : i = 0 → lapP = 0) (hC : C = lapC * n + n) :
    lapP = lapC + 1 := by
  rcases Nat.lt_trichotomy lapP (lapC + 1) with hbefore | heq | hafter
  · have hmul : lapP * n ≤ lapC * n := Nat.mul_le_mul_right n (Nat.le_of_lt_succ hbefore)
    omega
  · exact heq
  · have hmul : (lapC + 2) * n ≤ lapP * n := Nat.mul_le_mul_right n hafter
    rw [Nat.add_mul] at hmul
    have := hzero (by omega)
    omega

/-- The consumer executes the next of what was put, or follows the link, and does nothing only when
all of it is executed. -/
theorem Served.fetch {n : Nat} {mem : Nat → Entry α} {p c : Cursor}
    {puts executed : List α} (h : Served n mem p puts c executed) :
    match Rings.fetch mem c with
    | none => executed = puts
    | some (none, c') => Served n mem p puts c' executed
    | some (some a, c') => Served n mem p puts c' (executed ++ [a]) := by
  obtain ⟨lapP, ⟨hplace, hindex, hcycle⟩, hzero, hheld, hlink⟩ := h.produced
  obtain ⟨lapC, ⟨hplaceC, hindexC, hcycleC⟩, hfirst⟩ := h.consumed
  have hle : executed.length ≤ puts.length := h.done.length_le
  rcases Nat.lt_or_ge executed.length puts.length with hlt | hge
  · -- something is left to execute
    obtain ⟨a, ha⟩ : ∃ a, puts[executed.length]? = some a :=
      ⟨_, List.getElem?_eq_getElem hlt⟩
    rcases Nat.lt_or_ge c.index n with hin | hend
    · have hentry := hheld _ a ha h.room
      rw [hplaceC, mul_add_mod_lt hin, mul_add_div_lt hin] at hentry
      have hfetch : Rings.fetch mem c = some (some a, ⟨c.index + 1, c.cycle⟩) := by
        rw [Rings.fetch, hentry, hcycleC]
        simp
      rw [hfetch]
      refine ⟨⟨lapP, ⟨hplace, hindex, hcycle⟩, hzero, hheld, hlink⟩,
        ⟨lapC, ⟨?_, by show c.index + 1 ≤ n; omega, hcycleC⟩, fun h0 => absurd h0 (Nat.succ_ne_zero _)⟩,
        ?_, ?_, h.quiet⟩
      · rw [List.length_append, hplaceC]
        rfl
      · exact prefix_concat h.done ha
      · rw [List.length_append, List.length_singleton]
        have := h.room
        omega
    · -- at the end of the lap: the producer has been round and left the link
      have hfull : c.index = n := by omega
      have hlaps : lapP = lapC + 1 := lap_of_next h.room hlt hplace hindex hzero (by rw [hplaceC, hfull])
      have hentry := hlink (by omega)
      rw [hlaps, Nat.add_sub_cancel] at hentry
      have hfetch : Rings.fetch mem c = some (none, ⟨0, !c.cycle⟩) := by
        rw [Rings.fetch, hfull, hentry, hcycleC]
        simp
      rw [hfetch]
      refine ⟨⟨lapP, ⟨hplace, hindex, hcycle⟩, hzero, hheld, hlink⟩, ⟨lapC + 1, ⟨?_, Nat.zero_le _, ?_⟩, ?_⟩,
        h.done, h.room, h.quiet⟩
      · rw [hplaceC, hfull, Nat.add_mul, Nat.one_mul]
        rfl
      · rw [phase_succ, ← hcycleC]
      · intro _ _
        rw [Nat.add_mul, Nat.one_mul]
        omega
  · -- all is executed, and the consumer is where the producer is
    have hcount : lapC * n + c.index = lapP * n + p.index := by omega
    have hlaps : lapC = lapP := by
      rcases Nat.lt_trichotomy lapC lapP with hbefore | heq | hafter
      · have hmul : (lapC + 1) * n ≤ lapP * n := Nat.mul_le_mul_right n hbefore
        rw [Nat.add_mul, Nat.one_mul] at hmul
        have := hzero (by omega)
        omega
      · exact heq
      · have hmul : (lapP + 1) * n ≤ lapC * n := Nat.mul_le_mul_right n hafter
        rw [Nat.add_mul, Nat.one_mul] at hmul
        have := hfirst (by omega) (by omega)
        omega
    have hsame : c = p := by
      subst hlaps
      exact Cursor.ext (by omega) (hcycleC.trans hcycle.symm)
    have hfetch : Rings.fetch mem c = none := by
      rw [Rings.fetch, hsame, if_pos h.quiet]
    rw [hfetch]
    exact h.done.eq_of_length (by omega)

end NanoChrono.Rings
