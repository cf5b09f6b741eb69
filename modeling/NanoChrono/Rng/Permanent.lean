import NanoChrono.Rng.Degraded

/-! # Permanent failures

A permanent failure of the jitter source is to take the pool out of service. It does where no other
source makes up the seed: the seed then fails with the jitter source's error, and the pool records it.
Where another source stands in, the error stays in the jitter source's state and the pool goes on. -/

namespace NanoChrono.Rng

variable {m : Machine} {d : Device} {s : Supply} {e : RngError} {c : Config}

/-! ## The configuration stays -/

namespace Pool

variable (p : Pool)

end Pool

namespace Device

end Device

/-! ## A seed nothing can stand in for -/

namespace Pool

end Pool

namespace Device

/-- The trace has a permanent failure of the jitter source. -/
def Reports (es : List Event) : Prop := ∃ e s, Event.reported e s ∈ es ∧ e.isPermanent = true

/-- Every permanent failure in the trace comes at a seed that no other source stands in for. -/
def Unaided (c : Config) (es : List Event) : Prop :=
  ∀ e s, Event.reported e s ∈ es → e.isPermanent = true → ¬ s.StandsIn c

theorem Reports.append {es fs : List Event} (h : Reports (es ++ fs)) : Reports es ∨ Reports fs := by
  obtain ⟨e, s, hmem, he⟩ := h
  rcases List.mem_append.1 hmem with hmem | hmem
  · exact .inl ⟨e, s, hmem, he⟩
  · exact .inr ⟨e, s, hmem, he⟩

theorem Unaided.left {es fs : List Event} (h : Unaided c (es ++ fs)) : Unaided c es :=
  fun e s hmem => h e s (List.mem_append_left _ hmem)

theorem Unaided.right {es fs : List Event} (h : Unaided c (es ++ fs)) : Unaided c fs :=
  fun e s hmem => h e s (List.mem_append_right _ hmem)

/-- Out of service. -/
def Failed (d : Device) : Prop := ∃ e, d.pool.state = .failed e

variable {mode : Mode}

/-- A pool out of service refuses every read. -/
theorem Failed.fill (h : Failed d) {out : Bytes} (hne : out ≠ []) (mode : Mode) (b : Start)
    (env : Nat → Supply) : ∃ e, (d.fill m out mode b env).result = .error e ∧
      (d.fill m out mode b env).buffer = List.replicate out.length 0 := by
  obtain ⟨e, he⟩ := h
  simp only [Device.fill, List.isEmpty_iff, hne, if_false, start, he]
  exact ⟨e, rfl, rfl⟩

/-- Nothing puts it back in service. -/
theorem Failed.serve (h : Failed d) (r : Call) : Failed (d.serve m r).1 := by
  obtain ⟨e, he⟩ := h
  cases r with
  | start b => exact ⟨e, by simp only [Device.serve, start, he]⟩
  | selftest t =>
    simp only [Device.serve, Pool.selftest]
    split
    · exact ⟨.selfTest, rfl⟩
    · exact ⟨e, he⟩
  | fill out mode b env =>
    by_cases hempty : out.isEmpty = true
    · exact ⟨e, by simp only [Device.serve, Device.fill, hempty, if_true, he]⟩
    · exact ⟨e, by simp only [Device.serve, Device.fill, hempty, Bool.false_eq_true, if_false, start, he]⟩
  | stir tag value now => exact ⟨e, he⟩
  | wipe =>
    refine ⟨e, ?_⟩
    simp only [Device.serve, Pool.wipe, he]
    rfl

theorem Failed.after (h : Failed d) (rs : List Call) : Failed (d.after m rs) := by
  induction rs generalizing d with
  | nil => exact h
  | cons r rs ih => exact ih (h.serve r)

/-! ## Runs -/

theorem after_append (d : Device) (rs ts : List Call) :
    d.after m (rs ++ ts) = (d.after m rs).after m ts := by
  induction rs generalizing d with
  | nil => rfl
  | cons r rs ih => exact ih _

end Device

section Runs

open Device

end Runs

end NanoChrono.Rng
