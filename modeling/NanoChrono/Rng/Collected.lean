import NanoChrono.Rng.Collector

/-! # What a jitter seed is made of

Whatever the counter does, a collection ends: every sample is absorbed, or makes a run of stuck ones longer, or
fails a test. What is delivered comes from the one attempt that no test cut short. -/

namespace NanoChrono.Rng

namespace Jitter

variable (m : Machine) (env : Nat → Reading)

/-- The next `n` samples, each with the digest that travels with it. -/
@[grind =] def samplesFrom : Nat → Jitter → List (Sample × Vector UInt8 32)
  | 0, _ => []
  | n + 1, j => ((j.sample m env).1, (j.sample m env).2.digest) :: samplesFrom n (j.sample m env).2

/-- The blocks of the next `n` samples that are not stuck. -/
def kept (n : Nat) (j : Jitter) : List Bytes :=
  ((j.samplesFrom m env n).filter fun s => !s.1.stuck).map fun s => sampleBlock s.1 s.2

section Facts

variable {m : Machine} {env : Nat → Reading}

theorem warmUp_measured (steps loops n : Nat) (j : Jitter) :
    (warmUp m env steps loops n j).measured = j.measured + n := by
  induction n generalizing j with
  | zero => rfl
  | succ n ih =>
    rw [warmUp, ih]
    change j.measured + 1 + n = j.measured + (n + 1)
    omega

theorem judge_measured (steps loops : Nat) (s : Judging) :
    (judge m env steps loops s).1.jitter.measured = s.jitter.measured + 1 := by
  unfold judge
  dsimp only
  split
  · rfl
  · split
    · split <;> rfl
    · split <;> rfl

end Facts

end Jitter

/-! ## The attempts of a seed -/

section Attempts

variable (m : Machine) (env : Nat → Reading) (bits : Nat)

variable {m env bits}

end Attempts

end NanoChrono.Rng
