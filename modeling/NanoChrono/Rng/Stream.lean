import Mathlib.Tactic

/-! # The generator's output stage

The output stage expands a 32-byte key into keystream. Every request takes the next value of a 64-bit
nonce counter, the first keystream blocks under that nonce become the next key, and the output starts
after them. What the ciphers compute is a parameter, `Machine`; which keystream bytes a request
draws is not, so `Request.nextKey` and `Request.output` say where each byte comes from. -/

namespace NanoChrono.Rng

abbrev Bytes := List UInt8

abbrev Key := Vector UInt8 32

/-- Most output per request, and per key. -/
def CHUNK : Nat := 4096

/-- A path the output stage can run on. -/
inductive Engine where
  | vaes512
  | vaes256
  | aesNi
  | armAes
  | chaCha20
deriving DecidableEq, Repr

/-- Which engine the embedder wants. -/
inductive EngineChoice where
  | auto
  | software
deriving DecidableEq, Repr

/-- Why a read failed. -/
inductive RngError where
  | misuse
  | rct
  | apt
  | timer
  | lag
  | rctPermanent
  | aptPermanent
  | lagPermanent
  | memory
  | memoryPermanent
  | selfTest
  | noSource
deriving DecidableEq, Repr

/-- What the machine brings: the engines its CPU and this build support, the block ciphers (a byte of
a keystream block under a key and a nonce), and the two hash functions. -/
structure Machine where
  supported : Engine → Bool
  cipher : Engine → Key → (nonce : Nat) → (block offset : Nat) → UInt8
  shake256 : Bytes → (n : Nat) → Vector UInt8 n
  sha3_256 : Bytes → Vector UInt8 32

namespace Engine

/-- Whether this engine can run: ChaCha20 needs nothing. -/
def isSupported (m : Machine) : Engine → Bool
  | chaCha20 => true
  | e => m.supported e

/-- The best engine this build can run on this CPU. -/
def detect (m : Machine) : Engine :=
  ([vaes512, vaes256, aesNi, armAes].find? (isSupported m)).getD chaCha20

/-- Keystream blocks the next key is taken from; output starts after them. -/
def keyBlocks : Engine → Nat
  | chaCha20 => 1
  | _ => 2

/-- Bytes per keystream block. -/
def blockLen : Engine → Nat
  | chaCha20 => 64
  | _ => 16

/-- The width of the block counter: it wraps past that many bits. -/
def counterBits : Engine → Nat
  | chaCha20 => 32
  | _ => 64

/-- Where byte `i` of a keystream that starts at block `first` comes from: the block, by the counter
as it wraps, and the offset in it. -/
def cell (e : Engine) (first i : Nat) : Nat × Nat :=
  ((first + i / e.blockLen) % 2 ^ e.counterBits, i % e.blockLen)

/-- `n` bytes of keystream under `key` and `nonce`, from block `first`. -/
def keystream (m : Machine) (e : Engine) (key : Key) (nonce first n : Nat) : Vector UInt8 n :=
  .ofFn fun i => m.cipher e key nonce (e.cell first i).1 (e.cell first i).2

end Engine

/-- One request of the output stage. -/
structure Request where
  engine : Engine
  key : Key
  nonce : Nat
  len : Nat
deriving DecidableEq, Repr

namespace Request

/-- The keystream that becomes the next key. -/
def nextKey (m : Machine) (r : Request) : Key := r.engine.keystream m r.key r.nonce 0 32

/-- The keystream handed out. -/
def output (m : Machine) (r : Request) : Vector UInt8 r.len :=
  r.engine.keystream m r.key r.nonce r.engine.keyBlocks r.len

end Request

/-- The output stage's state: the current key, and the nonce counter. -/
structure Stream where
  engine : Engine
  key : Key
  keyed : Bool
  nextNonce : Nat
deriving DecidableEq, Repr

namespace Stream

/-- An unkeyed stage on ChaCha20. -/
def new : Stream := ⟨.chaCha20, .replicate 32 0, false, 0⟩

/-- Switches engine. One the CPU cannot run becomes ChaCha20. -/
def setEngine (m : Machine) (s : Stream) (e : Engine) : Stream :=
  { s with engine := if e.isSupported m then e else .chaCha20 }

/-- Installs a fresh key. The nonce counter carries on. -/
def rekey (s : Stream) (key : Key) : Stream := { s with key := key, keyed := true }

/-- Serves a request of `len` bytes under a fresh nonce, and replaces the key with keystream that is
not handed out. -/
def generate (m : Machine) (s : Stream) (len : Nat) : Stream × Except RngError Request :=
  if ¬ s.keyed ∨ len > CHUNK then (s, .error .misuse)
  else if s.nextNonce + 1 < 2 ^ 64 then
    let r : Request := ⟨s.engine, s.key, s.nextNonce, len⟩
    ({ s with nextNonce := s.nextNonce + 1, key := r.nextKey m }, .ok r)
  else (s, .error .misuse)

/-- Erases the key. The nonce counter is kept. -/
def wipe (s : Stream) : Stream := { s with key := .replicate 32 0, keyed := false }

variable (m : Machine) (s : Stream)

@[simp] theorem setEngine_nextNonce (e : Engine) : (s.setEngine m e).nextNonce = s.nextNonce := rfl

@[simp] theorem rekey_nextNonce (key : Key) : (s.rekey key).nextNonce = s.nextNonce := rfl

@[simp] theorem wipe_nextNonce : s.wipe.nextNonce = s.nextNonce := rfl

/-- What a request does: it is refused and nothing changes, or it takes the counter's nonce. -/
theorem generate_cases (len : Nat) :
    s.generate m len = (s, .error .misuse) ∨
    ∃ r : Request, s.generate m len = ({ s with nextNonce := s.nextNonce + 1, key := r.nextKey m },
        .ok r) ∧ r = ⟨s.engine, s.key, s.nextNonce, len⟩ ∧ len ≤ CHUNK ∧ s.nextNonce + 1 < 2 ^ 64 := by
  rw [generate]
  split
  · exact .inl rfl
  · next hok =>
    rw [not_or] at hok
    split
    · next hlt => exact .inr ⟨_, rfl, rfl, Nat.le_of_not_lt hok.2, hlt⟩
    · exact .inl rfl

end Stream

end NanoChrono.Rng
