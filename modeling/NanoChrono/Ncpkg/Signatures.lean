import NanoChrono.Ncpkg.Manifest

/-! # Signatures

Who vouches for a package, and for which ring. The cryptography is the platform's, a `Verifier`; the
text of a signature, the message it signs and what the verdicts amount to are decided here. -/

namespace NanoChrono.Ncpkg

/-- The text's bytes. -/
def textBytes (s : String) : Bytes := s.toList.flatMap String.utf8EncodeChar

/-! ## Base64

The standard alphabet, padded, in its canonical spelling only. -/

namespace Base64

/-- The padding character. -/
def padding : UInt8 := 0x3D

/-- What a character of the alphabet stands for. -/
def value (c : UInt8) : Option Nat :=
  if 0x41 ≤ c ∧ c ≤ 0x5A then some (c.toNat - 0x41)
  else if 0x61 ≤ c ∧ c ≤ 0x7A then some (c.toNat - 0x61 + 26)
  else if 0x30 ≤ c ∧ c ≤ 0x39 then some (c.toNat - 0x30 + 52)
  else if c = 0x2B then some 62
  else if c = 0x2F then some 63
  else none

/-- The decoded length of `text`, if it is well formed in length and padding. -/
def decodedLen (text : Bytes) : Option Nat :=
  if text.length % 4 ≠ 0 then none
  else
    let pad := (text.reverse.takeWhile (· == padding)).length
    if pad > 2 then none else some (text.length / 4 * 3 - pad)

/-- The bytes of one group of four characters, of which the last `pad` are padding. -/
def decodeQuad (last : Bool) (quad : Bytes) : Option Bytes := do
  let pad := if last then quad.count padding else 0
  -- Padding stands at the very end only, and only as a suffix.
  guard ¬ (!last && quad.contains padding || (quad.take (4 - pad)).contains padding)
  let digits ← (quad.take (4 - pad)).mapM value
  let acc := digits.foldl (fun acc d => acc * 64 + d) 0 * 64 ^ pad
  let bytes : Bytes := [.ofNat (acc / 2 ^ 16), .ofNat (acc / 2 ^ 8), .ofNat acc]
  let keep := 3 - pad
  -- The bits the padding leaves unused must be zero.
  guard ¬ (pad > 0 && (bytes.drop keep).any (· != 0))
  return bytes.take keep

/-- The groups of four characters, decoded into `room` bytes. -/
@[grind =] def decodeQuads : (room : Nat) → Bytes → Option Bytes
  | room, a :: b :: c :: d :: rest => do
    let bytes ← decodeQuad rest.isEmpty [a, b, c, d]
    guard (bytes.length ≤ room)
    return bytes ++ (← decodeQuads (room - bytes.length) rest)
  | _, _ => some []

/-- Decodes `text` into `room` bytes: nothing but the canonical encoding, and only if it fits. -/
def decode (text : Bytes) (room : Nat) : Option Bytes := do
  let n ← decodedLen text
  guard (n ≤ room)
  decodeQuads n text

end Base64

example : Base64.decode (textBytes "Zm9vYg==") 4 = some (textBytes "foob") := by decide

example : Base64.decode (textBytes "Zm9vYh==") 4 = none := by decide

/-! ## Messages -/

/-- Domain separation for package signatures. -/
def DOMAIN : Bytes := textBytes "NCPKG-SIG-2" ++ [0]

/-- The largest decoded signature. -/
def MAX_SIG_BYTES : Nat := 64 * 1024

/-- The largest decoded public key set. -/
def MAX_PUBKEY_BYTES : Nat := 4096

namespace Message

variable (digest : Bytes → Digest)

/-- The message a signature in `role` signs, in a domain of at most 16 bytes that ends in NUL. -/
def inDomain (domain : Bytes) (role : Role) (signed : Bytes) : Bytes :=
  domain.take 16 ++ textBytes role.name ++ [0] ++ (digest signed).toList

/-- The message a package signature in `role` signs. -/
def new (role : Role) (signed : Bytes) : Bytes := inDomain digest DOMAIN role signed

end Message

/-! ## Verdicts -/

/-- One entry of the manifest's `signatures`. -/
structure SigEntry where
  role : Role
  alg : String
  key : String
  /-- Base64 public keys: self-signatures only. -/
  pubkey : Option Bytes
  /-- Base64 signature bytes. -/
  sig : Bytes
deriving DecidableEq, Repr

/-- What a verifier makes of one signature. -/
inductive Verdict where
  | valid
  | invalid
  | unknownKey
  | unsupported
deriving DecidableEq, Repr

/-- The platform's cryptography and trust store, which may answer as it likes and change as it does. -/
structure Verifier (σ : Type) where
  verify : σ → Role → (alg key : String) → (pubkey message sig : Bytes) → Verdict × σ
  /-- Whether the machine's owner enrolled this self-signing key. -/
  enrolled : σ → (key : String) → Bool × σ

namespace Trust

/-- Nothing established. -/
def none : Trust := ⟨[], [], .none, false⟩

/-- The first 19 characters of a key, its fingerprint. -/
def selfKeyOf (key : String) : String :=
  if key.length < 19 then "0000000000000000000" else String.ofList (key.toList.take 19)

/-- A signature that could not even be decoded: as good as invalid. -/
def recordMalformed (t : Trust) (role : Role) : Trust := { t with invalid := t.invalid.insert role }

variable {σ : Type} (v : Verifier σ)

/-- Records one signature's verdict. -/
def record (t : Trust) (role : Role) (verdict : Verdict) (key : String) (s : σ) : Trust × σ :=
  match verdict with
  | .valid =>
    let t := { t with valid := t.valid.insert role }
    if role = .selfSigned then
      let (enrolled, s) := v.enrolled s key
      ({ t with selfKey := some (selfKeyOf key), selfEnrolled := enrolled }, s)
    else (t, s)
  | .invalid => ({ t with invalid := t.invalid.insert role }, s)
  | .unknownKey | .unsupported => (t, s)

end Trust

section Evaluate

variable {σ : Type} (digest : Bytes → Digest) (v : Verifier σ) (signed : Bytes)

/-- The verifier's verdict on one signature, or none if it cannot be decoded. -/
def judge (s : σ) (e : SigEntry) : Option Verdict × σ :=
  match Base64.decode e.sig MAX_SIG_BYTES with
  | none => (none, s)
  | some sig =>
    let pubkey := match e.pubkey with
      | some text => Base64.decode text MAX_PUBKEY_BYTES
      | none => some []
    match pubkey with
    | none => (none, s)
    | some pubkey =>
      let r := v.verify s e.role e.alg e.key pubkey (Message.new digest e.role signed) sig
      (some r.1, r.2)

/-- What one signature adds. -/
def evaluateOne (t : Trust) (s : σ) (e : SigEntry) : Trust × σ :=
  match judge digest v signed s e with
  | (none, s) => (t.recordMalformed e.role, s)
  | (some verdict, s) => t.record v e.role verdict e.key s

/-- What the signatures add. -/
@[grind =] def evaluateFrom : Trust × σ → List SigEntry → Trust × σ
  | r, [] => r
  | (t, s), e :: es => evaluateFrom (evaluateOne digest v signed t s e) es

/-- Checks every signature of a validated manifest with the verifier. -/
def evaluate (s : σ) (signatures : List SigEntry) : Trust :=
  (evaluateFrom digest v signed (.none, s) signatures).1

end Evaluate

/-! ## What the verdicts amount to -/

section Facts

variable {σ : Type} {digest : Bytes → Digest} {v : Verifier σ} {signed : Bytes}

end Facts

/-! ## Framing -/

section Framing

variable {digest : Bytes → Digest}

end Framing

end NanoChrono.Ncpkg

/-! ## Signing algorithms

The names a signature's algorithm field may hold: finished standards only, one component or a hybrid
of two. Drafts, retired schemes and key encapsulation are refused by name. -/

namespace NanoChrono.Ncpkg

/-- The most signatures one manifest or seal may carry. -/
def MAX_SIGNATURES : Nat := 8

/-- The hybrid every root uses. -/
def ROOT_ALG : String := "mldsa87+p521"

/-- One of the four creator-held roots (not `self`). -/
def Role.isRoot : Role → Bool
  | .selfSigned => false
  | _ => true

/-! ## Components -/

/-- An SLH-DSA parameter set: the hash family, the security category, and small or fast. -/
inductive SlhDsa where
  | sha2_128s | sha2_128f | sha2_192s | sha2_192f | sha2_256s | sha2_256f
  | shake128s | shake128f | shake192s | shake192f | shake256s | shake256f
deriving DecidableEq, Repr

namespace SlhDsa

def all : List SlhDsa :=
  [sha2_128s, sha2_128f, sha2_192s, sha2_192f, sha2_256s, sha2_256f,
    shake128s, shake128f, shake192s, shake192f, shake256s, shake256f]

def name : SlhDsa → String
  | sha2_128s => "slhdsa-sha2-128s"
  | sha2_128f => "slhdsa-sha2-128f"
  | sha2_192s => "slhdsa-sha2-192s"
  | sha2_192f => "slhdsa-sha2-192f"
  | sha2_256s => "slhdsa-sha2-256s"
  | sha2_256f => "slhdsa-sha2-256f"
  | shake128s => "slhdsa-shake-128s"
  | shake128f => "slhdsa-shake-128f"
  | shake192s => "slhdsa-shake-192s"
  | shake192f => "slhdsa-shake-192f"
  | shake256s => "slhdsa-shake-256s"
  | shake256f => "slhdsa-shake-256f"

/-- The signature's size. -/
def sigLen : SlhDsa → Nat
  | sha2_128s | shake128s => 7856
  | sha2_128f | shake128f => 17088
  | sha2_192s | shake192s => 16224
  | sha2_192f | shake192f => 35664
  | sha2_256s | shake256s => 29792
  | sha2_256f | shake256f => 49856

end SlhDsa

/-- A signing algorithm component. -/
inductive Alg where
  | mlDsa44 | mlDsa65 | mlDsa87
  | slhDsa (p : SlhDsa)
  | ed25519 | p256 | p384 | p521
  | rsaPss
deriving DecidableEq, Repr

namespace Alg

def all : List Alg :=
  [mlDsa44, mlDsa65, mlDsa87] ++ SlhDsa.all.map slhDsa ++ [ed25519, p256, p384, p521, rsaPss]

@[grind =] def name : Alg → String
  | mlDsa44 => "mldsa44"
  | mlDsa65 => "mldsa65"
  | mlDsa87 => "mldsa87"
  | slhDsa p => p.name
  | ed25519 => "ed25519"
  | p256 => "p256"
  | p384 => "p384"
  | p521 => "p521"
  | rsaPss => "rsa-pss"

def fromName (s : String) : Option Alg := all.find? fun a => a.name = s

/-- Post-quantum rather than classical. -/
def isPq : Alg → Bool
  | mlDsa44 | mlDsa65 | mlDsa87 | slhDsa _ => true
  | _ => false

/-- The signature's size, where the algorithm fixes it (RSA's follows its modulus). -/
def sigLen : Alg → Option Nat
  | mlDsa44 => some 2420
  | mlDsa65 => some 3309
  | mlDsa87 => some 4627
  | slhDsa p => some p.sigLen
  | ed25519 | p256 => some 64
  | p384 => some 96
  | p521 => some 132
  | rsaPss => none

end Alg

/-! ## Names -/

/-- A byte with an ASCII capital made small. -/
def lowerByte (c : UInt8) : UInt8 := if 0x41 ≤ c ∧ c ≤ 0x5A then c + 0x20 else c

def eqIgnoreAsciiCase (a b : Bytes) : Bool := a.map lowerByte == b.map lowerByte

/-- Why an algorithm name is refused, when it names something that is not a finished standard. -/
def refusal (name : String) : Option String :=
  let n := textBytes name
  let starts := fun p => decide ((textBytes p).length ≤ n.length) &&
    eqIgnoreAsciiCase (n.take (textBytes p).length) (textBytes p)
  let contains := fun p => (List.range (n.length + 1 - (textBytes p).length)).any fun i =>
    eqIgnoreAsciiCase ((n.drop i).take (textBytes p).length) (textBytes p)
  let is := fun p => eqIgnoreAsciiCase n (textBytes p)
  if starts "dilithium" || starts "crystals-dilithium" then
    some "CRYSTALS-Dilithium is the pre-standard submission; use ML-DSA (FIPS 204)"
  else if starts "sphincs" then
    some "SPHINCS+ is the pre-standard submission; use SLH-DSA (FIPS 205)"
  else if starts "kyber" || starts "crystals-kyber" || starts "mlkem" || starts "ml-kem" then
    some "a key-encapsulation mechanism, not a signature (ML-KEM is FIPS 203, for key exchange)"
  else if starts "falcon" || starts "fndsa" || starts "fn-dsa" then
    some "FN-DSA (Falcon) is not a finished standard"
  else if starts "xmss" || starts "lms" || starts "hss" then
    some "a stateful hash-based scheme (SP 800-208); use SLH-DSA (FIPS 205), which is stateless"
  else if is "dsa" || starts "dsa-" then
    some "DSA was withdrawn by FIPS 186-5"
  else if starts "rainbow" || starts "picnic" || starts "gemss" || starts "sike" || starts "sidh" then
    some "a broken or withdrawn post-quantum candidate"
  else if contains "sha1" || contains "md5" then
    some "SHA-1 and MD5 signatures are retired"
  else if starts "rsa" && !is "rsa-pss" then
    some "RSA signs here as RSASSA-PSS with SHA-512 (\x60rsa-pss\x60), 2048-bit modulus or more"
  else none

/-- The parts of a text between the `+` signs. -/
def splitPlus (text : String) : List String := (text.toList.splitOn '+').map String.ofList

/-- The text before the first `+` and the one after it. -/
def splitOncePlus (text : String) : Option (String × String) :=
  if '+' ∈ text.toList then
    some (String.ofList (text.toList.takeWhile (· ≠ '+')),
      String.ofList ((text.toList.dropWhile (· ≠ '+')).drop 1))
  else none

/-- An algorithm field: one component, or two joined by `+`, different ones and a post-quantum half
first when there is one. -/
def parseAlg (text : String) : Option (Alg × Option Alg) :=
  match splitOncePlus text with
  | none => do return (← Alg.fromName text, none)
  | some (a, b) => do
    let a ← Alg.fromName a
    let b ← Alg.fromName b
    if a = b ∨ (b.isPq ∧ ¬ a.isPq) then none
    else some (a, some b)

example : parseAlg ROOT_ALG = some (.mlDsa87, some .p521) := by decide

/-- Whether a text is a key's fingerprint, `xxxx-xxxx-xxxx-xxxx` in lower-case hex. -/
def isFingerprint (text : String) : Bool :=
  let b := textBytes text
  b.length = 19 ∧ (b.zipIdx).all fun (c, i) =>
    if i % 5 = 4 then c = 0x2D else (0x30 ≤ c ∧ c ≤ 0x39) ∨ (0x61 ≤ c ∧ c ≤ 0x66)

end NanoChrono.Ncpkg
