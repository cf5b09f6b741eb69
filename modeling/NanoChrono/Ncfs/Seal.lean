import NanoChrono.Check
import NanoChrono.Ncfs.Format
import NanoChrono.Ncpkg.Signatures

/-! # The signature area of a sealed volume

A sealed volume's signatures live in an area of their own: a header, one entry per signature, and
zeros to the end. Every byte is accounted for, so an area and the list of its seals determine each
other (`encode_iff_parse` of `SealLayout`). -/

namespace NanoChrono.Ncfs

open Buffer Ncpkg

namespace Seal

/-- The area's magic, `NCFSSEAL`. -/
def MAGIC : Bytes := [0x4E, 0x43, 0x46, 0x53, 0x53, 0x45, 0x41, 0x4C]

def VERSION : UInt16 := 1

/-- The signature area's size. -/
def AREA : Nat := SIG_BLOCKS * BLOCK

def HEADER : Nat := 16

def ENTRY_FIXED : Nat := 1 + 1 + 19 + 2 + 4

end Seal

/-- One signature of a seal. -/
structure Seal where
  role : Role
  alg : String
  key : String
  /-- The public keys: a self-signature's only. -/
  pubkey : Bytes
  sig : Bytes
deriving DecidableEq, Repr

namespace Seal

/-- The text that bytes encode, if they are valid UTF-8. -/
def fromUtf8 (b : Bytes) : Option String := String.fromUTF8? b.toByteArray

/-- The `n` bytes from `pos` on, if the buffer has them. -/
def getRange (b : Bytes) (pos n : Nat) : Option Bytes :=
  if pos + n ≤ b.length then some (slice b pos n) else none

/-! ## Parsing -/

/-- The entry at `pos`, and where the next begins. -/
def entry (area : Bytes) (pos : Nat) : Option (Seal × Nat) := do
  let f ← getRange area pos ENTRY_FIXED
  let role ← Role.all[(rd8 f 0).toNat]?
  let algLen := (rd8 f 1).toNat
  let key ← fromUtf8 (slice f 2 19)
  let pkLen := (rd16 f 21).toNat
  let sigLen := (rd32 f 23).toNat
  let alg ← fromUtf8 (← getRange area (pos + ENTRY_FIXED) algLen)
  let pubkey ← getRange area (pos + ENTRY_FIXED + algLen) pkLen
  let sig ← getRange area (pos + ENTRY_FIXED + algLen + pkLen) sigLen
  return (⟨role, alg, key, pubkey, sig⟩, pos + ENTRY_FIXED + algLen + pkLen + sigLen)

/-- The checked signatures of an area. -/
structure Seals where
  area : Bytes
  count : Nat

/-- The next `n` entries from `pos` on; one that does not parse is skipped over. -/
@[grind =] def sealsFrom (area : Bytes) : Nat → Nat → List Seal
  | 0, _ => []
  | n + 1, pos =>
    match entry area pos with
    | none => sealsFrom area n pos
    | some (s, next) => s :: sealsFrom area n next

def Seals.iter (s : Seals) : List Seal := sealsFrom s.area s.count HEADER

/-- What parsing reports, whatever is wrong. -/
def bad : Error := .corrupt (UInt64.ofNat SIG_FIRST)

/-- A role's index in `Role::ALL`, or `d`. -/
def roleIndex (d : Nat) (role : Role) : Nat := (Role.all.findIdx? (· = role)).getD d

/-- Checks an entry by the packages' rules for its role; the roles seen up to it, as bits. -/
def checkSeal (roles : UInt8) (s : Seal) : Except Error UInt8 := do
  let bit : UInt8 := 1 <<< UInt8.ofNat (roleIndex 7 s.role)
  if roles &&& bit ≠ 0 ∨ isFingerprint s.key = false then throw bad
  if (splitPlus s.alg).any fun half => (refusal half).isSome then throw bad
  match parseAlg s.alg with
  | none => throw bad
  | some (a, b) =>
    if s.role.isRoot ∧ (s.alg ≠ ROOT_ALG ∨ s.pubkey ≠ []) then throw bad
    if s.role = .selfSigned ∧ (s.pubkey = [] ∨ s.pubkey.length > MAX_PUBKEY_BYTES) then throw bad
    let fixed : Option Nat :=
      match a.sigLen, b.map Alg.sigLen with
      | some x, none => some x
      | some x, some (some y) => some (x + y)
      | _, _ => none
    if s.sig = [] ∨ s.sig.length > MAX_SIG_BYTES ∨ fixed.any (· ≠ s.sig.length) then throw bad
    return roles ||| bit

/-- Reads and checks the next `n` entries of what is used; where the last ends. -/
@[grind =] def parseEntries (used : Bytes) : Nat → Nat → UInt8 → Except Error Nat
  | 0, pos, _ => .ok pos
  | n + 1, pos, roles =>
    match entry used pos with
    | none => .error bad
    | some (s, next) => do
      let roles ← checkSeal roles s
      parseEntries used n next roles

/-- Parses and checks a signature area: the header, every entry, and nothing but zeros after. -/
def parse (area : Bytes) : Except Error Seals := do
  if area.length ≠ AREA ∨ slice area 0 8 ≠ Seal.MAGIC ∨ rd16 area 8 ≠ Seal.VERSION then throw bad
  let count := (rd16 area 10).toNat
  let used := (rd32 area 12).toNat
  if count = 0 ∨ count > MAX_SIGNATURES ∨ ¬ (HEADER ≤ used ∧ used ≤ AREA) then throw bad
  let pos ← parseEntries (area.take used) count HEADER 0
  if pos ≠ used ∨ (area.drop used).any (· ≠ 0) then throw bad
  return ⟨area, count⟩

/-! ## Encoding -/

/-- An entry's bytes. -/
def encodeEntry (s : Seal) : Bytes :=
  [UInt8.ofNat (roleIndex 0 s.role), UInt8.ofNat (textBytes s.alg).length] ++ textBytes s.key ++
    le16 (UInt16.ofNat s.pubkey.length) ++ le32 (UInt32.ofNat s.sig.length) ++ textBytes s.alg ++
    s.pubkey ++ s.sig

def pushSeal (out : Bytes) (s : Seal) : Except Error Bytes :=
  if (textBytes s.key).length ≠ 19 ∨ (textBytes s.alg).length > 255 ∨ s.pubkey.length > 65535 then
    .error .invalidName
  else .ok (out ++ encodeEntry s)

/-- The signature area holding `seals`, checked as a reader would. -/
def encode (seals : List Seal) : Except Error Bytes := do
  let out := splice (List.replicate HEADER 0) 0 Seal.MAGIC
  let out := wr16 out 8 Seal.VERSION
  let out := wr16 out 10 (UInt16.ofNat seals.length)
  let out ← seals.foldlM pushSeal out
  let used := out.length
  if used > AREA then throw .tooBig
  let out := wr32 out 12 (UInt32.ofNat used)
  let out := out ++ List.replicate (AREA - out.length) 0
  let _ ← parse out
  return out

end Seal

end NanoChrono.Ncfs

/-! ## The layout of a signature area

Parsing an entry and writing its bytes are inverse (`entry_iff`), and so are the whole areas: both
an accepted area and an encoded one are the layout of their seals. -/

namespace NanoChrono.Ncfs.Seal

open Buffer Ncpkg

/-! ## Texts -/

theorem toByteArray_textBytes (s : String) : (textBytes s).toByteArray = s.toByteArray := by
  rw [textBytes, ← String.utf8Encode_toList]
  rfl

theorem toByteArray_injective {a b : Bytes} (h : a.toByteArray = b.toByteArray) : a = b := by
  have := congrArg (fun x => x.data.toList) h
  simpa using this

/-- A text is decoded from its own bytes only. -/
theorem fromUtf8_iff {b : Bytes} {s : String} : fromUtf8 b = some s ↔ textBytes s = b := by
  constructor
  · intro h
    rw [fromUtf8, String.fromUTF8?] at h
    split at h
    · obtain rfl := Option.some.inj h
      exact toByteArray_injective (toByteArray_textBytes _)
    · cases h
  · rintro rfl
    have hvalid : (textBytes s).toByteArray.IsValidUTF8 := by
      rw [toByteArray_textBytes]
      exact s.isValidUTF8
    rw [fromUtf8, String.fromUTF8?, dif_pos hvalid]
    congr 1
    exact String.toByteArray_inj.1 (toByteArray_textBytes s)

theorem getRange_iff {b c : Bytes} {pos n : Nat} :
    getRange b pos n = some c ↔ pos + n ≤ b.length ∧ slice b pos n = c := by
  rw [getRange]
  split <;> simp [*]

theorem role_at_iff {i : Nat} {r : Role} : Role.all[i]? = some r ↔ i = roleIndex 0 r := by
  match i with
  | 0 | 1 | 2 | 3 | 4 => cases r <;> decide
  | i + 5 =>
    have hlt : roleIndex 0 r < 5 := by cases r <;> decide
    rw [List.getElem?_eq_none (by rw [Role.all]; simp)]
    simp only [false_iff, reduceCtorEq]
    omega

/-! ## Entries -/

/-- The lengths an entry has room for. -/
structure Fits (s : Seal) : Prop where
  key : (textBytes s.key).length = 19
  alg : (textBytes s.alg).length ≤ 255
  pubkey : s.pubkey.length ≤ 65535
  sig : s.sig.length < 2 ^ 32

/-- The part of an entry before its texts. -/
def fixedPart (s : Seal) : Bytes :=
  [UInt8.ofNat (roleIndex 0 s.role)] ++ ([UInt8.ofNat (textBytes s.alg).length] ++
    (textBytes s.key ++ (le16 (UInt16.ofNat s.pubkey.length) ++
      le32 (UInt32.ofNat s.sig.length))))

theorem encodeEntry_eq (s : Seal) :
    encodeEntry s = fixedPart s ++ (textBytes s.alg ++ (s.pubkey ++ s.sig)) := by
  simp [encodeEntry, fixedPart]

theorem length_fixedPart {s : Seal} (h : Fits s) : (fixedPart s).length = ENTRY_FIXED := by
  simp [fixedPart, h.key, ENTRY_FIXED]

theorem length_encodeEntry {s : Seal} (h : Fits s) : (encodeEntry s).length =
    ENTRY_FIXED + (textBytes s.alg).length + s.pubkey.length + s.sig.length := by
  rw [encodeEntry_eq, List.length_append, length_fixedPart h, List.length_append, List.length_append]
  omega

/-- The fields of an entry's fixed part, as parsing reads them. -/
theorem fixedPart_fields {s : Seal} (h : Fits s) :
    (rd8 (fixedPart s) 0).toNat = roleIndex 0 s.role ∧
    (rd8 (fixedPart s) 1).toNat = (textBytes s.alg).length ∧
    slice (fixedPart s) 2 19 = textBytes s.key ∧
    (rd16 (fixedPart s) 21).toNat = s.pubkey.length ∧
    (rd32 (fixedPart s) 23).toNat = s.sig.length := by
  have hrole : roleIndex 0 s.role < 5 := by cases s.role <;> decide
  obtain ⟨hkey, halg, hpubkey, hsig⟩ := h
  have h0 : rd8 (fixedPart s) 0 = UInt8.ofNat (roleIndex 0 s.role) := rfl
  have h1 : rd8 (fixedPart s) 1 = UInt8.ofNat (textBytes s.alg).length := rfl
  have h2 : slice (fixedPart s) 2 19 = textBytes s.key := by
    rw [fixedPart, ← List.append_assoc]
    exact slice_middle rfl hkey.symm
  have h21 : rd16 (fixedPart s) 21 = UInt16.ofNat s.pubkey.length := by
    apply rd16_of_slice
    rw [fixedPart, ← List.append_assoc, ← List.append_assoc]
    exact slice_middle (by simp [hkey]) (by simp)
  have h23 : rd32 (fixedPart s) 23 = UInt32.ofNat s.sig.length := by
    apply rd32_of_slice
    rw [fixedPart, ← List.append_assoc, ← List.append_assoc, ← List.append_assoc,
      ← List.append_nil (le32 _)]
    exact slice_middle (by simp [hkey]) (by simp)
  refine ⟨?_, ?_, h2, ?_, ?_⟩
  · rw [h0, UInt8.toNat_ofNat_of_lt' (show _ < 256 by omega)]
  · rw [h1, UInt8.toNat_ofNat_of_lt' (show _ < 256 by omega)]
  · rw [h21, UInt16.toNat_ofNat_of_lt' (show _ < 65536 by omega)]
  · rw [h23, UInt32.toNat_ofNat_of_lt' hsig]

/-- A fixed part is its fields. -/
theorem fixedPart_of_fields {f : Bytes} {s : Seal} (hlen : f.length = ENTRY_FIXED)
    (hrole : (rd8 f 0).toNat = roleIndex 0 s.role)
    (halg : (rd8 f 1).toNat = (textBytes s.alg).length) (hkey : slice f 2 19 = textBytes s.key)
    (hpubkey : (rd16 f 21).toNat = s.pubkey.length) (hsig : (rd32 f 23).toNat = s.sig.length) :
    f = fixedPart s := by
  have h27 : f.length = 27 := hlen
  rw [fixedPart, ← hrole, ← halg, ← hkey, ← hpubkey, ← hsig, UInt8.ofNat_toNat, UInt8.ofNat_toNat,
    UInt16.ofNat_toNat, UInt32.ofNat_toNat, ← slice_of_rd8 (by omega), ← slice_of_rd8 (by omega),
    ← slice_of_rd16 (by omega), ← slice_of_rd32 (by omega), slice_append_slice,
    slice_append_slice, slice_append_slice, slice_append_slice,
    slice_self (by omega)]

/-- What parses as an entry is the bytes of one that fits. -/
theorem bytes_of_entry {area : Bytes} {pos next : Nat} {s : Seal}
    (h : entry area pos = some (s, next)) : Fits s ∧ pos + (encodeEntry s).length ≤ area.length ∧
      slice area pos (encodeEntry s).length = encodeEntry s ∧
        next = pos + (encodeEntry s).length := by
  simp only [entry, Option.bind_eq_bind, Option.bind_eq_some_iff, getRange_iff, fromUtf8_iff,
    role_at_iff] at h
  obtain ⟨f, ⟨hf, hfSlice⟩, role, hrole, key, hkey, -, ⟨-, rfl⟩, alg, halg, pubkey,
    ⟨hpk, hpubkey⟩, sig, ⟨hsg, hsig⟩, heq⟩ := h
  obtain ⟨rfl, rfl⟩ := Prod.mk.inj (Option.some.inj heq)
  have h27 : ENTRY_FIXED = 27 := rfl
  have hlenf : f.length = ENTRY_FIXED := by
    rw [← hfSlice, length_slice]
    omega
  have hkeyLength : (textBytes key).length = 19 := by
    rw [hkey, length_slice]
    omega
  have halgLength : (rd8 f 1).toNat = (textBytes alg).length := by
    rw [halg, length_slice]
    omega
  have hpkLength : (rd16 f 21).toNat = pubkey.length := by
    rw [← hpubkey, length_slice]
    omega
  have hsigLength : (rd32 f 23).toNat = sig.length := by
    rw [← hsig, length_slice]
    omega
  have hfits : Fits ⟨role, alg, key, pubkey, sig⟩ := by
    refine ⟨hkeyLength, ?_, ?_, ?_⟩
    · have := (rd8 f 1).toNat_lt
      show (textBytes alg).length ≤ 255
      omega
    · have := (rd16 f 21).toNat_lt
      show pubkey.length ≤ 65535
      omega
    · have := (rd32 f 23).toNat_lt
      show sig.length < 2 ^ 32
      omega
  have hfixed : f = fixedPart ⟨role, alg, key, pubkey, sig⟩ :=
    fixedPart_of_fields hlenf hrole halgLength hkey.symm hpkLength hsigLength
  have hlen := length_encodeEntry hfits
  have hbytes : slice area pos (encodeEntry ⟨role, alg, key, pubkey, sig⟩).length =
      encodeEntry ⟨role, alg, key, pubkey, sig⟩ := by
    rw [hlen, encodeEntry_eq, ← hfixed, ← slice_append_slice, ← slice_append_slice,
      ← slice_append_slice, hfSlice]
    simp only [List.append_assoc, ← halgLength, ← hpkLength, ← hsigLength, ← Nat.add_assoc, ← halg,
      hpubkey, hsig]
  simp only [← halgLength, ← hpkLength, ← hsigLength] at hlen
  exact ⟨hfits, by omega, hbytes, by omega⟩

/-- What stands at `pos` is parsed as an entry just when it is the bytes of one that fits. -/
theorem entry_iff {area : Bytes} {pos next : Nat} {s : Seal} : entry area pos = some (s, next) ↔
    Fits s ∧ pos + (encodeEntry s).length ≤ area.length ∧
      slice area pos (encodeEntry s).length = encodeEntry s ∧
        next = pos + (encodeEntry s).length := by
  refine ⟨bytes_of_entry, ?_⟩
  rintro ⟨hfits, hlen, hslice, rfl⟩
  have hsize := length_encodeEntry hfits
  have hparts : ∀ i n, i + n ≤ (encodeEntry s).length →
      slice area (pos + i) n = slice (encodeEntry s) i n := by
    intro i n hin
    rw [← hslice, slice_slice hin]
  have hf : slice area pos ENTRY_FIXED = fixedPart s := by
    have := hparts 0 ENTRY_FIXED (by omega)
    rw [Nat.add_zero, encodeEntry_eq, slice_append_left (by rw [length_fixedPart hfits]; omega),
      slice_self (by rw [length_fixedPart hfits])] at this
    exact this
  obtain ⟨hrole, halg, hkey, hpubkey, hsig⟩ := fixedPart_fields hfits
  have halgSlice : slice area (pos + ENTRY_FIXED) (textBytes s.alg).length = textBytes s.alg := by
    rw [hparts _ _ (by omega), encodeEntry_eq]
    exact slice_middle (length_fixedPart hfits).symm rfl
  have hpubkeySlice : slice area (pos + ENTRY_FIXED + (textBytes s.alg).length) s.pubkey.length =
      s.pubkey := by
    rw [Nat.add_assoc, hparts _ _ (by omega), encodeEntry_eq, ← List.append_assoc]
    exact slice_middle (by rw [List.length_append, length_fixedPart hfits]) rfl
  have hsigSlice : slice area (pos + ENTRY_FIXED + (textBytes s.alg).length + s.pubkey.length)
      s.sig.length = s.sig := by
    have hlast : slice ((fixedPart s ++ (textBytes s.alg ++ s.pubkey)) ++ (s.sig ++ []))
        (ENTRY_FIXED + (textBytes s.alg).length + s.pubkey.length) s.sig.length = s.sig := by
      refine slice_middle ?_ rfl
      rw [List.length_append, List.length_append, length_fixedPart hfits]
      omega
    rw [Nat.add_assoc, Nat.add_assoc, hparts _ _ (by omega), encodeEntry_eq, ← Nat.add_assoc]
    simpa using hlast
  simp only [entry, Option.bind_eq_bind, Option.bind_eq_some_iff, getRange_iff, fromUtf8_iff,
    role_at_iff]
  refine ⟨fixedPart s, ⟨by omega, hf⟩, s.role, hrole, s.key, hkey.symm, textBytes s.alg, ?_⟩
  rw [halg, hpubkey, hsig]
  refine ⟨⟨by omega, halgSlice⟩, s.alg, rfl, s.pubkey, ⟨by omega, hpubkeySlice⟩, s.sig,
    ⟨by omega, hsigSlice⟩, ?_⟩
  rw [hsize]
  simp only [Nat.add_assoc]
  rfl

/-! ## Areas -/

/-- The entries of seals, one after another. -/
def entries (seals : List Seal) : Bytes := seals.flatMap encodeEntry

@[simp] theorem entries_cons (s : Seal) (seals : List Seal) :
    entries (s :: seals) = encodeEntry s ++ entries seals := rfl

/-- A run of entries is parsed into its seals. -/
theorem sealsFrom_eq {area : Bytes} : ∀ {seals : List Seal} {pos : Nat}, (∀ s ∈ seals, Fits s) →
    pos + (entries seals).length ≤ area.length →
    slice area pos (entries seals).length = entries seals →
    sealsFrom area seals.length pos = seals
  | [], _, _, _, _ => rfl
  | s :: seals, pos, hfits, hlen, hslice => by
    rw [entries_cons, List.length_append] at hlen
    rw [entries_cons, List.length_append, ← slice_append_slice] at hslice
    have hsplit := List.append_inj hslice (by rw [length_slice]; omega)
    have hentry : entry area pos = some (s, pos + (encodeEntry s).length) :=
      entry_iff.2 ⟨hfits s List.mem_cons_self, by omega, hsplit.1, rfl⟩
    rw [List.length_cons, sealsFrom, hentry]
    simp only
    rw [sealsFrom_eq (fun t ht => hfits t (List.mem_cons_of_mem _ ht)) (by omega) hsplit.2]

/-- What the parser's loop accepts is a run of entries that fit. -/
theorem parseEntries_ok {used : Bytes} : ∀ {n pos stop : Nat} {roles : UInt8}, pos ≤ used.length →
    parseEntries used n pos roles = .ok stop → ∃ seals : List Seal, seals.length = n ∧
      (∀ s ∈ seals, Fits s) ∧ slice used pos (entries seals).length = entries seals ∧
        stop = pos + (entries seals).length ∧ stop ≤ used.length
  | 0, pos, stop, _, hpos, h => by
    obtain rfl : pos = stop := Except.ok.inj h
    exact ⟨[], rfl, by simp, by simp [entries], by simp [entries], hpos⟩
  | n + 1, pos, stop, roles, hpos, h => by
    rw [parseEntries] at h
    cases hentry : entry used pos with
    | none =>
      rw [hentry] at h
      cases h
    | some found =>
      obtain ⟨s, next⟩ := found
      rw [hentry] at h
      obtain ⟨roles', -, hrest⟩ := Check.bind_ok.1 h
      obtain ⟨hfits, hlen, hslice, rfl⟩ := entry_iff.1 hentry
      obtain ⟨seals, rfl, hall, htail, hstop, hle⟩ := parseEntries_ok hlen hrest
      refine ⟨s :: seals, rfl, ?_, ?_, ?_, hle⟩
      · intro t ht
        rcases List.mem_cons.1 ht with rfl | ht
        · exact hfits
        · exact hall t ht
      · rw [entries_cons, List.length_append, ← slice_append_slice, hslice, htail]
      · rw [entries_cons, List.length_append]
        omega

/-- The area of seals: the header, the entries and zeros to the end. -/
def layout (seals : List Seal) : Bytes :=
  MAGIC ++ (le16 VERSION ++ (le16 (UInt16.ofNat seals.length) ++
    (le32 (UInt32.ofNat (HEADER + (entries seals).length)) ++
      (entries seals ++ List.replicate (AREA - (HEADER + (entries seals).length)) 0))))

/-- An accepted area is the layout of its seals, which fit. -/
theorem layout_of_parse {area : Bytes} {found : Seals} (h : parse area = .ok found) :
    area = layout found.iter ∧ (∀ s ∈ found.iter, Fits s) ∧
      HEADER + (entries found.iter).length ≤ AREA := by
  rw [parse] at h
  split at h
  · cases h
  rename_i hhead
  dsimp only at h
  split at h
  · cases h
  rename_i hcount
  obtain ⟨stop, hentries, h⟩ := Check.bind_ok.1 h
  split at h
  · cases h
  rename_i htail
  obtain rfl := Except.ok.inj h
  simp only [not_or, not_not] at hhead hcount htail
  obtain ⟨hlen, hmagic, hversion⟩ := hhead
  obtain ⟨-, -, hlow, hhigh⟩ := hcount
  obtain ⟨rfl, hzero⟩ := htail
  have hheader : HEADER = 16 := rfl
  have htake : (area.take (rd32 area 12).toNat).length = (rd32 area 12).toNat := by
    rw [List.length_take]
    omega
  obtain ⟨seals, hn, hfits, hslice, hstop, -⟩ := parseEntries_ok (by omega) hentries
  have hslice' : slice area HEADER (entries seals).length = entries seals := by
    rw [show List.take (rd32 area 12).toNat area = slice area 0 (rd32 area 12).toNat from rfl,
      slice_slice (by omega), Nat.zero_add] at hslice
    exact hslice
  have hiter : Seals.iter ⟨area, (rd16 area 10).toNat⟩ = seals := by
    rw [Seals.iter, ← hn]
    refine sealsFrom_eq hfits ?_ hslice'
    show HEADER + (entries seals).length ≤ area.length
    omega
  rw [hiter]
  refine ⟨?_, hfits, by omega⟩
  -- the area is its header's fields, the entries and the rest
  have hrest : slice area (HEADER + (entries seals).length) (AREA - (HEADER + (entries seals).length)) =
      List.replicate (AREA - (HEADER + (entries seals).length)) 0 := by
    rw [hstop] at hzero
    have := eq_replicate_zero hzero
    rw [List.length_drop, hlen] at this
    rw [← this, slice, List.take_of_length_le (by rw [List.length_drop]; omega)]
  have hcountField : slice area 10 2 = le16 (UInt16.ofNat seals.length) := by
    rw [slice_of_rd16 (by omega), hn, UInt16.ofNat_toNat]
  have husedField : slice area 12 4 = le32 (UInt32.ofNat (HEADER + (entries seals).length)) := by
    rw [slice_of_rd32 (by omega), ← hstop, UInt32.ofNat_toNat]
  have hcut : area = slice area 0 8 ++ (slice area 8 2 ++ (slice area 10 2 ++ (slice area 12 4 ++
      (slice area 16 (entries seals).length ++ slice area (16 + (entries seals).length)
        (AREA - (16 + (entries seals).length)))))) := by
    rw [slice_append_slice, slice_append_slice, slice_append_slice, slice_append_slice,
      slice_append_slice, slice_self (by omega)]
  rw [hheader] at hslice' hrest
  rw [hmagic, slice_of_rd16 (by omega), hversion, hcountField, husedField, hslice', hrest] at hcut
  exact hcut

/-! ## Encoding -/

/-- A run of entries is written when every text fits. -/
theorem foldlM_pushSeal {seals : List Seal} {out out' : Bytes} :
    seals.foldlM pushSeal out = .ok out' ↔
      (∀ s ∈ seals, (textBytes s.key).length = 19 ∧ (textBytes s.alg).length ≤ 255 ∧
        s.pubkey.length ≤ 65535) ∧ out' = out ++ entries seals := by
  induction seals generalizing out with
  | nil =>
    simp only [List.foldlM_nil, Check.pure_ok]
    simp [entries, eq_comm]
  | cons s seals ih =>
    rw [List.foldlM_cons, Check.bind_ok]
    constructor
    · rintro ⟨mid, hpush, hrest⟩
      rw [pushSeal] at hpush
      split at hpush
      · cases hpush
      rename_i hs
      obtain rfl := Except.ok.inj hpush
      obtain ⟨hall, rfl⟩ := ih.1 hrest
      refine ⟨List.forall_mem_cons.2 ⟨by omega, hall⟩, ?_⟩
      rw [entries_cons, List.append_assoc]
    · rintro ⟨hall, rfl⟩
      obtain ⟨hs, hrest⟩ := List.forall_mem_cons.1 hall
      refine ⟨out ++ encodeEntry s, ?_, ih.2 ⟨hrest, ?_⟩⟩
      · rw [pushSeal, if_neg (by omega)]
      · rw [entries_cons, List.append_assoc]

/-- The header before it says how much is used. -/
theorem encode_header (seals : List Seal) :
    wr16 (wr16 (splice (List.replicate HEADER 0) 0 MAGIC) 8 VERSION) 10
      (UInt16.ofNat seals.length) =
    (MAGIC ++ (le16 VERSION ++ le16 (UInt16.ofNat seals.length))) ++ List.replicate 4 0 := by
  have hone : wr16 (splice (List.replicate HEADER 0) 0 MAGIC) 8 VERSION =
      splice (List.replicate HEADER 0) 0 (MAGIC ++ le16 VERSION) :=
    splice_splice (by simp [MAGIC, HEADER])
  have htwo : wr16 (splice (List.replicate HEADER 0) 0 (MAGIC ++ le16 VERSION)) 10
      (UInt16.ofNat seals.length) = splice (List.replicate HEADER 0) 0
        ((MAGIC ++ le16 VERSION) ++ le16 (UInt16.ofNat seals.length)) :=
    splice_splice (by simp [MAGIC, HEADER])
  rw [hone, htwo, splice]
  simp [MAGIC, HEADER]

/-- The used length is written into the header once the entries are there. -/
theorem encode_layout (seals : List Seal) :
    wr32 ((MAGIC ++ (le16 VERSION ++ le16 (UInt16.ofNat seals.length))) ++ List.replicate 4 0 ++
        entries seals) 12 (UInt32.ofNat (HEADER + (entries seals).length)) ++
      List.replicate (AREA - (HEADER + (entries seals).length)) 0 = layout seals := by
  have htwelve : (MAGIC ++ (le16 VERSION ++ le16 (UInt16.ofNat seals.length))).length = 12 := by
    simp [MAGIC]
  rw [wr32, List.append_assoc _ (List.replicate 4 0), splice_middle htwelve.symm (by simp), layout]
  simp only [List.append_assoc]

/-- An encoded area is the layout of the seals, which fit, and it was parsed. -/
theorem encode_iff {seals : List Seal} {area : Bytes} : encode seals = .ok area ↔
    (∀ s ∈ seals, Fits s) ∧ HEADER + (entries seals).length ≤ AREA ∧ area = layout seals ∧
      ∃ found, parse area = .ok found := by
  have hsmall : ∀ s ∈ seals, s.sig.length ≤ (entries seals).length := by
    intro s hs
    have hle : (encodeEntry s).length ≤ (entries seals).length :=
      (List.sublist_flatten_of_mem (List.mem_map_of_mem hs)).length_le
    have : s.sig.length ≤ (encodeEntry s).length := by
      rw [encodeEntry_eq]
      simp only [List.length_append]
      omega
    omega
  have hlength : (((MAGIC ++ (le16 VERSION ++ le16 (UInt16.ofNat seals.length))) ++
      List.replicate 4 0) ++ entries seals).length = HEADER + (entries seals).length := by
    simp [MAGIC, HEADER]
    omega
  have hpadded : (wr32 (((MAGIC ++ (le16 VERSION ++ le16 (UInt16.ofNat seals.length))) ++
      List.replicate 4 0) ++ entries seals) 12
        (UInt32.ofNat (HEADER + (entries seals).length))).length = HEADER + (entries seals).length := by
    rw [wr32, length_splice (by rw [length_le32, hlength, HEADER]; omega), hlength]
  rw [encode]
  simp only [encode_header]
  rw [Check.bind_ok]
  simp only [foldlM_pushSeal]
  constructor
  · rintro ⟨out, ⟨hall, rfl⟩, h⟩
    rw [hlength] at h
    split at h
    · cases h
    rename_i hused
    rw [hpadded, encode_layout] at h
    obtain ⟨found, hparse, h⟩ := Check.bind_ok.1 h
    obtain rfl := Except.ok.inj h
    refine ⟨fun s hs => ⟨(hall s hs).1, (hall s hs).2.1, (hall s hs).2.2, ?_⟩, by omega, rfl, found,
      hparse⟩
    have := hsmall s hs
    have : AREA = 65536 := rfl
    omega
  · rintro ⟨hfits, hlen, rfl, found, hparse⟩
    refine ⟨_, ⟨fun s hs => ⟨(hfits s hs).key, (hfits s hs).alg, (hfits s hs).pubkey⟩, rfl⟩, ?_⟩
    rw [hlength, if_neg (by omega)]
    rw [hpadded, encode_layout, hparse]
    rfl

/-! ## The two are inverse -/

theorem entries_of_layout (seals : List Seal) :
    slice (layout seals) HEADER (entries seals).length = entries seals := by
  rw [layout, ← List.append_assoc, ← List.append_assoc, ← List.append_assoc]
  exact slice_middle (by simp [MAGIC, HEADER]) rfl

theorem count_of_layout (seals : List Seal) :
    rd16 (layout seals) 10 = UInt16.ofNat seals.length := by
  apply rd16_of_slice
  rw [layout, ← List.append_assoc]
  exact slice_middle (by simp [MAGIC]) (by simp)

theorem length_le_entries {seals : List Seal} (hfits : ∀ s ∈ seals, Fits s) :
    ENTRY_FIXED * seals.length ≤ (entries seals).length := by
  induction seals with
  | nil => simp
  | cons s seals ih =>
    have hs := length_encodeEntry (hfits s List.mem_cons_self)
    have hrest := ih fun t ht => hfits t (List.mem_cons_of_mem _ ht)
    rw [entries_cons, List.length_append, List.length_cons, Nat.mul_succ]
    omega

/-- A layout determines the seals it was made of. -/
theorem layout_injective {seals others : List Seal} (hfits : ∀ s ∈ seals, Fits s)
    (hlen : HEADER + (entries seals).length ≤ AREA) (hothers : ∀ s ∈ others, Fits s)
    (holen : HEADER + (entries others).length ≤ AREA) (h : layout seals = layout others) :
    seals = others := by
  have harea : AREA = 65536 := rfl
  have hfixed : ENTRY_FIXED = 27 := rfl
  have hcount : seals.length = others.length := by
    have hn := length_le_entries hfits
    have hm := length_le_entries hothers
    rw [hfixed] at hn hm
    have := congrArg UInt16.toNat ((count_of_layout seals).symm.trans (h ▸ count_of_layout others))
    rwa [UInt16.toNat_ofNat_of_lt' (show _ < 65536 by omega),
      UInt16.toNat_ofNat_of_lt' (show _ < 65536 by omega)] at this
  have hbound : ∀ l : List Seal, HEADER + (entries l).length ≤ (layout l).length := by
    intro l
    simp only [layout, List.length_append, length_le16, length_le32, List.length_replicate,
      show MAGIC.length = 8 from rfl, HEADER]
    omega
  rw [← sealsFrom_eq hfits (hbound seals) (entries_of_layout seals), h, hcount]
  exact sealsFrom_eq hothers (hbound others) (entries_of_layout others)

/-- Encoding a list of seals gives an area exactly when parsing that area gives the list: parsing
and encoding are inverse on what either accepts. -/
theorem encode_iff_parse (seals : List Seal) (area : Bytes) :
    encode seals = .ok area ↔ (parse area).map Seals.iter = .ok seals := by
  rw [encode_iff]
  constructor
  · rintro ⟨hfits, hlen, rfl, found, hparse⟩
    obtain ⟨heq, hothers, holen⟩ := layout_of_parse hparse
    rw [hparse, layout_injective hfits hlen hothers holen heq]
    rfl
  · intro h
    cases hparse : parse area with
    | error e =>
      rw [hparse] at h
      cases h
    | ok found =>
      rw [hparse] at h
      obtain rfl := Except.ok.inj h
      obtain ⟨heq, hfits, hlen⟩ := layout_of_parse hparse
      exact ⟨hfits, hlen, heq, found, rfl⟩

end NanoChrono.Ncfs.Seal
