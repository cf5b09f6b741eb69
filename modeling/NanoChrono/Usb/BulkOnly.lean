import NanoChrono.Usb.Driver

/-! # Block transfers

A block of the storage stick is moved by three transfers: a command wrapper out, the data, and a status wrapper in. One
buffer holds the data of every command and one the status, and neither is cleared. What the device does is what happens
while the driver waits for a transfer: transfers complete, with any bytes and any code, and other devices' transfers
complete too. A short packet counts as success, and of the status wrapper the signature, the tag and the status are
looked at. While every wait is ended by its own transfer's completion, or by none, a block that is reported is whole
exactly if the device moved the whole of it and of the wrapper in every command whose wrapper passes, and a write's
wrapper has no residue. -/

namespace NanoChrono.Usb.BulkOnly

/-! ## Memory and events -/

/-- A byte of a buffer, and the transfer that wrote it, if one did. -/
structure Cell where
  byte : UInt8
  origin : Option Nat

/-- A transfer that was put on a ring. -/
structure Transfer where
  inDir : Bool
  buffer : Buffer
  len : Nat

/-- What happens while the driver waits: a transfer completes, with what the device moved of it and a code, or one of
another device does. -/
inductive Happening where
  | moved (t : Nat) (bytes : List UInt8) (code : UInt32)
  | foreign (code : UInt32)

/-- A transfer event on the event ring. -/
structure Completion where
  transfer : Option Nat
  code : UInt32

/-- What the driver keeps of the stick, the buffers it shares with the controller, the transfers so far and the events
that it has not taken. -/
structure Stick where
  tag : UInt32
  blockSize : Nat
  cbw : List UInt8
  data : Nat → Cell
  csw : Nat → Cell
  queued : List Transfer
  events : List Completion

/-- What happens while the driver waits for each transfer. -/
abbrev Device := Nat → List Happening

/-- A buffer after bytes were moved to its start. -/
def land (t : Nat) (bytes : List UInt8) (mem : Nat → Cell) : Nat → Cell := fun k =>
  match bytes[k]? with
  | some b => ⟨b, some t⟩
  | none => mem k

/-- The bytes of a transfer land in its buffer, if it goes in: no more than it has room for. -/
def Stick.landed (s : Stick) (t : Nat) (tr : Transfer) (bytes : List UInt8) : Stick :=
  if tr.inDir then
    match tr.buffer with
    | .data => { s with data := land t (bytes.take tr.len) s.data }
    | .csw => { s with csw := land t (bytes.take tr.len) s.csw }
    | _ => s
  else s

def happen (s : Stick) : Happening → Stick
  | .foreign code => { s with events := s.events ++ [⟨none, code⟩] }
  | .moved t bytes code =>
    match s.queued[t]? with
    | none => s
    | some tr => { s.landed t tr bytes with events := s.events ++ [⟨some t, code⟩] }

/-! ## The driver -/

/-- The completion codes that a wait is content with. -/
def Accepted (code : UInt32) : Prop := code = CC_SUCCESS ∨ code = CC_SHORT_PACKET

instance (code : UInt32) : Decidable (Accepted code) := inferInstanceAs (Decidable (_ ∨ _))

variable (device : Device)

/-- The stick with one more transfer on its rings. -/
def Stick.queue (s : Stick) (tr : Transfer) : Stick := { s with queued := s.queued ++ [tr] }

/-- The end of a wait: the first transfer event is taken, whichever transfer it is of. -/
def Stick.waited (s : Stick) : Option Unit × Stick :=
  match s.events with
  | [] => (none, s)
  | e :: rest => (if Accepted e.code then some () else none, { s with events := rest })

/-- One bulk transfer, waited to completion. -/
def bulk (s : Stick) (inDir : Bool) (buffer : Buffer) (len : Nat) : Option Unit × Stick :=
  ((device s.queued.length).foldl happen (s.queue ⟨inDir, buffer, len⟩)).waited

def CBW_SIGNATURE : Nat := 0x43425355

def CSW_SIGNATURE : Nat := 0x53425355

def SCSI_READ_10 : UInt8 := 0x28

def SCSI_WRITE_10 : UInt8 := 0x2A

/-- A number of four bytes, the lowest first. -/
def le32 (n : Nat) : List UInt8 :=
  [UInt8.ofNat n, UInt8.ofNat (n / 256), UInt8.ofNat (n / 65536), UInt8.ofNat (n / 16777216)]

/-- A command block for one block. -/
def readWriteCdb (opcode : UInt8) (lba : UInt32) : List UInt8 :=
  [opcode, 0] ++ (le32 lba.toNat).reverse ++ [0, 0, 1, 0]

/-- The command wrapper in its buffer of 64 bytes, which is cleared first. -/
def commandWrapper (tag : UInt32) (dataLen : Nat) (dataIn : Bool) (cdb : List UInt8) : List UInt8 :=
  (le32 CBW_SIGNATURE ++ le32 tag.toNat ++ le32 dataLen ++ [if dataIn then 0x80 else 0, 0, UInt8.ofNat cdb.length] ++
    cdb.take 16 ++ List.replicate 64 0).take 64

/-- A number of four bytes in a buffer. -/
def readLe32 (mem : Nat → Cell) (o : Nat) : Nat :=
  (mem o).byte.toNat + 256 * ((mem (o + 1)).byte.toNat + 256 * ((mem (o + 2)).byte.toNat +
    256 * (mem (o + 3)).byte.toNat))

/-- What is looked at of a status wrapper. -/
def Good (tag : UInt32) (csw : Nat → Cell) : Prop :=
  readLe32 csw 0 = CSW_SIGNATURE ∧ readLe32 csw 4 = tag.toNat ∧ (csw 12).byte = 0

instance (tag : UInt32) (csw : Nat → Cell) : Decidable (Good tag csw) := inferInstanceAs (Decidable (_ ∧ _ ∧ _))

/-- How many bytes a status wrapper says were not moved. -/
def residue (csw : Nat → Cell) : Nat := readLe32 csw 8

/-- One transaction: command wrapper out, the data if there are any, status wrapper in. -/
def bot (s : Stick) (cdb : List UInt8) (dataIn : Bool) (dataLen : Nat) : Option Unit × Stick :=
  let s := { s with tag := s.tag + 1, cbw := commandWrapper (s.tag + 1) dataLen dataIn cdb }
  match bulk device s false .cbw 31 with
  | (none, s) => (none, s)
  | (some _, s) =>
    match if dataLen > 0 then bulk device s dataIn .data dataLen else (some (), s) with
    | (none, s) => (none, s)
    | (some _, s) =>
      match bulk device s true .csw 13 with
      | (none, s) => (none, s)
      | (some _, s) => (if Good s.tag s.csw then some () else none, s)

/-- Reads one block: as many bytes as there is room for. -/
def readBlock (s : Stick) (lba : UInt32) (room : Nat) : Option (List UInt8) × Stick :=
  match bot device s (readWriteCdb SCSI_READ_10 lba) true s.blockSize with
  | (none, s) => (none, s)
  | (some _, s) => (some ((List.range (min room s.blockSize)).map fun k => (s.data k).byte), s)

/-- The data buffer with a block to write, zero-padded. -/
def filled (blockSize : Nat) (block : List UInt8) (mem : Nat → Cell) : Nat → Cell := fun k =>
  if k < blockSize then ⟨(block[k]?).getD 0, none⟩ else mem k

/-- Writes one block. -/
def writeBlock (s : Stick) (lba : UInt32) (block : List UInt8) : Option Unit × Stick :=
  bot device { s with data := filled s.blockSize block s.data } (readWriteCdb SCSI_WRITE_10 lba) false s.blockSize

/-- What is asked of the driver. -/
inductive Command where
  | read (lba : UInt32) (room : Nat)
  | write (lba : UInt32) (block : List UInt8)

/-- The state after a command. -/
def Command.after (s : Stick) : Command → Stick
  | .read lba room => (readBlock device s lba room).2
  | .write lba block => (writeBlock device s lba block).2

/-- Whether a command is reported as done. -/
def Command.succeeds (s : Stick) : Command → Bool
  | .read lba room => (readBlock device s lba room).1.isSome
  | .write lba block => (writeBlock device s lba block).1.isSome

/-! ## What is asked -/

/-- The transfers of a command, by what was put on the rings before it: that of the data, and that of the status. -/
def dataOf (s : Stick) : Nat := s.queued.length + 1

def statusOf (s : Stick) : Nat := s.queued.length + if s.blockSize > 0 then 2 else 1

/-- A command that is reported as done: the status wrapper is its own, every byte that a read copies was sent in its data
stage, and for a write the device took the whole block and says so. -/
def Whole (s : Stick) (c : Command) : Prop :=
  let s' := c.after device s
  (∀ k < 13, (s'.csw k).origin = some (statusOf s)) ∧
    match c with
    | .read _ room => ∀ k < min room s.blockSize, (s'.data k).origin = some (dataOf s)
    | .write _ _ => residue s'.csw = 0 ∧
        (0 < s.blockSize → ∃ bytes code, .moved (dataOf s) bytes code ∈ device (dataOf s) ∧ s.blockSize ≤ bytes.length)

/-- In a run of commands, each that is reported as done is whole. -/
def AllWhole : Stick → List Command → Prop
  | _, [] => True
  | s, c :: cs => (c.succeeds device s = true → Whole device s c) ∧ AllWhole (c.after device s) cs

/-- Every wait is ended by the completion of its own transfer, or by none. -/
def Prompt : Prop := ∀ t, device t = [] ∨ ∃ bytes code, device t = [.moved t bytes code]

/-- What the device moved of a transfer, when it completed with a code that the driver is content with. -/
def moves (t : Nat) : Option (List UInt8) :=
  match device t with
  | [.moved _ bytes code] => if Accepted code then some bytes else none
  | _ => none

/-- In a command whose wrapper passes, the device moved all that it had to: the bytes that a read copies, the block of a
write, and the thirteen bytes of a wrapper that has no residue for a write. -/
def Generous (s : Stick) (c : Command) : Prop :=
  ∀ status, (moves device s.queued.length).isSome → (0 < s.blockSize → (moves device (dataOf s)).isSome) →
    moves device (statusOf s) = some status →
    let csw := land (statusOf s) (status.take 13) s.csw
    Good (s.tag + 1) csw → 13 ≤ status.length ∧
      match c with
      | .read _ room => ∀ bytes, 0 < s.blockSize → moves device (dataOf s) = some bytes →
          min room s.blockSize ≤ bytes.length
      | .write _ _ => residue csw = 0 ∧
          ∀ bytes, 0 < s.blockSize → moves device (dataOf s) = some bytes → s.blockSize ≤ bytes.length

/-- In a run of commands. -/
def AllGenerous : Stick → List Command → Prop
  | _, [] => True
  | s, c :: cs => Generous device s c ∧ AllGenerous (c.after device s) cs

/-! ## One transfer -/

variable {device} {s : Stick} {inDir : Bool} {buffer : Buffer} {len : Nat} {bytes : List UInt8}

/-- Between two transfers no event is left, and what is in the buffers was written by the driver or by earlier
transfers. -/
structure Tidy (s : Stick) : Prop where
  events : s.events = []
  data : ∀ k t, (s.data k).origin = some t → t < s.queued.length
  csw : ∀ k t, (s.csw k).origin = some t → t < s.queued.length

theorem land_origin {t : Nat} {mem : Nat → Cell} {k q : Nat} (h : (land t bytes mem k).origin = some q) :
    q = t ∨ (mem k).origin = some q := by
  unfold land at h
  split at h
  · exact .inl (Option.some.inj h).symm
  · exact .inr h

/-- The bytes of a new transfer fill a buffer up to a place exactly if there are as many. -/
theorem land_fills {t n m : Nat} {mem : Nat → Cell} (hfresh : ∀ k, (mem k).origin ≠ some t) (hle : n ≤ m) :
    (∀ k < n, (land t (bytes.take m) mem k).origin = some t) ↔ n ≤ bytes.length := by
  constructor
  · intro h
    by_contra hshort
    have hlast := h bytes.length (Nat.lt_of_not_le hshort)
    have hnone : (bytes.take m)[bytes.length]? = none :=
      List.getElem?_eq_none (List.length_take_le' m bytes)
    rw [land, hnone] at hlast
    exact hfresh _ hlast
  · intro h k hk
    have hin : k < (bytes.take m).length := by
      rw [List.length_take]
      omega
    rw [land, List.getElem?_eq_getElem hin]

theorem landed_same (t : Nat) (tr : Transfer) (bytes : List UInt8) :
    (s.landed t tr bytes).events = s.events ∧ (s.landed t tr bytes).queued = s.queued ∧
      (s.landed t tr bytes).tag = s.tag := by
  unfold Stick.landed
  split
  · split
    · exact ⟨rfl, rfl, rfl⟩
    · exact ⟨rfl, rfl, rfl⟩
    · exact ⟨rfl, rfl, rfl⟩
  · exact ⟨rfl, rfl, rfl⟩

theorem landed_tidy {t : Nat} (tr : Transfer) (bytes : List UInt8) (ht : t < s.queued.length) (h : Tidy s) :
    Tidy (s.landed t tr bytes) := by
  unfold Stick.landed
  split
  · split
    · refine ⟨h.events, fun k q hq => ?_, h.csw⟩
      rcases land_origin hq with rfl | hold
      · exact ht
      · exact h.data k q hold
    · refine ⟨h.events, h.data, fun k q hq => ?_⟩
      rcases land_origin hq with rfl | hold
      · exact ht
      · exact h.csw k q hold
    · exact h
  · exact h

theorem queue_tidy (tr : Transfer) (h : Tidy s) : Tidy (s.queue tr) := by
  have hlen : (s.queue tr).queued.length = s.queued.length + 1 := List.length_append
  exact ⟨h.events, fun k t ht => hlen ▸ Nat.lt_succ_of_lt (h.data k t ht),
    fun k t ht => hlen ▸ Nat.lt_succ_of_lt (h.csw k t ht)⟩

theorem waited_own {t : Option Nat} {code : UInt32} (h : s.events = []) :
    ({ s with events := [⟨t, code⟩] } : Stick).waited = (if Accepted code then some () else none, s) := by
  cases s
  cases h
  rfl

/-- A wait that its own transfer's completion ends. -/
theorem bulk_own {code : UInt32} (h : Tidy s) (hown : device s.queued.length = [.moved s.queued.length bytes code]) :
    bulk device s inDir buffer len = (if Accepted code then some () else none,
      (s.queue ⟨inDir, buffer, len⟩).landed s.queued.length ⟨inDir, buffer, len⟩ bytes) := by
  have hempty : (s.queue ⟨inDir, buffer, len⟩).events = [] := h.events
  have hget : (s.queue ⟨inDir, buffer, len⟩).queued[s.queued.length]? = some ⟨inDir, buffer, len⟩ :=
    List.getElem?_concat_length
  rw [bulk, hown, List.foldl_cons, List.foldl_nil, happen, hget]
  dsimp only
  rw [hempty]
  exact waited_own ((landed_same _ _ _).1.trans hempty)

theorem bulk_none (h : Tidy s) (hnone : device s.queued.length = []) :
    bulk device s inDir buffer len = (none, s.queue ⟨inDir, buffer, len⟩) := by
  have hempty : (s.queue ⟨inDir, buffer, len⟩).events = [] := h.events
  rw [bulk, hnone, List.foldl_nil, Stick.waited, hempty]

theorem bulk_moves (h : Tidy s) (hmoves : moves device s.queued.length = some bytes) (hprompt : Prompt device) :
    bulk device s inDir buffer len =
      (some (), (s.queue ⟨inDir, buffer, len⟩).landed s.queued.length ⟨inDir, buffer, len⟩ bytes) := by
  rcases hprompt s.queued.length with hnone | ⟨b, code, hown⟩
  · rw [moves, hnone] at hmoves
    cases hmoves
  · rw [moves, hown] at hmoves
    dsimp only at hmoves
    split at hmoves
    next hcode =>
      obtain rfl := Option.some.inj hmoves
      rw [bulk_own h hown, if_pos hcode]
    · cases hmoves

theorem bulk_stops (h : Tidy s) (hmoves : moves device s.queued.length = none) (hprompt : Prompt device) :
    (bulk device s inDir buffer len).1 = none := by
  rcases hprompt s.queued.length with hnone | ⟨b, code, hown⟩
  · rw [bulk_none h hnone]
  · rw [moves, hown] at hmoves
    dsimp only at hmoves
    split at hmoves
    · cases hmoves
    next hcode => rw [bulk_own h hown, if_neg hcode]

theorem bulk_tidy (h : Tidy s) (hprompt : Prompt device) : Tidy (bulk device s inDir buffer len).2 := by
  have hlen : s.queued.length < (s.queue ⟨inDir, buffer, len⟩).queued.length := by
    rw [Stick.queue, List.length_append]
    exact Nat.lt_succ_self _
  rcases hprompt s.queued.length with hnone | ⟨b, code, hown⟩
  · rw [bulk_none h hnone]
    exact queue_tidy _ h
  · rw [bulk_own h hown]
    exact landed_tidy _ b hlen (queue_tidy _ h)

/-! ## One command -/

variable {cdb : List UInt8} {dataIn : Bool} {dataLen : Nat}

/-- The stick when the command wrapper is written. -/
def Stick.wrapped (s : Stick) (cdb : List UInt8) (dataIn : Bool) (dataLen : Nat) : Stick :=
  { s with tag := s.tag + 1, cbw := commandWrapper (s.tag + 1) dataLen dataIn cdb }

theorem wrapped_tidy (h : Tidy s) : Tidy (s.wrapped cdb dataIn dataLen) := ⟨h.events, h.data, h.csw⟩

/-- The stick after its command wrapper went out. -/
def Stick.sent (s : Stick) (cdb : List UInt8) (dataIn : Bool) (dataLen : Nat) : Stick :=
  (s.wrapped cdb dataIn dataLen).queue ⟨false, .cbw, 31⟩

/-- The stick after its data were moved. -/
def Stick.carried (s : Stick) (cdb : List UInt8) (dataIn : Bool) (dataLen : Nat) (bytes : List UInt8) : Stick :=
  if dataLen > 0 then
    ((s.sent cdb dataIn dataLen).queue ⟨dataIn, .data, dataLen⟩).landed (s.queued.length + 1) ⟨dataIn, .data, dataLen⟩
      bytes
  else s.sent cdb dataIn dataLen

/-- The status transfer of a transaction. -/
def statusAt (s : Stick) (dataLen : Nat) : Nat := s.queued.length + if dataLen > 0 then 2 else 1

theorem sent_length : (s.sent cdb dataIn dataLen).queued.length = s.queued.length + 1 := List.length_append

theorem carried_length : (s.carried cdb dataIn dataLen bytes).queued.length = statusAt s dataLen := by
  unfold Stick.carried statusAt
  split
  · rw [(landed_same _ _ _).2.1, Stick.queue, List.length_append, sent_length]
    rfl
  · exact sent_length

theorem carried_csw : (s.carried cdb dataIn dataLen bytes).csw = s.csw := by
  unfold Stick.carried Stick.landed
  split
  · split
    · rfl
    · rfl
  · rfl

theorem carried_tag : (s.carried cdb dataIn dataLen bytes).tag = s.tag + 1 := by
  unfold Stick.carried
  split
  · exact (landed_same _ _ _).2.2
  · rfl

/-- The transaction, past its command wrapper. -/
theorem bot_eq (h : Tidy s) (hprompt : Prompt device) {first : List UInt8}
    (hfirst : moves device s.queued.length = some first) :
    bot device s cdb dataIn dataLen =
      match if dataLen > 0 then bulk device (s.sent cdb dataIn dataLen) dataIn .data dataLen
        else (some (), s.sent cdb dataIn dataLen) with
      | (none, s) => (none, s)
      | (some _, s) =>
        match bulk device s true .csw 13 with
        | (none, s) => (none, s)
        | (some _, s) => (if Good s.tag s.csw then some () else none, s) := by
  have hbulk := @bulk_moves device _ false .cbw 31 first (@wrapped_tidy s cdb dataIn dataLen h) hfirst hprompt
  unfold bot
  change (match bulk device (s.wrapped cdb dataIn dataLen) false .cbw 31 with
    | (none, s) => (none, s)
    | (some _, s) => _) = _
  rw [hbulk]
  rfl

/-- The transaction, past its data. -/
theorem bot_status (h : Tidy s) (hprompt : Prompt device) {first : List UInt8}
    (hfirst : moves device s.queued.length = some first)
    (hdata : 0 < dataLen → moves device (s.queued.length + 1) = some bytes) :
    Tidy (s.carried cdb dataIn dataLen bytes) ∧ bot device s cdb dataIn dataLen =
      match bulk device (s.carried cdb dataIn dataLen bytes) true .csw 13 with
      | (none, s) => (none, s)
      | (some _, s) => (if Good s.tag s.csw then some () else none, s) := by
  have hsent : Tidy (s.sent cdb dataIn dataLen) := queue_tidy _ (wrapped_tidy h)
  rw [bot_eq h hprompt hfirst]
  unfold Stick.carried
  split
  next hpos =>
    have hmoves : moves device (s.sent cdb dataIn dataLen).queued.length = some bytes := sent_length ▸ hdata hpos
    rw [bulk_moves hsent hmoves hprompt, sent_length]
    refine ⟨landed_tidy _ _ ?_ (queue_tidy _ hsent), rfl⟩
    rw [Stick.queue, List.length_append, sent_length]
    exact Nat.lt_succ_self _
  · exact ⟨hsent, rfl⟩

/-- The transaction, past its status. -/
theorem bot_moves (h : Tidy s) (hprompt : Prompt device) {first status : List UInt8}
    (hfirst : moves device s.queued.length = some first)
    (hdata : 0 < dataLen → moves device (s.queued.length + 1) = some bytes)
    (hstatus : moves device (statusAt s dataLen) = some status) :
    bot device s cdb dataIn dataLen =
      (if Good (s.tag + 1) (land (statusAt s dataLen) (status.take 13) s.csw) then some () else none,
        ((s.carried cdb dataIn dataLen bytes).queue ⟨true, .csw, 13⟩).landed (statusAt s dataLen) ⟨true, .csw, 13⟩
          status) := by
  obtain ⟨htidy, hbot⟩ := @bot_status device s bytes cdb dataIn dataLen h hprompt first hfirst hdata
  have hmoves : moves device (s.carried cdb dataIn dataLen bytes).queued.length = some status := carried_length ▸ hstatus
  rw [hbot, bulk_moves htidy hmoves hprompt, carried_length]
  dsimp only
  rw [(landed_same _ _ _).2.2]
  have hcsw : (((s.carried cdb dataIn dataLen bytes).queue ⟨true, .csw, 13⟩).landed (statusAt s dataLen)
      ⟨true, .csw, 13⟩ status).csw = land (statusAt s dataLen) (status.take 13) s.csw :=
    congrArg (land _ _) carried_csw
  rw [hcsw]
  have htag : ((s.carried cdb dataIn dataLen bytes).queue ⟨true, .csw, 13⟩).tag = s.tag + 1 := carried_tag
  rw [htag]

/-- A transaction succeeds only if all its transfers complete with a code that the driver is content with. -/
theorem bot_some (h : Tidy s) (hprompt : Prompt device) (hsome : (bot device s cdb dataIn dataLen).1 = some ()) :
    ∃ first bytes status, moves device s.queued.length = some first ∧
      (0 < dataLen → moves device (s.queued.length + 1) = some bytes) ∧
      moves device (statusAt s dataLen) = some status := by
  cases hfirst : moves device s.queued.length with
  | none =>
    have hstops := @bulk_stops device _ false .cbw 31 (@wrapped_tidy s cdb dataIn dataLen h) hfirst hprompt
    exfalso
    unfold bot at hsome
    change (match bulk device (s.wrapped cdb dataIn dataLen) false .cbw 31 with
      | (none, s) => (none, s)
      | (some _, s) => _).1 = some () at hsome
    generalize bulk device (s.wrapped cdb dataIn dataLen) false .cbw 31 = r at hstops hsome
    obtain ⟨o, s'⟩ := r
    cases hstops
    cases hsome
  | some first =>
    have hdata : ∃ bytes, 0 < dataLen → moves device (s.queued.length + 1) = some bytes := by
      by_cases hpos : dataLen > 0
      · cases hmoves : moves device (s.queued.length + 1) with
        | some bytes => exact ⟨bytes, fun _ => rfl⟩
        | none =>
          have hsent : Tidy (s.sent cdb dataIn dataLen) := queue_tidy _ (wrapped_tidy h)
          have hstops := @bulk_stops device _ dataIn .data dataLen hsent (sent_length ▸ hmoves) hprompt
          exfalso
          rw [bot_eq h hprompt hfirst, if_pos hpos] at hsome
          generalize bulk device (s.sent cdb dataIn dataLen) dataIn .data dataLen = r at hstops hsome
          obtain ⟨o, s'⟩ := r
          cases hstops
          cases hsome
      · exact ⟨[], fun h => absurd h hpos⟩
    obtain ⟨bytes, hbytes⟩ := hdata
    cases hstatus : moves device (statusAt s dataLen) with
    | some status => exact ⟨first, bytes, status, rfl, hbytes, rfl⟩
    | none =>
      obtain ⟨htidy, hbot⟩ := @bot_status device s bytes cdb dataIn dataLen h hprompt first hfirst hbytes
      have hstops := @bulk_stops device _ true .csw 13 htidy (carried_length ▸ hstatus) hprompt
      exfalso
      rw [hbot] at hsome
      generalize bulk device (s.carried cdb dataIn dataLen bytes) true .csw 13 = r at hstops hsome
      obtain ⟨o, s'⟩ := r
      cases hstops
      cases hsome

/-- However a transaction ends, it leaves no event behind. -/
theorem bot_tidy (h : Tidy s) (hprompt : Prompt device) : Tidy (bot device s cdb dataIn dataLen).2 := by
  have hfirst := @bulk_tidy device _ false .cbw 31 (@wrapped_tidy s cdb dataIn dataLen h) hprompt
  unfold bot
  change Tidy (match bulk device (s.wrapped cdb dataIn dataLen) false .cbw 31 with
    | (none, s) => (none, s)
    | (some _, s) => _).2
  generalize bulk device (s.wrapped cdb dataIn dataLen) false .cbw 31 = r at hfirst ⊢
  obtain ⟨r, s₁⟩ := r
  cases r with
  | none => exact hfirst
  | some _ =>
    have hdata : Tidy (if dataLen > 0 then bulk device s₁ dataIn .data dataLen else (some (), s₁)).2 := by
      split
      · exact bulk_tidy hfirst hprompt
      · exact hfirst
    change Tidy (match if dataLen > 0 then bulk device s₁ dataIn .data dataLen else (some (), s₁) with
      | (none, s) => (none, s)
      | (some _, s) => _).2
    generalize (if dataLen > 0 then bulk device s₁ dataIn .data dataLen else (some (), s₁)) = r at hdata ⊢
    obtain ⟨r, s₂⟩ := r
    cases r with
    | none => exact hdata
    | some _ =>
      have hstatus := @bulk_tidy device _ true .csw 13 hdata hprompt
      change Tidy (match bulk device s₂ true .csw 13 with
        | (none, s) => (none, s)
        | (some _, s) => _).2
      generalize bulk device s₂ true .csw 13 = r at hstatus ⊢
      obtain ⟨r, s₃⟩ := r
      cases r with
      | none => exact hstatus
      | some _ => exact hstatus

theorem filled_tidy (block : List UInt8) (h : Tidy s) :
    Tidy { s with data := filled s.blockSize block s.data } := by
  refine ⟨h.events, fun k t hk => ?_, h.csw⟩
  change (filled s.blockSize block s.data k).origin = some t at hk
  unfold filled at hk
  split at hk
  · cases hk
  · exact h.data k t hk

theorem Command.after_tidy (c : Command) (h : Tidy s) (hprompt : Prompt device) : Tidy (c.after device s) := by
  cases c with
  | read lba room =>
    have hbot := @bot_tidy device s (readWriteCdb SCSI_READ_10 lba) true s.blockSize h hprompt
    unfold Command.after readBlock
    dsimp only
    generalize bot device s (readWriteCdb SCSI_READ_10 lba) true s.blockSize = r at hbot ⊢
    obtain ⟨_ | _, s'⟩ := r
    · exact hbot
    · exact hbot
  | write lba block => exact bot_tidy (filled_tidy block h) hprompt

/-! ## What a success says -/

variable {status : List UInt8}

/-- What the device moved in a transaction whose transfers all complete with a code that the driver is content with. -/
structure Moved (device : Device) (s : Stick) (dataLen : Nat) (bytes status : List UInt8) : Prop where
  command : (moves device s.queued.length).isSome
  data : 0 < dataLen → moves device (s.queued.length + 1) = some bytes
  status : moves device (statusAt s dataLen) = some status

/-- The status buffer after such a transaction. -/
def Stick.wrapper (s : Stick) (dataLen : Nat) (status : List UInt8) : Nat → Cell :=
  land (statusAt s dataLen) (status.take 13) s.csw

theorem bot_isSome_iff (h : Tidy s) (hprompt : Prompt device) :
    (bot device s cdb dataIn dataLen).1.isSome = true ↔
      ∃ bytes status, Moved device s dataLen bytes status ∧ Good (s.tag + 1) (s.wrapper dataLen status) := by
  constructor
  · intro hsome
    obtain ⟨u, hu⟩ := Option.isSome_iff_exists.1 hsome
    obtain ⟨first, bytes, status, hfirst, hdata, hstatus⟩ := bot_some h hprompt hu
    refine ⟨bytes, status, ⟨hfirst ▸ rfl, hdata, hstatus⟩, ?_⟩
    rw [bot_moves h hprompt hfirst hdata hstatus] at hu
    by_contra hbad
    rw [Stick.wrapper] at hbad
    rw [if_neg hbad] at hu
    cases hu
  · rintro ⟨bytes, status, hmoved, hgood⟩
    obtain ⟨first, hfirst⟩ := Option.isSome_iff_exists.1 hmoved.command
    rw [Stick.wrapper] at hgood
    rw [bot_moves h hprompt hfirst hmoved.data hmoved.status, if_pos hgood]
    rfl

/-- The buffers after a transaction that was moved. -/
theorem bot_buffers (h : Tidy s) (hprompt : Prompt device) (hmoved : Moved device s dataLen bytes status) :
    (bot device s cdb dataIn dataLen).2.csw = s.wrapper dataLen status ∧
      (bot device s cdb dataIn dataLen).2.data = (s.carried cdb dataIn dataLen bytes).data := by
  obtain ⟨first, hfirst⟩ := Option.isSome_iff_exists.1 hmoved.command
  rw [bot_moves h hprompt hfirst hmoved.data hmoved.status]
  exact ⟨congrArg (land _ _) carried_csw, rfl⟩

/-- All the wrapper was sent with this transaction exactly if the device sent all of it. -/
theorem wrapper_fills (h : Tidy s) :
    (∀ k < 13, (s.wrapper dataLen status k).origin = some (statusAt s dataLen)) ↔ 13 ≤ status.length := by
  refine land_fills (fun k hk => ?_) (Nat.le_refl 13)
  have hlt := h.csw k _ hk
  unfold statusAt at hlt
  omega

/-- What a device moved of a transfer is what happened while the driver waited for it. -/
theorem moves_mem {t : Nat} (hprompt : Prompt device) (hmoves : moves device t = some bytes) :
    ∃ code, device t = [.moved t bytes code] := by
  rcases hprompt t with hnone | ⟨b, code, hown⟩
  · rw [moves, hnone] at hmoves
    cases hmoves
  · rw [moves, hown] at hmoves
    dsimp only at hmoves
    split at hmoves
    · obtain rfl := Option.some.inj hmoves
      exact ⟨code, hown⟩
    · cases hmoves

theorem readBlock_eq (lba : UInt32) (room : Nat) :
    (readBlock device s lba room).1.isSome = (bot device s (readWriteCdb SCSI_READ_10 lba) true s.blockSize).1.isSome ∧
      (readBlock device s lba room).2 = (bot device s (readWriteCdb SCSI_READ_10 lba) true s.blockSize).2 := by
  unfold readBlock
  generalize bot device s (readWriteCdb SCSI_READ_10 lba) true s.blockSize = r
  obtain ⟨_ | _, s'⟩ := r
  · exact ⟨rfl, rfl⟩
  · exact ⟨rfl, rfl⟩

/-- A read is whole exactly if the device moved the wrapper and the bytes that are copied. -/
theorem read_whole_iff (h : Tidy s) (hprompt : Prompt device) (hmoved : Moved device s s.blockSize bytes status)
    (lba : UInt32) (room : Nat) :
    Whole device s (.read lba room) ↔ 13 ≤ status.length ∧ (0 < s.blockSize → min room s.blockSize ≤ bytes.length) := by
  obtain ⟨hcsw, hdata⟩ := @bot_buffers device s _ (readWriteCdb SCSI_READ_10 lba) true _ _ h hprompt hmoved
  unfold Whole Command.after
  dsimp only
  rw [(readBlock_eq lba room).2, hcsw, hdata]
  refine and_congr (wrapper_fills h) ?_
  by_cases hpos : 0 < s.blockSize
  · have hland : (s.carried (readWriteCdb SCSI_READ_10 lba) true s.blockSize bytes).data =
        land (dataOf s) (bytes.take s.blockSize) s.data := by
      rw [Stick.carried, if_pos hpos]
      rfl
    rw [hland, imp_iff_right hpos]
    refine land_fills (fun k hk => ?_) (Nat.min_le_right _ _)
    have hlt := h.data k _ hk
    unfold dataOf at hlt
    omega
  · -- Nothing is copied of a block of no bytes.
    have hzero : min room s.blockSize = 0 := by omega
    rw [hzero]
    exact ⟨fun _ hp => absurd hp hpos, fun _ k hk => absurd hk (Nat.not_lt_zero k)⟩

/-- A write is whole exactly if the device moved the block and a wrapper that has no residue. -/
theorem write_whole_iff (h : Tidy s) (hprompt : Prompt device) (hmoved : Moved device s s.blockSize bytes status)
    (lba : UInt32) (block : List UInt8) :
    Whole device s (.write lba block) ↔ 13 ≤ status.length ∧ residue (s.wrapper s.blockSize status) = 0 ∧
      (0 < s.blockSize → s.blockSize ≤ bytes.length) := by
  have hfilled := filled_tidy block h
  have hcsw := (@bot_buffers device _ _ (readWriteCdb SCSI_WRITE_10 lba) false _ _ hfilled hprompt
    ⟨hmoved.command, hmoved.data, hmoved.status⟩).1
  unfold Whole
  change (∀ k < 13, ((bot device { s with data := filled s.blockSize block s.data } _ false s.blockSize).2.csw
    k).origin = _) ∧ residue (bot device { s with data := filled s.blockSize block s.data } _ false
      s.blockSize).2.csw = 0 ∧ _ ↔ _
  rw [hcsw]
  refine and_congr (wrapper_fills hfilled) (and_congr_right fun _ => imp_congr_right fun hpos => ?_)
  obtain ⟨code, hown⟩ := moves_mem hprompt (hmoved.data hpos)
  change (∃ b c, .moved (dataOf s) b c ∈ device (s.queued.length + 1) ∧ _) ↔ _
  rw [hown]
  constructor
  · rintro ⟨b, c, hmem, hle⟩
    obtain ⟨-, rfl, -⟩ := Happening.moved.inj (List.mem_singleton.1 hmem)
    exact hle
  · exact fun hle => ⟨bytes, code, List.mem_singleton.2 rfl, hle⟩

/-- A command that is reported as done is whole exactly if the device moved all that it had to. -/
theorem whole_iff_generous (h : Tidy s) (hprompt : Prompt device) (c : Command) :
    (c.succeeds device s = true → Whole device s c) ↔ Generous device s c := by
  have hsucceeds : c.succeeds device s = true ↔
      ∃ bytes status, Moved device s s.blockSize bytes status ∧ Good (s.tag + 1) (s.wrapper s.blockSize status) := by
    cases c with
    | read lba room =>
      rw [Command.succeeds, (readBlock_eq lba room).1]
      exact bot_isSome_iff h hprompt
    | write lba block =>
      refine (bot_isSome_iff (filled_tidy block h) hprompt).trans ?_
      refine exists_congr fun bytes => exists_congr fun status => and_congr_left fun _ => ?_
      exact ⟨fun hm => ⟨hm.command, hm.data, hm.status⟩, fun hm => ⟨hm.command, hm.data, hm.status⟩⟩
  constructor
  · intro hwhole status hcommand hdata hstatus csw hgood
    have hbytes : ∃ bytes, 0 < s.blockSize → moves device (dataOf s) = some bytes := by
      by_cases hpos : 0 < s.blockSize
      · obtain ⟨bytes, hbytes⟩ := Option.isSome_iff_exists.1 (hdata hpos)
        exact ⟨bytes, fun _ => hbytes⟩
      · exact ⟨[], fun hp => absurd hp hpos⟩
    obtain ⟨bytes, hbytes⟩ := hbytes
    have hmoved : Moved device s s.blockSize bytes status := ⟨hcommand, hbytes, hstatus⟩
    have hdone := hwhole (hsucceeds.2 ⟨bytes, status, hmoved, hgood⟩)
    cases c with
    | read lba room =>
      obtain ⟨hlen, hall⟩ := (read_whole_iff h hprompt hmoved lba room).1 hdone
      refine ⟨hlen, fun b hpos hb => ?_⟩
      obtain rfl := Option.some.inj ((hbytes hpos).symm.trans hb)
      exact hall hpos
    | write lba block =>
      obtain ⟨hlen, hres, hall⟩ := (write_whole_iff h hprompt hmoved lba block).1 hdone
      refine ⟨hlen, hres, fun b hpos hb => ?_⟩
      obtain rfl := Option.some.inj ((hbytes hpos).symm.trans hb)
      exact hall hpos
  · intro hgenerous hdone
    obtain ⟨bytes, status, hmoved, hgood⟩ := hsucceeds.1 hdone
    have hmust := hgenerous status hmoved.command (fun hpos => Option.isSome_iff_exists.2 ⟨bytes, hmoved.data hpos⟩)
      hmoved.status hgood
    cases c with
    | read lba room =>
      exact (read_whole_iff h hprompt hmoved lba room).2 ⟨hmust.1, fun hpos => hmust.2 bytes hpos (hmoved.data hpos)⟩
    | write lba block =>
      exact (write_whole_iff h hprompt hmoved lba block).2
        ⟨hmust.1, hmust.2.1, fun hpos => hmust.2.2 bytes hpos (hmoved.data hpos)⟩

/-! ## A run -/

/-- While every wait is ended by its own transfer's completion or by none, every command that a run reports as done is
whole exactly if in every command whose wrapper passes the device moved all that it had to. -/
theorem allWhole_iff (device : Device) (hprompt : Prompt device) (s : Stick) (h : Tidy s) (cs : List Command) :
    AllWhole device s cs ↔ AllGenerous device s cs := by
  induction cs generalizing s with
  | nil => exact Iff.rfl
  | cons c cs ih =>
    exact and_congr (whole_iff_generous h hprompt c) (ih _ (c.after_tidy h hprompt))

/-! ## A block that was not sent -/

/-- The stick as it was set up, with blocks of 512 bytes. -/
def fresh : Stick := ⟨0, 512, [], fun _ => ⟨0, none⟩, fun _ => ⟨0, none⟩, [], []⟩

theorem fresh_tidy : Tidy fresh := ⟨rfl, fun _ _ h => (nomatch h), fun _ _ h => (nomatch h)⟩

/-- A status wrapper of a command that went well, for the first command, and nothing left over. -/
def wrapper : List UInt8 := le32 CSW_SIGNATURE ++ le32 1 ++ le32 0 ++ [0]

/-- A device that sends the whole block, or none of it in a short packet, and says that it went well. -/
def sends (block : List UInt8) : Device := fun t =>
  if t = 0 then [.moved 0 [] CC_SUCCESS]
  else if t = 1 then [.moved 1 block CC_SHORT_PACKET]
  else if t = 2 then [.moved 2 wrapper CC_SUCCESS]
  else []

theorem sends_prompt (block : List UInt8) : Prompt (sends block) := by
  intro t
  unfold sends
  split_ifs with h0 h1 h2
  · exact .inr ⟨[], CC_SUCCESS, by rw [h0]⟩
  · exact .inr ⟨block, CC_SHORT_PACKET, by rw [h1]⟩
  · exact .inr ⟨wrapper, CC_SUCCESS, by rw [h2]⟩
  · exact .inl rfl

theorem whole_block : AllWhole (sends (List.replicate 512 7)) fresh [.read 0 512] ↔
    AllGenerous (sends (List.replicate 512 7)) fresh [.read 0 512] :=
  allWhole_iff (sends (List.replicate 512 7)) (sends_prompt _) fresh fresh_tidy [.read 0 512]

/-- The block is reported although none of it was sent. -/
theorem empty_block : ¬ AllWhole (sends []) fresh [.read 0 512] := by
  rintro ⟨hwhole, -⟩
  have hdone : Command.succeeds (sends []) fresh (.read 0 512) = true := by decide
  have hfirst := (hwhole hdone).2 0 (by decide)
  revert hfirst
  decide

end NanoChrono.Usb.BulkOnly
