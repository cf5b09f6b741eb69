import NanoChrono.Rings.Cycle

/-! # The xHCI driver

The driver as programs that act on the controller, look at the event ring and read what a device
sent. Every ring it writes holds `RING_LEN - 1` entries and a link; a device's transfer ring serves its
control endpoint and its interrupt endpoint, the storage stick's bulk endpoints have one each. -/

namespace NanoChrono.Usb

open Rings

/-! ## Entries of a ring -/

def TRB_NORMAL : UInt32 := 1

def TRB_SETUP : UInt32 := 2

def TRB_DATA : UInt32 := 3

def TRB_STATUS : UInt32 := 4

def TRB_LINK : UInt32 := 6

/-- The events: a transfer's completion, a command's completion. -/
def TRB_TRANSFER_EVENT : UInt32 := 32

def TRB_COMMAND_COMPLETION : UInt32 := 33

/-- The cycle bit. -/
def TRB_CYCLE : UInt32 := 1

/-- Toggle Cycle, of the link. -/
def TRB_TOGGLE : UInt32 := 2

/-- Interrupt on completion. -/
def TRB_IOC : UInt32 := 32

def CC_SUCCESS : UInt32 := 1

def CC_SHORT_PACKET : UInt32 := 13

def RING_LEN : Nat := 16

/-- The rings of transfers: one for each device, and the storage stick's two. -/
inductive RingId where
  | transfer (device : Nat)
  | mscOut
  | mscIn
deriving DecidableEq, Repr

/-- The memory that a transfer reads or writes. -/
inductive Buffer where
  | device (device : Nat)
  | cbw | data | csw
deriving DecidableEq, Repr

/-- A block's parameter: a value, or the address of a buffer or of a ring's start. -/
inductive Parameter where
  | value (v : UInt64)
  | buffer (b : Buffer)
  | ring (r : RingId)
deriving DecidableEq, Repr

/-- One Transfer Request Block. -/
structure Trb where
  parameter : Parameter
  status : UInt32
  control : UInt32
deriving DecidableEq, Repr

namespace Trb

/-- The block as the ring's memory is at boot. -/
def zero : Trb := ⟨.value 0, 0, 0⟩

def cycle (t : Trb) : Bool := t.control &&& TRB_CYCLE != 0

def kind (t : Trb) : UInt32 := (t.control >>> 10) &&& 0x3F

end Trb

/-- The cycle bit of a lap, as it stands in a control word. -/
def cycleBit (cycle : Bool) : UInt32 := if cycle then TRB_CYCLE else 0

/-- What the driver puts on a transfer ring: the stages of control transfers, and a normal transfer. -/
inductive Stage where
  | setupIn | dataIn | statusOut | setupOut | statusIn | normal
deriving DecidableEq, Repr

/-- A stage's control word, without its cycle bit. -/
def Stage.control : Stage → UInt32
  | setupIn => (TRB_SETUP <<< (10 : UInt32)) ||| ((3 : UInt32) <<< (16 : UInt32)) |||
      ((1 : UInt32) <<< (6 : UInt32))
  | dataIn => (TRB_DATA <<< (10 : UInt32)) ||| ((1 : UInt32) <<< (16 : UInt32))
  | statusOut => (TRB_STATUS <<< (10 : UInt32)) ||| TRB_IOC
  | setupOut => (TRB_SETUP <<< (10 : UInt32)) ||| ((1 : UInt32) <<< (6 : UInt32))
  | statusIn => (TRB_STATUS <<< (10 : UInt32)) ||| TRB_IOC ||| ((1 : UInt32) <<< (16 : UInt32))
  | normal => (TRB_NORMAL <<< (10 : UInt32)) ||| TRB_IOC

/-- One transfer as the driver asks for it. -/
structure Work where
  parameter : Parameter
  status : UInt32
  stage : Stage
deriving DecidableEq, Repr

/-- The block a transfer is written as. -/
def Work.trb (w : Work) (cycle : Bool) : Trb :=
  ⟨w.parameter, w.status, w.stage.control ||| cycleBit cycle⟩

/-- The block at a ring's end: back to the start, and toggle the cycle. -/
def linkTrb (r : RingId) (cycle : Bool) : Trb :=
  ⟨.ring r, 0, (TRB_LINK <<< (10 : UInt32)) ||| TRB_TOGGLE ||| cycleBit cycle⟩

/-- An endpoint, by its slot and its number among the slot's contexts. -/
structure Endpoint where
  slot : UInt8
  dci : Nat
deriving DecidableEq, Repr

/-! ## What the driver does and learns -/

/-- One entry taken off the event ring. -/
structure Event where
  kind : UInt32
  completion : UInt32
  parameter : UInt64
  slot : UInt8
deriving DecidableEq, Repr

/-- The commands: Enable Slot; Address Device, which gives the slot's control endpoint a ring; Configure
Endpoint, which gives more endpoints of the slot theirs; Disable Slot. -/
inductive Command where
  | enable
  | address (slot : UInt8) (ring : RingId)
  | configure (slot : UInt8) (endpoints : List (Nat × RingId))
  | disable (slot : UInt8)
deriving DecidableEq, Repr

/-- What a transfer's completion is the completion of. -/
inductive Kind where
  | control | bulk | interrupt (device : Nat)
deriving DecidableEq, Repr

/-- What the driver does that the controller sees. -/
inductive Act where
  /-- A device's ring is started over, for a new device. -/
  | newDevice (device : Nat)
  /-- The storage stick's rings are started over. -/
  | newCursors
  | command (c : Command)
  | put (ring : RingId) (e : Endpoint) (w : Work)
  | doorbell (e : Endpoint) (kind : Kind)
  /-- A wait looked often enough and gives up: noted, nothing is done. -/
  | gaveUp
deriving DecidableEq, Repr

/-- Who looks at the event ring: a wait for events of a kind, or the polling of the HID devices. -/
inductive Taker where
  | wait (kind : UInt32)
  | drain
deriving DecidableEq, Repr

inductive HidKind where
  | keyboard | pointer | other
deriving DecidableEq, Repr

/-- What the configuration descriptor said of a HID interface. -/
structure Parsed where
  configuration : UInt8
  interface : UInt8
  endpoint : UInt8
  maxPacket : UInt16
  kind : HidKind
deriving DecidableEq, Repr

/-- The bulk endpoints of a mass-storage interface. -/
structure MassStorage where
  configuration : UInt8
  inEp : UInt8
  outEp : UInt8
deriving DecidableEq, Repr

/-- What the driver reads of what a device sent: the HID interface or the mass-storage interface in the
configuration descriptor, whether a status wrapper is good, the capacity. -/
inductive Query where
  | hid | storage | status | capacity
deriving DecidableEq, Repr

@[reducible] def Query.Answer : Query → Type
  | hid => Option Parsed
  | storage => Option MassStorage
  | status => Bool
  | capacity => UInt32 × UInt32

/-- A program of the driver. -/
inductive Prog (α : Type) where
  | done (a : α)
  | act (a : Act) (next : Prog α)
  | poll (t : Taker) (next : Option Event → Prog α)
  | ask (q : Query) (next : q.Answer → Prog α)

namespace Prog

variable {α β : Type}

@[grind =] def bind : Prog α → (α → Prog β) → Prog β
  | done a, f => f a
  | act a next, f => act a (next.bind f)
  | poll t next, f => poll t fun e => (next e).bind f
  | ask q next, f => ask q fun x => (next x).bind f

instance : Monad Prog where
  pure := done
  bind := bind

theorem bind_done (p : Prog α) : p.bind done = p := by
  induction p with
  | done a => rfl
  | act a next ih => exact congrArg (act a) ih
  | poll t next ih => exact congrArg (poll t) (funext ih)
  | ask q next ih => exact congrArg (ask q) (funext ih)

end Prog

/-! ## The driver's state -/

def MAX_DEVICES : Nat := 3

/-- One addressed device. -/
structure DeviceSlot where
  /-- The slot the controller gave it, zero if the entry is unused. -/
  slot : UInt8
  /-- Its interrupt IN endpoint. -/
  endpoint : UInt8
  /-- An interrupt transfer is queued and has not completed. -/
  queued : Bool
  /-- A completed transfer's report is in the buffer, unread. -/
  ready : Bool
deriving DecidableEq, Repr

def DeviceSlot.new : DeviceSlot := ⟨0, 0, false, false⟩

/-- An addressed mass-storage device. -/
structure MscSlot where
  slot : UInt8
  inEp : UInt8
  outEp : UInt8
  blockSize : UInt32
  blockCount : UInt64
  tag : UInt32
deriving DecidableEq, Repr

/-- A brought-up controller and the devices addressed on it. -/
structure Xhci where
  devices : Nat → DeviceSlot
  /-- How many entries of `devices` are in use. -/
  deviceCount : Nat
  msc : Option MscSlot

/-- The driver after the controller was brought up. -/
def Xhci.new : Xhci := ⟨fun _ => .new, 0, none⟩

/-- A program that reads and changes the driver's state. -/
abbrev Driver := StateT Xhci Prog

def act (a : Act) : Driver Unit := StateT.lift (.act a (.done ()))

def poll (t : Taker) : Driver (Option Event) := StateT.lift (.poll t .done)

def ask (q : Query) : Driver q.Answer := StateT.lift (.ask q .done)

/-! ## Events -/

/-- How often a wait looks at the event ring before it gives up. -/
def POLLS : Nat := 10000000

/-- Waits for the next event of a kind, the others discarded. -/
def waitFor (kind : UInt32) : Nat → Prog (Option Event)
  | 0 => .act .gaveUp (.done none)
  | n + 1 => .poll (.wait kind) fun
    | some event => if event.kind = kind then .done (some event) else waitFor kind n
    | none => waitFor kind n

def waitEvent (kind : UInt32) : Driver (Option Event) := StateT.lift (waitFor kind POLLS)

/-- Issues a command and waits for its completion. -/
def command (c : Command) : Driver (Option Event) := do
  act (.command c)
  waitEvent TRB_COMMAND_COMPLETION

/-- Issues a command: whether it completed with success. -/
def commandOk (c : Command) : Driver (Option Unit) := do
  match ← command c with
  | none => return none
  | some e => return if e.completion = CC_SUCCESS then some () else none

/-! ## Transfers -/

/-- A USB setup packet. -/
structure Setup where
  requestType : UInt8
  request : UInt8
  value : UInt16
  index : UInt16
  length : UInt16

def Setup.asU64 (s : Setup) : UInt64 :=
  s.requestType.toUInt64 ||| (s.request.toUInt64 <<< 8) ||| (s.value.toUInt64 <<< 16) |||
    (s.index.toUInt64 <<< 32) ||| (s.length.toUInt64 <<< 48)

def REQ_GET_DESCRIPTOR : UInt8 := 6

def REQ_SET_CONFIGURATION : UInt8 := 9

def REQ_SET_PROTOCOL : UInt8 := 0x0B

def DESC_DEVICE : UInt16 := 0x0100

def DESC_CONFIGURATION : UInt16 := 0x0200

/-- How many bytes of the configuration descriptor are asked for. -/
def CONFIG_READ : UInt16 := 256

/-- Places one block on a device's transfer ring, for its endpoint `dci`. -/
def transfer (device dci : Nat) (parameter : Parameter) (status : UInt32) (stage : Stage) :
    Driver Unit := do
  let x ← get
  act (.put (.transfer device) ⟨(x.devices device).slot, dci⟩ ⟨parameter, status, stage⟩)

/-- Rings the doorbell of a device's control endpoint and waits for the transfer. -/
def controlWait (index : Nat) : Driver (Option Unit) := do
  let x ← get
  act (.doorbell ⟨(x.devices index).slot, 1⟩ .control)
  match ← waitEvent TRB_TRANSFER_EVENT with
  | none => return none
  | some e => return if e.completion = CC_SUCCESS then some () else none

/-- A control transfer that reads into the device's buffer. -/
def controlIn (index : Nat) (setup : Setup) (length : UInt16) : Driver (Option Unit) := do
  transfer index 1 (.value setup.asU64) 8 .setupIn
  transfer index 1 (.buffer (.device index)) length.toUInt32 .dataIn
  transfer index 1 (.value 0) 0 .statusOut
  controlWait index

/-- A control transfer with no data stage. -/
def controlOut (index : Nat) (setup : Setup) : Driver (Option Unit) := do
  transfer index 1 (.value setup.asU64) 8 .setupOut
  transfer index 1 (.value 0) 0 .statusIn
  controlWait index

/-- The number among a slot's contexts of an endpoint address: twice its number, and one for IN. -/
def dciOf (address : UInt8) (inDir : Bool) : Nat :=
  (address &&& 0x0F).toNat * 2 + if inDir then 1 else 0

/-! ## Enumeration -/

/-- How many device slots the driver asks the controller for. -/
def MAX_SLOTS : Nat := 8

def setDevice (device : Nat) (f : DeviceSlot → DeviceSlot) : Driver Unit :=
  modify fun x => { x with devices := Function.update x.devices device (f (x.devices device)) }

/-- Issues Address Device. -/
def addressDevice (index : Nat) : Driver (Option Unit) := do
  let x ← get
  let slot := (x.devices index).slot
  if slot = 0 ∨ slot.toNat > MAX_SLOTS then return none
  else commandOk (.address slot (.transfer index))

/-- Adds the HID interrupt endpoint to the device, on the device's own ring. -/
def configureEndpoint (device : Nat) (address : UInt8) : Driver (Option Unit) := do
  if address &&& 0x0F = 0 then return none
  else
    let x ← get
    commandOk (.configure (x.devices device).slot [(dciOf address true, .transfer device)])

/-- Hands a slot back to the controller. -/
def disableSlot (slot : UInt8) : Driver Unit := do
  if slot = 0 ∨ slot.toNat > MAX_SLOTS then return ()
  else
    let _ ← command (.disable slot)
    return ()

/-- Selects the configuration and the boot protocol, and adds the interrupt endpoint. -/
def configureHid (index : Nat) (parsed : Parsed) : Driver (Option Unit) := do
  match ← controlOut index ⟨0x00, REQ_SET_CONFIGURATION, parsed.configuration.toUInt16, 0, 0⟩ with
  | none => return none
  | some () =>
    let _ ← controlOut index ⟨0x21, REQ_SET_PROTOCOL, 0, parsed.interface.toUInt16, 0⟩
    setDevice index fun d => { d with endpoint := parsed.endpoint }
    configureEndpoint index parsed.endpoint

/-- Adds both bulk endpoints to the device, each on its own ring. -/
def configureBulk (device : Nat) (parsed : MassStorage) : Driver (Option Unit) := do
  let outDci := dciOf parsed.outEp false
  let inDci := dciOf parsed.inEp true
  if outDci < 2 ∨ inDci < 2 ∨ outDci ≥ 32 ∨ inDci ≥ 32 then return none
  else
    let x ← get
    commandOk (.configure (x.devices device).slot [(outDci, .mscOut), (inDci, .mscIn)])

/-- One bulk transfer on the IN or OUT ring, waited to completion. -/
@[grind =] def bulk (msc : MscSlot) (inDir : Bool) (buffer : Buffer) (len : UInt32) : Driver (Option Unit) := do
  let e : Endpoint := ⟨msc.slot, dciOf (if inDir then msc.inEp else msc.outEp) inDir⟩
  act (.put (if inDir then .mscIn else .mscOut) e ⟨.buffer buffer, len, .normal⟩)
  act (.doorbell e .bulk)
  match ← waitEvent TRB_TRANSFER_EVENT with
  | none => return none
  | some event =>
    return if event.completion = CC_SUCCESS ∨ event.completion = CC_SHORT_PACKET then some () else none

/-- The stages of a Bulk-Only transaction after the command wrapper: the data if there is any, and the
status wrapper. -/
def botStatus (msc : MscSlot) : Driver (Option Unit) := do
  match ← bulk msc true .csw 13 with
  | none => return none
  | some () => return if ← ask .status then some () else none

/-- One Bulk-Only transaction: command wrapper out, an optional data stage, status wrapper in. -/
def bot (msc : MscSlot) (dataIn : Bool) (dataLen : UInt32) : Driver (Option Unit × MscSlot) := do
  let msc := { msc with tag := msc.tag + 1 }
  match ← bulk msc false .cbw 31 with
  | none => return (none, msc)
  | some () =>
    if dataLen > 0 then
      match ← bulk msc dataIn .data dataLen with
      | none => return (none, msc)
      | some () => return (← botStatus msc, msc)
    else return (← botStatus msc, msc)

/-- Asks the unit whether it is ready, `n` times at most. -/
def unitReady : Nat → MscSlot → Driver (Bool × MscSlot)
  | 0, msc => return (false, msc)
  | n + 1, msc => do
    match ← bot msc false 0 with
    | (some (), msc) => return (true, msc)
    | (none, msc) => unitReady n msc

/-- The largest block the driver handles. -/
def MAX_BLOCK : Nat := 4096

/-- Brings the SCSI unit up: the stick as it is recorded. -/
def bringUp (msc : MscSlot) : Driver (Option MscSlot) := do
  match ← bot msc true 36 with
  | (none, _) => return none
  | (some (), msc) =>
    match ← unitReady 16 msc with
    | (false, _) => return none
    | (true, msc) =>
      match ← bot msc true 8 with
      | (none, _) => return none
      | (some (), msc) =>
        let (lastLba, blockSize) ← ask .capacity
        if blockSize = 0 ∨ blockSize.toNat > MAX_BLOCK then return none
        else return some { msc with blockSize, blockCount := lastLba.toUInt64 + 1 }

/-- Configures an addressed mass-storage device for block transfers, and records it. -/
def configureStorage (index : Nat) (parsed : MassStorage) : Driver (Option Unit) := do
  match ← controlOut index ⟨0x00, REQ_SET_CONFIGURATION, parsed.configuration.toUInt16, 0, 0⟩ with
  | none => return none
  | some () =>
    match ← configureBulk index parsed with
    | none => return none
    | some () =>
      let x ← get
      act .newCursors
      match ← bringUp ⟨(x.devices index).slot, parsed.inEp, parsed.outEp, 512, 0, 0⟩ with
      | none => return none
      | some msc =>
        modify fun x => { x with msc := some msc }
        return some ()

/-- Which kinds of device the caller still needs. -/
structure Want where
  keyboard : Bool
  pointer : Bool
  storage : Bool
deriving DecidableEq, Repr

/-- What was found on a port. -/
inductive PortDevice where
  | hid (index : Nat) (kind : HidKind) (reportLen : UInt16)
  | storage
  | other
deriving DecidableEq, Repr

/-- Configures a device that has no HID interface, if it is a stick that is wanted. -/
def identifyStorage (index : Nat) (want : Want) : Driver (Option PortDevice) := do
  let x ← get
  if want.storage ∧ x.msc = none then
    match ← ask .storage with
    | none => return some .other
    | some parsed =>
      match ← configureStorage index parsed with
      | none => return none
      | some () =>
        modify fun x => { x with deviceCount := index + 1 }
        return some .storage
  else return some .other

/-- Whether the caller still needs a kind of HID device. -/
def Want.hid (want : Want) : HidKind → Bool
  | .keyboard => want.keyboard
  | .pointer => want.pointer
  | .other => false

/-- Configures a device by the interfaces its configuration descriptor names. -/
def configure (index : Nat) (want : Want) : Driver (Option PortDevice) := do
  match ← ask .hid with
  | none => identifyStorage index want
  | some parsed =>
    if want.hid parsed.kind then
      match ← configureHid index parsed with
      | none => return none
      | some () =>
        modify fun x => { x with deviceCount := index + 1 }
        return some (.hid index parsed.kind parsed.maxPacket)
    else return some .other

/-- Addresses the device, reads its descriptors and configures it by class. -/
def identify (index : Nat) (want : Want) : Driver (Option PortDevice) := do
  match ← addressDevice index with
  | none => return none
  | some () =>
    match ← controlIn index ⟨0x80, REQ_GET_DESCRIPTOR, DESC_DEVICE, 0, 18⟩ 18 with
    | none => return none
    | some () =>
      match ← controlIn index ⟨0x80, REQ_GET_DESCRIPTOR, DESC_CONFIGURATION, 0, CONFIG_READ⟩
          CONFIG_READ with
      | none => return none
      | some () => configure index want

/-- Whether a device was kept. -/
def kept : Option PortDevice → Bool
  | some (.hid _ _ _) => true
  | some .storage => true
  | _ => false

/-- Enumerates the device on a port once; one that is not kept has its slot disabled again. -/
def enumeratePort (want : Want) : Driver (Option PortDevice) := do
  let x ← get
  let index := x.deviceCount
  if index ≥ MAX_DEVICES then return none
  else
    match ← command .enable with
    | none => return none
    | some event =>
      if event.completion ≠ CC_SUCCESS ∨ event.slot = 0 then return none
      else
        setDevice index fun _ => { DeviceSlot.new with slot := event.slot }
        act (.newDevice index)
        let found ← identify index want
        if kept found then return found
        else
          disableSlot event.slot
          return found

/-! ## Reports and blocks -/

/-- Which device an event's slot number refers to. -/
def deviceOfSlot (x : Xhci) (slot : UInt8) : Option Nat :=
  (List.range x.deviceCount).find? fun i => (x.devices i).slot = slot

/-- What an event does to the devices: a transfer's completion clears its device's `queued`, and a good
one leaves a report. -/
def route (event : Event) (x : Xhci) : Xhci :=
  if event.kind ≠ TRB_TRANSFER_EVENT then x
  else
    match deviceOfSlot x event.slot with
    | none => x
    | some device =>
      let good := event.completion = CC_SUCCESS ∨ event.completion = CC_SHORT_PACKET
      let d := x.devices device
      let d := { d with queued := false, ready := good ∨ d.ready }
      { x with devices := Function.update x.devices device d }

/-- Consumes the events the controller has posted, `n` at most. -/
def drainEvents : Nat → Driver Unit
  | 0 => return ()
  | n + 1 => do
    match ← poll .drain with
    | none => return ()
    | some event =>
      modify (route event)
      drainEvents n

/-- Queues an interrupt transfer for a device, if none is outstanding. -/
def arm (device len : Nat) : Driver Unit := do
  let x ← get
  if (x.devices device).queued then return ()
  else
    let dci := dciOf (x.devices device).endpoint true
    transfer device dci (.buffer (.device device)) (UInt32.ofNat (min len 64)) .normal
    act (.doorbell ⟨(x.devices device).slot, dci⟩ (.interrupt device))
    setDevice device fun d => { d with queued := true }

/-- Takes a report from a device if one has arrived, and keeps a read queued. -/
def pollReport (device len : Nat) : Driver (Option Nat) := do
  let x ← get
  if device ≥ x.deviceCount then return none
  else
    drainEvents RING_LEN
    let x ← get
    if (x.devices device).ready then
      setDevice device fun d => { d with ready := false }
      arm device len
      return some (min len 64)
    else
      arm device len
      return none

/-- Reads or writes one block of the storage stick. -/
def transferBlock (dataIn : Bool) : Driver (Option Unit) := do
  let x ← get
  match x.msc with
  | none => return none
  | some msc =>
    let (ok, msc) ← bot msc dataIn msc.blockSize
    modify fun x => { x with msc := some msc }
    return ok

def readBlock : Driver (Option Unit) := transferBlock true

def writeBlock : Driver (Option Unit) := transferBlock false

/-! ## Calls -/

/-- What the rest of the system asks of the driver. -/
inductive Call where
  | enumerate (want : Want)
  | report (device len : Nat)
  | read
  | write
deriving DecidableEq, Repr

/-- Serves a call: the length of the report, if one was taken. -/
def Call.run : Call → Driver (Option Nat)
  | enumerate want => do
    let _ ← enumeratePort want
    return none
  | report device len => pollReport device len
  | read => do
    let _ ← readBlock
    return none
  | write => do
    let _ ← writeBlock
    return none

/-- Serves one call after another. -/
@[grind =] def session : List Call → Driver Unit
  | [] => return ()
  | c :: calls => do
    let _ ← c.run
    session calls

end NanoChrono.Usb
