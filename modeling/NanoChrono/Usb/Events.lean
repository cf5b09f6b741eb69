import Mathlib.Data.List.Nodup
import NanoChrono.Usb.Driver

/-! # The event ring

All completions come in on one ring, in the order in which the controller posts them. A wait discards
what it does not wait for, and takes the first completion of its kind for its own; the polling of the
HID devices goes by the slot that an event names. -/

namespace NanoChrono.Usb

/-! ## The controller's answers -/

/-- What the driver asks of the controller that ends in one completion. -/
inductive Asked where
  | command (c : Command)
  | transfer (kind : Kind)
deriving DecidableEq, Repr

/-- The kind of event that the completion is. -/
def Asked.event : Asked → UInt32
  | command _ => TRB_COMMAND_COMPLETION
  | transfer _ => TRB_TRANSFER_EVENT

/-- One such operation; they are numbered as they are asked. -/
structure Op where
  id : Nat
  asked : Asked
  slot : UInt8
deriving DecidableEq, Repr

/-- An interrupt transfer of a device. -/
def Op.reports (device : Nat) (o : Op) : Bool := o.asked = .transfer (.interrupt device)

/-- An interrupt transfer of some device. -/
@[grind =] def Op.interrupt (o : Op) : Bool :=
  match o.asked with
  | .transfer (.interrupt _) => true
  | _ => false

/-- An event as the controller posted it, and what it is the completion of. -/
structure Posted where
  event : Event
  owner : Option Op
deriving DecidableEq, Repr

/-- Whether a completion code says that the transfer brought data. -/
def Good (completion : UInt32) : Prop := completion = CC_SUCCESS ∨ completion = CC_SHORT_PACKET

instance (completion : UInt32) : Decidable (Good completion) :=
  inferInstanceAs (Decidable (completion = CC_SUCCESS ∨ completion = CC_SHORT_PACKET))

/-- The completion of an interrupt transfer of a device that brought a report. -/
def Posted.report (device : Nat) (p : Posted) : Bool :=
  p.owner.any (·.reports device) && Good p.event.completion

/-- What is between the driver and the controller: the operations not completed and the events not
taken; with how many operations were asked, the last one that is waited for, the operations whose wait
gave up, and how many reports each device's transfers brought. -/
structure Bus where
  pending : List Op
  ring : List Posted
  asked : Nat
  awaited : Option Op
  givenUp : List Nat
  reports : Nat → Nat

namespace Bus

/-- The bus when the controller was brought up. -/
def boot : Bus := ⟨[], [], 0, none, [], fun _ => 0⟩

/-- The operations asked that the driver has not taken the completion of. -/
def alive (b : Bus) : List Op := b.pending ++ b.ring.filterMap Posted.owner

/-- A transfer of a device is outstanding: not completed, or its completion not taken. -/
def Outstanding (b : Bus) (device : Nat) : Prop := ∃ o ∈ b.alive, o.reports device

instance (b : Bus) (device : Nat) : Decidable (b.Outstanding device) :=
  inferInstanceAs (Decidable (∃ o ∈ b.alive, o.reports device))

/-- Asks for an operation. -/
def issue (b : Bus) (asked : Asked) (slot : UInt8) : Bus :=
  { b with pending := b.pending ++ [⟨b.asked, asked, slot⟩], asked := b.asked + 1 }

/-- Asks for an operation that is waited for. -/
def await (b : Bus) (asked : Asked) (slot : UInt8) : Bus :=
  { b.issue asked slot with awaited := some ⟨b.asked, asked, slot⟩ }

/-- The effect of what the driver does. -/
def act (b : Bus) : Act → Bus
  | .command c => b.await (.command c) 0
  | .doorbell e (.interrupt device) => b.issue (.transfer (.interrupt device)) e.slot
  | .doorbell e kind => b.await (.transfer kind) e.slot
  | .gaveUp => { b with givenUp := b.givenUp ++ (b.awaited.map Op.id).toList }
  | .newDevice _ => b
  | .newCursors => b
  | .put _ _ _ => b

end Bus

/-- What the controller posts: the completion of an operation, with the slot that a command answers
with; or an event that is no completion. -/
inductive Post where
  | completion (id : Nat) (code : UInt32) (parameter : UInt64) (slot : UInt8)
  | other (event : Event)
deriving DecidableEq, Repr

/-- An operation's completion. A transfer's names the transfer's slot. -/
def Op.completion (o : Op) (code : UInt32) (parameter : UInt64) (slot : UInt8) : Event :=
  ⟨o.asked.event, code, parameter,
    match o.asked with
    | .command _ => slot
    | .transfer _ => o.slot⟩

/-- The controller posts an event: each operation is completed once. -/
def Bus.post (b : Bus) : Post → Bus
  | .completion id code parameter slot =>
    match b.pending.find? (·.id = id) with
    | none => b
    | some o =>
      { b with
        pending := b.pending.erase o
        ring := b.ring ++ [⟨o.completion code parameter slot, some o⟩]
        reports := fun d => b.reports d + if o.reports d ∧ Good code then 1 else 0 }
  | .other event =>
    if event.kind = TRB_TRANSFER_EVENT ∨ event.kind = TRB_COMMAND_COMPLETION then b
    else { b with ring := b.ring ++ [⟨event, none⟩] }

/-! ## Runs -/

/-- The driver took an entry off the event ring: who looked, what it was, what was waited for, and
which operations had been given up. -/
structure Look where
  taker : Taker
  posted : Posted
  awaited : Option Op
  givenUp : List Nat

/-- Takes the first entry off the event ring, and what is noted of it. -/
def Bus.look (b : Bus) (t : Taker) (p : Posted) : Look := ⟨t, p, b.awaited, b.givenUp⟩

/-- The controller posts one event after another. -/
def Bus.posts (b : Bus) (events : List Post) : Bus := events.foldl post b

/-- A run of a program: between the driver's steps the controller posts what it likes, and the driver
finds the first entry of the event ring. -/
inductive Exec {α : Type} : Prog α → Bus → List Look → α → Bus → Prop where
  | done (events : List Post) (a : α) (b : Bus) : Exec (.done a) b [] a (b.posts events)
  | act (events : List Post) {c : Act} {next : Prog α} {b b' : Bus} {looks : List Look} {a : α}
      (rest : Exec next ((b.posts events).act c) looks a b') : Exec (.act c next) b looks a b'
  | empty (events : List Post) {t : Taker} {next : Option Event → Prog α} {b b' : Bus}
      {looks : List Look} {a : α} (hring : (b.posts events).ring = [])
      (rest : Exec (next none) (b.posts events) looks a b') : Exec (.poll t next) b looks a b'
  | take (events : List Post) {t : Taker} {next : Option Event → Prog α} {p : Posted}
      {ring : List Posted} {b b' : Bus} {looks : List Look} {a : α}
      (hring : (b.posts events).ring = p :: ring)
      (rest : Exec (next (some p.event)) { b.posts events with ring } looks a b') :
      Exec (.poll t next) b ((b.posts events).look t p :: looks) a b'
  | ask {q : Query} (answer : q.Answer) {next : q.Answer → Prog α} {b b' : Bus} {looks : List Look}
      {a : α} (rest : Exec (next answer) b looks a b') : Exec (.ask q next) b looks a b'

/-- A run of a program and what comes after it is a run of the one and then of the other. -/
theorem exec_bind {α β : Type} {p : Prog α} {f : α → Prog β} {b b' : Bus} {looks : List Look} {r : β}
    (h : Exec (p.bind f) b looks r b') :
    ∃ a b₁ first second, Exec p b first a b₁ ∧ Exec (f a) b₁ second r b' ∧ looks = first ++ second := by
  induction p generalizing b looks with
  | done a => exact ⟨a, b, [], looks, .done [] a b, h, rfl⟩
  | act c next ih =>
    cases h with
    | act events rest =>
      obtain ⟨a, b₁, first, second, hfirst, hsecond, hlooks⟩ := ih rest
      exact ⟨a, b₁, first, second, .act events hfirst, hsecond, hlooks⟩
  | poll t next ih =>
    cases h with
    | empty events hring rest =>
      obtain ⟨a, b₁, first, second, hfirst, hsecond, hlooks⟩ := ih none rest
      exact ⟨a, b₁, first, second, .empty events hring hfirst, hsecond, hlooks⟩
    | take events hring rest =>
      obtain ⟨a, b₁, first, second, hfirst, hsecond, hlooks⟩ := ih (some _) rest
      exact ⟨a, b₁, _ :: first, second, .take events hring hfirst, hsecond, congrArg (_ :: ·) hlooks⟩
  | ask q next ih =>
    cases h with
    | ask answer rest =>
      obtain ⟨a, b₁, first, second, hfirst, hsecond, hlooks⟩ := ih answer rest
      exact ⟨a, b₁, first, second, .ask answer hfirst, hsecond, hlooks⟩

/-! ## What is asked of a run -/

/-- A wait that ends with an event takes the completion of what it waits for. -/
def Look.Own (look : Look) : Prop :=
  look.taker = .wait look.posted.event.kind →
    ∃ o, look.awaited = some o ∧ look.posted.owner = some o

/-- What keeps completions from those they are not for. A wait does not find the completion of an
interrupt transfer, nor, of the kind it waits for, one of an operation whose wait gave up. The polling
does not find the completion of a control or bulk transfer that names the slot of a device. -/
def Posted.Clear (kept : UInt8 → Prop) (givenUp : List Nat) (p : Posted) : Taker → Prop
  | .wait kind => ∀ o ∈ p.owner, o.interrupt = false ∧ (p.event.kind = kind → o.id ∉ givenUp)
  | .drain => ∀ o ∈ p.owner, o.interrupt = false → o.asked.event = TRB_TRANSFER_EVENT →
      ¬ kept p.event.slot

instance (kept : UInt8 → Prop) [DecidablePred kept] (givenUp : List Nat) (p : Posted) :
    (t : Taker) → Decidable (p.Clear kept givenUp t)
  | .wait kind => inferInstanceAs (Decidable (∀ o ∈ p.owner,
      o.interrupt = false ∧ (p.event.kind = kind → o.id ∉ givenUp)))
  | .drain => inferInstanceAs (Decidable (∀ o ∈ p.owner, o.interrupt = false →
      o.asked.event = TRB_TRANSFER_EVENT → ¬ kept p.event.slot))

def Look.Clear (kept : UInt8 → Prop) (look : Look) : Prop :=
  look.posted.Clear kept look.givenUp look.taker

instance (kept : UInt8 → Prop) [DecidablePred kept] (look : Look) : Decidable (look.Clear kept) :=
  inferInstanceAs (Decidable (look.posted.Clear kept look.givenUp look.taker))

/-- The controller answers Enable Slot with a slot that no device has. -/
def Look.NewSlot (kept : UInt8 → Prop) (look : Look) : Prop :=
  ∀ o ∈ look.posted.owner, o.asked = .command .enable →
    look.posted.event.completion = CC_SUCCESS → ¬ kept look.posted.event.slot

instance (kept : UInt8 → Prop) [DecidablePred kept] (look : Look) : Decidable (look.NewSlot kept) :=
  inferInstanceAs (Decidable (∀ o ∈ look.posted.owner, o.asked = .command .enable →
    look.posted.event.completion = CC_SUCCESS → ¬ kept look.posted.event.slot))

/-- A program whose clear runs take a bus with `P` to an answer and a bus with `Q`, every wait ending
with its own completion. -/
def Triple {α : Type} (kept : UInt8 → Prop) (P : Bus → Prop) (p : Prog α) (Q : α → Bus → Prop) : Prop :=
  ∀ (b b' : Bus) (looks : List Look) (a : α), Exec p b looks a b' → P b →
    (∀ look ∈ looks, look.Clear kept ∧ look.NewSlot kept) → Q a b' ∧ ∀ look ∈ looks, look.Own

/-- The controller's posts keep it. -/
def Stable (P : Bus → Prop) : Prop := ∀ b q, P b → P (b.post q)

theorem Stable.posts {P : Bus → Prop} (h : Stable P) {b : Bus} (hb : P b) (events : List Post) :
    P (b.posts events) := by
  induction events generalizing b with
  | nil => exact hb
  | cons q events ih => exact ih (h b q hb)

namespace Triple

variable {α β : Type} {kept : UInt8 → Prop} {P : Bus → Prop}

theorem done (hP : Stable P) (a : α) : Triple kept P (.done a) fun r b => r = a ∧ P b := by
  intro b b' looks r h hb _
  cases h with
  | done events => exact ⟨⟨rfl, hP.posts hb events⟩, fun look hl => absurd hl List.not_mem_nil⟩

theorem act (hP : Stable P) {c : Act} {next : Prog α} {R : Bus → Prop} {Q : α → Bus → Prop}
    (hact : ∀ b, P b → R (b.act c)) (hnext : Triple kept R next Q) :
    Triple kept P (.act c next) Q := by
  intro b b' looks r h hb hclear
  cases h with
  | act events rest => exact hnext _ _ _ _ rest (hact _ (hP.posts hb events)) hclear

theorem poll (hP : Stable P) {t : Taker} {next : Option Event → Prog α} {R : Posted → Bus → Prop}
    {Q : α → Bus → Prop} (hempty : Triple kept P (next none) Q)
    (htake : ∀ b p ring, P b → b.ring = p :: ring →
      (b.look t p).Clear kept ∧ (b.look t p).NewSlot kept → (b.look t p).Own ∧ R p { b with ring })
    (hnext : ∀ p, Triple kept (R p) (next (some p.event)) Q) : Triple kept P (.poll t next) Q := by
  intro b b' looks r h hb hclear
  cases h with
  | empty events hring rest => exact hempty _ _ _ _ rest (hP.posts hb events) hclear
  | take events hring rest =>
    obtain ⟨hhead, htail⟩ := List.forall_mem_cons.1 hclear
    obtain ⟨hown, hR⟩ := htake _ _ _ (hP.posts hb events) hring hhead
    obtain ⟨hQ, hrest⟩ := hnext _ _ _ _ _ rest hR htail
    exact ⟨hQ, List.forall_mem_cons.2 ⟨hown, hrest⟩⟩

theorem ask {q : Query} {next : q.Answer → Prog α} {Q : α → Bus → Prop}
    (hnext : ∀ answer, Triple kept P (next answer) Q) : Triple kept P (.ask q next) Q := by
  intro b b' looks r h hb hclear
  cases h with
  | ask answer rest => exact hnext answer _ _ _ _ rest hb hclear

theorem bind {p : Prog α} {f : α → Prog β} {R : α → Bus → Prop} {Q : β → Bus → Prop}
    (hp : Triple kept P p R) (hf : ∀ a, Triple kept (R a) (f a) Q) : Triple kept P (p.bind f) Q := by
  intro b b' looks r h hb hclear
  obtain ⟨a, b₁, first, second, hfirst, hsecond, rfl⟩ := exec_bind h
  obtain ⟨hR, hown⟩ := hp _ _ _ _ hfirst hb fun look hl => hclear look (List.mem_append_left _ hl)
  obtain ⟨hQ, hown'⟩ := hf a _ _ _ _ hsecond hR fun look hl => hclear look (List.mem_append_right _ hl)
  exact ⟨hQ, List.forall_mem_append.2 ⟨hown, hown'⟩⟩

theorem conseq {p : Prog α} {P' : Bus → Prop} {Q Q' : α → Bus → Prop} (h : Triple kept P p Q)
    (hP : ∀ b, P' b → P b) (hQ : ∀ a b, Q a b → Q' a b) : Triple kept P' p Q' := by
  intro b b' looks r hrun hb hclear
  obtain ⟨hr, hown⟩ := h _ _ _ _ hrun (hP b hb) hclear
  exact ⟨hQ _ _ hr, hown⟩

/-- What does not depend on the bus may be used of it. -/
theorem of_pre {p : Prog α} {Q : α → Bus → Prop} {C : Prop} (h : C → Triple kept P p Q) :
    Triple kept (fun b => C ∧ P b) p Q := by
  intro b b' looks r hrun hb hclear
  exact h hb.1 _ _ _ _ hrun hb.2 hclear

end Triple

end NanoChrono.Usb
