import NanoChrono.Usb.Marks

/-! # Completions reach their owner

A completion reaches its owner as long as no other one is on the event ring when the driver looks for
it: a wait that finds the report of a HID device discards it or takes it for its own. -/

namespace NanoChrono.Usb

/-! ## Programs of the driver -/

variable {α β : Type} {kept : UInt8 → Prop} {handed : Nat → Nat}

/-- A program of the driver whose clear runs take a state with `R` to an answer and a state with `S`,
the driver and the bus sound before and after. -/
def Holds (kept : UInt8 → Prop) (handed : Nat → Nat) (R : Xhci → Prop) (p : Driver α)
    (S : α → Xhci → Prop) : Prop :=
  ∀ x, R x → Triple kept (Sound handed none x) (p.run x)
    fun r b => S r.1 r.2 ∧ Sound handed none r.2 b

theorem Holds.bind {R : Xhci → Prop} {p : Driver α} {S : α → Xhci → Prop} {f : α → Driver β}
    {T : β → Xhci → Prop} (hp : Holds kept handed R p S) (hf : ∀ a, Holds kept handed (S a) (f a) T) :
    Holds kept handed R (p >>= f) T := by
  intro x hx
  exact (hp x hx).bind fun r => Triple.of_pre fun hr => hf r.1 r.2 hr

theorem Holds.pure {R : Xhci → Prop} {S : α → Xhci → Prop} {a : α} (h : ∀ x, R x → S a x) :
    Holds kept handed R (Pure.pure a) S := by
  intro x hx
  refine (Triple.done (Sound.stable handed none x) (a, x)).conseq (fun _ h => h) ?_
  rintro _ b ⟨rfl, hb⟩
  exact ⟨h x hx, hb⟩

theorem Holds.get {R : Xhci → Prop} {f : Xhci → Driver α} {S : α → Xhci → Prop}
    (hf : ∀ x₀, R x₀ → Holds kept handed (fun x => x = x₀) (f x₀) S) :
    Holds kept handed R (get >>= f) S := fun x hx => hf x hx x rfl

/-- A change of the driver's state that the marks allow. -/
theorem Holds.modified {R : Xhci → Prop} {f : Xhci → Xhci} {S : Unit → Xhci → Prop}
    (h : ∀ x, R x → S () (f x) ∧ ∀ b, Sound handed none x b → Sound handed none (f x) b) :
    Holds kept handed R (modify f) S := by
  intro x hx
  refine (Triple.done (Sound.stable handed none x) ((), f x)).conseq (fun _ h => h) ?_
  rintro _ b ⟨rfl, hb⟩
  exact ⟨(h x hx).1, (h x hx).2 b hb⟩

theorem Holds.conseq {R R' : Xhci → Prop} {p : Driver α} {S S' : α → Xhci → Prop}
    (h : Holds kept handed R p S) (hR : ∀ x, R' x → R x) (hS : ∀ a x, S a x → S' a x) :
    Holds kept handed R' p S' :=
  fun x hx => (h x (hR x hx)).conseq (fun _ h => h) fun _ _ hr => ⟨hS _ _ hr.1, hr.2⟩

/-- Asking for an operation and waiting for it. -/
theorem Holds.await {R : Xhci → Prop} {a : Act} (asked : Asked) (slot : UInt8)
    (hact : ∀ b : Bus, b.act a = b.await asked slot)
    (hother : ∀ device, asked ≠ .transfer (.interrupt device)) {g : Option Event → Driver α}
    {S : α → Xhci → Prop} (hg : ∀ r, Answer kept asked r → Holds kept handed R (g r) S) :
    Holds kept handed R (act a >>= fun _ => waitEvent asked.event >>= g) S := by
  intro x hx
  have hrun : (act a >>= fun _ => waitEvent asked.event >>= g).run x =
      .act a (((waitFor asked.event POLLS).bind fun e => .done (e, x)).bind fun r => (g r.1).run r.2) := rfl
  rw [hrun]
  intro b b' looks r hrun hb hclear
  cases hrun with
  | act events rest =>
    have hb := (Sound.stable handed none x).posts hb events
    rw [hact] at rest
    have hwait : Triple kept (Awaiting handed x ⟨(b.posts events).asked, asked, slot⟩)
        ((waitFor asked.event POLLS).bind fun e => .done (e, x))
        fun r b => (Answer kept asked r.1 ∧ r.2 = x) ∧ Sound handed none x b := by
      refine (triple_waitFor kept handed x _ POLLS).bind fun e => Triple.of_pre fun he => ?_
      refine (Triple.done (Sound.stable handed none x) (e, x)).conseq (fun _ h => h) ?_
      rintro _ b ⟨rfl, hb⟩
      exact ⟨⟨he, rfl⟩, hb⟩
    have hrest : Triple kept (Awaiting handed x ⟨(b.posts events).asked, asked, slot⟩)
        (((waitFor asked.event POLLS).bind fun e => .done (e, x)).bind fun r => (g r.1).run r.2)
        fun r b => S r.1 r.2 ∧ Sound handed none r.2 b := by
      refine hwait.bind fun r => Triple.of_pre fun hr => ?_
      rw [hr.2]
      exact hg r.1 hr.1 x hx
    exact hrest _ _ _ _ rest (hb.await hother) hclear

theorem command_eq (c : Command) :
    command c = (act (.command c) >>= fun _ => waitEvent TRB_COMMAND_COMPLETION >>= pure) := by
  have hpure : (waitEvent TRB_COMMAND_COMPLETION >>= pure) = waitEvent TRB_COMMAND_COMPLETION :=
    funext fun x => Prog.bind_done _
  rw [hpure, command]

/-- A program that leaves the driver's state as it is. -/
def Leaves (p : Driver α) : Prop :=
  ∀ (kept : UInt8 → Prop) (handed : Nat → Nat) (R : Xhci → Prop), Holds kept handed R p fun _ => R

namespace Leaves

theorem pure (a : α) : Leaves (Pure.pure a : Driver α) := fun _ _ _ => Holds.pure fun _ h => h

theorem bind {p : Driver α} {f : α → Driver β} (hp : Leaves p) (hf : ∀ a, Leaves (f a)) :
    Leaves (p >>= f) := fun kept handed R => (hp kept handed R).bind fun a => hf a kept handed R

theorem get {f : Xhci → Driver α} (hf : ∀ x, Leaves (f x)) : Leaves (get >>= f) := by
  intro kept handed R
  refine Holds.get fun x₀ hx₀ => (hf x₀ kept handed _).conseq (fun _ h => h) ?_
  rintro _ x rfl
  exact hx₀

/-- Writing a ring is nothing the event ring shows. -/
theorem act {a : Act} (ha : ∀ b : Bus, b.act a = b) : Leaves (act a) := by
  intro kept handed R x hx
  refine Triple.act (Sound.stable handed none x) (R := Sound handed none x) (fun b hb => ?_) ?_
  · rw [ha]
    exact hb
  · refine (Triple.done (Sound.stable handed none x) ((), x)).conseq (fun _ h => h) ?_
    rintro _ b ⟨rfl, hb⟩
    exact ⟨hx, hb⟩

theorem ask (q : Query) : Leaves (ask q) := by
  intro kept handed R x hx
  refine Triple.ask fun answer => ?_
  refine (Triple.done (Sound.stable handed none x) (answer, x)).conseq (fun _ h => h) ?_
  rintro _ b ⟨rfl, hb⟩
  exact ⟨hx, hb⟩

theorem await {a : Act} (asked : Asked) (slot : UInt8) (hact : ∀ b : Bus, b.act a = b.await asked slot)
    (hother : ∀ device, asked ≠ .transfer (.interrupt device)) {g : Option Event → Driver α}
    (hg : ∀ r, Leaves (g r)) : Leaves (Usb.act a >>= fun _ => waitEvent asked.event >>= g) :=
  fun kept handed R => Holds.await asked slot hact hother fun r _ => hg r kept handed R

theorem ite {c : Prop} [Decidable c] {p q : Driver α} (hp : Leaves p) (hq : Leaves q) :
    Leaves (if c then p else q) := by
  by_cases hc : c
  · rw [if_pos hc]
    exact hp
  · rw [if_neg hc]
    exact hq

theorem command (c : Command) : Leaves (command c) := by
  rw [command_eq]
  exact await (.command c) 0 (a := .command c) (fun _ => rfl) (fun _ => nofun)
    fun r => pure r

theorem commandOk (c : Command) : Leaves (commandOk c) := by
  refine bind (command c) fun r => ?_
  cases r with
  | none => exact pure none
  | some e => exact pure _

theorem transfer (device dci : Nat) (parameter : Parameter) (status : UInt32) (stage : Stage) :
    Leaves (transfer device dci parameter status stage) := get fun _ => act fun _ => rfl

theorem controlWait (index : Nat) : Leaves (controlWait index) := by
  refine get fun x => await (.transfer .control) _ (fun _ => rfl) (fun _ => nofun) fun r => ?_
  cases r with
  | none => exact pure none
  | some e => exact pure _

theorem controlIn (index : Nat) (setup : Setup) (length : UInt16) :
    Leaves (controlIn index setup length) :=
  bind (transfer _ _ _ _ _) fun _ => bind (transfer _ _ _ _ _) fun _ => bind (transfer _ _ _ _ _) fun _ => controlWait index

theorem controlOut (index : Nat) (setup : Setup) : Leaves (controlOut index setup) :=
  bind (transfer _ _ _ _ _) fun _ => bind (transfer _ _ _ _ _) fun _ => controlWait index

theorem addressDevice (index : Nat) : Leaves (addressDevice index) :=
  get fun _ => ite (pure none) (commandOk _)

theorem configureEndpoint (device : Nat) (address : UInt8) : Leaves (configureEndpoint device address) :=
  ite (pure none) (get fun _ => commandOk _)

theorem disableSlot (slot : UInt8) : Leaves (disableSlot slot) :=
  ite (pure ()) (bind (command _) fun _ => pure ())

theorem configureBulk (device : Nat) (parsed : MassStorage) : Leaves (configureBulk device parsed) :=
  ite (pure none) (get fun _ => commandOk _)

theorem bulk (msc : MscSlot) (inDir : Bool) (buffer : Buffer) (len : UInt32) :
    Leaves (bulk msc inDir buffer len) := by
  refine bind (act fun _ => rfl) fun _ => ?_
  refine await (.transfer .bulk) _ (fun _ => rfl) (fun _ => nofun) fun r => ?_
  cases r with
  | none => exact pure none
  | some e => exact pure _

theorem botStatus (msc : MscSlot) : Leaves (botStatus msc) := by
  refine bind (bulk _ _ _ _) fun r => ?_
  cases r with
  | none => exact pure none
  | some u => exact bind (ask .status) fun _ => pure _

theorem bot (msc : MscSlot) (dataIn : Bool) (dataLen : UInt32) : Leaves (bot msc dataIn dataLen) := by
  refine bind (bulk _ _ _ _) fun r => ?_
  cases r with
  | none => exact pure _
  | some u =>
    refine ite (bind (bulk _ _ _ _) fun r => ?_) (bind (botStatus _) fun _ => pure _)
    cases r with
    | none => exact pure _
    | some u => exact bind (botStatus _) fun _ => pure _

theorem unitReady (n : Nat) (msc : MscSlot) : Leaves (unitReady n msc) := by
  induction n generalizing msc with
  | zero => exact pure _
  | succ n ih =>
    refine bind (bot _ _ _) fun r => ?_
    obtain ⟨r, msc⟩ := r
    cases r with
    | none => exact ih msc
    | some u => exact pure _

theorem bringUp (msc : MscSlot) : Leaves (bringUp msc) := by
  refine bind (bot _ _ _) fun r => ?_
  obtain ⟨_ | u, msc⟩ := r
  · exact pure none
  refine bind (unitReady 16 msc) fun r => ?_
  obtain ⟨_ | _, msc⟩ := r
  · exact pure none
  refine bind (bot _ _ _) fun r => ?_
  obtain ⟨_ | u, msc⟩ := r
  · exact pure none
  exact bind (ask .capacity) fun _ => ite (pure none) (pure _)

end Leaves

/-! ## Enumeration -/

/-- Changing an entry that is not in use. -/
theorem Holds.setDevice (index : Nat) {f : DeviceSlot → DeviceSlot} {R : Xhci → Prop}
    {S : Unit → Xhci → Prop} (hcount : ∀ x, R x → x.deviceCount = index)
    (h : ∀ x, R x → S () { x with devices := Function.update x.devices index (f (x.devices index)) }) :
    Holds kept handed R (setDevice index f) S := by
  refine Holds.modified fun x hx => ⟨h x hx, fun b hb => ⟨hb.well, hb.marks.of_entries rfl fun d hd => ?_⟩⟩
  exact Function.update_of_ne (by have := hcount x hx; omega) _ _

/-- Recording the stick. -/
theorem Holds.setMsc {R : Xhci → Prop} {msc : Option MscSlot} (h : ∀ x, R x → R { x with msc }) :
    Holds kept handed R (modify fun x => { x with msc }) fun _ => R :=
  Holds.modified fun x hx => ⟨h x hx, fun _ hb => ⟨hb.well, hb.marks.of_entries rfl fun _ _ => rfl⟩⟩

theorem Holds.leaves {R : Xhci → Prop} {p : Driver α} (h : Leaves p) :
    Holds kept handed R p fun _ => R := h kept handed R

/-- Changing nothing of an entry that the marks go by. -/
theorem Fresh.update {index : Nat} {x : Xhci} (h : Fresh index x) (f : DeviceSlot → DeviceSlot)
    (hf : ∀ d, (f d).slot = d.slot ∧ (f d).queued = d.queued ∧ (f d).ready = d.ready) :
    Fresh index { x with devices := Function.update x.devices index (f (x.devices index)) } := by
  have hself := Function.update_self index (f (x.devices index)) x.devices
  refine ⟨h.count, ?_, ?_, fun d hd => ?_⟩
  · exact (congrArg DeviceSlot.queued hself).trans ((hf _).2.1.trans h.queued)
  · exact (congrArg DeviceSlot.ready hself).trans ((hf _).2.2.trans h.ready)
  · have hother := Function.update_of_ne hd.ne (f (x.devices index)) x.devices
    dsimp only
    rw [hother, hself, (hf _).1]
    exact h.slot d hd

theorem holds_configureHid (index : Nat) (parsed : Parsed) :
    Holds kept handed (Fresh index) (configureHid index parsed) fun _ => Fresh index := by
  refine (Holds.leaves (Leaves.controlOut _ _)).bind fun r => ?_
  cases r with
  | none => exact Holds.pure fun _ h => h
  | some u =>
    refine (Holds.leaves (Leaves.controlOut _ _)).bind fun _ => ?_
    exact (Holds.setDevice index (S := fun _ => Fresh index) (fun x hx => hx.count) fun x hx =>
      hx.update (fun d => { d with endpoint := parsed.endpoint }) fun _ => ⟨rfl, rfl, rfl⟩).bind fun _ => Holds.leaves (Leaves.configureEndpoint _ _)

theorem holds_configureStorage (index : Nat) (parsed : MassStorage) :
    Holds kept handed (Fresh index) (configureStorage index parsed) fun _ => Fresh index := by
  refine (Holds.leaves (Leaves.controlOut _ _)).bind fun r => ?_
  cases r with
  | none => exact Holds.pure fun _ h => h
  | some u =>
    refine (Holds.leaves (Leaves.configureBulk _ _)).bind fun r => ?_
    cases r with
    | none => exact Holds.pure fun _ h => h
    | some u =>
      refine Holds.get fun x hx => ?_
      refine Holds.conseq (S := fun _ => Fresh index) (R := Fresh index) ?_
        (fun y hy => hy ▸ hx) fun _ _ h => h
      refine (Holds.leaves (Leaves.act fun _ => rfl)).bind fun _ => ?_
      refine (Holds.leaves (Leaves.bringUp _)).bind fun r => ?_
      cases r with
      | none => exact Holds.pure fun _ h => h
      | some msc =>
        exact (Holds.setMsc (R := Fresh index) fun x hx => ⟨hx.count, hx.queued, hx.ready, hx.slot⟩).bind
          fun _ => Holds.pure fun _ h => h

/-- Taking the fresh entry into use. -/
theorem Holds.keep (index : Nat) : Holds kept handed (Fresh index)
    (modify fun x => { x with deviceCount := index + 1 }) fun _ _ => True :=
  Holds.modified fun _ hx => ⟨trivial, fun _ hb => ⟨hb.well, hb.marks.keep hx⟩⟩

theorem holds_identifyStorage (index : Nat) (want : Want) :
    Holds kept handed (Fresh index) (identifyStorage index want) fun _ _ => True := by
  refine Holds.get fun x hx => ?_
  refine Holds.conseq (S := fun _ _ => True) (R := Fresh index) ?_ (fun y hy => hy ▸ hx) fun _ _ h => h
  split
  · refine (Holds.leaves (Leaves.ask .storage)).bind fun r => ?_
    cases r with
    | none => exact Holds.pure fun _ _ => trivial
    | some parsed =>
      refine (holds_configureStorage index parsed).bind fun r => ?_
      cases r with
      | none => exact Holds.pure fun _ _ => trivial
      | some u => exact (Holds.keep index).bind fun _ => Holds.pure fun _ h => h
  · exact Holds.pure fun _ _ => trivial

theorem holds_configure (index : Nat) (want : Want) :
    Holds kept handed (Fresh index) (configure index want) fun _ _ => True := by
  refine (Holds.leaves (Leaves.ask .hid)).bind fun r => ?_
  cases r with
  | none => exact holds_identifyStorage index want
  | some parsed =>
    dsimp only
    split
    · refine (holds_configureHid index parsed).bind fun r => ?_
      cases r with
      | none => exact Holds.pure fun _ _ => trivial
      | some u => exact (Holds.keep index).bind fun _ => Holds.pure fun _ h => h
    · exact Holds.pure fun _ _ => trivial

theorem holds_identify (index : Nat) (want : Want) :
    Holds kept handed (Fresh index) (identify index want) fun _ _ => True := by
  refine (Holds.leaves (Leaves.addressDevice _)).bind fun r => ?_
  cases r with
  | none => exact Holds.pure fun _ _ => trivial
  | some u =>
    refine (Holds.leaves (Leaves.controlIn _ _ _)).bind fun r => ?_
    cases r with
    | none => exact Holds.pure fun _ _ => trivial
    | some u =>
      refine (Holds.leaves (Leaves.controlIn _ _ _)).bind fun r => ?_
      cases r with
      | none => exact Holds.pure fun _ _ => trivial
      | some u => exact holds_configure index want

/-- Enable Slot answers with a slot that no device has. -/
theorem holds_command {R : Xhci → Prop} (c : Command) : Holds kept handed R (command c)
    fun r x => Answer kept (.command c) r ∧ R x := by
  rw [command_eq]
  exact Holds.await (.command c) 0 (a := .command c) (fun _ => rfl) (fun _ => nofun)
    fun r hr => Holds.pure fun x hx => ⟨hr, hx⟩

theorem holds_enumeratePort (want : Want) :
    Holds kept handed (Within kept) (enumeratePort want) fun _ _ => True := by
  refine Holds.get fun x₀ hx₀ => ?_
  dsimp only
  split
  · exact Holds.pure fun _ _ => trivial
  refine (holds_command .enable).bind fun r => ?_
  cases r with
  | none => exact Holds.pure fun _ _ => trivial
  | some event =>
    dsimp only
    split
    · exact Holds.pure fun _ _ => trivial
    case isFalse hevent =>
      have hsuccess : event.completion = CC_SUCCESS := by
        by_contra h
        exact hevent (.inl h)
      refine (Holds.setDevice x₀.deviceCount (S := fun _ => Fresh x₀.deviceCount)
        (fun x hx => congrArg Xhci.deviceCount hx.2) ?_).bind fun _ => ?_
      · rintro x ⟨hanswer, rfl⟩
        have hself := Function.update_self x.deviceCount { DeviceSlot.new with slot := event.slot } x.devices
        have hnew : ¬ kept event.slot := (hanswer event rfl).2 rfl hsuccess
        refine ⟨rfl, congrArg DeviceSlot.queued hself, congrArg DeviceSlot.ready hself, fun d hd => ?_⟩
        have hother := Function.update_of_ne hd.ne { DeviceSlot.new with slot := event.slot } x.devices
        dsimp only at hself hother ⊢
        rw [hself, hother]
        intro hsame
        have hkept := hx₀ d hd
        rw [hsame] at hkept
        exact hnew hkept
      · refine (Holds.leaves (Leaves.act fun _ => rfl)).bind fun _ => ?_
        refine (holds_identify _ want).bind fun found => ?_
        split
        · exact Holds.pure fun _ h => h
        · exact (Holds.leaves (Leaves.disableSlot _)).bind fun _ => Holds.pure fun _ h => h

/-! ## Reports and blocks -/

/-- The polling keeps the devices and their slots. -/
theorem holds_drainEvents (count n : Nat) :
    Holds kept handed (fun x => Within kept x ∧ x.deviceCount = count) (drainEvents n)
      fun _ x => Within kept x ∧ x.deviceCount = count := by
  induction n with
  | zero => exact Holds.pure fun _ h => h
  | succ n ih =>
    intro x hx
    refine Triple.poll (Sound.stable handed none x) (R := fun p => Sound handed none (route p.event x))
      ?_ (fun b p ring hb hring hlook => ⟨nofun, hb.routed hring hx.1 hlook.1⟩) fun p => ?_
    · refine (Triple.done (Sound.stable handed none x) ((), x)).conseq (fun _ h => h) ?_
      rintro _ b ⟨rfl, hb⟩
      exact ⟨hx, hb⟩
    · obtain ⟨hcount, hslots⟩ := route_slots p.event x
      refine ih (route p.event x) ⟨fun d hd => ?_, hcount.trans hx.2⟩
      rw [hslots d]
      exact hx.1 d (hcount ▸ hd)

theorem holds_arm (device len : Nat) :
    Holds kept handed (fun x => device < x.deviceCount ∧ (x.devices device).ready = false)
      (arm device len) fun _ x => (x.devices device).ready = false := by
  refine Holds.get fun x hx => ?_
  split
  · refine Holds.pure fun y hy => ?_
    rw [hy]
    exact hx.2
  case isFalse hqueued =>
    intro y hy
    obtain rfl : x = y := hy.symm
    refine Triple.act (Sound.stable handed none x) (R := Sound handed none x) (fun _ h => h) ?_
    refine Triple.act (Sound.stable handed none x)
      (R := Sound handed none (x.set device { x.devices device with queued := true }))
      (fun b hb => hb.arm hx.1 (Bool.eq_false_iff.2 hqueued) hx.2) ?_
    refine (Triple.done (Sound.stable handed none _) ((), _)).conseq (fun _ h => h) ?_
    rintro _ b ⟨rfl, hb⟩
    refine ⟨?_, hb⟩
    dsimp only
    rw [Function.update_self]
    exact hx.2

theorem holds_arm_pure (device len : Nat) (answer : Option Nat) :
    Holds kept handed (fun x => device < x.deviceCount ∧ (x.devices device).ready = false)
      (arm device len >>= fun _ => pure answer) fun r x => r = answer ∧ unread x device = false := by
  refine (holds_arm device len).bind fun _ => Holds.pure fun x hready => ⟨rfl, ?_⟩
  refine decide_eq_false fun h => ?_
  rw [hready] at h
  exact Bool.false_ne_true h.2

/-- A poll hands out the device's report if there is one, and queues the next transfer; none stays
unread. -/
theorem triple_pollReport (device len : Nat) {x : Xhci} (hwithin : Within kept x) :
    Triple kept (Sound handed none x) ((pollReport device len).run x)
      fun r b => Sound (bump handed device r.1.isSome) none r.2 b ∧ unread r.2 device = false := by
  by_cases hd : device ≥ x.deviceCount
  · have hrun : (pollReport device len).run x = .done (none, x) := by
      show (if device ≥ x.deviceCount then _ else _ : Driver (Option Nat)) x = _
      rw [if_pos hd]
      rfl
    rw [hrun]
    refine (Triple.done (Sound.stable handed none x) (none, x)).conseq (fun _ h => h) ?_
    rintro _ b ⟨rfl, hb⟩
    rw [Option.isSome_none, bump_false]
    exact ⟨hb, decide_eq_false fun h => absurd h.1 (Nat.not_lt.2 hd)⟩
  · have hrun : (pollReport device len).run x = ((drainEvents RING_LEN).run x).bind fun r =>
        if (r.2.devices device).ready then
          ((arm device len >>= fun _ => pure (some (min len 64))) : Driver (Option Nat)).run
            (r.2.set device { r.2.devices device with ready := false })
        else ((arm device len >>= fun _ => pure none) : Driver (Option Nat)).run r.2 := by
      show (if device ≥ x.deviceCount then _ else _ : Driver (Option Nat)) x = _
      rw [if_neg hd]
      refine congrArg ((drainEvents RING_LEN).run x).bind (funext fun r => ?_)
      show (if (r.2.devices device).ready then _ else _ : Driver (Option Nat)) r.2 = _
      split <;> rfl
    rw [hrun]
    refine (holds_drainEvents x.deviceCount RING_LEN x ⟨hwithin, rfl⟩).bind fun r =>
      Triple.of_pre fun hr => ?_
    obtain ⟨u, x'⟩ := r
    dsimp only at hr ⊢
    have hd' : device < x'.deviceCount := by
      rw [hr.2]
      exact Nat.lt_of_not_le hd
    split
    case isTrue hready =>
      have harm := @holds_arm_pure kept (bump handed device true) device len
        (some (min len 64)) (x'.set device { x'.devices device with ready := false })
        ⟨hd', by rw [Xhci.devices_set_self]⟩
      refine harm.conseq (fun b hb => hb.handOut hd' hready) fun r b hr => ?_
      rw [hr.1.1]
      exact ⟨hr.2, hr.1.2⟩
    case isFalse hready =>
      have harm := @holds_arm_pure kept handed device len none x'
        ⟨hd', Bool.eq_false_iff.2 hready⟩
      refine harm.conseq (fun b hb => hb) fun r b hr => ?_
      rw [hr.1.1, Option.isSome_none, bump_false]
      exact ⟨hr.2, hr.1.2⟩

theorem holds_transferBlock (dataIn : Bool) :
    Holds kept handed (Within kept) (transferBlock dataIn) fun _ _ => True := by
  refine Holds.get fun x _ => ?_
  cases x.msc with
  | none => exact Holds.pure fun _ _ => trivial
  | some msc =>
    refine (Holds.leaves (Leaves.bot _ _ _)).bind fun r => ?_
    refine Holds.conseq (R := fun _ => True) ?_ (fun _ _ => trivial) fun _ _ h => h
    exact (Holds.setMsc fun _ _ => trivial).bind fun _ => Holds.pure fun _ h => h

/-! ## Sessions -/

/-- A slot is a device's that is in use. -/
def Xhci.Kept (x : Xhci) (slot : UInt8) : Prop := ∃ d < x.deviceCount, (x.devices d).slot = slot

instance (x : Xhci) : DecidablePred x.Kept := fun slot =>
  inferInstanceAs (Decidable (∃ d < x.deviceCount, (x.devices d).slot = slot))

/-- One call of a session: the driver before it, the call, what it took off the event ring, and its
answer. -/
structure Turn where
  before : Xhci
  call : Call
  looks : List Look
  answer : Option Nat

/-- No completion was found by one it is not for. -/
def Turn.Clear (t : Turn) : Prop := ∀ look ∈ t.looks, look.Clear t.before.Kept

instance (t : Turn) : Decidable t.Clear :=
  inferInstanceAs (Decidable (∀ look ∈ t.looks, look.Clear t.before.Kept))

/-- Enable Slot answered with slots that no device had. -/
def Turn.NewSlots (t : Turn) : Prop := ∀ look ∈ t.looks, look.NewSlot t.before.Kept

instance (t : Turn) : Decidable t.NewSlots :=
  inferInstanceAs (Decidable (∀ look ∈ t.looks, look.NewSlot t.before.Kept))

/-- A report of a device was handed out. -/
def Turn.hands (d : Nat) (t : Turn) : Bool :=
  match t.call with
  | .report device _ => decide (d = device) && t.answer.isSome
  | _ => false

/-- The calls since the controller was brought up, and where they led. -/
inductive Session : List Turn → Xhci → Bus → Prop where
  | boot : Session [] .new .boot
  | call (c : Call) {turns : List Turn} {x x' : Xhci} {b b' : Bus} {looks : List Look}
      {answer : Option Nat} (before : Session turns x b)
      (run : Exec (c.run.run x) b looks (answer, x') b') :
      Session (turns ++ [⟨x, c, looks, answer⟩]) x' b'

/-- How many reports of a device were handed out. -/
def handedOut (turns : List Turn) (d : Nat) : Nat := turns.countP (Turn.hands d)

theorem handedOut_append (turns : List Turn) (t : Turn) (d : Nat) :
    handedOut (turns ++ [t]) d = handedOut turns d + (t.hands d).toNat := by
  rw [handedOut, List.countP_append, List.countP_singleton]
  cases t.hands d <;> rfl

theorem sound_boot : Sound (handedOut []) none Xhci.new Bus.boot where
  well := ⟨fun _ h => absurd h List.not_mem_nil, List.nodup_nil, fun _ h => absurd h List.not_mem_nil,
    fun _ h => absurd h List.not_mem_nil⟩
  marks := ⟨fun _ => rfl, fun _ _ h => absurd h List.not_mem_nil, fun _ => rfl,
    fun _ h => absurd h (Nat.not_lt_zero _), fun _ h => absurd h (Nat.not_lt_zero _)⟩

/-- What a call keeps, and what it hands out. -/
theorem triple_call (c : Call) {x : Xhci} (looks : List Look) (hwithin : Within kept x) :
    Triple kept (Sound handed none x) (c.run.run x) fun r b =>
      Sound (fun d => handed d + (Turn.hands d ⟨x, c, looks, r.1⟩).toNat) none r.2 b ∧
        ∀ device len, c = .report device len → unread r.2 device = false := by
  cases c with
  | enumerate want =>
    refine ((holds_enumeratePort want).bind fun _ => Holds.pure (S := fun _ _ => True) fun _ h => h)
      x hwithin |>.conseq (fun _ h => h) fun r b h => ⟨h.2, nofun⟩
  | report device len =>
    refine (triple_pollReport device len hwithin).conseq (fun _ h => h) fun r b h => ⟨h.1, ?_⟩
    rintro _ _ ⟨⟩
    exact h.2
  | read =>
    refine ((holds_transferBlock true).bind fun _ => Holds.pure (S := fun _ _ => True) fun _ h => h)
      x hwithin |>.conseq (fun _ h => h) fun r b h => ⟨h.2, nofun⟩
  | write =>
    refine ((holds_transferBlock false).bind fun _ => Holds.pure (S := fun _ _ => True) fun _ h => h)
      x hwithin |>.conseq (fun _ h => h) fun r b h => ⟨h.2, nofun⟩

theorem Session.sound {turns : List Turn} {x : Xhci} {b : Bus} (h : Session turns x b)
    (hclear : ∀ t ∈ turns, t.Clear ∧ t.NewSlots) :
    Sound (handedOut turns) none x b ∧ (∀ t ∈ turns, ∀ look ∈ t.looks, look.Own) ∧
      ∀ t device len, turns.getLast? = some t → t.call = .report device len → unread x device = false := by
  induction h with
  | boot => exact ⟨sound_boot, fun _ h => absurd h List.not_mem_nil, nofun⟩
  | @call c turns x x' b b' looks answer before run ih =>
    obtain ⟨hfirst, hlast⟩ := List.forall_mem_append.1 hclear
    obtain ⟨hclear, hslots⟩ := List.forall_mem_singleton.1 hlast
    obtain ⟨hsound, hown, -⟩ := ih hfirst
    obtain ⟨⟨hafter, hread⟩, howned⟩ := @triple_call x.Kept (handedOut turns) c x looks
      (fun d hd => ⟨d, hd, rfl⟩) _ _ _ _ run hsound fun look hl => ⟨hclear look hl, hslots look hl⟩
    refine ⟨?_, List.forall_mem_append.2 ⟨hown, List.forall_mem_singleton.2 howned⟩, ?_⟩
    rotate_left
    · intro t device len ht hcall
      rw [List.getLast?_concat] at ht
      obtain rfl := Option.some.inj ht
      exact hread device len hcall
    rw [show handedOut (turns ++ [⟨x, c, looks, answer⟩]) = _ from
      funext fun d => handedOut_append turns ⟨x, c, looks, answer⟩ d]
    exact hafter

namespace Polled

/-- A keyboard, its interrupt endpoint IN 1. -/
def keyboard : (q : Query) → q.Answer
  | .hid => some ⟨1, 0, 0x81, 8, .keyboard⟩
  | .storage => none
  | .status => true
  | .capacity => (0, 512)

/-- An operation completes with success, in slot 1. -/
def completed (id : Nat) : List Post := [.completion id CC_SUCCESS 0 1]

end Polled

end NanoChrono.Usb
