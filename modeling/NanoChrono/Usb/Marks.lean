import NanoChrono.Usb.Events

/-! # The devices' marks

What the driver's marks say of the operations between it and the controller, and how each event taken
and each operation asked for keeps them right. -/

namespace NanoChrono.Usb

variable {kept : UInt8 → Prop} {handed : Nat → Nat}

/-! ## What the driver keeps -/

/-- A posted event says what its operation is. -/
def Posted.Well (p : Posted) : Prop :=
  match p.owner with
  | none => p.event.kind ≠ TRB_TRANSFER_EVENT ∧ p.event.kind ≠ TRB_COMMAND_COMPLETION
  | some o => p.event.kind = o.asked.event ∧ ∀ kind, o.asked = .transfer kind → p.event.slot = o.slot

/-- The operations and events are well formed: each operation once, each event its operation's, every
operation whose completion is still to be taken a report's, given up or the one waited for. -/
structure Bus.Well (b : Bus) (awaited : Option Op) : Prop where
  asked : ∀ o ∈ b.alive, o.id < b.asked
  once : (b.alive.map Op.id).Nodup
  ring : ∀ p ∈ b.ring, p.Well
  waits : ∀ o ∈ b.alive, (∃ device, o.reports device) ∨ o.id ∈ b.givenUp ∨ awaited = some o

/-- A device's report is in its buffer, unread. -/
def unread (x : Xhci) (device : Nat) : Bool := device < x.deviceCount ∧ (x.devices device).ready

/-- The devices' marks are right: a device is queued exactly if one transfer of its own is
outstanding; and the reports that its transfers brought were handed out, but for the one that is unread
or on the event ring. -/
structure Marks (handed : Nat → Nat) (x : Xhci) (b : Bus) : Prop where
  queued : ∀ d, b.alive.countP (·.reports d) =
    if d < x.deviceCount ∧ (x.devices d).queued then 1 else 0
  slot : ∀ d, ∀ o ∈ b.alive, o.reports d → o.slot = (x.devices d).slot
  ledger : ∀ d, b.reports d = handed d + (unread x d).toNat + b.ring.countP (·.report d)
  idle : ∀ d < x.deviceCount, (x.devices d).ready → (x.devices d).queued = false
  slots : ∀ d < x.deviceCount, ∀ d' < x.deviceCount, (x.devices d).slot = (x.devices d').slot → d = d'

/-- What holds of the driver and the bus while an operation is waited for, or none. -/
structure Sound (handed : Nat → Nat) (awaited : Option Op) (x : Xhci) (b : Bus) : Prop where
  well : b.Well awaited
  marks : Marks handed x b

theorem interrupt_of_reports {o : Op} {d : Nat} (h : o.reports d) :
    o.asked = .transfer (.interrupt d) := of_decide_eq_true h

theorem reports_eq_false {o : Op} (h : o.interrupt = false) (d : Nat) : o.reports d = false := by
  refine decide_eq_false fun hasked => ?_
  rw [Op.interrupt, hasked] at h
  cases h

theorem interrupt_eq_false {o : Op} (h : ∀ d, o.reports d = false) : o.interrupt = false := by
  rw [Op.interrupt]
  split
  case h_1 device hasked => exact absurd hasked (of_decide_eq_false (h device))
  case h_2 => rfl

/-- An operation is one device's report at most. -/
theorem eq_of_reports {o : Op} {d d' : Nat} (h : o.reports d) (h' : o.reports d') : d = d' := by
  have heq := (interrupt_of_reports h).symm.trans (interrupt_of_reports h')
  exact Kind.interrupt.inj (Asked.transfer.inj heq)

/-- An operation that is completed waits on the event ring. -/
theorem alive_completion {pending : List Op} {ring : List Posted} {o : Op} (event : Event)
    (h : o ∈ pending) :
    (pending.erase o ++ (ring ++ [(⟨event, some o⟩ : Posted)]).filterMap Posted.owner).Perm
      (pending ++ ring.filterMap Posted.owner) := by
  have hone : [(⟨event, some o⟩ : Posted)].filterMap Posted.owner = [o] := rfl
  rw [List.filterMap_append, hone, ← List.append_assoc]
  refine (List.perm_append_singleton o _).trans ?_
  exact ((List.perm_cons_erase h).symm).append_right _

/-- What was posted keeps what is alive, and how much of it was asked. -/
theorem alive_post (b : Bus) (q : Post) : (b.post q).alive.Perm b.alive ∧
    (b.post q).asked = b.asked ∧ (b.post q).givenUp = b.givenUp ∧ (b.post q).awaited = b.awaited := by
  cases q with
  | completion id code parameter slot =>
    rw [Bus.post]
    cases hfind : b.pending.find? (·.id = id) with
    | none => exact ⟨.refl _, rfl, rfl, rfl⟩
    | some o => exact ⟨alive_completion _ (List.mem_of_find?_eq_some hfind), rfl, rfl, rfl⟩
  | other event =>
    rw [Bus.post]
    split
    · exact ⟨.refl _, rfl, rfl, rfl⟩
    · refine ⟨?_, rfl, rfl, rfl⟩
      have hnone : [(⟨event, none⟩ : Posted)].filterMap Posted.owner = [] := rfl
      rw [Bus.alive, List.filterMap_append, hnone, List.append_nil]
      exact .refl _

theorem well_completion (o : Op) (code : UInt32) (parameter : UInt64) (slot : UInt8) :
    Posted.Well ⟨o.completion code parameter slot, some o⟩ := by
  refine ⟨rfl, fun kind hkind => ?_⟩
  rw [Op.completion, hkind]

theorem Bus.Well.post {awaited : Option Op} {b : Bus} (h : b.Well awaited) (q : Post) :
    (b.post q).Well awaited := by
  obtain ⟨halive, hasked, hgiven, -⟩ := alive_post b q
  refine ⟨fun o ho => ?_, ?_, ?_, fun o ho => ?_⟩
  · rw [hasked]
    exact h.asked o (halive.subset ho)
  · exact ((halive.map Op.id).nodup_iff).2 h.once
  · cases q with
    | completion id code parameter slot =>
      rw [Bus.post]
      cases b.pending.find? (·.id = id) with
      | none => exact h.ring
      | some o =>
        exact List.forall_mem_append.2 ⟨h.ring, List.forall_mem_singleton.2 (well_completion ..)⟩
    | other event =>
      rw [Bus.post]
      split
      · exact h.ring
      case isFalse hkind =>
        exact List.forall_mem_append.2 ⟨h.ring, List.forall_mem_singleton.2 (not_or.1 hkind)⟩
  · rw [hgiven]
    exact h.waits o (halive.subset ho)

/-- A report that is brought is on the event ring. -/
theorem ledger_post (b : Bus) (q : Post) (d : Nat) :
    (b.post q).reports d + b.ring.countP (·.report d) =
      b.reports d + (b.post q).ring.countP (·.report d) := by
  cases q with
  | completion id code parameter slot =>
    rw [Bus.post]
    cases b.pending.find? (·.id = id) with
    | none => rfl
    | some o =>
      have hreport : Posted.report d ⟨o.completion code parameter slot, some o⟩ =
          decide (o.reports d ∧ Good code) := by
        rw [Posted.report, Option.any_some, Bool.decide_and, Bool.decide_eq_true]
        rfl
      dsimp only
      rw [List.countP_append, List.countP_singleton, hreport]
      by_cases hgood : o.reports d ∧ Good code
      · rw [if_pos hgood, if_pos (decide_eq_true hgood)]
        omega
      · rw [if_neg hgood, if_neg (fun h => hgood (of_decide_eq_true h))]
        omega
  | other event =>
    rw [Bus.post]
    split
    · rfl
    · rw [List.countP_append, List.countP_singleton]
      rfl

theorem Marks.post {handed : Nat → Nat} {x : Xhci} {b : Bus} (h : Marks handed x b) (q : Post) :
    Marks handed x (b.post q) := by
  have halive := (alive_post b q).1
  refine ⟨fun d => ?_, fun d o ho => h.slot d o (halive.subset ho), fun d => ?_, h.idle, h.slots⟩
  · rw [halive.countP_eq]
    exact h.queued d
  · have hledger := ledger_post b q d
    have := h.ledger d
    omega

/-- What holds of the driver and the bus holds whatever the controller posts. -/
theorem Sound.stable (handed : Nat → Nat) (awaited : Option Op) (x : Xhci) :
    Stable (Sound handed awaited x) := fun _ q h => ⟨h.well.post q, h.marks.post q⟩

/-- The first event of the ring and the rest. -/
theorem alive_take {b : Bus} {p : Posted} {ring : List Posted} (hring : b.ring = p :: ring) :
    b.alive.Perm (p.owner.toList ++ Bus.alive { b with ring }) := by
  rw [Bus.alive, hring]
  cases howner : p.owner with
  | none => rw [List.filterMap_cons_none howner]; exact .refl _
  | some o => rw [List.filterMap_cons_some howner]; exact List.perm_middle

theorem mem_alive_of_take {b : Bus} {p : Posted} {ring : List Posted} (hring : b.ring = p :: ring)
    {o : Op} (ho : o ∈ Bus.alive { b with ring }) : o ∈ b.alive :=
  (alive_take hring).symm.subset (List.mem_append_right _ ho)

/-- The operation whose completion is taken is not asked a second time. -/
theorem Bus.Well.not_mem_take {awaited : Option Op} {b : Bus} (h : b.Well awaited) {p : Posted}
    {ring : List Posted} (hring : b.ring = p :: ring) {o : Op} (howner : p.owner = some o) :
    o ∉ Bus.alive { b with ring } := by
  intro ho
  have honce := ((alive_take hring).map Op.id).nodup_iff.1 h.once
  rw [howner, Option.toList_some, List.singleton_append, List.map_cons, List.nodup_cons] at honce
  exact honce.1 (List.mem_map_of_mem ho)

theorem Bus.Well.take {awaited : Option Op} {b : Bus} (h : b.Well awaited) {p : Posted}
    {ring : List Posted} (hring : b.ring = p :: ring) : Bus.Well { b with ring } awaited where
  asked o ho := h.asked o (mem_alive_of_take hring ho)
  once := by
    have honce := ((alive_take hring).map Op.id).nodup_iff.1 h.once
    rw [List.map_append] at honce
    exact honce.of_append_right
  ring q hq := h.ring q (hring ▸ List.mem_cons_of_mem _ hq)
  waits o ho := h.waits o (mem_alive_of_take hring ho)

/-- Once its completion is taken, nothing is waited for. -/
theorem Bus.Well.answered {b : Bus} {o : Op} (h : b.Well (some o)) {p : Posted} {ring : List Posted}
    (hring : b.ring = p :: ring) (howner : p.owner = some o) : Bus.Well { b with ring } none where
  asked := (h.take hring).asked
  once := (h.take hring).once
  ring := (h.take hring).ring
  waits o' ho' := by
    rcases h.waits o' (mem_alive_of_take hring ho') with hreport | hgiven | hsame
    · exact .inl hreport
    · exact .inr (.inl hgiven)
    · obtain rfl : o = o' := Option.some.inj hsame
      exact absurd ho' (h.not_mem_take hring howner)

/-- What a wait gives up is waited for no longer. -/
theorem Bus.Well.gaveUp {b : Bus} {o : Op} (h : b.Well (some o)) (hawaited : b.awaited = some o) :
    Bus.Well (b.act .gaveUp) none where
  asked := h.asked
  once := h.once
  ring := h.ring
  waits o' ho' := by
    have hgiven : (b.act .gaveUp).givenUp = b.givenUp ++ [o.id] := by
      rw [Bus.act, hawaited]
      rfl
    rw [hgiven]
    rcases h.waits o' ho' with hreport | hgiven | hsame
    · exact .inl hreport
    · exact .inr (.inl (List.mem_append_left _ hgiven))
    · obtain rfl : o = o' := Option.some.inj hsame
      exact .inr (.inl (List.mem_append_right _ (List.mem_singleton_self _)))

/-- The marks go by what is alive, on the event ring and brought. -/
theorem Marks.same {handed : Nat → Nat} {x : Xhci} {b b' : Bus} (h : Marks handed x b)
    (halive : b'.alive = b.alive) (hring : b'.ring = b.ring) (hreports : b'.reports = b.reports) :
    Marks handed x b' := by
  refine ⟨fun d => ?_, fun d o ho => h.slot d o (halive ▸ ho), fun d => ?_, h.idle, h.slots⟩
  · rw [halive]
    exact h.queued d
  · rw [hring, hreports]
    exact h.ledger d

/-- An event that is no report's completion changes no mark. -/
theorem Marks.take {handed : Nat → Nat} {x : Xhci} {b : Bus} (h : Marks handed x b) {p : Posted}
    {ring : List Posted} (hring : b.ring = p :: ring)
    (hother : ∀ o, p.owner = some o → ∀ d, o.reports d = false) : Marks handed x { b with ring } := by
  have hcount : ∀ d, p.owner.toList.countP (·.reports d) = 0 := by
    intro d
    rw [List.countP_eq_zero]
    intro o ho hreports
    rw [Option.mem_toList] at ho
    rw [hother o ho d] at hreports
    cases hreports
  have hreport : ∀ d, p.report d = false := by
    intro d
    rw [Posted.report]
    cases howner : p.owner with
    | none => rfl
    | some o => rw [Option.any_some, hother o howner d, Bool.false_and]
  refine ⟨fun d => ?_, fun d o ho => h.slot d o (mem_alive_of_take hring ho), fun d => ?_, h.idle, h.slots⟩
  · rw [← h.queued d, (alive_take hring).countP_eq, List.countP_append, hcount, Nat.zero_add]
  · rw [h.ledger d, hring, List.countP_cons_of_neg (by rw [hreport d]; exact Bool.false_ne_true)]

/-! ## Waits -/

/-- What a wait may end with: nothing, or an event of the kind of the operation waited for; Enable Slot
names a slot that no device has. -/
def Answer (kept : UInt8 → Prop) (asked : Asked) (answer : Option Event) : Prop :=
  ∀ e, answer = some e → e.kind = asked.event ∧
    (asked = .command .enable → e.completion = CC_SUCCESS → ¬ kept e.slot)

/-- An operation is waited for. -/
def Awaiting (handed : Nat → Nat) (x : Xhci) (o : Op) (b : Bus) : Prop :=
  Sound handed (some o) x b ∧ b.awaited = some o

theorem Awaiting.stable (handed : Nat → Nat) (x : Xhci) (o : Op) : Stable (Awaiting handed x o) :=
  fun b q h => ⟨Sound.stable handed (some o) x b q h.1, (alive_post b q).2.2.2.trans h.2⟩

/-- A wait that finds an event in a clear run: the one it waits for, or one it discards. -/
theorem Awaiting.take {kept : UInt8 → Prop} {handed : Nat → Nat} {x : Xhci} {o : Op} {b : Bus}
    (h : Awaiting handed x o b) {p : Posted} {ring : List Posted} (hring : b.ring = p :: ring)
    (hclear : (b.look (.wait o.asked.event) p).Clear kept)
    (hslot : (b.look (.wait o.asked.event) p).NewSlot kept) :
    (b.look (.wait o.asked.event) p).Own ∧
      if p.event.kind = o.asked.event then Answer kept o.asked (some p.event) ∧ Sound handed none x { b with ring }
      else Awaiting handed x o { b with ring } := by
  have hwell : p.Well := h.1.well.ring p (hring ▸ List.mem_cons_self)
  have hmarks := h.1.marks.take hring fun o' ho' => reports_eq_false (hclear o' ho').1
  by_cases hkind : p.event.kind = o.asked.event
  · -- the completion is of an operation not given up, so of the one that is waited for
    obtain ⟨o', howner⟩ : ∃ o', p.owner = some o' := by
      cases howner : p.owner with
      | some o' => exact ⟨o', rfl⟩
      | none =>
        rw [Posted.Well, howner] at hwell
        cases hasked : o.asked with
        | command c => exact absurd (hkind.trans (by rw [hasked]; rfl)) hwell.2
        | transfer kind => exact absurd (hkind.trans (by rw [hasked]; rfl)) hwell.1
    obtain ⟨hinterrupt, hnot⟩ := hclear o' howner
    have halive : o' ∈ b.alive := by
      refine (alive_take hring).symm.subset (List.mem_append_left _ ?_)
      rw [howner]
      exact List.mem_singleton_self o'
    obtain rfl : o = o' := by
      rcases h.1.well.waits o' halive with ⟨d, hd⟩ | hgiven | hsame
      · rw [reports_eq_false hinterrupt d] at hd
        cases hd
      · exact absurd hgiven (hnot hkind)
      · exact Option.some.inj hsame
    rw [if_pos hkind]
    refine ⟨fun _ => ⟨o, h.2, howner⟩, fun e he => ?_, h.1.well.answered hring howner, hmarks⟩
    obtain rfl : p.event = e := Option.some.inj he
    exact ⟨hkind, hslot o howner⟩
  · rw [if_neg hkind]
    exact ⟨fun htaker => absurd (Taker.wait.inj htaker).symm hkind, ⟨h.1.well.take hring, hmarks⟩, h.2⟩

/-- Waiting: an answer to what is waited for, or nothing, and then it is given up. -/
theorem triple_waitFor (kept : UInt8 → Prop) (handed : Nat → Nat) (x : Xhci) (o : Op) (n : Nat) :
    Triple kept (Awaiting handed x o) (waitFor o.asked.event n)
      fun r b => Answer kept o.asked r ∧ Sound handed none x b := by
  induction n with
  | zero =>
    refine Triple.act (Awaiting.stable handed x o) (R := Sound handed none x)
      (fun b h => ⟨h.1.well.gaveUp h.2, h.1.marks.same rfl rfl rfl⟩) ?_
    refine (Triple.done (Sound.stable handed none x) none).conseq (fun _ h => h) ?_
    rintro _ b ⟨rfl, h⟩
    exact ⟨nofun, h⟩
  | succ n ih =>
    refine Triple.poll (Awaiting.stable handed x o) (R := fun p b =>
        if p.event.kind = o.asked.event then Answer kept o.asked (some p.event) ∧ Sound handed none x b
        else Awaiting handed x o b) ih
      (fun b p ring h hring hlook => h.take hring hlook.1 hlook.2) fun p => ?_
    dsimp only
    by_cases hkind : p.event.kind = o.asked.event
    · rw [if_pos hkind]
      simp only [if_pos hkind]
      refine Triple.of_pre fun hanswer => ?_
      refine (Triple.done (Sound.stable handed none x) _).conseq (fun _ h => h) ?_
      rintro _ b ⟨rfl, h⟩
      exact ⟨hanswer, h⟩
    · rw [if_neg hkind]
      simp only [if_neg hkind]
      exact ih

/-! ## Operations -/

theorem alive_issue (b : Bus) (asked : Asked) (slot : UInt8) :
    (b.issue asked slot).alive.Perm (⟨b.asked, asked, slot⟩ :: b.alive) := by
  rw [Bus.alive, Bus.issue, List.append_assoc]
  exact List.perm_middle

theorem Bus.Well.issue {b : Bus} (h : b.Well none) (asked : Asked) (slot : UInt8)
    {awaited : Option Op}
    (hnew : (∃ d, Op.reports d ⟨b.asked, asked, slot⟩) ∨ awaited = some ⟨b.asked, asked, slot⟩) :
    (b.issue asked slot).Well awaited := by
  have halive := alive_issue b asked slot
  refine ⟨fun o ho => ?_, ?_, h.ring, fun o ho => ?_⟩
  · rcases List.mem_cons.1 (halive.subset ho) with rfl | ho
    · exact Nat.lt_succ_self _
    · exact Nat.lt_succ_of_lt (h.asked o ho)
  · refine ((halive.map Op.id).nodup_iff).2 (List.nodup_cons.2 ⟨fun hid => ?_, h.once⟩)
    obtain ⟨o, ho, hid⟩ := List.mem_map.1 hid
    exact absurd (h.asked o ho) (by rw [hid]; exact Nat.lt_irrefl _)
  · rcases List.mem_cons.1 (halive.subset ho) with rfl | ho
    · exact hnew.imp_right .inr
    · exact (h.waits o ho).imp_right fun h => h.imp_right fun h => nomatch h

/-- An operation that is no report's changes no mark. -/
theorem Marks.issue {handed : Nat → Nat} {x : Xhci} {b : Bus} (h : Marks handed x b) {asked : Asked}
    {slot : UInt8} (hother : ∀ d, Op.reports d ⟨b.asked, asked, slot⟩ = false) :
    Marks handed x (b.issue asked slot) := by
  have halive := alive_issue b asked slot
  refine ⟨fun d => ?_, fun d o ho hreports => ?_, h.ledger, h.idle, h.slots⟩
  · rw [halive.countP_eq, List.countP_cons_of_neg (by rw [hother d]; exact Bool.false_ne_true)]
    exact h.queued d
  · rcases List.mem_cons.1 (halive.subset ho) with rfl | ho
    · rw [hother d] at hreports
      cases hreports
    · exact h.slot d o ho hreports

/-- What is asked for and waited for. -/
theorem Sound.await {handed : Nat → Nat} {x : Xhci} {b : Bus} (h : Sound handed none x b)
    {asked : Asked} {slot : UInt8} (hother : ∀ device, asked ≠ .transfer (.interrupt device)) :
    Awaiting handed x ⟨b.asked, asked, slot⟩ (b.await asked slot) := by
  have hreports : ∀ d, Op.reports d ⟨b.asked, asked, slot⟩ = false := fun d =>
    decide_eq_false (hother d)
  have hwell : (b.issue asked slot).Well (some ⟨b.asked, asked, slot⟩) :=
    h.well.issue asked slot (.inr rfl)
  exact ⟨⟨⟨hwell.asked, hwell.once, hwell.ring, hwell.waits⟩,
    (h.marks.issue hreports).same rfl rfl rfl⟩, rfl⟩

/-! ## Entries -/

/-- The devices' slots are the ones that were kept when the call began. -/
def Within (kept : UInt8 → Prop) (x : Xhci) : Prop := ∀ d < x.deviceCount, kept (x.devices d).slot

/-- The entry that a device is enumerated into: not in use yet, its slot no device's. -/
structure Fresh (index : Nat) (x : Xhci) : Prop where
  count : x.deviceCount = index
  queued : (x.devices index).queued = false
  ready : (x.devices index).ready = false
  slot : ∀ d < index, (x.devices d).slot ≠ (x.devices index).slot

/-- The marks go by the entries in use. -/
theorem Marks.of_entries {x x' : Xhci} {b : Bus} (h : Marks handed x b)
    (hcount : x'.deviceCount = x.deviceCount)
    (hdevices : ∀ d < x.deviceCount, x'.devices d = x.devices d) : Marks handed x' b := by
  have hqueued : ∀ d, (d < x'.deviceCount ∧ (x'.devices d).queued) ↔
      (d < x.deviceCount ∧ (x.devices d).queued) := by
    intro d
    rw [hcount]
    exact and_congr_right fun hd => by rw [hdevices d hd]
  refine ⟨fun d => ?_, fun d o ho hreports => ?_, fun d => ?_, fun d hd => ?_, fun d hd d' hd' => ?_⟩
  · rw [h.queued d]
    exact (if_congr (hqueued d) rfl rfl).symm
  · have hpos : 0 < b.alive.countP (·.reports d) := List.countP_pos_iff.2 ⟨o, ho, hreports⟩
    have hd : d < x.deviceCount := by
      by_contra hd
      rw [h.queued d, if_neg fun h => hd h.1] at hpos
      exact Nat.lt_irrefl 0 hpos
    rw [hdevices d hd]
    exact h.slot d o ho hreports
  · have hunread : unread x' d = unread x d := by
      refine decide_eq_decide.2 ?_
      rw [hcount]
      exact and_congr_right fun hd => by rw [hdevices d hd]
    rw [hunread]
    exact h.ledger d
  · rw [hdevices d (hcount ▸ hd)]
    exact h.idle d (hcount ▸ hd)
  · rw [hdevices d (hcount ▸ hd), hdevices d' (hcount ▸ hd')]
    exact h.slots d (hcount ▸ hd) d' (hcount ▸ hd')

/-- A fresh entry is taken into use. -/
theorem Marks.keep {x : Xhci} {b : Bus} {index : Nat} (h : Marks handed x b) (hfresh : Fresh index x) :
    Marks handed { x with deviceCount := index + 1 } b := by
  obtain ⟨rfl, hqueued, hready, hslot⟩ := hfresh
  have hcases : ∀ d, d < x.deviceCount + 1 → d < x.deviceCount ∨ d = x.deviceCount := fun d hd => by omega
  refine ⟨fun d => ?_, h.slot, fun d => ?_, fun d hd hr => ?_, fun d hd d' hd' hsame => ?_⟩
  · rw [h.queued d]
    refine if_congr ⟨fun hq => ⟨Nat.lt_succ_of_lt hq.1, hq.2⟩, fun hq => ?_⟩ rfl rfl
    rcases hcases d hq.1 with hd | rfl
    · exact ⟨hd, hq.2⟩
    · exact absurd hq.2 (by rw [hqueued]; exact Bool.false_ne_true)
  · have hunread : unread { x with deviceCount := x.deviceCount + 1 } d = unread x d := by
      refine decide_eq_decide.2 ⟨fun hq => ?_, fun hq => ⟨Nat.lt_succ_of_lt hq.1, hq.2⟩⟩
      rcases hcases d hq.1 with hd | rfl
      · exact ⟨hd, hq.2⟩
      · exact absurd hq.2 (by rw [hready]; exact Bool.false_ne_true)
    rw [hunread]
    exact h.ledger d
  · rcases hcases d hd with hd | rfl
    · exact h.idle d hd hr
    · exact hqueued
  · rcases hcases d hd with hd | rfl <;> rcases hcases d' hd' with hd' | rfl
    · exact h.slots d hd d' hd' hsame
    · exact absurd hsame (hslot d hd)
    · exact absurd hsame.symm (hslot d' hd')
    · rfl

/-! ## Reports -/

/-- The device with a slot: the slots of the devices are different. -/
theorem deviceOfSlot_eq_some {x : Xhci} {slot : UInt8} {d : Nat}
    (hslots : ∀ d < x.deviceCount, ∀ d' < x.deviceCount, (x.devices d).slot = (x.devices d').slot → d = d')
    (hd : d < x.deviceCount) (hslot : (x.devices d).slot = slot) : deviceOfSlot x slot = some d := by
  refine List.find?_range_eq_some.2 ⟨decide_eq_true hslot, List.mem_range.2 hd, fun j hj => ?_⟩
  rw [Bool.not_eq_true']
  refine decide_eq_false fun hsame => ?_
  exact absurd (hslots j (hj.trans hd) d hd (hsame.trans hslot.symm)) hj.ne

theorem deviceOfSlot_eq_none {x : Xhci} {slot : UInt8}
    (h : ∀ d < x.deviceCount, (x.devices d).slot ≠ slot) : deviceOfSlot x slot = none := by
  refine List.find?_range_eq_none.2 fun d hd => ?_
  rw [Bool.not_eq_true']
  exact decide_eq_false (h d hd)

/-- Routing changes no device's slot. -/
theorem route_slots (event : Event) (x : Xhci) :
    (route event x).deviceCount = x.deviceCount ∧
      ∀ d, ((route event x).devices d).slot = (x.devices d).slot := by
  rw [route]
  split
  · exact ⟨rfl, fun _ => rfl⟩
  · split
    · exact ⟨rfl, fun _ => rfl⟩
    case h_2 device _ =>
      refine ⟨rfl, fun d => ?_⟩
      dsimp only
      by_cases hd : d = device
      · rw [hd, Function.update_self]
      · rw [Function.update_of_ne hd]

/-- The driver's state with another entry for a device. -/
def Xhci.set (x : Xhci) (d : Nat) (slot : DeviceSlot) : Xhci :=
  { x with devices := Function.update x.devices d slot }

@[simp] theorem Xhci.deviceCount_set (x : Xhci) (d : Nat) (slot : DeviceSlot) :
    (x.set d slot).deviceCount = x.deviceCount := rfl

@[simp] theorem Xhci.devices_set_self (x : Xhci) (d : Nat) (slot : DeviceSlot) :
    (x.set d slot).devices d = slot := Function.update_self ..

theorem Xhci.devices_set_of_ne (x : Xhci) {d d' : Nat} (slot : DeviceSlot) (h : d' ≠ d) :
    (x.set d slot).devices d' = x.devices d' := Function.update_of_ne h ..

/-- A device's entry after a transfer of its own completed. -/
def DeviceSlot.completed (d : DeviceSlot) (code : UInt32) : DeviceSlot :=
  { d with queued := false, ready := Good code ∨ d.ready }

/-- What is unread depends on the device's entry. -/
theorem unread_set_of_ne (x : Xhci) {d d' : Nat} (slot : DeviceSlot) (h : d' ≠ d) :
    unread (x.set d slot) d' = unread x d' := by
  rw [unread, unread, Xhci.deviceCount_set, Xhci.devices_set_of_ne x slot h]

theorem unread_set_self {x : Xhci} {d : Nat} (slot : DeviceSlot) (h : d < x.deviceCount) :
    unread (x.set d slot) d = slot.ready := by
  have hsame : decide (d < x.deviceCount ∧ slot.ready = true) = decide (slot.ready = true) :=
    decide_eq_decide.2 (and_iff_right h)
  rw [unread, Xhci.deviceCount_set, Xhci.devices_set_self, hsame, Bool.decide_eq_true]

/-- A device's entry is changed as the device's operations were: the marks of the others stay. -/
theorem Marks.set {handed' : Nat → Nat} {x : Xhci} {b b' : Bus} (h : Marks handed x b) {d : Nat}
    {slot : DeviceSlot} (hd : d < x.deviceCount) (hslot : slot.slot = (x.devices d).slot)
    (hqueued : b'.alive.countP (·.reports d) = if slot.queued then 1 else 0)
    (hslots : ∀ o ∈ b'.alive, o.reports d → o.slot = slot.slot)
    (hledger : b'.reports d = handed' d + slot.ready.toNat + b'.ring.countP (·.report d))
    (hidle : slot.ready → slot.queued = false)
    (hothers : ∀ d', d' ≠ d → b'.alive.countP (·.reports d') = b.alive.countP (·.reports d') ∧
      (∀ o ∈ b'.alive, o.reports d' → o ∈ b.alive) ∧ handed' d' = handed d' ∧
      b'.reports d' + b.ring.countP (·.report d') = b.reports d' + b'.ring.countP (·.report d')) :
    Marks handed' (x.set d slot) b' := by
  have hkeep : ∀ d', ((x.set d slot).devices d').slot = (x.devices d').slot := by
    intro d'
    by_cases hd' : d' = d
    · rw [hd', Xhci.devices_set_self, hslot]
    · rw [Xhci.devices_set_of_ne x slot hd']
  refine ⟨fun d' => ?_, fun d' o ho hreports => ?_, fun d' => ?_, fun d' hlt hr => ?_,
    fun d₁ hd₁ d₂ hd₂ hsame => h.slots d₁ hd₁ d₂ hd₂ (by rw [← hkeep d₁, ← hkeep d₂, hsame])⟩
  · by_cases hd' : d' = d
    · subst hd'
      rw [hqueued, Xhci.devices_set_self, Xhci.deviceCount_set]
      exact (if_congr (and_iff_right hd) rfl rfl).symm
    · rw [(hothers d' hd').1, Xhci.devices_set_of_ne x slot hd', h.queued d']
      rfl
  · rw [hkeep d']
    by_cases hd' : d' = d
    · subst hd'
      rw [← hslot]
      exact hslots o ho hreports
    · exact h.slot d' o ((hothers d' hd').2.1 o ho hreports) hreports
  · by_cases hd' : d' = d
    · subst hd'
      rw [unread_set_self slot hd]
      exact hledger
    · obtain ⟨-, -, hhanded, hbrought⟩ := hothers d' hd'
      have := h.ledger d'
      rw [unread_set_of_ne x slot hd', hhanded]
      omega
  · by_cases hd' : d' = d
    · subst hd'
      rw [Xhci.devices_set_self] at hr ⊢
      exact hidle hr
    · rw [Xhci.devices_set_of_ne x slot hd'] at hr ⊢
      exact h.idle d' hlt hr

/-- A device that is queued has one transfer alive and no report unread. -/
theorem Marks.of_alive {x : Xhci} {b : Bus} (h : Marks handed x b) {o : Op} {d : Nat} (ho : o ∈ b.alive)
    (hreports : o.reports d) : d < x.deviceCount ∧ b.alive.countP (·.reports d) = 1 ∧
      (x.devices d).ready = false := by
  have hpos : 0 < b.alive.countP (·.reports d) := List.countP_pos_iff.2 ⟨o, ho, hreports⟩
  have hqueued : d < x.deviceCount ∧ (x.devices d).queued := by
    by_contra hnot
    rw [h.queued d, if_neg hnot] at hpos
    exact Nat.lt_irrefl 0 hpos
  refine ⟨hqueued.1, by rw [h.queued d, if_pos hqueued], Bool.eq_false_iff.2 fun hready => ?_⟩
  rw [h.idle d hqueued.1 hready] at hqueued
  exact Bool.false_ne_true hqueued.2

/-- A report's completion clears its device's mark, and leaves the report. -/
theorem Marks.completed {x : Xhci} {b : Bus} (h : Marks handed x b) {p : Posted} {ring : List Posted}
    (hring : b.ring = p :: ring) {o : Op} (howner : p.owner = some o) {d : Nat} (hreports : o.reports d) :
    Marks handed (x.set d ((x.devices d).completed p.event.completion)) { b with ring } := by
  have halive := alive_take hring
  rw [howner, Option.toList_some, List.singleton_append] at halive
  obtain ⟨hd, hone, hready⟩ := h.of_alive (halive.symm.subset List.mem_cons_self) hreports
  have hreport : ∀ d', p.report d' = (o.reports d' && decide (Good p.event.completion)) := by
    intro d'
    rw [Posted.report, howner, Option.any_some]
  rw [halive.countP_eq, List.countP_cons_of_pos hreports] at hone
  have hledger := h.ledger d
  rw [hring, List.countP_cons, hreport, hreports, Bool.true_and, unread, hready] at hledger
  refine h.set hd rfl ?_ (fun o' ho' => h.slot d o' (mem_alive_of_take hring ho')) ?_ (fun _ => rfl)
    fun d' hd' => ?_
  · exact Nat.succ.inj hone
  · rw [DeviceSlot.completed, hready]
    dsimp only
    rw [hledger]
    by_cases hgood : Good p.event.completion
    · simp [hgood]
      omega
    · simp [hgood]
  · have hother : o.reports d' = false := Bool.eq_false_iff.2 fun h => hd' (eq_of_reports h hreports)
    refine ⟨?_, fun o' ho' _ => mem_alive_of_take hring ho', rfl, ?_⟩
    · rw [halive.countP_eq, List.countP_cons_of_neg (by rw [hother]; exact Bool.false_ne_true)]
    · rw [hring, List.countP_cons, hreport, hother, Bool.false_and, if_neg Bool.false_ne_true]
      rfl

/-- The polling routes an event to the device it belongs to. -/
theorem Sound.routed {x : Xhci} {b : Bus} (h : Sound handed none x b) {p : Posted} {ring : List Posted}
    (hring : b.ring = p :: ring) (hwithin : Within kept x) (hclear : (b.look .drain p).Clear kept) :
    Sound handed none (route p.event x) { b with ring } := by
  refine ⟨h.well.take hring, ?_⟩
  have hwell : p.Well := h.well.ring p (hring ▸ List.mem_cons_self)
  by_cases hkind : p.event.kind = TRB_TRANSFER_EVENT
  · cases howner : p.owner with
    | none =>
      rw [Posted.Well, howner] at hwell
      exact absurd hkind hwell.1
    | some o =>
      rw [Posted.Well, howner] at hwell
      obtain ⟨hevent, hslot⟩ := hwell
      by_cases hreports : ∃ d, o.reports d
      · -- the report's device is found by its slot
        obtain ⟨d, hreports⟩ := hreports
        have halive : o ∈ b.alive := by
          refine (alive_take hring).symm.subset (List.mem_append_left _ ?_)
          rw [howner]
          exact List.mem_singleton_self o
        have hd := (h.marks.of_alive halive hreports).1
        have hfound : deviceOfSlot x p.event.slot = some d := by
          refine deviceOfSlot_eq_some h.marks.slots hd ?_
          rw [hslot _ (interrupt_of_reports hreports)]
          exact (h.marks.slot d o halive hreports).symm
        have hroute : route p.event x = x.set d ((x.devices d).completed p.event.completion) := by
          rw [route, if_neg fun hnot => hnot hkind, hfound]
          rfl
        rw [hroute]
        exact h.marks.completed hring howner hreports
      · have hnot : ∀ d, o.reports d = false := fun d =>
          Bool.eq_false_iff.2 fun hr => hreports ⟨d, hr⟩
        have hfar : ¬ kept p.event.slot :=
          hclear o howner (interrupt_eq_false hnot) (hevent.symm.trans hkind)
        have hfound : deviceOfSlot x p.event.slot = none := by
          refine deviceOfSlot_eq_none fun d hd hsame => hfar ?_
          rw [← hsame]
          exact hwithin d hd
        have hroute : route p.event x = x := by
          rw [route, if_neg fun hnot => hnot hkind, hfound]
        rw [hroute]
        refine h.marks.take hring fun o' ho' d => ?_
        obtain rfl : o = o' := Option.some.inj (howner.symm.trans ho')
        exact hnot d
  · have hroute : route p.event x = x := by rw [route, if_pos hkind]
    rw [hroute]
    refine h.marks.take hring fun o ho d => Bool.eq_false_iff.2 fun hreports => hkind ?_
    rw [Posted.Well, ho] at hwell
    rw [hwell.1, interrupt_of_reports hreports]
    rfl

/-- A transfer is queued for a device that has none outstanding and no report unread. -/
theorem Sound.arm {x : Xhci} {b : Bus} (h : Sound handed none x b) {d : Nat} (hd : d < x.deviceCount)
    (hqueued : (x.devices d).queued = false) (hready : (x.devices d).ready = false) :
    Sound handed none (x.set d { x.devices d with queued := true })
      (b.issue (.transfer (.interrupt d)) (x.devices d).slot) := by
  have halive := alive_issue b (.transfer (.interrupt d)) (x.devices d).slot
  have hself : Op.reports d ⟨b.asked, .transfer (.interrupt d), (x.devices d).slot⟩ = true :=
    decide_eq_true rfl
  have hnone : b.alive.countP (·.reports d) = 0 := by
    rw [h.marks.queued d, hqueued, if_neg fun h => Bool.false_ne_true h.2]
  have hledger := h.marks.ledger d
  rw [unread, hready, decide_eq_false (fun h => Bool.false_ne_true h.2)] at hledger
  refine ⟨h.well.issue _ _ (.inl ⟨d, hself⟩), h.marks.set hd rfl ?_ (fun o ho hreports => ?_) ?_
    (fun hr => ?_) fun d' hd' => ?_⟩
  · rw [halive.countP_eq, List.countP_cons_of_pos hself, hnone]
    rfl
  · rcases List.mem_cons.1 (halive.subset ho) with rfl | ho
    · rfl
    · exact h.marks.slot d o ho hreports
  · dsimp only
    rw [hready]
    exact hledger
  · dsimp only at hr
    rw [hready] at hr
    cases hr
  · have hother : Op.reports d' ⟨b.asked, .transfer (.interrupt d), (x.devices d).slot⟩ = false :=
      Bool.eq_false_iff.2 fun h => hd' (eq_of_reports h hself)
    refine ⟨?_, fun o ho hreports => ?_, rfl, rfl⟩
    · rw [halive.countP_eq, List.countP_cons_of_neg (by rw [hother]; exact Bool.false_ne_true)]
    · rcases List.mem_cons.1 (halive.subset ho) with rfl | ho
      · rw [hother] at hreports
        cases hreports
      · exact ho

/-- The number of reports handed out for each device, one more for a device if it was handed one. -/
def bump (handed : Nat → Nat) (device : Nat) (one : Bool) (d : Nat) : Nat :=
  handed d + (decide (d = device) && one).toNat

/-- An unread report is handed out. -/
theorem Sound.handOut {x : Xhci} {b : Bus} (h : Sound handed none x b) {d : Nat} (hd : d < x.deviceCount)
    (hready : (x.devices d).ready) : Sound (bump handed d true) none
      (x.set d { x.devices d with ready := false }) b := by
  have hledger := h.marks.ledger d
  rw [unread, hready, decide_eq_true ⟨hd, rfl⟩] at hledger
  refine ⟨h.well, h.marks.set hd rfl ?_ (fun o ho hreports => h.marks.slot d o ho hreports) ?_
    (fun hr => nomatch hr) fun d' hd' => ⟨rfl, fun o ho _ => ho, ?_, rfl⟩⟩
  · rw [h.marks.queued d]
    exact if_congr (and_iff_right hd) rfl rfl
  · rw [hledger, bump, decide_eq_true rfl]
    rfl
  · rw [bump, decide_eq_false hd']
    rfl

theorem bump_false (handed : Nat → Nat) (device : Nat) : bump handed device false = handed := by
  funext d
  rw [bump, Bool.and_false]
  rfl

end NanoChrono.Usb
