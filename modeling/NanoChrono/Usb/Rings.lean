import NanoChrono.Usb.Driver

/-! # The transfer rings

The controller takes the entries of a ring from the pointer and cycle state it was given, as long as
the cycle bits match, and follows the link. Nothing but the cycle bits says what is new: an entry left
by an earlier device, or by the control endpoint that uses the same ring, is executed as well. -/

namespace NanoChrono.Usb

open Rings

/-! ## The controller and the rings' memory -/

/-- What a block asks for, its cycle bit apart. -/
def Trb.plain (t : Trb) : Trb := { t with control := t.control &&& ~~~TRB_CYCLE }

def Work.plain (w : Work) : Trb := ⟨w.parameter, w.status, w.stage.control⟩

/-- A ring as the controller reads it. -/
def view (mem : Nat → Trb) (i : Nat) : Entry Trb :=
  ⟨if (mem i).kind = TRB_LINK then none else some (mem i).plain, (mem i).cycle⟩

/-- The entries of a ring before its link. -/
def ENTRIES : Nat := RING_LEN - 1

/-- An endpoint as the controller has it: its ring, where it is on it, and whether its doorbell was
rung; with how many transfers were on the ring when its pointer was set to the ring's start, and what
it executed since. -/
structure Port where
  ring : RingId
  place : Cursor
  running : Bool
  since : Nat
  executed : List Trb
deriving DecidableEq, Repr

/-- The controller's step at an endpoint: nothing before its doorbell was rung. -/
def Port.serve (port : Port) (mem : Nat → Trb) : Port :=
  if port.running then
    match fetch (view mem) port.place with
    | none => port
    | some (none, c) => { port with place := c }
    | some (some t, c) => { port with place := c, executed := port.executed ++ [t] }
  else port

/-- The rings' memory, where the driver is on each, the commands not yet carried out, the controller's
endpoints; with what was put on each ring since it was started, and for which endpoint. -/
structure Machine where
  mem : RingId → Nat → Trb
  cursor : RingId → Cursor
  commands : List Command
  ports : List (Endpoint × Port)
  puts : RingId → List (Endpoint × Work)

namespace Machine

/-- The machine when the controller was brought up. -/
def boot : Machine where
  mem _ _ := .zero
  cursor _ := .start
  commands := []
  ports := []
  puts _ := []

/-- Writes a transfer at the ring's next place, and the link before it at the ring's end. -/
def put (m : Machine) (r : RingId) (e : Endpoint) (w : Work) : Machine :=
  let p := m.cursor r
  let wrap := p.index ≥ RING_LEN - 1
  let mem := if wrap then Function.update (m.mem r) (RING_LEN - 1) (linkTrb r p.cycle) else m.mem r
  let p := if wrap then ⟨0, !p.cycle⟩ else p
  { m with
    mem := Function.update m.mem r (Function.update mem p.index (w.trb p.cycle))
    cursor := Function.update m.cursor r ⟨p.index + 1, p.cycle⟩
    puts := Function.update m.puts r (m.puts r ++ [(e, w)]) }

/-- Starts a ring over; its memory stays. -/
def restart (m : Machine) (r : RingId) : Machine :=
  { m with
    cursor := Function.update m.cursor r .start
    puts := Function.update m.puts r []
    ports := m.ports.map fun x => if x.2.ring = r then (x.1, { x.2 with since := 0 }) else x }

/-- Gives an endpoint its ring, from the ring's start, in the first lap. -/
def program (m : Machine) (e : Endpoint) (r : RingId) : Machine :=
  { m with
    ports := (e, ⟨r, .start, false, (m.puts r).length, []⟩) :: m.ports.filter fun x => x.1 ≠ e }

/-- Changes an endpoint. -/
def onPort (m : Machine) (e : Endpoint) (f : Port → Port) : Machine :=
  { m with ports := m.ports.map fun x => if x.1 = e then (x.1, f x.2) else x }

/-- What the controller does to carry a command out. -/
def obey (m : Machine) : Command → Machine
  | .enable => m
  | .address slot r => m.program ⟨slot, 1⟩ r
  | .configure slot endpoints => endpoints.foldl (fun m x => m.program ⟨slot, x.1⟩ x.2) m
  | .disable slot => { m with ports := m.ports.filter fun x => x.1.slot ≠ slot }

/-- The controller carries the next command out. -/
def carry (m : Machine) : Machine :=
  match m.commands with
  | [] => m
  | c :: commands => { m with commands }.obey c

/-- The effect of what the driver does. -/
def act (m : Machine) : Act → Machine
  | .newDevice device => m.restart (.transfer device)
  | .newCursors => (m.restart .mscOut).restart .mscIn
  | .command c => { m with commands := m.commands ++ [c] }
  | .put r e w => m.put r e w
  | .doorbell e _ => m.onPort e fun port => { port with running := true }
  | .gaveUp => m

/-- The controller's step at an endpoint. -/
def serve (m : Machine) (e : Endpoint) : Machine :=
  m.onPort e fun port => port.serve (m.mem port.ring)

/-- What was put on a ring since it was started. -/
def works (m : Machine) (r : RingId) : List Trb := (m.puts r).map fun x => x.2.plain

/-- What was put for an endpoint since its pointer was set. -/
def enqueued (m : Machine) (e : Endpoint) (port : Port) : List Trb :=
  (((m.puts port.ring).drop port.since).filter fun x => x.1 = e).map fun x => x.2.plain

/-- Every endpoint executes what was put for it, each once and in order, and all of it when it finds
nothing more to do. -/
def Delivered (m : Machine) : Prop :=
  ∀ x ∈ m.ports, x.2.executed <+: m.enqueued x.1 x.2 ∧
    (x.2.running → fetch (view (m.mem x.2.ring)) x.2.place = none →
      x.2.executed = m.enqueued x.1 x.2)

/-! ## Steps that keep the rings apart -/

/-- The entry that the driver writes next does not look new. -/
def Quiet (m : Machine) (r : RingId) : Prop := (m.mem r (m.cursor r).index).cycle ≠ (m.cursor r).cycle

instance (m : Machine) (r : RingId) : Decidable (m.Quiet r) :=
  inferInstanceAs (Decidable ((m.mem r (m.cursor r).index).cycle ≠ (m.cursor r).cycle))

/-- No endpoint runs on a ring but those named. -/
def Runs (m : Machine) (r : RingId) (named : Endpoint → Prop) : Prop :=
  ∀ x ∈ m.ports, x.2.running → x.2.ring = r → named x.1

instance (m : Machine) (r : RingId) (named : Endpoint → Prop) [DecidablePred named] :
    Decidable (m.Runs r named) :=
  inferInstanceAs (Decidable (∀ x ∈ m.ports, x.2.running → x.2.ring = r → named x.1))

/-- An endpoint that runs on a ring has executed enough that one more transfer fits, and after it the
next entry does not look new. -/
def Room (m : Machine) (r : RingId) (e : Endpoint) (w : Work) : Prop :=
  ∀ x ∈ m.ports, x.2.running → x.2.ring = r →
    (m.puts r).length < x.2.executed.length + ENTRIES ∧ (m.put r e w).Quiet r

instance (m : Machine) (r : RingId) (e : Endpoint) (w : Work) : Decidable (m.Room r e w) :=
  inferInstanceAs (Decidable (∀ x ∈ m.ports, x.2.running → x.2.ring = r →
    (m.puts r).length < x.2.executed.length + ENTRIES ∧ (m.put r e w).Quiet r))

/-- The ring holds what was put for this endpoint since its pointer was set, nothing else and no more
than fits, and the next entry does not look new. -/
def Begins (m : Machine) (e : Endpoint) (port : Port) : Prop :=
  port.since = 0 ∧ (∀ x ∈ m.puts port.ring, x.1 = e) ∧ (m.puts port.ring).length ≤ ENTRIES ∧
    m.Runs port.ring (· = e) ∧ m.Quiet port.ring

instance (m : Machine) (e : Endpoint) (port : Port) : Decidable (m.Begins e port) :=
  inferInstanceAs (Decidable (port.since = 0 ∧ (∀ x ∈ m.puts port.ring, x.1 = e) ∧
    (m.puts port.ring).length ≤ ENTRIES ∧ m.Runs port.ring (· = e) ∧ m.Quiet port.ring))

/-- An act that keeps the rings apart. A ring is started over while no endpoint runs on it. A transfer
is put on a ring where no other endpoint runs, and there is room for it. The doorbell is first rung
of an endpoint whose transfers are all that looks new on its ring. -/
def ClearAct (m : Machine) : Act → Prop
  | .newDevice device => m.Runs (.transfer device) fun _ => False
  | .newCursors => m.Runs .mscOut (fun _ => False) ∧ m.Runs .mscIn fun _ => False
  | .command _ => True
  | .put r e w => m.Runs r (· = e) ∧ m.Room r e w
  | .doorbell e _ => ∀ x ∈ m.ports, x.1 = e → x.2.running = false → m.Begins e x.2
  | .gaveUp => True

instance (m : Machine) : (a : Act) → Decidable (m.ClearAct a)
  | .newDevice device => inferInstanceAs (Decidable (m.Runs (.transfer device) fun _ => False))
  | .newCursors =>
    inferInstanceAs (Decidable (m.Runs .mscOut (fun _ => False) ∧ m.Runs .mscIn fun _ => False))
  | .command _ => inferInstanceAs (Decidable True)
  | .put r e w => inferInstanceAs (Decidable (m.Runs r (· = e) ∧ m.Room r e w))
  | .doorbell e _ =>
    inferInstanceAs (Decidable (∀ x ∈ m.ports, x.1 = e → x.2.running = false → m.Begins e x.2))
  | .gaveUp => inferInstanceAs (Decidable True)

/-! ## The rings as cycle-bit rings -/

theorem entries_pos : 0 < ENTRIES := by decide

theorem control_facts (stage : Stage) (cycle : Bool) :
    ((stage.control ||| cycleBit cycle) >>> 10) &&& 0x3F ≠ TRB_LINK ∧
      (stage.control ||| cycleBit cycle) &&& ~~~TRB_CYCLE = stage.control ∧
        ((stage.control ||| cycleBit cycle) &&& TRB_CYCLE != 0) = cycle := by
  cases stage <;> cases cycle <;> decide

theorem link_facts (cycle : Bool) :
    (((TRB_LINK <<< (10 : UInt32)) ||| TRB_TOGGLE ||| cycleBit cycle) >>> 10) &&& 0x3F = TRB_LINK ∧
      (((TRB_LINK <<< (10 : UInt32)) ||| TRB_TOGGLE ||| cycleBit cycle) &&& TRB_CYCLE != 0) = cycle := by
  cases cycle <;> decide

/-- A transfer as it stands in memory. -/
theorem view_trb (mem : Nat → Trb) (i : Nat) (w : Work) (cycle : Bool) :
    view (Function.update mem i (w.trb cycle)) =
      Function.update (view mem) i ⟨some w.plain, cycle⟩ := by
  funext j
  by_cases hj : j = i
  · subst hj
    obtain ⟨hkind, hcontrol, hcycle⟩ := control_facts w.stage cycle
    have hnot : (w.trb cycle).kind ≠ TRB_LINK := hkind
    have hplain : (w.trb cycle).plain = w.plain := congrArg (Trb.mk w.parameter w.status) hcontrol
    rw [view, Function.update_self, Function.update_self, if_neg hnot, hplain]
    exact congrArg (Entry.mk _) hcycle
  · rw [view, Function.update_of_ne hj, Function.update_of_ne hj, view]

/-- The link as it stands in memory. -/
theorem view_link (mem : Nat → Trb) (i : Nat) (r : RingId) (cycle : Bool) :
    view (Function.update mem i (linkTrb r cycle)) = Function.update (view mem) i ⟨none, cycle⟩ := by
  funext j
  by_cases hj : j = i
  · subst hj
    have hkind : (linkTrb r cycle).kind = TRB_LINK := (link_facts cycle).1
    have hcycle : (linkTrb r cycle).cycle = cycle := (link_facts cycle).2
    rw [view, Function.update_self, Function.update_self, if_pos hkind, hcycle]
  · rw [view, Function.update_of_ne hj, Function.update_of_ne hj, view]

/-- Putting a transfer is putting an entry. -/
theorem view_put (m : Machine) (r : RingId) (e : Endpoint) (w : Work) :
    view ((m.put r e w).mem r) = (Rings.put ENTRIES (view (m.mem r)) (m.cursor r) w.plain).1 ∧
      (m.put r e w).cursor r = (Rings.put ENTRIES (view (m.mem r)) (m.cursor r) w.plain).2 := by
  have hlen : RING_LEN - 1 = ENTRIES := rfl
  rw [Machine.put, Rings.put]
  dsimp only
  rw [Function.update_self, Function.update_self, hlen]
  by_cases hwrap : (m.cursor r).index ≥ ENTRIES
  · simp only [if_pos hwrap, view_trb, view_link, and_self]
  · simp only [if_neg hwrap, view_trb, and_self]

@[simp] theorem puts_put (m : Machine) (r : RingId) (e : Endpoint) (w : Work) :
    (m.put r e w).puts r = m.puts r ++ [(e, w)] := Function.update_self ..

theorem works_put (m : Machine) (r : RingId) (e : Endpoint) (w : Work) :
    (m.put r e w).works r = m.works r ++ [w.plain] := by
  rw [works, puts_put, List.map_append]
  rfl

/-- The other rings are as they were. -/
theorem put_of_ne {m : Machine} {r r' : RingId} {e : Endpoint} {w : Work} (h : r' ≠ r) :
    (m.put r e w).mem r' = m.mem r' ∧ (m.put r e w).cursor r' = m.cursor r' ∧
      (m.put r e w).puts r' = m.puts r' :=
  ⟨Function.update_of_ne h _ _, Function.update_of_ne h _ _, Function.update_of_ne h _ _⟩

theorem restart_of_ne {m : Machine} {r r' : RingId} (h : r' ≠ r) :
    (m.restart r).cursor r' = m.cursor r' ∧ (m.restart r).puts r' = m.puts r' :=
  ⟨Function.update_of_ne h _ _, Function.update_of_ne h _ _⟩

/-! ## What every clear step keeps -/

/-- An endpoint in step with its ring: it has executed nothing and is at the ring's start, or it runs
alone on a ring that holds its transfers only. -/
structure InStep (m : Machine) (e : Endpoint) (port : Port) : Prop where
  idle : port.running = false → port.executed = [] ∧ port.place = .start
  since : port.running → port.since = 0
  owned : port.running → ∀ x ∈ m.puts port.ring, x.1 = e
  served : port.running → Served ENTRIES (view (m.mem port.ring)) (m.cursor port.ring)
    (m.works port.ring) port.place port.executed

/-- The rings hold what was put on them, and the endpoints are in step with them. -/
structure Inv (m : Machine) : Prop where
  produced : ∀ r, ∃ lap, Produced ENTRIES (view (m.mem r)) (m.cursor r) lap (m.works r)
  ports : ∀ x ∈ m.ports, m.InStep x.1 x.2

theorem inv_boot : boot.Inv where
  produced _ := ⟨0, Produced.start _ _⟩
  ports _ hx := absurd hx List.not_mem_nil

/-- An endpoint whose ring is as it was stays in step. -/
theorem InStep.of_same {m m' : Machine} {e : Endpoint} {port : Port} (h : m.InStep e port)
    (hmem : m'.mem port.ring = m.mem port.ring) (hcursor : m'.cursor port.ring = m.cursor port.ring)
    (hputs : m'.puts port.ring = m.puts port.ring) : m'.InStep e port where
  idle := h.idle
  since := h.since
  owned hrun := hputs ▸ h.owned hrun
  served hrun := by
    rw [hmem, hcursor, works, hputs]
    exact h.served hrun

/-- An endpoint that does not run stays in step, whatever happens to its ring. -/
theorem InStep.of_idle {m m' : Machine} {e : Endpoint} {port : Port} (h : m.InStep e port)
    (hidle : port.running = false) : m'.InStep e port where
  idle := h.idle
  since hrun := absurd (hidle ▸ hrun) Bool.false_ne_true
  owned hrun := absurd (hidle ▸ hrun) Bool.false_ne_true
  served hrun := absurd (hidle ▸ hrun) Bool.false_ne_true

/-- An endpoint that was just given its ring. -/
theorem InStep.new (m : Machine) (e : Endpoint) (r : RingId) (since : Nat) :
    m.InStep e ⟨r, .start, false, since, []⟩ where
  idle _ := ⟨rfl, rfl⟩
  since hrun := absurd hrun Bool.false_ne_true
  owned hrun := absurd hrun Bool.false_ne_true
  served hrun := absurd hrun Bool.false_ne_true

theorem inv_put {m : Machine} (h : m.Inv) {r : RingId} {e : Endpoint} {w : Work}
    (hruns : m.Runs r (· = e)) (hroom : m.Room r e w) : (m.put r e w).Inv := by
  have hput := view_put m r e w
  refine ⟨fun r' => ?_, fun x hx => ?_⟩
  · by_cases hr : r' = r
    · subst hr
      obtain ⟨lap, hproduced⟩ := h.produced r'
      obtain ⟨lap', hproduced⟩ := hproduced.put entries_pos w.plain
      exact ⟨lap', by rw [works_put, hput.1, hput.2]; exact hproduced⟩
    · obtain ⟨hmem, hcursor, hputs⟩ := put_of_ne (m := m) (e := e) (w := w) hr
      rw [hmem, hcursor, works, hputs]
      exact h.produced r'
  · obtain ⟨e', port⟩ := x
    have hstep : m.InStep e' port := h.ports _ hx
    by_cases hr : port.ring = r
    · cases hrun : port.running with
      | false => exact hstep.of_idle hrun
      | true =>
        -- the endpoint that runs on the ring is the one the transfer is for
        subst hr
        obtain rfl : e' = e := hruns _ hx hrun rfl
        obtain ⟨hfits, hquiet⟩ := hroom _ hx hrun rfl
        refine ⟨hstep.idle, hstep.since, fun _ => ?_, fun _ => ?_⟩
        · rw [puts_put]
          exact List.forall_mem_append.2
            ⟨hstep.owned hrun, List.forall_mem_singleton.2 rfl⟩
        · have hlength : (m.works port.ring).length < port.executed.length + ENTRIES := by
            rw [works, List.length_map]
            exact hfits
          have hview : ((Rings.put ENTRIES (view (m.mem port.ring)) (m.cursor port.ring) w.plain).1
              (Rings.put ENTRIES (view (m.mem port.ring)) (m.cursor port.ring) w.plain).2.index).cycle ≠
              (Rings.put ENTRIES (view (m.mem port.ring)) (m.cursor port.ring) w.plain).2.cycle := by
            rw [← hput.1, ← hput.2]
            exact hquiet
          dsimp only
          rw [works_put, hput.1, hput.2]
          exact (hstep.served hrun).put entries_pos w.plain hlength hview
    · obtain ⟨hmem, hcursor, hputs⟩ := put_of_ne (m := m) (e := e) (w := w) hr
      exact hstep.of_same hmem hcursor hputs

theorem inv_restart {m : Machine} (h : m.Inv) {r : RingId} (hruns : m.Runs r fun _ => False) :
    (m.restart r).Inv := by
  refine ⟨fun r' => ?_, fun x hx => ?_⟩
  · by_cases hr : r' = r
    · subst hr
      refine ⟨0, ?_⟩
      rw [restart, works]
      dsimp only
      rw [Function.update_self, Function.update_self]
      exact Produced.start _ _
    · obtain ⟨hcursor, hputs⟩ := restart_of_ne (m := m) hr
      rw [hcursor, works, hputs]
      exact h.produced r'
  · obtain ⟨⟨e, port⟩, hport, rfl⟩ := List.mem_map.1 hx
    have hstep : m.InStep e port := h.ports _ hport
    by_cases hr : port.ring = r
    · have hidle : port.running = false := Bool.eq_false_iff.2 fun hrun => hruns _ hport hrun hr
      rw [if_pos hr]
      obtain ⟨hexecuted, hplace⟩ := hstep.idle hidle
      dsimp only
      rw [hidle, hexecuted, hplace]
      exact InStep.new _ _ _ _
    · rw [if_neg hr]
      obtain ⟨hcursor, hputs⟩ := restart_of_ne (m := m) hr
      exact hstep.of_same rfl hcursor hputs

/-- What changes the endpoints only keeps the rings. -/
theorem Inv.of_ports {m : Machine} (h : m.Inv) {ports : List (Endpoint × Port)}
    (hports : ∀ x ∈ ports, m.InStep x.1 x.2) : Inv { m with ports } where
  produced := h.produced
  ports x hx := (hports x hx).of_same rfl rfl rfl

theorem inv_program {m : Machine} (h : m.Inv) (e : Endpoint) (r : RingId) : (m.program e r).Inv := by
  refine h.of_ports (List.forall_mem_cons.2 ⟨InStep.new _ _ _ _, fun x hx => ?_⟩)
  exact h.ports x (List.mem_of_mem_filter hx)

theorem inv_obey {m : Machine} (h : m.Inv) (c : Command) : (m.obey c).Inv := by
  cases c with
  | enable => exact h
  | address slot r => exact inv_program h _ _
  | configure slot endpoints =>
    have hall : ∀ m : Machine, m.Inv →
        (endpoints.foldl (fun m x => m.program ⟨slot, x.1⟩ x.2) m).Inv := by
      induction endpoints with
      | nil => exact fun _ h => h
      | cons x endpoints ih => exact fun m h => ih _ (inv_program h _ _)
    exact hall m h
  | disable slot => exact h.of_ports fun x hx => h.ports x (List.mem_of_mem_filter hx)

theorem inv_carry {m : Machine} (h : m.Inv) : m.carry.Inv := by
  rw [carry]
  cases m.commands with
  | nil => exact h
  | cons c commands =>
    have hrest : Inv { m with commands } := ⟨h.produced, fun x hx => (h.ports x hx).of_same rfl rfl rfl⟩
    exact inv_obey hrest c

/-- What is done to one endpoint. -/
theorem inv_onPort {m : Machine} (h : m.Inv) {e : Endpoint} {f : Port → Port}
    (hf : ∀ x ∈ m.ports, x.1 = e → m.InStep e (f x.2)) : (m.onPort e f).Inv := by
  refine h.of_ports fun x hx => ?_
  obtain ⟨y, hy, rfl⟩ := List.mem_map.1 hx
  by_cases he : y.1 = e
  · rw [if_pos he]
    exact he ▸ hf y hy he
  · rw [if_neg he]
    exact h.ports y hy

theorem inv_doorbell {m : Machine} (h : m.Inv) {e : Endpoint}
    (hbegins : ∀ x ∈ m.ports, x.1 = e → x.2.running = false → m.Begins e x.2) :
    (m.onPort e fun port => { port with running := true }).Inv := by
  refine inv_onPort h fun x hx he => ?_
  obtain ⟨e', port⟩ := x
  obtain rfl : e' = e := he
  have hstep : m.InStep e' port := h.ports _ hx
  cases hrun : port.running with
  | true =>
    have hsame : { port with running := true } = port := by rw [← hrun]
    dsimp only
    rw [hsame]
    exact hstep
  | false =>
    obtain ⟨hsince, howned, hlength, -, hquiet⟩ := hbegins _ hx rfl hrun
    obtain ⟨hexecuted, hplace⟩ := hstep.idle hrun
    obtain ⟨lap, hproduced⟩ := h.produced port.ring
    refine ⟨nofun, fun _ => hsince, fun _ => howned, fun _ => ?_⟩
    dsimp only
    rw [hexecuted, hplace]
    refine Served.start hproduced ?_ hquiet
    rw [works, List.length_map]
    exact hlength

/-- The controller executes the next transfer, follows the link or finds nothing to do. -/
theorem inStep_serve {m : Machine} {e : Endpoint} {port : Port} (h : m.InStep e port) :
    m.InStep e (port.serve (m.mem port.ring)) := by
  rw [Port.serve]
  split
  case isTrue hrun =>
    have hfetch := (h.served hrun).fetch
    have hnot : port.running ≠ false := by rw [hrun]; exact nofun
    split
    case h_1 => exact h
    case h_2 c heq =>
      rw [heq] at hfetch
      exact ⟨fun hidle => absurd hidle hnot, h.since, h.owned, fun _ => hfetch⟩
    case h_3 t c heq =>
      rw [heq] at hfetch
      exact ⟨fun hidle => absurd hidle hnot, h.since, h.owned, fun _ => hfetch⟩
  case isFalse => exact h

theorem inv_serve {m : Machine} (h : m.Inv) (e : Endpoint) : (m.serve e).Inv :=
  inv_onPort h fun x hx he => inStep_serve (he ▸ h.ports x hx)

/-- Whatever the driver does next, if it keeps the rings apart. -/
theorem inv_act {m : Machine} (h : m.Inv) {a : Act} (hclear : m.ClearAct a) : (m.act a).Inv := by
  cases a with
  | newDevice device => exact inv_restart h hclear
  | newCursors =>
    refine inv_restart (inv_restart h hclear.1) fun x hx hrun hr => ?_
    -- starting one ring over starts no endpoint
    obtain ⟨y, hy, rfl⟩ := List.mem_map.1 hx
    by_cases hring : y.2.ring = .mscOut
    · rw [if_pos hring] at hrun
      exact hclear.1 y hy hrun hring
    · rw [if_neg hring] at hrun hr
      exact hclear.2 y hy hrun hr
  | command c => exact ⟨h.produced, fun x hx => (h.ports x hx).of_same rfl rfl rfl⟩
  | put r e w => exact inv_put h hclear.1 hclear.2
  | doorbell e kind => exact inv_doorbell h hclear
  | gaveUp => exact h

/-- Where the endpoints are in step with their rings, what was put is delivered. -/
theorem Inv.delivered {m : Machine} (h : m.Inv) : m.Delivered := by
  intro x hx
  obtain ⟨e, port⟩ := x
  have hstep : m.InStep e port := h.ports _ hx
  dsimp only
  cases hrun : port.running with
  | false =>
    rw [(hstep.idle hrun).1]
    exact ⟨List.nil_prefix, fun h => absurd h Bool.false_ne_true⟩
  | true =>
    have hall : m.enqueued e port = m.works port.ring := by
      rw [enqueued, hstep.since hrun, List.drop_zero, works]
      congr 1
      exact List.filter_eq_self.2 fun x hx => decide_eq_true (hstep.owned hrun x hx)
    have hserved := hstep.served hrun
    rw [hall]
    refine ⟨hserved.done, fun _ hnone => ?_⟩
    have hfetch := hserved.fetch
    rw [hnone] at hfetch
    exact hfetch

end Machine

/-! ## Sessions -/

/-- A step of the controller: it carries out a command, or serves an endpoint. -/
inductive Control where
  | carry
  | serve (e : Endpoint)
deriving DecidableEq, Repr

def Machine.control (m : Machine) : Control → Machine
  | .carry => m.carry
  | .serve e => m.serve e

theorem Machine.inv_control {m : Machine} (h : m.Inv) (c : Control) : (m.control c).Inv := by
  cases c with
  | carry => exact inv_carry h
  | serve e => exact inv_serve h e

/-- The states that a program's run goes through, the controller's steps in between: whatever the
program finds on the event ring and reads of what a device sent, as long as every act is admitted. -/
inductive Reaches (admitted : Machine → Act → Prop) {α : Type} :
    Prog α → Machine → Machine → Prop where
  | here (p : Prog α) (m : Machine) : Reaches admitted p m m
  | control (c : Control) {p : Prog α} {m m' : Machine} (rest : Reaches admitted p (m.control c) m') :
      Reaches admitted p m m'
  | act {a : Act} {next : Prog α} {m m' : Machine} (ok : admitted m a)
      (rest : Reaches admitted next (m.act a) m') : Reaches admitted (.act a next) m m'
  | poll (event : Option Event) {t : Taker} {next : Option Event → Prog α} {m m' : Machine}
      (rest : Reaches admitted (next event) m m') : Reaches admitted (.poll t next) m m'
  | ask {q : Query} (answer : q.Answer) {next : q.Answer → Prog α} {m m' : Machine}
      (rest : Reaches admitted (next answer) m m') : Reaches admitted (.ask q next) m m'

/-- The invariant along a run. -/
theorem Reaches.inv {α : Type} {p : Prog α} {m m' : Machine} (h : Reaches Machine.ClearAct p m m')
    (hinv : m.Inv) : m'.Inv := by
  induction h with
  | here p m => exact hinv
  | control c _ ih => exact ih (Machine.inv_control hinv c)
  | act ok _ ih => exact ih (Machine.inv_act hinv ok)
  | poll event _ ih => exact ih hinv
  | ask answer _ ih => exact ih hinv

/-- In every session of calls whose acts all keep the rings apart, the rings deliver what was put on
them, in every state reached. -/
theorem rings_deliver {calls : List Call} {m : Machine}
    (h : Reaches Machine.ClearAct ((session calls).run Xhci.new) .boot m) : m.Delivered :=
  (h.inv Machine.inv_boot).delivered

/-- What happens when the driver looks at the event ring: the controller's steps before it, and what
the driver finds. -/
abbrev Script := List (List Control × Option Event)

/-- The state in which a program's run ends that finds what a script says, or at the script's end;
nothing if an act is not admitted. -/
@[grind =] def replay (admitted : Machine → Act → Prop) [∀ m a, Decidable (admitted m a)]
    (answers : (q : Query) → q.Answer) {α : Type} : Prog α → Script → Machine → Option Machine
  | .done _, [], m => some m
  | .done _, (controls, _) :: _, m => some (controls.foldl Machine.control m)
  | .act a next, script, m =>
    if admitted m a then replay admitted answers next script (m.act a) else none
  | .poll _ _, [], m => some m
  | .poll _ next, (controls, event) :: script, m =>
    replay admitted answers (next event) script (controls.foldl Machine.control m)
  | .ask q next, script, m => replay admitted answers (next (answers q)) script m

theorem Reaches.controls {admitted : Machine → Act → Prop} {α : Type} {p : Prog α} {m' : Machine}
    {controls : List Control} {m : Machine}
    (h : Reaches admitted p (controls.foldl Machine.control m) m') : Reaches admitted p m m' := by
  induction controls generalizing m with
  | nil => exact h
  | cons c controls ih => exact .control c (ih h)

/-- What a script makes of a program is a run of it. -/
theorem reaches_of_replay {admitted : Machine → Act → Prop} [∀ m a, Decidable (admitted m a)]
    {answers : (q : Query) → q.Answer} {α : Type} {p : Prog α} {script : Script} {m m' : Machine}
    (h : replay admitted answers p script m = some m') : Reaches admitted p m m' := by
  induction p generalizing script m with
  | done a =>
    cases script with
    | nil =>
      obtain rfl : m = m' := Option.some.inj h
      exact .here _ _
    | cons x script =>
      obtain rfl : x.1.foldl Machine.control m = m' := Option.some.inj h
      exact Reaches.controls (.here _ _)
  | act a next ih =>
    rw [replay] at h
    by_cases hok : admitted m a
    · rw [if_pos hok] at h
      exact .act hok (ih h)
    · rw [if_neg hok] at h
      cases h
  | poll t next ih =>
    cases script with
    | nil =>
      obtain rfl : m = m' := Option.some.inj h
      exact .here _ _
    | cons x script => exact Reaches.controls (.poll x.2 (ih _ h))
  | ask q next ih => exact .ask _ (ih _ h)

/-! ## A stick and a keyboard -/

namespace Attached

/-- The completion of what was asked of the device in slot 1. -/
def completion (kind : UInt32) : Option Event := some ⟨kind, CC_SUCCESS, 0, 1⟩

def serves (n dci : Nat) : List Control := List.replicate n (.serve ⟨1, dci⟩)

/-- A command that is carried out. -/
def commanded : List Control × Option Event := ([.carry], completion TRB_COMMAND_COMPLETION)

/-- A transfer of `n` blocks that is executed. -/
def transferred (n dci : Nat) : List Control × Option Event :=
  (serves n dci, completion TRB_TRANSFER_EVENT)

/-- A stick of 512-byte blocks, its bulk endpoints IN 1 and OUT 2. -/
def stick : (q : Query) → q.Answer
  | .hid => none
  | .storage => some ⟨1, 0x81, 0x02⟩
  | .status => true
  | .capacity => (1000, 512)

/-- The stick is enumerated, and a block of it read. -/
def stickScript : Script :=
  [commanded, commanded, transferred 3 1, transferred 3 1, transferred 2 1, commanded] ++
    -- its unit is brought up: INQUIRY, TEST UNIT READY, READ CAPACITY
    [transferred 1 4, transferred 1 3, transferred 1 3, transferred 1 4, transferred 1 3,
      transferred 1 4, transferred 1 3, transferred 1 3] ++
    [transferred 1 4, transferred 1 3, transferred 1 3]

def stickRun : Option Machine :=
  replay Machine.ClearAct stick ((session [.enumerate ⟨false, false, true⟩, .read]).run Xhci.new)
    stickScript .boot

theorem isSome_stickRun : stickRun.isSome := by decide

theorem rings_deliver_stick : (stickRun.get isSome_stickRun).Delivered :=
  rings_deliver (reaches_of_replay (Option.some_get isSome_stickRun).symm)

/-- A keyboard, its interrupt endpoint IN 1. -/
def keyboard : (q : Query) → q.Answer
  | .hid => some ⟨1, 0, 0x81, 8, .keyboard⟩
  | .storage => none
  | .status => true
  | .capacity => (0, 512)

/-- The keyboard is enumerated and asked for a report, and its interrupt endpoint served. -/
def keyboardScript : Script :=
  [commanded, commanded, transferred 3 1, transferred 3 1, transferred 2 1, transferred 2 1, commanded,
    ([], none), (serves 1 3, none)]

def keyboardRun : Option Machine :=
  replay (fun _ _ => True) keyboard
    ((session [.enumerate ⟨true, false, false⟩, .report 0 8]).run Xhci.new) keyboardScript .boot

theorem isSome_keyboardRun : keyboardRun.isSome := by decide

/-- The keyboard's interrupt endpoint executes the SETUP block that was put for its control endpoint:
both have one ring, and the interrupt endpoint is given the ring's start. -/
theorem keyboard_not_delivered : ¬ ∀ (calls : List Call) (m : Machine),
    Reaches (fun _ _ => True) ((session calls).run Xhci.new) .boot m → m.Delivered := by
  intro h
  have hreaches := reaches_of_replay (Option.some_get isSome_keyboardRun).symm
  have hdelivered := h _ _ hreaches
  have hshared : ∃ x ∈ (keyboardRun.get isSome_keyboardRun).ports,
      ¬ x.2.executed <+: (keyboardRun.get isSome_keyboardRun).enqueued x.1 x.2 := by decide
  obtain ⟨x, hx, hnot⟩ := hshared
  exact hnot (hdelivered x hx).1

end Attached

end NanoChrono.Usb
