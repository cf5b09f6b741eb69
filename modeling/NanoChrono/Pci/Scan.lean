import NanoChrono.Graph.Visit
import NanoChrono.Memory.Bitmap

/-! # Finding devices in PCI configuration space

The walk of the buses that bridges declare, over whatever the configuration registers answer: a malformed bridge can name a
bus that leads back to itself. The walk is the library's walk of a graph (`scanBus_eq`), whose nodes are buses and whose
items are the functions present; so it ends, and reports what there is once (`scan_complete`). -/

namespace NanoChrono.Pci

open NanoChrono.Graph

/-! ## Configuration space -/

/-- What the data port answers, by the address selected. -/
abbrev Config := UInt32 → UInt32

/-- The address of a configuration register. -/
def select (bus slot function offset : UInt8) : UInt32 :=
  ((1 : UInt32) <<< 31) ||| (bus.toUInt32 <<< 16) ||| ((slot.toUInt32 &&& 0x1F) <<< 11) |||
    ((function.toUInt32 &&& 0x7) <<< 8) ||| (offset.toUInt32 &&& 0xFC)

def read32 (config : Config) (bus slot function offset : UInt8) : UInt32 := config (select bus slot function offset)

/-- Header type 1: a bridge, which declares the bus behind it. -/
def HEADER_TYPE_BRIDGE : UInt8 := 1

/-- One device on the bus. -/
structure Device where
  bus : UInt8
  slot : UInt8
  function : UInt8
  vendor : UInt16
  device : UInt16
  klass : UInt8
  subclass : UInt8
  progIf : UInt8
  /-- The header type, with the multifunction bit masked off. -/
  headerType : UInt8
  /-- BAR0, with its flag bits cleared. Zero if it is an I/O BAR or unset. -/
  bar0 : UInt64
  deriving DecidableEq

/-- Where a device is. -/
def Device.place (d : Device) : UInt8 × UInt8 × UInt8 := (d.bus, d.slot, d.function)

/-- The device at a function, if one is present. -/
def probe (config : Config) (bus slot function : UInt8) : Option Device :=
  let id := read32 config bus slot function 0x00
  if id = 0xFFFFFFFF then none
  else
    let classes := read32 config bus slot function 0x08
    let headerType := ((read32 config bus slot function 0x0C >>> 16) &&& 0x7F).toUInt8
    let barLo := read32 config bus slot function 0x10
    let bar0 : UInt64 :=
      if barLo &&& 1 = 0 then
        let base := (barLo &&& 0xFFFFFFF0).toUInt64
        if (barLo >>> 1) &&& 0x3 = 0x2 then
          base ||| ((read32 config bus slot function 0x14).toUInt64 <<< 32)
        else base
      else 0
    some {
      bus, slot, function
      vendor := (id &&& 0xFFFF).toUInt16
      device := (id >>> 16).toUInt16
      klass := (classes >>> 24).toUInt8
      subclass := (classes >>> 16).toUInt8
      progIf := (classes >>> 8).toUInt8
      headerType, bar0 }

/-- The bus that a bridge names on its far side. -/
def secondary (config : Config) (bus slot function : UInt8) : UInt8 :=
  (read32 config bus slot function 0x18 >>> 8).toUInt8

/-! ## The walk -/

/-- The buses that have been walked, a bit each. -/
abbrev Visited := Memory.Bitmap 32 8

/-- A walk so far, with the buses it walked and the devices it reported, in order. -/
abbrev Walk (σ : Type) := Visit Visited UInt8 Device σ

variable {σ : Type}

/-- How many functions of a slot are looked at, by the header type of its first. -/
def functions (config : Config) (bus slot : UInt8) : List UInt8 :=
  let multifunction := (read32 config bus slot 0 0x0C >>> 16) &&& 0x80 ≠ 0
  (List.range (if multifunction then 8 else 1)).map UInt8.ofNat

/-- One function of a slot; `descend` walks the bus behind a bridge. -/
def scanFunction (config : Config) (found : Device → σ → Bool × σ)
    (descend : UInt8 → Walk σ → Result Visited UInt8 Device σ) (bus slot function : UInt8) (w : Walk σ) :
    Result Visited UInt8 Device σ :=
  match probe config bus slot function with
  | none => some (true, w)
  | some dev =>
    match w.report found dev with
    | (false, w) => some (false, w)
    | (true, w) =>
      if dev.headerType = HEADER_TYPE_BRIDGE then
        let far := secondary config bus slot function
        if far ≠ 0 ∧ far ≠ bus then descend far w else some (true, w)
      else some (true, w)

/-- One slot of a bus. Function 0 must exist for any device to be present. -/
def scanSlot (config : Config) (found : Device → σ → Bool × σ)
    (descend : UInt8 → Walk σ → Result Visited UInt8 Device σ) (bus slot : UInt8) (w : Walk σ) :
    Result Visited UInt8 Device σ :=
  if read32 config bus slot 0 0x00 = 0xFFFFFFFF then some (true, w)
  else each (scanFunction config found descend bus slot) (functions config bus slot) w

/-- A bus and what its bridges declare, no deeper than `depth`. -/
@[grind =]
def scanBus (config : Config) (found : Device → σ → Bool × σ) : Nat → UInt8 → Walk σ → Result Visited UInt8 Device σ
  | 0, _, _ => none
  | depth + 1, bus, w =>
    if w.marks.test bus.toNat then some (true, w)
    else
      each (scanSlot config found (scanBus config found depth) bus) ((List.range 32).map UInt8.ofNat)
        { w with marks := w.marks.put bus.toNat true, entered := w.entered ++ [bus] }

/-- Walks the buses, calling `found` for each device until it answers `false`. A bus is only walked once, so that no descent
is deeper than there are buses. -/
def scan (config : Config) (found : Device → σ → Bool × σ) (state : σ) : Result Visited UInt8 Device σ :=
  scanBus config found 257 0 ⟨Vector.replicate 8 0, [], [], state⟩

/-! ## The walk of a graph -/

/-- The functions present on a bus. -/
def present (config : Config) (bus : UInt8) : List Device :=
  ((List.range 32).map UInt8.ofNat).flatMap fun slot =>
    if read32 config bus slot 0 0x00 = 0xFFFFFFFF then []
    else (functions config bus slot).filterMap (probe config bus slot)

/-- The bus that a device leads to. -/
def behind (config : Config) (d : Device) : Option UInt8 :=
  let far := secondary config d.bus d.slot d.function
  if d.headerType = HEADER_TYPE_BRIDGE ∧ far ≠ 0 ∧ far ≠ d.bus then some far else none

def topology (config : Config) : Items UInt8 Device := ⟨present config, behind config⟩

/-- The bits of the buses walked. -/
def buses : Marks Visited UInt8 where
  test visited bus := visited.test bus.toNat
  mark visited bus := visited.put bus.toNat true
  law visited a b := by
    rw [Memory.Bitmap.test_put visited true (by exact a.toNat_lt) b.toNat, ← UInt8.toNat_inj]
    split
    next h => simp [h]
    next h => simp [h]

/-- A device is at the place that was probed. -/
theorem probe_place {config : Config} {bus slot function : UInt8} {d : Device}
    (h : probe config bus slot function = some d) : d.place = (bus, slot, function) := by
  rw [probe] at h
  dsimp only at h
  split at h
  · cases h
  · obtain rfl := Option.some.inj h
    rfl

/-- What one function does, by the graph. -/
theorem scanFunction_eq (config : Config) (found : Device → σ → Bool × σ)
    (descend : UInt8 → Walk σ → Result Visited UInt8 Device σ) (bus slot : UInt8) :
    scanFunction config found descend bus slot = fun function w =>
      (probe config bus slot function).elim (some (true, w)) fun d => follow (topology config) found descend d w := by
  funext function w
  rw [scanFunction]
  cases hprobe : probe config bus slot function with
  | none => rfl
  | some d =>
    have hplace := probe_place hprobe
    obtain ⟨hbus, hslot, hfunction⟩ : d.bus = bus ∧ d.slot = slot ∧ d.function = function := by
      simpa [Device.place] using hplace
    dsimp only
    rw [Option.elim_some, follow]
    generalize w.report found d = r
    obtain ⟨go, w⟩ := r
    cases go with
    | false => rfl
    | true =>
      dsimp only [topology, behind]
      rw [hbus, hslot, hfunction]
      -- The two tests on the far bus are one with the header's.
      by_cases hbridge : d.headerType = HEADER_TYPE_BRIDGE
      · rw [if_pos hbridge]
        by_cases hfar : secondary config bus slot function ≠ 0 ∧ secondary config bus slot function ≠ bus
        · rw [if_pos hfar, if_pos ⟨hbridge, hfar⟩]
        · rw [if_neg hfar, if_neg fun h => hfar h.2]
      · rw [if_neg hbridge, if_neg fun h => hbridge h.1]

/-- The walk of the buses is the walk of their graph. -/
theorem scanBus_eq (config : Config) (found : Device → σ → Bool × σ) (depth : Nat) :
    scanBus config found depth = visit (topology config) buses found depth := by
  induction depth with
  | zero => rfl
  | succ depth ih =>
    funext bus w
    rw [scanBus, visit, ih]
    refine if_congr Iff.rfl rfl ?_
    rw [show (topology config).items bus = present config bus from rfl, present, each_flatMap]
    refine congrArg (fun f => each f _ _) ?_
    funext slot w
    rw [scanSlot]
    split
    · rfl
    · rw [each_filterMap, scanFunction_eq]

/-! ## What is there to be found -/

/-- A function is present where function 0 of its slot is, and lets the others be, and an id is read at it. -/
structure Present (config : Config) (bus slot function : UInt8) : Prop where
  slot_lt : slot < 32
  function_lt : function < 8
  first : read32 config bus slot 0 0x00 ≠ 0xFFFFFFFF
  multifunction : function ≠ 0 → (read32 config bus slot 0 0x0C >>> 16) &&& 0x80 ≠ 0
  id : read32 config bus slot function 0x00 ≠ 0xFFFFFFFF

/-- The buses that bridges lead to from bus 0. -/
inductive Reachable (config : Config) : UInt8 → Prop where
  | root : Reachable config 0
  | behind {bus slot function : UInt8} {d : Device} (reachable : Reachable config bus)
    (present : Present config bus slot function) (probed : probe config bus slot function = some d)
    (bridge : d.headerType = HEADER_TYPE_BRIDGE) : Reachable config (secondary config bus slot function)

theorem mem_bytes {n : Nat} (hn : n ≤ 256) (b : UInt8) : b ∈ (List.range n).map UInt8.ofNat ↔ b.toNat < n := by
  rw [List.mem_map]
  constructor
  · rintro ⟨i, hi, rfl⟩
    rw [List.mem_range] at hi
    rwa [UInt8.toNat_ofNat_of_lt' (Nat.lt_of_lt_of_le hi hn)]
  · exact fun h => ⟨b.toNat, List.mem_range.2 h, UInt8.ofNat_toNat⟩

theorem nodup_bytes {n : Nat} (hn : n ≤ 256) : ((List.range n).map UInt8.ofNat).Nodup := by
  refine List.nodup_range.map_on fun i hi j hj h => ?_
  rw [List.mem_range] at hi hj
  have hnat := congrArg UInt8.toNat h
  rwa [UInt8.toNat_ofNat_of_lt' (Nat.lt_of_lt_of_le hi hn), UInt8.toNat_ofNat_of_lt' (Nat.lt_of_lt_of_le hj hn)] at hnat

theorem mem_functions {config : Config} {bus slot function : UInt8} : function ∈ functions config bus slot ↔
    function < 8 ∧ (function ≠ 0 → (read32 config bus slot 0 0x0C >>> 16) &&& 0x80 ≠ 0) := by
  rw [functions, UInt8.lt_iff_toNat_lt]
  split
  next hmulti =>
    rw [mem_bytes (by omega)]
    exact ⟨fun h => ⟨h, fun _ => hmulti⟩, And.left⟩
  next hsingle =>
    rw [mem_bytes (by omega)]
    constructor
    · intro h
      have hzero : function = 0 := UInt8.toNat_inj.1 (by simpa using h)
      exact ⟨by rw [hzero]; decide, fun hne => absurd hzero hne⟩
    · rintro ⟨-, h⟩
      by_contra hge
      exact hsingle (h fun hzero => hge (by rw [hzero]; decide))

theorem functions_nodup (config : Config) (bus slot : UInt8) : (functions config bus slot).Nodup := by
  rw [functions]
  split <;> exact nodup_bytes (by omega)

/-- The items of a bus are what is probed where a function is present. -/
theorem mem_present {config : Config} {bus : UInt8} {d : Device} : d ∈ present config bus ↔
    ∃ slot function, Present config bus slot function ∧ probe config bus slot function = some d := by
  rw [present, List.mem_flatMap]
  constructor
  · rintro ⟨slot, hslot, hd⟩
    rw [mem_bytes (by omega)] at hslot
    split at hd
    · exact absurd hd List.not_mem_nil
    next hfirst =>
      obtain ⟨function, hmem, hprobe⟩ := List.mem_filterMap.1 hd
      obtain ⟨hlt, hmulti⟩ := mem_functions.1 hmem
      refine ⟨slot, function, ⟨hslot, hlt, hfirst, hmulti, fun hid => ?_⟩, hprobe⟩
      rw [probe] at hprobe
      dsimp only at hprobe
      rw [if_pos hid] at hprobe
      cases hprobe
  · rintro ⟨slot, function, hpresent, hprobe⟩
    refine ⟨slot, (mem_bytes (by omega) slot).2 hpresent.slot_lt, ?_⟩
    rw [if_neg hpresent.first]
    exact List.mem_filterMap.2 ⟨function, mem_functions.2 ⟨hpresent.function_lt, hpresent.multifunction⟩, hprobe⟩

/-- A function that is present is probed. -/
theorem Present.probed {config : Config} {bus slot function : UInt8} (h : Present config bus slot function) :
    ∃ d, probe config bus slot function = some d := by
  rw [probe]
  dsimp only
  rw [if_neg h.id]
  exact ⟨_, rfl⟩

theorem present_nodup (config : Config) (bus : UInt8) : (present config bus).Nodup := by
  rw [present, List.nodup_flatMap]
  constructor
  · intro slot _
    split
    · exact List.nodup_nil
    · refine (functions_nodup config bus slot).filterMap fun f f' d h h' => ?_
      exact (Prod.mk.inj (Prod.mk.inj ((probe_place h).symm.trans (probe_place h'))).2).2
  · refine (nodup_bytes (by omega)).imp fun hne => ?_
    intro d h h'
    dsimp only at h h'
    split at h
    · cases h
    split at h'
    · cases h'
    obtain ⟨f, -, hd⟩ := List.mem_filterMap.1 h
    obtain ⟨f', -, hd'⟩ := List.mem_filterMap.1 h'
    exact hne (Prod.mk.inj (Prod.mk.inj ((probe_place hd).symm.trans (probe_place hd'))).2).1

/-- No device is an item of two buses. -/
theorem topology_nodup (config : Config) {order : List UInt8} (h : order.Nodup) :
    (order.flatMap (present config)).Nodup := by
  rw [List.nodup_flatMap]
  refine ⟨fun bus _ => present_nodup config bus, h.imp fun hne => ?_⟩
  intro d hd hd'
  obtain ⟨slot, function, -, hprobe⟩ := mem_present.1 hd
  obtain ⟨slot', function', -, hprobe'⟩ := mem_present.1 hd'
  exact hne (Prod.mk.inj ((probe_place hprobe).symm.trans (probe_place hprobe'))).1

/-- The walk reaches what bridges lead to. -/
theorem Reachable.reaches {config : Config} {bus : UInt8} (h : Reachable config bus) :
    Reaches (topology config) 0 bus := by
  induction h with
  | root => exact .root
  | @behind bus slot function d _ hpresent hprobe hbridge ih =>
    have hplace := probe_place hprobe
    obtain ⟨hbus, hslot, hfunction⟩ : d.bus = bus ∧ d.slot = slot ∧ d.function = function := by
      simpa [Device.place] using hplace
    -- A bridge to bus 0 or to its own bus leads nowhere new.
    by_cases hzero : secondary config bus slot function = 0
    · rw [hzero]
      exact .root
    by_cases hself : secondary config bus slot function = bus
    · rw [hself]
      exact ih
    refine .step ih (mem_present.2 ⟨slot, function, hpresent, hprobe⟩) ?_
    change Pci.behind config d = _
    rw [Pci.behind, hbus, hslot, hfunction, if_pos ⟨hbridge, hzero, hself⟩]

/-- For every content of configuration space and every callback the walk ends, walks no bus twice and reports functions that
are present, none of them twice. Where the callback did not end it, as one that never does will not, every function present
on a reachable bus has been reported. -/
theorem scan_complete (config : Config) (found : Device → σ → Bool × σ) (state : σ) :
    ∃ done w, scan config found state = some (done, w) ∧ w.entered.Nodup ∧ (w.reported.map Device.place).Nodup ∧
      (∀ d ∈ w.reported, Present config d.bus d.slot d.function ∧ probe config d.bus d.slot d.function = some d) ∧
      ((∀ d s, (found d s).1 = true) → done = true) ∧
      (done = true → ∀ bus, Reachable config bus → bus ∈ w.entered ∧ ∀ slot function, Present config bus slot function →
        ∃ d ∈ w.reported, d.place = (bus, slot, function)) := by
  have hall : ∀ bus : UInt8, bus ∈ (List.range 256).map UInt8.ofNat := fun bus =>
    (mem_bytes (by omega) bus).2 bus.toNat_lt
  have hclear : ∀ bus, buses.test (Vector.replicate 8 0) bus = false := fun bus =>
    Memory.Bitmap.test_clear (by omega) bus.toNat
  obtain ⟨⟨done, w⟩, hscan⟩ := @visit_ends _ _ _ _ (topology config) buses found _ hall 257 0
    ⟨Vector.replicate 8 0, [], [], state⟩ (Nat.lt_succ_of_le ((List.countP_le_length).trans (by simp)))
  obtain ⟨-, order, new, hwalk⟩ := visit_walked hscan
  have hentered : w.entered = order := hwalk.entered
  have hreported : w.reported = new := hwalk.reported
  have honce : new.Subperm (order.flatMap (present config)) := hwalk.once
  have hnodup : new.Nodup := by
    obtain ⟨l, hperm, hsub⟩ := honce
    exact hperm.nodup_iff.1 (hsub.nodup (topology_nodup config hwalk.nodup))
  have hthere : ∀ d ∈ new, Present config d.bus d.slot d.function ∧
      probe config d.bus d.slot d.function = some d := by
    intro d hd
    obtain ⟨bus, -, hmem⟩ := List.mem_flatMap.1 (honce.subset hd)
    obtain ⟨slot, function, hpresent, hprobe⟩ := mem_present.1 hmem
    obtain ⟨rfl, rfl, rfl⟩ : d.bus = bus ∧ d.slot = slot ∧ d.function = function := by
      simpa [Device.place] using probe_place hprobe
    exact ⟨hpresent, hprobe⟩
  refine ⟨done, w, by rw [scan, scanBus_eq, hscan], by rw [hentered]; exact hwalk.nodup, ?_, by rwa [hreported], ?_, ?_⟩
  · rw [hreported]
    refine hnodup.map_on fun d hd d' hd' h => ?_
    obtain ⟨hbus, hslot, hfunction⟩ : d.bus = d'.bus ∧ d.slot = d'.slot ∧ d.function = d'.function := by
      simpa [Device.place] using h
    have hprobe := (hthere d hd).2
    rw [hbus, hslot, hfunction, (hthere d' hd').2] at hprobe
    exact (Option.some.inj hprobe).symm
  · exact fun hfound => visit_done hfound hscan
  · rintro rfl bus hbus
    obtain ⟨hmem, hitems⟩ := visit_reaches hclear hscan hbus.reaches
    refine ⟨hmem, fun slot function hpresent => ?_⟩
    obtain ⟨d, hprobe⟩ := hpresent.probed
    exact ⟨d, hitems d (mem_present.2 ⟨slot, function, hpresent, hprobe⟩), probe_place hprobe⟩

end NanoChrono.Pci
