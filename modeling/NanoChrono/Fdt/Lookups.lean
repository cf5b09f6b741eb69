import NanoChrono.Fdt.Walk

/-! # Lookups in a device tree

What the kernel asks a device tree are visitors of one walk, each with a depth of its own. They
subtract from it, and index arrays of `MAX_DEPTH + 1` by it, unchecked; where that fails the visitor
has no result (`none`). No block makes it fail (`lookups_end`). -/

namespace NanoChrono.DeviceTree

open Buffer

/-! ## A property below a named node of the root -/

/-- Where a visitor is that looks inside the nodes of a name. -/
structure Seek where
  depth : Nat
  inside : Bool
  found : Option Bytes

/-- `depth.saturating_sub(1)`. -/
def saturating (depth : Nat) : Option Nat := some (depth - 1)

/-- `depth -= 1`. -/
def checked (depth : Nat) : Option Nat := if depth = 0 then none else some (depth - 1)

/-- Looks for property `name` at depth `level` of the nodes `node` under the root. -/
def seek (node : Bytes) (level : Nat) (up : Nat → Option Nat) (name : Bytes) (s : Seek) :
    Token → Option (Seek × Bool)
  | .beginNode n =>
    some ({ s with depth := s.depth + 1, inside := if s.depth + 1 = 2 then n == node else s.inside }, true)
  | .endNode => do
    let depth ← up s.depth
    some ({ s with depth, inside := if s.depth = 2 then false else s.inside }, true)
  | .prop prop value =>
    if s.inside ∧ s.depth = level ∧ prop = name then some ({ s with found := some value }, false)
    else some (s, true)

/-- What a lookup gives after a walk, which must have gone through. -/
def answer {σ α : Type} (found : σ → Option α) : Option (σ × Bool) → Option (Option α) :=
  Option.map fun r => if r.2 then found r.1 else none

def CHOSEN : Bytes := [0x63, 0x68, 0x6F, 0x73, 0x65, 0x6E]

def CPUS : Bytes := [0x63, 0x70, 0x75, 0x73]

namespace Fdt

variable (tree : Fdt)

/-- A property of `/chosen`. -/
def chosenProperty (name : Bytes) : Option (Option Bytes) :=
  answer Seek.found (tree.walk (seek CHOSEN 2 saturating name) 0 0 ⟨0, false, none⟩)

/-- A property of a CPU node. -/
def cpuProperty (name : Bytes) : Option (Option Bytes) :=
  answer Seek.found (tree.walk (seek CPUS 3 checked name) 0 0 ⟨0, false, none⟩)

end Fdt

/-! ## A property of a compatible node -/

/-- Which nodes of the present branch match, and the property of each. -/
structure Candidates where
  depth : Nat
  nodes : List Bool
  value : List (Option Bytes)
  found : Option Bytes

/-- Whether a `compatible` list has an entry. -/
def lists (compatible value : Bytes) : Bool := (value.splitOnP (· == 0)).any (· == compatible)

/-- `matches[depth] && value[depth].is_some()`, and what is found then. -/
def decided (s : Candidates) : Option (Option Bytes) := do
  let matched ← s.nodes[s.depth]?
  let value ← s.value[s.depth]?
  some (if matched then value else none)

/-- `array[i] = x`. -/
def store {α : Type} (array : List α) (i : Nat) (x : α) : Option (List α) :=
  if i < array.length then some (array.set i x) else none

def compatibleVisit (compatible name : Bytes) (s : Candidates) : Token → Option (Candidates × Bool)
  | .beginNode _ => do
    match ← decided s with
    | some value => some ({ s with found := some value }, false)
    | none =>
      if MAX_DEPTH < s.depth + 1 then some ({ s with depth := s.depth + 1 }, false)
      else
        let nodes ← store s.nodes (s.depth + 1) false
        let value ← store s.value (s.depth + 1) none
        some ({ s with depth := s.depth + 1, nodes, value }, true)
  | .endNode => do
    match ← decided s with
    | some value => some ({ s with found := some value }, false)
    | none => some ({ s with depth := s.depth - 1 }, true)
  | .prop prop v =>
    -- `compatible`
    if prop = [0x63, 0x6F, 0x6D, 0x70, 0x61, 0x74, 0x69, 0x62, 0x6C, 0x65] then do
      let nodes ← store s.nodes s.depth (lists compatible v)
      some ({ s with nodes }, true)
    else if prop = name then do
      let value ← store s.value s.depth (some v)
      some ({ s with value }, true)
    else some (s, true)

/-- Property `name` of the first node whose `compatible` list contains `compatible`. -/
def Fdt.compatibleProperty (tree : Fdt) (compatible name : Bytes) : Option (Option Bytes) :=
  answer Candidates.found (tree.walk (compatibleVisit compatible name) 0 0
    ⟨0, List.replicate (MAX_DEPTH + 1) false, List.replicate (MAX_DEPTH + 1) none, none⟩)

/-! ## No block stops a lookup -/

section Kept

variable {tree : Fdt} {node compatible name : Bytes} {level : Nat} {up : Nat → Option Nat}

/-- What a lookup found is part of the block. -/
def Inside (tree : Fdt) (found : Option Bytes) : Prop := ∀ value ∈ found, value <:+: tree.structs

theorem seek_keeps (hup : ∀ depth, up (depth + 1) = some depth) :
    tree.Keeps (seek node level up name) (fun depth s => s.depth = depth ∧ Inside tree s.found)
      fun s => Inside tree s.found where
  found _ _ h := h.2
  visit := by
    rintro depth s t depth' ⟨hdepth, hfound⟩ hmoves - - hvalue
    cases hmoves with
    | down _ n => exact ⟨_, _, rfl, hfound, fun _ => ⟨by rw [hdepth], hfound⟩⟩
    | up =>
      rw [seek, hdepth, hup]
      exact ⟨_, _, rfl, hfound, fun _ => ⟨rfl, hfound⟩⟩
    | stay _ prop value =>
      rw [seek]
      split
      · refine ⟨_, _, rfl, ?_, by simp⟩
        rintro _ ⟨⟩
        exact hvalue prop value rfl
      · exact ⟨_, _, rfl, hfound, fun _ => ⟨hdepth, hfound⟩⟩

/-- The arrays have their lengths, and what they hold lies in the block. -/
structure Sound (tree : Fdt) (depth : Nat) (s : Candidates) : Prop where
  depth : s.depth = depth
  nodes : s.nodes.length = MAX_DEPTH + 1
  value : s.value.length = MAX_DEPTH + 1
  inside : ∀ value ∈ s.value, Inside tree value
  found : Inside tree s.found

theorem store_some {α : Type} {array : List α} {i : Nat} (x : α) (hi : i < array.length) :
    store array i x = some (array.set i x) := if_pos hi

/-- What is decided at a depth the arrays have is part of the block. -/
theorem Sound.decided {depth : Nat} {s : Candidates} (h : Sound tree depth s) (hdepth : depth ≤ MAX_DEPTH) :
    ∃ value, decided s = some value ∧ Inside tree value := by
  have hn : s.depth < s.nodes.length := by rw [h.depth, h.nodes]; omega
  have hv : s.depth < s.value.length := by rw [h.depth, h.value]; omega
  refine ⟨if s.nodes[s.depth] then s.value[s.depth] else none, ?_, ?_⟩
  · simp [DeviceTree.decided, hn, hv]
  · split
    · exact h.inside _ (List.getElem_mem hv)
    · exact fun _ hnone => by cases hnone

/-- A value that goes into the array. -/
theorem Sound.set {depth : Nat} {s : Candidates} (h : Sound tree depth s) {i : Nat} {x : Option Bytes}
    (hx : Inside tree x) : ∀ value ∈ s.value.set i x, Inside tree value := fun value hvalue =>
  (List.mem_or_eq_of_mem_set hvalue).elim (h.inside value) fun heq => heq ▸ hx

theorem compatible_keeps : tree.Keeps (compatibleVisit compatible name) (Sound tree) fun s => Inside tree s.found where
  found _ _ h := h.found
  visit := by
    rintro depth s t depth' h hmoves hdepth hdepth' hvalue
    have hn : depth < s.nodes.length := by rw [h.nodes]; omega
    have hv : depth < s.value.length := by rw [h.value]; omega
    obtain ⟨value, hdecided, hinside⟩ := h.decided hdepth
    cases hmoves with
    | down _ n =>
      cases value with
      | some value =>
        rw [compatibleVisit, hdecided]
        exact ⟨_, _, rfl, hinside, by simp⟩
      | none =>
        have hvisit : compatibleVisit compatible name s (.beginNode n) =
            some (⟨depth + 1, s.nodes.set (depth + 1) false, s.value.set (depth + 1) none, s.found⟩, true) := by
          have hn' : depth + 1 < s.nodes.length := by rw [h.nodes]; omega
          have hv' : depth + 1 < s.value.length := by rw [h.value]; omega
          simp [compatibleVisit, hdecided, h.depth, store_some _ hn', store_some _ hv', Nat.not_lt.mpr hdepth']
        refine ⟨_, _, hvisit, h.found, fun _ => ⟨rfl, ?_, ?_, h.set fun _ hnone => (by cases hnone), h.found⟩⟩
        · rw [List.length_set, h.nodes]
        · rw [List.length_set, h.value]
    | up d =>
      cases value with
      | some value =>
        rw [compatibleVisit, hdecided]
        exact ⟨_, _, rfl, hinside, by simp⟩
      | none =>
        rw [compatibleVisit, hdecided]
        refine ⟨_, _, rfl, h.found, fun _ => ⟨?_, h.nodes, h.value, h.inside, h.found⟩⟩
        dsimp only
        rw [h.depth, Nat.add_sub_cancel]
    | stay _ prop v =>
      rw [compatibleVisit, h.depth]
      split_ifs
      · rw [store_some _ hn]
        exact ⟨_, _, rfl, h.found, fun _ => ⟨rfl, by rw [List.length_set, h.nodes], h.value, h.inside, h.found⟩⟩
      · rw [store_some _ hv]
        refine ⟨_, _, rfl, h.found, fun _ => ⟨rfl, h.nodes, by rw [List.length_set, h.value], h.set ?_, h.found⟩⟩
        rintro _ ⟨⟩
        exact hvalue prop v rfl
      · exact ⟨_, _, rfl, h.found, fun _ => h⟩

/-- A walk that goes through gives an answer. -/
theorem answer_of_walk {σ : Type} {found : σ → Option Bytes} {r : Option (σ × Bool)}
    (h : ∃ s ok, r = some (s, ok) ∧ Inside tree (found s)) : ∃ v, answer found r = some v ∧ Inside tree v := by
  obtain ⟨s, ok, rfl, hs⟩ := h
  refine ⟨_, rfl, ?_⟩
  dsimp only
  split
  · exact hs
  · exact fun _ hnone => by cases hnone

/-- Whatever the two blocks hold, every lookup comes to an end with its result: no depth is taken below zero,
no array is indexed past its end, and what is found is part of the structure block. -/
theorem lookups_end (tree : Fdt) (compatible name : Bytes) :
    (∃ v, tree.chosenProperty name = some v ∧ Inside tree v) ∧
      (∃ v, tree.cpuProperty name = some v ∧ Inside tree v) ∧
      ∃ v, tree.compatibleProperty compatible name = some v ∧ Inside tree v := by
  have hnone : Inside tree none := fun _ h => by cases h
  refine ⟨answer_of_walk (tree.walk_rule (seek_keeps fun _ => rfl) ⟨rfl, hnone⟩ (Nat.zero_le _)),
    answer_of_walk (tree.walk_rule (seek_keeps fun _ => rfl) ⟨rfl, hnone⟩ (Nat.zero_le _)),
    answer_of_walk (tree.walk_rule compatible_keeps ⟨rfl, List.length_replicate, List.length_replicate, ?_, hnone⟩
      (Nat.zero_le _))⟩
  intro value hvalue
  rw [List.eq_of_mem_replicate hvalue]
  exact hnone

end Kept

end NanoChrono.DeviceTree
