import NanoChrono.Paging.Entry

/-! # The kernel's edits of its page tables

The kernel runs on an identity map whose first gigabyte is a page directory of 2 MiB pages, some of
them already split into 4 KiB pages at boot. Two things edit it afterwards: a guard page is taken
out of it, for the plugin stack (two guards) and for the verification stack (one), and ring 3 is
let into whole 2 MiB pages and shut out again. A 2 MiB page that holds a guard is split first, in
one of the two `GUARD_TABLES`. -/

namespace NanoChrono.Kernel

open Paging

/-- The size of a large page. -/
def LARGE : Nat := 0x200000

/-- The flags a split keeps: present, writable, user, write-through, cache-disable. -/
def PTE_FLAGS : Entry := 0x1F

def PLUGIN_STACK_LEN : Nat := 256 * 1024

def VERIFY_STACK_LEN : Nat := 3 * 512 * 1024

/-- Where the linker put the statics: page-aligned, in the first gigabyte. -/
structure Placement where
  pluginStack : Nat
  verifyStack : Nat
  guardTables : Nat
  pluginStack_aligned : pluginStack % 4096 = 0
  pluginStack_low : pluginStack + 4096 + PLUGIN_STACK_LEN + 4096 ≤ 2 ^ 30
  verifyStack_aligned : verifyStack % 4096 = 0
  verifyStack_low : verifyStack + 4096 + VERIFY_STACK_LEN ≤ 2 ^ 30
  guardTables_aligned : guardTables % 4096 = 0
  guardTables_low : guardTables + 2 * 4096 ≤ 2 ^ 30

namespace Placement

variable (p : Placement)

/-- The low and the high guard of the plugin stack. -/
def guardPages : List Nat := [p.pluginStack, p.pluginStack + 4096 + PLUGIN_STACK_LEN]

/-- `GUARD_TABLES[k]`. -/
def guardTable (k : Nat) : Nat := p.guardTables + k * 4096

end Placement

/-- Whether a guard was armed. -/
inductive Tried where
  | notTried
  | armed
  | failed
deriving DecidableEq, Repr

/-- The tables, what was armed, and — beside the code's own state — what ring 3 was last let into:
for each 2 MiB page, whether it may write there. -/
structure State where
  tables : Tables
  guards : Tried
  verifyGuard : Tried
  granted : Nat → Option Bool

/-! ## Guards -/

variable (p : Placement) (root : Nat)

/-- Writes all 512 entries of a table, in order. -/
def fill (t : Tables) (table : Nat) (f : Nat → Entry) : Tables :=
  (List.range 512).foldl (fun t i => t.write table i (f i)) t

/-- Unmaps one 4 KiB page of the identity map, splitting its 2 MiB page first if that is whole, in
the table `spare`. Whether it worked, the tables, and the next spare table. -/
def unmapPage (t : Tables) (addr spare : Nat) : Bool × Tables × Nat :=
  let e4 := t root (index 39 addr)
  if ¬ e4.Has PRESENT then (false, t, spare) else
  let e3 := t e4.page (index 30 addr)
  if ¬ e3.Has PRESENT ∨ e3.Has HUGE then (false, t, spare) else
  let e2 := t e3.page (index 21 addr)
  if ¬ e2.Has PRESENT then (false, t, spare)
  else if e2.Has HUGE then
    if spare ≥ 2 then (false, t, spare)
    else
      let table := p.guardTable spare
      let frame := e2 &&& ADDR &&& ~~~0x1FFFFF#64
      let t := fill t table fun i => (frame + .ofNat 64 (i * 4096)) ||| (e2 &&& PTE_FLAGS)
      let t := t.write e3.page (index 21 addr) (.ofNat 64 table ||| PRESENT ||| WRITABLE)
      (true, t.write table (index 12 addr) 0, spare + 1)
  else (true, t.write e2.page (index 12 addr) 0, spare)

/-- Unmaps pages one after the other, up to the first that cannot be. -/
@[grind =] def unmapAll (t : Tables) (spare : Nat) : List Nat → Bool × Tables
  | [] => (true, t)
  | addr :: rest =>
    match unmapPage p root t addr spare with
    | (true, t, spare) => unmapAll t spare rest
    | (false, t, _) => (false, t)

/-- Unmaps both guards of the plugin stack, once. -/
def armGuards (s : State) : State :=
  match s.guards with
  | .armed | .failed => s
  | .notTried =>
    let (ok, t) := unmapAll p root s.tables 0 p.guardPages
    { s with tables := t, guards := if ok then .armed else .failed }

/-- Unmaps the guard of the verification stack, once, as the first run on that stack does. -/
def onVerifyStack (s : State) : State :=
  match s.verifyGuard with
  | .armed | .failed => s
  | .notTried =>
    let (ok, t, _) := unmapPage p root s.tables p.verifyStack 0
    { s with tables := t, verifyGuard := if ok then .armed else .failed }

/-! ## Regions of ring 3 -/

/-- Sets or clears the user bit on the 2 MiB page at an address and on the two entries above it,
and sets the page's write bit. -/
def setUser2m (t : Tables) (addr : Nat) (user writable : Bool) : Bool × Tables :=
  let i4 := index 39 addr
  let i3 := index 30 addr
  let i2 := index 21 addr
  if ¬ (t root i4).Has PRESENT then (false, t) else
  let t := t.write root i4 ((t root i4).setBit USER user)
  let pdpt := (t root i4).page
  if ¬ (t pdpt i3).Has PRESENT ∨ (t pdpt i3).Has HUGE then (false, t) else
  let t := t.write pdpt i3 ((t pdpt i3).setBit USER user)
  let pd := (t pdpt i3).page
  if ¬ (t pd i2).Has PRESENT ∨ ¬ (t pd i2).Has HUGE then (false, t) else
  let t := t.write pd i2 ((t pd i2).setBit USER user)
  (true, t.write pd i2 ((t pd i2).setBit WRITABLE writable))

/-- The loop over `n` 2 MiB pages from `a` on. -/
@[grind =] def mapPages (user writable : Bool) : Nat → Nat → Tables → Bool × Tables
  | 0, _, t => (true, t)
  | n + 1, a, t =>
    let (ok, t) := setUser2m root t a user (writable || !user)
    let (rest, t) := mapPages user writable n (a + LARGE) t
    (ok && rest, t)

/-- Grants, or with `user = false` revokes, ring-3 access to every 2 MiB page that overlaps
`[base, base + len)`: the loop runs while the page begins before the end. -/
def mapRange (t : Tables) (base len : Nat) (user writable : Bool) : Bool × Tables :=
  let a := base - base % LARGE
  mapPages root user writable ((base + len - a + (LARGE - 1)) / LARGE) a t

/-! ## Steps -/

/-- What the kernel may do to its tables. -/
inductive Step where
  | armGuards
  | onVerifyStack
  | mapRange (base len : Nat) (user writable : Bool)
deriving DecidableEq, Repr

/-- The 2 MiB page `j` is one that `map_range` goes over. -/
def Overlaps (base len j : Nat) : Prop := base / LARGE ≤ j ∧ j * LARGE < base + len

instance (base len j : Nat) : Decidable (Overlaps base len j) :=
  inferInstanceAs (Decidable (_ ∧ _))

def step (s : State) : Step → State
  | .armGuards => armGuards p root s
  | .onVerifyStack => onVerifyStack p root s
  | .mapRange base len user writable =>
    { s with
      tables := (mapRange root s.tables base len user writable).2
      granted := fun j => if Overlaps base len j then (if user then some writable else none)
        else s.granted j }

/-- The state after a list of steps. -/
def after (s : State) (steps : List Step) : State := steps.foldl (step p root) s

end NanoChrono.Kernel

/-! ## The shape of the first gigabyte

`Shape` is what every edit keeps: the walk to the page directory stays open to the kernel, each
entry of the directory is a whole page at its own address or a table of its own with 4 KiB pages
at theirs, and just the pages taken out are missing. `Shape.walk_low` reads it as the map it
is. -/

namespace NanoChrono.Kernel

open Paging

/-- The page directory of the first gigabyte. -/
def directory (root : Nat) (t : Tables) : Nat := (t (t root 0).page 0).page

/-- The directory's entry `j` refers to the table at `T`. -/
def Refers (root : Nat) (t : Tables) (j T : Nat) : Prop :=
  ¬ (t (directory root t) j).Has HUGE ∧ (t (directory root t) j).page = T

/-- A table some entry of the directory refers to. -/
def InUse (root : Nat) (t : Tables) (T : Nat) : Prop := ∃ j < 512, Refers root t j T

/-- The way to the page directory: open to the kernel, and the only one open to ring 3. -/
structure Spine (p : Placement) (root pdpt pd : Nat) (t : Tables) : Prop where
  present4 : (t root 0).Has PRESENT
  writable4 : (t root 0).Has WRITABLE
  page4 : (t root 0).page = pdpt
  present3 : (t pdpt 0).Has PRESENT
  writable3 : (t pdpt 0).Has WRITABLE
  small3 : ¬ (t pdpt 0).Has HUGE
  page3 : (t pdpt 0).page = pd
  closed4 : ∀ k < 512, k ≠ 0 → ¬ (t root k).Has USER
  closed3 : ∀ k < 512, k ≠ 0 → ¬ (t pdpt k).Has USER
  root_ne_pdpt : root ≠ pdpt
  root_ne_pd : root ≠ pd
  pdpt_ne_pd : pdpt ≠ pd
  spares : ∀ k < 2, p.guardTable k ≠ root ∧ p.guardTable k ≠ pdpt ∧ p.guardTable k ≠ pd

/-- The entry of a 4 KiB page, which is taken out when `gone` says so: else it is mapped to itself,
for the kernel alone. -/
structure Leaf (gone : Nat → Prop) (q : Nat) (e : Entry) : Prop where
  missing : gone q → ¬ e.Has PRESENT
  present : ¬ gone q → e.Has PRESENT
  writable : ¬ gone q → e.Has WRITABLE
  kernel : ¬ e.Has USER
  page : ¬ gone q → e.page = q * 4096

/-- A directory entry that maps a whole 2 MiB page to itself. -/
structure Whole (gone : Nat → Prop) (granted : Option Bool) (j : Nat) (e : Entry) : Prop where
  present : e.Has PRESENT
  huge : e.Has HUGE
  frame : e.frame = j * LARGE
  user : e.Has USER → granted ≠ none
  writable : e.Has WRITABLE ∨ granted = some false
  intact : ∀ i < 512, ¬ gone (j * 512 + i)

/-- A directory entry that refers to a table of 4 KiB pages, all mapped to themselves but those
taken out. -/
structure Split (gone : Nat → Prop) (root pdpt pd : Nat) (t : Tables) (j : Nat) (e : Entry) :
    Prop where
  present : e.Has PRESENT
  writable : e.Has WRITABLE
  small : ¬ e.Has HUGE
  table_ne : e.page ≠ root ∧ e.page ≠ pdpt ∧ e.page ≠ pd
  leaves : ∀ i < 512, Leaf gone (j * 512 + i) (t e.page i)

/-- The first gigabyte is mapped to itself but for the pages taken out. -/
structure Shape (p : Placement) (root pdpt pd : Nat) (gone : Nat → Prop)
    (granted : Nat → Option Bool) (t : Tables) : Prop where
  spine : Spine p root pdpt pd t
  slots : ∀ j < 512, Whole gone (granted j) j (t pd j) ∨ Split gone root pdpt pd t j (t pd j)
  sole : ∀ j < 512, ∀ k < 512, ¬ (t pd j).Has HUGE → ¬ (t pd k).Has HUGE →
    (t pd j).page = (t pd k).page → j = k

variable {p : Placement} {root pdpt pd : Nat} {gone : Nat → Prop} {granted : Nat → Option Bool}
  {t : Tables}

theorem Spine.directory_eq (h : Spine p root pdpt pd t) : directory root t = pd := by
  rw [directory, h.page4, h.page3]

/-! ## Reading the map -/

/-- The indices of an address of the first gigabyte. -/
theorem index_low {a : Nat} (ha : a < 2 ^ 30) :
    index 39 a = 0 ∧ index 30 a = 0 ∧ index 21 a = a / LARGE ∧ index 12 a = a / 4096 % 512 := by
  simp only [index, Nat.shiftRight_eq_div_pow, LARGE]
  norm_num at ha ⊢
  omega

/-- Where both upper indices are zero the address is in the first gigabyte. -/
theorem low_of_index {a : Nat} (ha : a < 2 ^ 48) (h4 : index 39 a = 0) (h3 : index 30 a = 0) :
    a < 2 ^ 30 := by
  simp only [index, Nat.shiftRight_eq_div_pow] at h4 h3
  omega

/-- A page taken out is not mapped. -/
theorem Shape.walk_gone (h : Shape p root pdpt pd gone granted t) {a : Nat}
    (ha : a < 2 ^ 30) (hgone : gone (a / 4096)) : walk t root a = none := by
  obtain ⟨h4, h3, h2, h1⟩ := index_low ha
  have hj : a / LARGE < 512 := by
    simp only [LARGE]
    omega
  have hq : a / LARGE * 512 + a / 4096 % 512 = a / 4096 := by
    simp only [LARGE]
    omega
  have hi : a / 4096 % 512 < 512 := Nat.mod_lt _ (by omega)
  rw [walk]
  simp only [h4, h3, h2, h1, h.spine.page4, h.spine.page3, h.spine.present4, h.spine.present3,
    h.spine.small3, not_true_eq_false, if_false]
  rcases h.slots _ hj with hw | hs
  · exact absurd (hq.symm ▸ hgone) (hw.intact _ hi)
  · simp only [hs.present, hs.small, not_true_eq_false, if_false]
    rw [if_pos ((hs.leaves _ hi).missing (hq.symm ▸ hgone))]

/-- Every other page of the first gigabyte is mapped to itself, writable by the kernel unless it
was granted read-only, and open to ring 3 only where that was granted. -/
theorem Shape.walk_low (h : Shape p root pdpt pd gone granted t) {a : Nat} (ha : a < 2 ^ 30)
    (hgone : ¬ gone (a / 4096)) : ∃ m, walk t root a = some m ∧ m.phys = a ∧
      (m.writable = true ∨ granted (a / LARGE) = some false) ∧
      (m.user = true → granted (a / LARGE) ≠ none) := by
  obtain ⟨h4, h3, h2, h1⟩ := index_low ha
  have hj : a / LARGE < 512 := by
    simp only [LARGE]
    omega
  have hq : a / LARGE * 512 + a / 4096 % 512 = a / 4096 := by
    simp only [LARGE]
    omega
  have hi : a / 4096 % 512 < 512 := Nat.mod_lt _ (by omega)
  rw [walk]
  simp only [h4, h3, h2, h1, h.spine.page4, h.spine.page3, h.spine.present4, h.spine.present3,
    h.spine.small3, not_true_eq_false, if_false]
  rcases h.slots _ hj with hw | hs
  · simp only [hw.present, hw.huge, not_true_eq_false, if_false, if_true]
    refine ⟨_, rfl, ?_, ?_, ?_⟩
    · rw [Mapping.through, hw.frame]
      exact Nat.div_add_mod' a LARGE
    · rcases hw.writable with hwr | hro
      · left
        simp [Mapping.through, h.spine.writable4, h.spine.writable3, hwr]
      · exact .inr hro
    · intro huser
      refine hw.user ?_
      simp only [Mapping.through, List.all_cons, Bool.and_eq_true, decide_eq_true_eq] at huser
      exact huser.2.2.1
  · have hleaf := hs.leaves _ hi
    rw [hq] at hleaf
    simp only [hs.present, hs.small, hleaf.present hgone, not_true_eq_false, if_false]
    refine ⟨_, rfl, ?_, ?_, ?_⟩
    · rw [Mapping.through, hleaf.page hgone]
      exact Nat.div_add_mod' a 4096
    · left
      simp [Mapping.through, h.spine.writable4, h.spine.writable3, hs.writable,
        hleaf.writable hgone]
    · intro huser
      simp only [Mapping.through, List.all_cons, Bool.and_eq_true, decide_eq_true_eq] at huser
      exact absurd huser.2.2.2.1 hleaf.kernel

/-- Ring 3 sees nothing beyond the first gigabyte. -/
theorem Spine.walk_high (h : Spine p root pdpt pd t) {a : Nat} (ha : a < 2 ^ 48)
    (hhigh : 2 ^ 30 ≤ a) {m : Mapping} (hm : walk t root a = some m) : m.user = false := by
  have hlt : ∀ bit, index bit a < 512 := fun _ => Nat.mod_lt _ (by omega)
  by_cases h4 : index 39 a = 0
  · by_cases h3 : index 30 a = 0
    · exact absurd (low_of_index ha h4 h3) (by omega)
    · have hclosed : ∀ phys rest,
          (Mapping.through phys (t root 0 :: t pdpt (index 30 a) :: rest)).user = false := by
        intro phys rest
        simp [Mapping.through, h.closed3 _ (hlt _) h3]
      rw [walk] at hm
      simp only [h4, h.page4] at hm
      split_ifs at hm <;> exact Option.some.inj hm ▸ hclosed _ _
  · have hclosed : ∀ phys rest,
        (Mapping.through phys (t root (index 39 a) :: rest)).user = false := by
      intro phys rest
      simp [Mapping.through, h.closed4 _ (hlt _) h4]
    simp only [walk] at hm
    split_ifs at hm <;> exact Option.some.inj hm ▸ hclosed _ _

end NanoChrono.Kernel
