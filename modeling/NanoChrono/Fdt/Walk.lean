import NanoChrono.Buffer.BigEndian

/-! # The walk over a flattened device tree

The structure block is a sequence of tokens, read one at a time with every access checked and handed
to a visitor until it has enough. Whatever the block holds, the walk ends, hands over only values
that lie in it, and nests no deeper than `MAX_DEPTH` and never closes more than it opened: a visitor
that keeps to this never stops the machine (`walk_rule`). -/

namespace NanoChrono.DeviceTree

open Buffer

abbrev Bytes := List UInt8

/-- Deepest nesting followed. -/
def MAX_DEPTH : Nat := 16

def FDT_BEGIN_NODE : Nat := 1

def FDT_END_NODE : Nat := 2

def FDT_PROP : Nat := 3

def FDT_NOP : Nat := 4

def FDT_END : Nat := 9

/-- A validated device tree. -/
structure Fdt where
  structs : Bytes
  strings : Bytes

/-- The bytes before the first NUL. -/
def cstr (b : Bytes) : Option Bytes := (b.findIdx? (· == 0)).map b.take

def align4 (n : Nat) : Nat := (n + 3) / 4 * 4

/-- One step of the structure walk. -/
inductive Token where
  | beginNode (name : Bytes)
  | endNode
  | prop (name value : Bytes)
deriving DecidableEq

/-- The depth behind a token. -/
inductive Token.Moves : Nat → Token → Nat → Prop
  | down (depth : Nat) (name : Bytes) : Moves depth (.beginNode name) (depth + 1)
  | up (depth : Nat) : Moves (depth + 1) .endNode depth
  | stay (depth : Nat) (name value : Bytes) : Moves depth (.prop name value) depth

/-- What stands at a place of the structure block: nothing the format has, its end, a token to step
over, or one to hand over, and where and how deep the walk is behind it. -/
inductive Next where
  | malformed
  | done
  | skip (pos : Nat)
  | token (t : Token) (pos depth : Nat)

namespace Fdt

variable (tree : Fdt)

/-- What stands at `pos`, `depth` nodes deep. -/
def next (pos depth : Nat) : Next :=
  match be32 tree.structs pos with
  | none => .malformed
  | some token =>
    let pos := pos + 4
    if token = FDT_BEGIN_NODE then
      match cstr (tree.structs.drop pos) with
      | none => .malformed
      | some name =>
        if MAX_DEPTH < depth + 1 then .malformed
        else .token (.beginNode name) (align4 (pos + (name.length + 1))) (depth + 1)
    else if token = FDT_END_NODE then
      match depth with
      | 0 => .malformed
      | depth + 1 => .token .endNode pos depth
    else if token = FDT_PROP then
      match be32 tree.structs pos, be32 tree.structs (pos + 4) with
      | some len, some nameOff =>
        match slice? tree.structs (pos + 8) len, cstr (tree.strings.drop nameOff) with
        | some value, some name => .token (.prop name value) (align4 (pos + 8 + len)) depth
        | _, _ => .malformed
      | _, _ => .malformed
    else if token = FDT_NOP then .skip pos
    else if token = FDT_END then .done
    else .malformed

theorem le_align4 (n : Nat) : n ≤ align4 n := by
  unfold align4
  omega

/-- A token that is stepped over is inside the block. -/
theorem next_skip {pos pos' depth : Nat} (h : tree.next pos depth = .skip pos') :
    pos < pos' ∧ pos' ≤ tree.structs.length := by
  unfold next at h
  split at h
  · cases h
  next token htoken =>
    have hin := be32_within htoken
    dsimp only at h
    split at h
    · split at h
      · cases h
      · split at h <;> cases h
    split at h
    · split at h <;> cases h
    split at h
    · split at h
      · split at h <;> cases h
      · cases h
    split at h
    · cases h
      exact ⟨by omega, hin⟩
    · split at h <;> cases h

/-- A token that is handed over: the walk goes on behind it, and no deeper than it may. -/
theorem next_token {pos pos' depth depth' : Nat} {t : Token} (h : tree.next pos depth = .token t pos' depth') :
    pos < tree.structs.length ∧ pos < pos' ∧ t.Moves depth depth' ∧ (depth ≤ MAX_DEPTH → depth' ≤ MAX_DEPTH) ∧
      ∀ name value, t = .prop name value → value <:+: tree.structs := by
  unfold next at h
  split at h
  · cases h
  next token htoken =>
    have hin := be32_within htoken
    dsimp only at h
    split at h
    · split at h
      · cases h
      next name _ =>
        split at h
        · cases h
        next hdeep =>
          cases h
          have hle := le_align4 (pos + 4 + (name.length + 1))
          exact ⟨by omega, by omega, .down depth name, fun _ => Nat.le_of_not_lt hdeep, by simp⟩
    split at h
    · split at h
      · cases h
      next d =>
        cases h
        exact ⟨by omega, by omega, .up _, fun hd => by omega, by simp⟩
    split at h
    · split at h
      next len _ _ _ =>
        split at h
        next value name hvalue _ =>
          cases h
          have hle := le_align4 (pos + 4 + 8 + len)
          refine ⟨by omega, by omega, .stay depth name value, id, ?_⟩
          rintro _ _ ⟨⟩
          exact infix_of_slice? hvalue
        next => cases h
      next => cases h
    split at h
    · cases h
    · split at h <;> cases h

/-- What comes of a visit: none where the visitor could not go on, the end where it has enough, or the rest. -/
def onward {σ : Type} (visited : Option (σ × Bool)) (rest : σ → Option (σ × Bool)) : Option (σ × Bool) :=
  match visited with
  | none => none
  | some (s, more) => if more then rest s else some (s, true)

/-- Hands the tokens to a visitor until it has enough or the block ends, or until it cannot go on. The flag says
whether the block was well formed so far. -/
def walk {σ : Type} (visit : σ → Token → Option (σ × Bool)) (pos depth : Nat) (s : σ) : Option (σ × Bool) :=
  match _h : tree.next pos depth with
  | .malformed => some (s, false)
  | .done => some (s, true)
  | .skip pos' => walk visit pos' depth s
  | .token t pos' depth' => onward (visit s t) (walk visit pos' depth')
termination_by tree.structs.length - pos
decreasing_by
  · have := tree.next_skip _h
    omega
  · have := tree.next_token _h
    omega

section Rule

variable {σ : Type} {visit : σ → Token → Option (σ × Bool)} {pos depth : Nat} {s : σ}

theorem walk_done (h : tree.next pos depth = .done) : tree.walk visit pos depth s = some (s, true) := by
  rw [walk]
  split <;> simp_all

theorem walk_skip {pos' : Nat} (h : tree.next pos depth = .skip pos') :
    tree.walk visit pos depth s = tree.walk visit pos' depth s := by
  rw [walk]
  split <;> simp_all

theorem walk_token {t : Token} {pos' depth' : Nat} (h : tree.next pos depth = .token t pos' depth') :
    tree.walk visit pos depth s = onward (visit s t) (tree.walk visit pos' depth') := by
  rw [walk]
  split <;> simp_all

/-- What a visitor keeps, at the depth where it is, whatever token the walk may hand it. -/
structure Keeps (visit : σ → Token → Option (σ × Bool)) (I : Nat → σ → Prop) (Q : σ → Prop) : Prop where
  found : ∀ depth s, I depth s → Q s
  visit : ∀ depth s t depth', I depth s → t.Moves depth depth' → depth ≤ MAX_DEPTH → depth' ≤ MAX_DEPTH →
    (∀ name value, t = .prop name value → value <:+: tree.structs) →
    ∃ s' more, visit s t = some (s', more) ∧ Q s' ∧ (more = true → I depth' s')

/-- A walk with such a visitor goes through. -/
theorem walk_rule {I : Nat → σ → Prop} {Q : σ → Prop} (h : tree.Keeps visit I Q) (hs : I depth s)
    (hdepth : depth ≤ MAX_DEPTH) : ∃ s' ok, tree.walk visit pos depth s = some (s', ok) ∧ Q s' := by
  fun_induction walk tree visit pos depth s with
  | case1 pos depth s hnext => exact ⟨s, false, rfl, h.found depth s hs⟩
  | case2 pos depth s hnext => exact ⟨s, true, rfl, h.found depth s hs⟩
  | case3 pos depth s pos' hnext ih => exact ih hs hdepth
  | case4 pos depth s t pos' depth' hnext ih =>
    obtain ⟨-, -, hmoves, hdeep, hvalue⟩ := tree.next_token hnext
    obtain ⟨s', more, hvisit, hfound, hkept⟩ := h.visit depth s t depth' hs hmoves hdepth (hdeep hdepth) hvalue
    rw [hvisit, onward]
    cases more with
    | false => exact ⟨s', true, rfl, hfound⟩
    | true => exact ih s' (hkept rfl) (hdeep hdepth)

end Rule

end Fdt

end NanoChrono.DeviceTree
