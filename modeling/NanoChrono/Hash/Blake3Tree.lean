import NanoChrono.Hash.Blake3Spec

/-! # BLAKE3 in pieces

Between calls the hasher's chunk holds the last bytes that came, at most one chunk, and its stack is
`stackAt` the chunks before (`Hasher.Holds`); likewise the chunk's block holds its last bytes
(`Chunk.Holds`). So whatever the calls, the output is the tree's over all that came
(`incremental_as_tree`). -/

namespace NanoChrono.Hash

namespace Blake3

open Buffer

/-! ## A chunk -/

/-- Chunk `t` has taken `data`: what is in its block comes after the blocks that are compressed. -/
structure Chunk.Covers (key : Cv) (flags : UInt32) (t : Nat) (data : Bytes) (c : Chunk) : Prop where
  at_t : c.counter = t
  mode : c.flags = flags
  le : BLOCK_LEN * c.blocksDone ≤ data.length
  last : c.block = data.drop (BLOCK_LEN * c.blocksDone)
  before : c.cv = Spec.chunkCv key flags t data c.blocksDone

/-- And the last block waits, even a full one. -/
structure Chunk.Holds (key : Cv) (flags : UInt32) (t : Nat) (data : Bytes) (c : Chunk) : Prop extends
    Chunk.Covers key flags t data c where
  waits : c.block = [] → data = []

namespace Chunk

variable {key : Cv} {flags : UInt32} {t : Nat} {data : Bytes} {c : Chunk}

theorem holds_new : (Chunk.new key t flags).Holds key flags t [] :=
  { at_t := rfl, mode := rfl, le := Nat.zero_le _, last := rfl, before := rfl, waits := fun _ => rfl }

/-- The chunk's length is that of what it has taken. -/
theorem Covers.len_eq (h : c.Covers key flags t data) : c.len = data.length := by
  have hle := h.le
  rw [len, h.last, List.length_drop]
  omega

/-- The chaining values of the blocks there are do not change when more comes. -/
theorem chunkCv_append (more : Bytes) {j : Nat} (hj : BLOCK_LEN * j ≤ data.length) :
    Spec.chunkCv key flags t (data ++ more) j = Spec.chunkCv key flags t data j := by
  induction j with
  | zero => rfl
  | succ j ih =>
    rw [Nat.mul_succ] at hj
    rw [Spec.chunkCv, Spec.chunkCv, ih (by omega), slice_append_left hj]

theorem Covers.flush (h : c.Covers key flags t data) : c.flush.Covers key flags t data := by
  rw [Chunk.flush]
  split
  case isTrue hfull =>
    have hle := h.le
    have hlen : BLOCK_LEN * c.blocksDone + BLOCK_LEN = data.length := by
      rw [← h.len_eq, len, hfull]
    have hblock : c.block = slice data (BLOCK_LEN * c.blocksDone) BLOCK_LEN := by
      rw [slice, ← h.last, List.take_of_length_le hfull.le]
    refine { at_t := h.at_t, mode := h.mode, le := by rw [Nat.mul_succ]; exact hlen.le, last := ?_, before := ?_ }
    · rw [Nat.mul_succ, hlen, List.drop_length]
    · dsimp only
      rw [Spec.chunkCv, ← h.before, ← hblock, ← words_eq c.block_le, ← h.at_t, ← h.mode]
      exact Output.chainingValue_eq
        ⟨c.cv, words c.block, c.counter, UInt32.ofNat BLOCK_LEN, c.flags ||| c.startFlag⟩
  case isFalse => exact h

/-- More bytes go behind those in the block. -/
theorem Covers.append (h : c.Covers key flags t data) {more : Bytes} (hne : more ≠ [])
    (hle : (c.block ++ more).length ≤ BLOCK_LEN) :
    Chunk.Holds key flags t (data ++ more) { c with block := c.block ++ more, block_le := hle } where
  at_t := h.at_t
  mode := h.mode
  le := by
    rw [List.length_append]
    exact Nat.le_add_right_of_le h.le
  last := by
    rw [List.drop_append_of_le_length h.le, ← h.last]
  before := by
    rw [chunkCv_append _ h.le]
    exact h.before
  waits := fun hnil => absurd (List.append_eq_nil_iff.1 hnil).2 hne

theorem Holds.update (h : c.Holds key flags t data) (input : Bytes) :
    (c.update input).Holds key flags t (data ++ input) := by
  fun_induction Chunk.update c input generalizing data with
  | case1 c => rwa [List.append_nil]
  | case2 c input hne f take =>
    rename_i ih
    have hroom : f.block.length < BLOCK_LEN := c.flush_lt
    have htake : take = min (BLOCK_LEN - f.block.length) input.length := rfl
    have hpos := List.length_pos_of_ne_nil hne
    have hmore : input.take take ≠ [] := by
      rw [← List.length_pos_iff, List.length_take]
      omega
    have hnext := ih (h.toCovers.flush.append hmore _)
    rwa [List.append_assoc, List.take_append_drop] at hnext

/-- The chunk's output is its last block's node. -/
theorem Holds.output_node (h : c.Holds key flags t data) :
    c.output.node = Spec.chunk key flags t data := by
  have hb : BLOCK_LEN = 64 := rfl
  have hle : c.block.length ≤ 64 := c.block_le
  have hlen := h.len_eq
  have hdone : c.blocksDone = Spec.parts BLOCK_LEN data.length - 1 := by
    rw [len, hb] at hlen
    rw [Spec.parts, hb]
    by_cases hnil : c.block = []
    · have h0 := congrArg List.length (h.waits hnil)
      rw [List.length_nil] at h0
      omega
    · have := List.length_pos_of_ne_nil hnil
      omega
  have hblock : c.block = slice data (BLOCK_LEN * c.blocksDone) BLOCK_LEN := by
    rw [slice, ← h.last, hb, List.take_of_length_le hle]
  rw [Spec.chunk, ← hdone, ← hblock, ← h.before, ← words_eq hle, ← h.mode, ← h.at_t]
  rfl

end Chunk

/-! ## The hasher -/

theorem leaf_append (key : Cv) (flags : UInt32) (message more : Bytes) {t : Nat}
    (ht : CHUNK_LEN * (t + 1) ≤ message.length) :
    Spec.leaf key flags (message ++ more) t = Spec.leaf key flags message t := by
  rw [Nat.mul_succ] at ht
  rw [Spec.leaf, Spec.leaf, slice_append_left ht]

/-- The subtrees that wait before chunk `c` of a message. -/
def stackOf (key : Cv) (flags : UInt32) (message : Bytes) (c : Nat) : List Cv :=
  stackAt (Spec.leaf key flags message) Spec.Node.cv (Spec.parent key flags) 0 c

theorem stackOf_append (key : Cv) (flags : UInt32) (message more : Bytes) {c : Nat}
    (hc : CHUNK_LEN * c ≤ message.length) :
    stackOf key flags (message ++ more) c = stackOf key flags message c := by
  refine stackAt_congr fun j hj => leaf_append key flags message more ?_
  rw [pow_zero, Nat.mul_one] at hj
  exact (Nat.mul_le_mul_left _ hj).trans hc

/-- The hasher has taken `message`: the chunks before the one it fills are in the subtrees on its stack. -/
structure Hasher.Covers (key : Cv) (flags : UInt32) (message : Bytes) (h : Hasher) : Prop where
  with_key : h.key = key
  mode : h.flags = flags
  le : CHUNK_LEN * h.chunk.counter ≤ message.length
  before : h.stack = stackOf key flags message h.chunk.counter
  last : h.chunk.Holds key flags h.chunk.counter (message.drop (CHUNK_LEN * h.chunk.counter))

/-- And the last chunk waits, even a full one. -/
structure Hasher.Holds (key : Cv) (flags : UInt32) (message : Bytes) (h : Hasher) : Prop extends
    Hasher.Covers key flags message h where
  waits : message.length ≤ CHUNK_LEN * h.chunk.counter → message = []

namespace Hasher

variable {key : Cv} {flags : UInt32} {message : Bytes} {h : Hasher}

theorem holds_make : (make key flags).Holds key flags [] where
  with_key := rfl
  mode := rfl
  le := Nat.zero_le _
  before := by
    show [] = stackOf key flags [] 0
    rw [stackOf, stackAt, dif_pos rfl]
  last := Chunk.holds_new
  waits := fun _ => rfl

theorem Covers.len_eq (hh : h.Covers key flags message) :
    CHUNK_LEN * h.chunk.counter + h.chunk.len = message.length := by
  have hle := hh.le
  rw [hh.last.len_eq, List.length_drop]
  omega

/-- A full chunk is one more leaf. -/
theorem Covers.pushed (hh : h.Covers key flags message) (hfull : h.chunk.len = CHUNK_LEN) :
    Hash.pushed Output.chainingValue (fun left right => parent left right h.key h.flags)
      (h.chunk.counter + 1) h.chunk.output.chainingValue h.stack =
      some (stackOf key flags message (h.chunk.counter + 1)) := by
  have hleaf : h.chunk.output.node = Spec.leaf key flags message h.chunk.counter := by
    have hlast : (message.drop (CHUNK_LEN * h.chunk.counter)).length ≤ CHUNK_LEN := by
      rw [← hh.last.len_eq, hfull]
    rw [hh.last.output_node, Spec.leaf, slice, List.take_of_length_le hlast]
  have hparent : ∀ left right : Cv, (parent left right h.key h.flags).chainingValue =
      (Spec.parent key flags left right).cv := by
    intro left right
    rw [Output.chainingValue_eq, node_parent, hh.with_key, hh.mode]
  have hpush := @pushed_stackAt _ _ (Spec.leaf key flags message) Spec.Node.cv
    (Spec.parent key flags) 0 h.chunk.counter
  rw [pow_zero, tree_one, Nat.mul_one, ← hleaf, ← Output.chainingValue_eq] at hpush
  rw [pushed_congr hparent, hh.before]
  exact hpush

theorem Covers.addChunkCv (hh : h.Covers key flags message) (hfull : h.chunk.len = CHUNK_LEN) :
    h.addChunkCv h.chunk.output.chainingValue (h.chunk.counter + 1) =
      if (stackOf key flags message (h.chunk.counter + 1)).length ≤ SLOTS then
        some (stackOf key flags message (h.chunk.counter + 1))
      else none := by
  rw [Hasher.addChunkCv, hh.pushed hfull, Option.bind_eq_bind, Option.bind_some]

/-- A flush leaves room in the chunk, if the stack has room for one more chunk. -/
theorem Covers.flush (hh : h.Covers key flags message) {f : { f : Hasher // f.chunk.len < CHUNK_LEN }}
    (hf : h.flush = some f) : f.1.Covers key flags message := by
  rw [Hasher.flush] at hf
  split at hf
  case isTrue hfull =>
    have hlen : CHUNK_LEN * (h.chunk.counter + 1) = message.length := by
      rw [← hh.len_eq, hfull, Nat.mul_succ]
    dsimp only at hf
    rw [hh.addChunkCv hfull] at hf
    split at hf
    · cases hf
      exact
        { with_key := hh.with_key
          mode := hh.mode
          le := hlen.le
          before := rfl
          last := by
            show (Chunk.new h.key (h.chunk.counter + 1) h.flags).Holds key flags (h.chunk.counter + 1)
              (message.drop (CHUNK_LEN * (h.chunk.counter + 1)))
            rw [hlen, List.drop_length, hh.with_key, hh.mode]
            exact Chunk.holds_new }
    · cases hf
  case isFalse =>
    cases hf
    exact hh

/-- The stack has room for the chunks of 2^64 bytes. -/
theorem Covers.flush_some (hh : h.Covers key flags message) (hlen : message.length < 2 ^ 64) :
    ∃ f, h.flush = some f := by
  rw [Hasher.flush]
  split
  case isTrue hfull =>
    have hcount := hh.len_eq
    rw [hfull, show CHUNK_LEN = 1024 from rfl] at hcount
    have hslots : (stackOf key flags message (h.chunk.counter + 1)).length ≤ SLOTS :=
      length_stackAt_le (show h.chunk.counter + 1 < 2 ^ 54 by omega)
    dsimp only
    rw [hh.addChunkCv hfull, if_pos hslots]
    exact ⟨_, rfl⟩
  case isFalse => exact ⟨_, rfl⟩

/-- More bytes go into the chunk. -/
theorem Covers.append (hh : h.Covers key flags message) {more : Bytes} (hne : more ≠ [])
    (hle : (h.chunk.update more).len ≤ CHUNK_LEN) :
    Hasher.Holds key flags (message ++ more) { h with chunk := h.chunk.update more, chunk_le := hle } := by
  have hlast := hh.last.update more
  have hcounter : (h.chunk.update more).counter = h.chunk.counter := hlast.at_t
  have hpos := List.length_pos_of_ne_nil hne
  have hmessage := hh.le
  refine { with_key := hh.with_key, mode := hh.mode, le := ?_, before := ?_, last := ?_, waits := ?_ }
  · rw [List.length_append, hcounter]
    omega
  · rw [hcounter, stackOf_append _ _ _ _ hmessage]
    exact hh.before
  · rw [hcounter, List.drop_append_of_le_length hmessage]
    exact hlast
  · rw [List.length_append, hcounter]
    omega

/-- What an update takes is behind what was taken. -/
theorem Holds.update (hh : h.Holds key flags message) {input : Bytes} {h' : Hasher}
    (hup : h.update input = some h') : h'.Holds key flags (message ++ input) := by
  fun_induction Hasher.update h input generalizing message with
  | case1 h =>
    cases hup
    rwa [List.append_nil]
  | case2 h input hne =>
    rename_i ih
    obtain ⟨f, hf, hnext⟩ := Option.bind_eq_some_iff.1 hup
    have hroom := f.2
    have hpos := List.length_pos_of_ne_nil hne
    have hmore : input.take (min (CHUNK_LEN - f.1.chunk.len) input.length) ≠ [] := by
      rw [← List.length_pos_iff, List.length_take]
      omega
    have hend := ih f ((hh.toCovers.flush hf).append hmore _) hnext
    rwa [List.append_assoc, List.take_append_drop] at hend

/-- An update up to 2^64 bytes in all succeeds. -/
theorem Holds.update_some (hh : h.Holds key flags message) {input : Bytes}
    (hlen : message.length + input.length ≤ 2 ^ 64) : ∃ h', h.update input = some h' := by
  fun_induction Hasher.update h input generalizing message with
  | case1 h => exact ⟨_, rfl⟩
  | case2 h input hne =>
    rename_i ih
    have hpos := List.length_pos_of_ne_nil hne
    obtain ⟨f, hf⟩ := hh.toCovers.flush_some (by omega)
    have hroom := f.2
    have hmore : input.take (min (CHUNK_LEN - f.1.chunk.len) input.length) ≠ [] := by
      rw [← List.length_pos_iff, List.length_take]
      omega
    rw [hf, Option.bind_some]
    refine ih f ((hh.toCovers.flush hf).append hmore _) ?_
    rw [List.length_append, List.length_take, List.length_drop]
    omega

/-- What would come out is the tree's root. -/
theorem Holds.root_node (hh : h.Holds key flags message) :
    h.root.node = Spec.root key flags message := by
  have hlen := hh.len_eq
  have hle := h.chunk_le
  have hstep : ∀ (o : Output) (left : Cv), Spec.parent key flags left o.node.cv =
      (parent left o.chainingValue h.key h.flags).node := by
    intro o left
    rw [node_parent, Output.chainingValue_eq, hh.with_key, hh.mode]
  have hparts : Spec.parts CHUNK_LEN message.length = h.chunk.counter * 2 ^ 0 + 1 := by
    have hwaits := hh.waits
    rw [show CHUNK_LEN = 1024 from rfl] at hlen hle hwaits ⊢
    rw [Spec.parts]
    by_cases hnil : message = []
    · subst hnil
      simp only [List.length_nil] at hlen ⊢
      omega
    · have hmore := mt hwaits hnil
      omega
  have hjoin := @joined_stackAt _ _ (Spec.leaf key flags message) Spec.Node.cv
    (Spec.parent key flags) 0 h.chunk.counter 1 (by decide) (by decide)
  have hleaf : h.chunk.output.node = Spec.leaf key flags message h.chunk.counter := by
    rw [hh.last.output_node, Spec.leaf, slice, List.take_of_length_le]
    rw [← hh.last.len_eq]
    exact hle
  rw [tree_one, pow_zero, Nat.mul_one, ← hleaf] at hjoin
  rw [Spec.root, hparts, pow_zero, Nat.mul_one, ← hjoin, root, hh.before]
  exact (List.foldl_hom Output.node hstep).symm

/-- Any part of the output is the tree's. -/
theorem Holds.finalizeXof (hh : h.Holds key flags message) (seek n : Nat) :
    h.finalizeXof seek n = Spec.hash key flags message seek n := by
  rw [Hasher.finalizeXof, rootBytes_eq, hh.root_node, Spec.hash]

end Hasher

/-! ## Runs of calls -/

/-- A hasher for a mode. -/
def Mode.hasher : Mode → Option Hasher
  | .plain => some Hasher.new
  | .keyed key => some (Hasher.newKeyed key)
  | .deriveKey context => Hasher.newDeriveKey context

/-- The calls a hasher takes. -/
inductive Call where
  | update (input : Bytes)
  | finalize
  | finalizeXof (seek n : Nat)

/-- What a call adds to the input. -/
@[grind =] def Call.input : Call → Bytes
  | .update input => input
  | _ => []

/-- The outputs of a run of calls. -/
@[grind =] def Hasher.run (h : Hasher) : List Call → Option (List Bytes)
  | [] => some []
  | .update input :: calls => do
    let h ← h.update input
    run h calls
  | .finalize :: calls => do
    let outs ← run h calls
    some (h.finalize :: outs)
  | .finalizeXof seek n :: calls => do
    let outs ← run h calls
    some (h.finalizeXof seek n :: outs)

/-- The outputs the definition gives, a message having come before. -/
@[grind =] def Spec.outputs (mode : Mode) (message : Bytes) : List Call → List Bytes
  | [] => []
  | .update input :: calls => outputs mode (message ++ input) calls
  | .finalize :: calls => blake3 mode message 0 OUT_LEN :: outputs mode message calls
  | .finalizeXof seek n :: calls => blake3 mode message seek n :: outputs mode message calls

variable {mode : Mode} {message : Bytes} {h : Hasher}

/-- What a run gives is the tree's, over what had come before each call. -/
theorem Hasher.Holds.run (hh : h.Holds (Spec.modeKey mode) (Spec.modeFlags mode) message)
    {calls : List Call} {outs : List Bytes} (hrun : h.run calls = some outs) :
    outs = Spec.outputs mode message calls := by
  induction calls generalizing h message outs with
  | nil =>
    cases hrun
    rfl
  | cons call calls ih =>
    cases call with
    | update input =>
      obtain ⟨h', hup, hrest⟩ := Option.bind_eq_some_iff.1 hrun
      rw [Spec.outputs]
      exact ih (hh.update hup) hrest
    | finalize =>
      obtain ⟨rest, hrest, hout⟩ := Option.bind_eq_some_iff.1 hrun
      cases hout
      rw [Spec.outputs, ← ih hh hrest, Spec.blake3, ← hh.finalizeXof]
      rfl
    | finalizeXof seek n =>
      obtain ⟨rest, hrest, hout⟩ := Option.bind_eq_some_iff.1 hrun
      cases hout
      rw [Spec.outputs, ← ih hh hrest, Spec.blake3, ← hh.finalizeXof]

/-- A run over at most 2^64 bytes does not leave the stack. -/
theorem Hasher.Holds.run_some (hh : h.Holds (Spec.modeKey mode) (Spec.modeFlags mode) message) {calls : List Call}
    (hlen : message.length + (calls.flatMap Call.input).length ≤ 2 ^ 64) :
    ∃ outs, h.run calls = some outs := by
  induction calls generalizing h message with
  | nil => exact ⟨[], rfl⟩
  | cons call calls ih =>
    rw [List.flatMap_cons, List.length_append] at hlen
    cases call with
    | update input =>
      rw [show (Call.update input).input = input from rfl] at hlen
      have hup : ∃ h', h.update input = some h' := hh.update_some (by omega)
      obtain ⟨h', hup⟩ := hup
      obtain ⟨outs, hrest⟩ := ih (hh.update hup) (by rw [List.length_append]; omega)
      exact ⟨outs, Option.bind_eq_some_iff.2 ⟨h', hup, hrest⟩⟩
    | finalize =>
      obtain ⟨outs, hrest⟩ := ih hh (by omega)
      exact ⟨_, Option.bind_eq_some_iff.2 ⟨outs, hrest, rfl⟩⟩
    | finalizeXof seek n =>
      obtain ⟨outs, hrest⟩ := ih hh (by omega)
      exact ⟨_, Option.bind_eq_some_iff.2 ⟨outs, hrest, rfl⟩⟩

theorem length_hash (key : Cv) (flags : UInt32) (message : Bytes) (seek n : Nat) :
    (Spec.hash key flags message seek n).length = n := by
  rw [Spec.hash, List.length_map, List.length_range]

/-- A mode's hasher has its key and its flags, and has taken nothing. -/
theorem Mode.hasher_holds {h : Hasher} (hmode : mode.hasher = some h) :
    h.Holds (Spec.modeKey mode) (Spec.modeFlags mode) [] := by
  cases mode with
  | plain =>
    cases hmode
    exact Hasher.holds_make
  | keyed key =>
    cases hmode
    have hshort : key.1.length ≤ BLOCK_LEN := by
      rw [key.2]
      decide
    rw [Spec.modeKey, ← keyWords_eq hshort]
    exact Hasher.holds_make
  | deriveKey context =>
    obtain ⟨ctx, hctx, hnew⟩ := Option.bind_eq_some_iff.1 hmode
    cases hnew
    have hout := (Hasher.holds_make.update hctx).finalizeXof 0 KEY_LEN
    rw [List.nil_append] at hout
    have hshort : (Spec.hash IV DERIVE_KEY_CONTEXT context 0 KEY_LEN).length ≤ BLOCK_LEN := by
      rw [length_hash]
      decide
    rw [hout, Spec.modeKey, ← keyWords_eq hshort]
    exact Hasher.holds_make

/-- What a mode hashes before the message. -/
def Mode.context : Mode → Bytes
  | .deriveKey context => context
  | _ => []

theorem Mode.hasher_some (hcontext : mode.context.length ≤ 2 ^ 64) : ∃ h, mode.hasher = some h := by
  cases mode with
  | plain => exact ⟨_, rfl⟩
  | keyed key => exact ⟨_, rfl⟩
  | deriveKey context =>
    have hctx : ∃ ctx, (Hasher.make IV DERIVE_KEY_CONTEXT).update context = some ctx :=
      Hasher.holds_make.update_some (by rw [List.length_nil, Nat.zero_add]; exact hcontext)
    obtain ⟨ctx, hctx⟩ := hctx
    exact ⟨_, Option.bind_eq_some_iff.2 ⟨ctx, hctx, rfl⟩⟩

/-- Whatever calls come in whatever order, in whatever mode, each output is BLAKE3's of all input before
it; and with at most 2^64 bytes of input, as many as there can be, no call leaves the stack's slots. -/
theorem incremental_as_tree (mode : Mode) (calls : List Call) :
    (∀ h outs, mode.hasher = some h → h.run calls = some outs → outs = Spec.outputs mode [] calls) ∧
    (mode.context.length ≤ 2 ^ 64 → (calls.flatMap Call.input).length ≤ 2 ^ 64 →
      ∃ h outs, mode.hasher = some h ∧ h.run calls = some outs) := by
  refine ⟨fun h outs hmode hrun => (Mode.hasher_holds hmode).run hrun, fun hcontext hlen => ?_⟩
  obtain ⟨h, hmode⟩ := Mode.hasher_some hcontext
  have hrun : ∃ outs, h.run calls = some outs :=
    (Mode.hasher_holds hmode).run_some (by rw [List.length_nil, Nat.zero_add]; exact hlen)
  obtain ⟨outs, hrun⟩ := hrun
  exact ⟨h, outs, hmode, hrun⟩

/-- A run on a key, cut in two with an output in between. -/
theorem incremental_as_tree_keyed :
    ∃ h outs, (Mode.keyed ⟨List.replicate 32 7, rfl⟩).hasher = some h ∧
      h.run [.update [1, 2], .finalizeXof 63 2, .update [3], .finalize] = some outs ∧
      outs = Spec.outputs (.keyed ⟨List.replicate 32 7, rfl⟩) []
        [.update [1, 2], .finalizeXof 63 2, .update [3], .finalize] := by
  obtain ⟨h, outs, hmode, hrun⟩ := (incremental_as_tree (.keyed ⟨List.replicate 32 7, rfl⟩)
    [.update [1, 2], .finalizeXof 63 2, .update [3], .finalize]).2 (by decide) (by decide)
  exact ⟨h, outs, hmode, hrun, (incremental_as_tree _ _).1 h outs hmode hrun⟩

end Blake3

end NanoChrono.Hash
