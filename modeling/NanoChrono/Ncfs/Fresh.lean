import NanoChrono.Ncfs.Read

/-! # Reads with a used scratch

A read finds in its scratch what earlier reads left there. Its buffers do not matter, for they are
written before they are read. What matters is the window it holds: it is believed for any volume with
the same subvolume and inode numbers, whichever volume it was decoded from. -/

namespace NanoChrono.Ncfs

open Buffer

/-! ## Buffers that are written before they are read -/

theorem take_overwrite {n m : Nat} {v : Vector UInt8 n} {b : Bytes} (hm : m ≤ b.length)
    (hb : b.length ≤ n) : (overwrite v b).toList.take m = b.take m := by
  apply List.ext_getElem?
  intro i
  rw [List.getElem?_take, List.getElem?_take]
  by_cases hi : i < m
  · rw [if_pos hi, if_pos hi, List.getElem?_eq_getElem (by omega : i < b.length)]
    simp [overwrite, show i < n by omega, show i < b.length by omega]
  · rw [if_neg hi, if_neg hi]

/-- The same answer, and after a success the same state. -/
def Agree {ε α σ : Type} (p q : Except ε α × σ) : Prop :=
  p.1 = q.1 ∧ ∀ a, p.1 = .ok a → p.2 = q.2

section Walk

variable {hash : Bytes → Hash} {dev : BlockDev} {sb : Superblock}

theorem readNode_agree (ptr : Ptr) (owner : UInt64) (buf buf' : Bytes) :
    Agree (readNode hash dev sb ptr owner buf) (readNode hash dev sb ptr owner buf') := by
  rw [readNode, readNode]
  split
  · exact ⟨rfl, fun a h => by cases h⟩
  · split
    · exact ⟨rfl, fun a h => by cases h⟩
    · exact ⟨rfl, fun a _ => rfl⟩

theorem seek_of_error {owner : UInt64} {key : Key} {ptr : Ptr} {next : Option Key} {buf b : Bytes}
    {e : Error} (hread : readNode hash dev sb ptr owner buf = (.error e, b)) :
    seek hash dev sb owner key ptr next buf = (.error e, b) := by
  rw [seek]
  split
  · rename_i e' b' h
    cases hread.symm.trans h
    rfl
  · rename_i h' b' h
    cases hread.symm.trans h

/-- A search that reads a leaf ends in it. -/
theorem seek_of_leaf {owner : UInt64} {key : Key} {ptr : Ptr} {next : Option Key} {buf b : Bytes}
    {h : NodeHeader} (hread : readNode hash dev sb ptr owner buf = (.ok h, b)) (hleaf : h.level = 0) :
    seek hash dev sb owner key ptr next buf =
      (.ok { index := (List.range h.count.toNat).findIdx fun i => key ≤ (leafItem b i).1,
             count := h.count.toNat, next }, b) := by
  rw [seek]
  split
  · rename_i e' b' h'
    cases hread.symm.trans h'
  · rename_i h' b' heq
    cases hread.symm.trans heq
    rw [dif_pos hleaf]

/-- A search that reads an internal node goes on from there. -/
theorem seek_of_node {owner : UInt64} {key : Key} {ptr : Ptr} {next : Option Key} {buf b : Bytes}
    {h : NodeHeader} (hread : readNode hash dev sb ptr owner buf = (.ok h, b)) (hleaf : h.level ≠ 0) :
    seek hash dev sb owner key ptr next buf =
      if (descend h key next b).1.level + 1 ≠ h.level then (.error (.corrupt ptr.block), b)
      else seek hash dev sb owner key (descend h key next b).1 (descend h key next b).2 b := by
  rw [seek]
  split
  · rename_i e' b' h'
    cases hread.symm.trans h'
  · rename_i h' b' heq
    cases hread.symm.trans heq
    rw [dif_neg hleaf]

/-- A search does not look at what the buffer held. -/
theorem seek_agree (owner : UInt64) (key : Key) (ptr : Ptr) (next : Option Key) (buf buf' : Bytes) :
    Agree (seek hash dev sb owner key ptr next buf) (seek hash dev sb owner key ptr next buf') := by
  obtain ⟨hanswer, hstate⟩ := @readNode_agree hash dev sb ptr owner buf buf'
  rcases hread : readNode hash dev sb ptr owner buf with ⟨e | h, b⟩
  · rcases hread' : readNode hash dev sb ptr owner buf' with ⟨e' | h', b'⟩
    · rw [hread, hread'] at hanswer
      rw [seek_of_error hread, seek_of_error hread']
      exact ⟨congrArg Except.error (Except.error.inj hanswer), fun a h => by cases h⟩
    · rw [hread, hread'] at hanswer
      cases hanswer
  · rcases hread' : readNode hash dev sb ptr owner buf' with ⟨e' | h', b'⟩
    · rw [hread, hread'] at hanswer
      cases hanswer
    · rw [hread, hread'] at hanswer hstate
      obtain rfl := Except.ok.inj hanswer
      obtain rfl := hstate h rfl
      -- from the node on, both searches are one
      by_cases hleaf : h.level = 0
      · rw [seek_of_leaf hread hleaf, seek_of_leaf hread' hleaf]
        exact ⟨rfl, fun _ _ => rfl⟩
      · rw [seek_of_node hread hleaf, seek_of_node hread' hleaf]
        exact ⟨rfl, fun _ _ => rfl⟩

end Walk

/-! ## Decoding -/

section Decode

variable {Workspace : Type} {D : Decoders Workspace}

/-- What decodes into a buffer is the same whatever the buffer and the workspace held. -/
theorem decodeExtent_fresh (c : Compression) (stored : Bytes) {out out' : Bytes}
    (hlen : out.length = out'.length) (z z' : Workspace) :
    (decodeExtent D c stored out z).1 = (decodeExtent D c stored out' z').1 ∧
      ((decodeExtent D c stored out z).1 = .ok () →
        (decodeExtent D c stored out z).2.1 = (decodeExtent D c stored out' z').2.1 ∧
          (decodeExtent D c stored out z).2.1.length = out.length) := by
  cases c with
  | none =>
    rw [decodeExtent, decodeExtent, ← hlen]
    by_cases hfits : stored.length = out.length
    · simp [hfits]
    · simp [hfits]
  | lz4 =>
    obtain ⟨hanswer, hout⟩ := D.lz4_fresh stored hlen
    simp only [decodeExtent, hanswer, true_and]
    intro hok
    have hlz4 : (D.lz4 stored out').1 = .ok () := by
      rcases h : (D.lz4 stored out').1 with e | u
      · rw [h] at hok
        cases hok
      · rfl
    exact ⟨hout (hanswer.trans hlz4), D.length_lz4 stored out⟩
  | zstd =>
    obtain ⟨hanswer, hout⟩ := D.zstd_fresh z z' stored hlen
    have hlength := D.length_zstd z stored out
    have hlength' := D.length_zstd z' stored out'
    rcases h : D.zstd z stored out with ⟨answer, o, ws⟩
    rcases h' : D.zstd z' stored out' with ⟨answer', o', ws'⟩
    simp only [h, h'] at hanswer hout hlength hlength'
    subst hanswer
    simp only [decodeExtent, h, h']
    rcases answer with e | n
    · exact ⟨rfl, fun hok => by cases hok⟩
    · simp only [← hlen]
      by_cases hn : n = out.length
      · have htake := hout n rfl
        rw [List.take_of_length_le (by omega), List.take_of_length_le (by omega)] at htake
        rw [if_pos hn, if_pos hn]
        exact ⟨rfl, fun _ => ⟨htake, hlength⟩⟩
      · rw [if_neg hn, if_neg hn]
        exact ⟨rfl, fun hok => by cases hok⟩

theorem Scratch.cached_setWindow (s : Scratch Workspace) (window : Vector UInt8 WINDOW)
    (zstd : Workspace) : ({ s with window, zstd } : Scratch Workspace).cached = s.cached := rfl

/-- Decoding leaves what the scratch remembers alone. -/
theorem Scratch.cached_decode (D : Decoders Workspace) (c : Compression) (n len : Nat)
    (s : Scratch Workspace) : (s.decode D c n len).2.cached = s.cached :=
  Scratch.cached_setWindow s _ _

/-- What a scratch decodes from the same stored bytes is the same whatever else it held. -/
theorem Scratch.decode_fresh (c : Compression) {n len : Nat} {s s' : Scratch Workspace}
    (hstored : s.stored.toList.take n = s'.stored.toList.take n) (hlen : len ≤ WINDOW) :
    (s.decode D c n len).1 = (s'.decode D c n len).1 ∧
      ((s.decode D c n len).1 = .ok () →
        (s.decode D c n len).2.window.toList.take len =
          (s'.decode D c n len).2.window.toList.take len) := by
  have hwindow : ∀ s : Scratch Workspace, (s.window.toList.take len).length = len := by
    intro s
    rw [List.length_take, Vector.length_toList]
    omega
  obtain ⟨hanswer, hout⟩ := @decodeExtent_fresh Workspace D c (s.stored.toList.take n)
    (s.window.toList.take len) (s'.window.toList.take len) (by rw [hwindow, hwindow]) s.zstd s'.zstd
  rw [Scratch.decode, Scratch.decode, ← hstored]
  refine ⟨hanswer, fun hok => ?_⟩
  obtain ⟨heq, hlength⟩ := hout hok
  rw [hwindow] at hlength
  have hlength' := heq ▸ hlength
  have hleft := take_overwrite (v := s.window) hlength.ge (hlength.le.trans hlen)
  have hright := take_overwrite (v := s'.window) hlength'.ge (hlength'.le.trans hlen)
  exact hleft.trans ((congrArg (List.take len) heq).trans hright.symm)

end Decode

/-! ## Windows -/

namespace Volume

variable {hash : Bytes → Hash} {Workspace : Type} {D : Decoders Workspace}

/-- The bytes that an answer says the scratch's window holds. -/
def windowBytes (p : Except Error Nat × Scratch Workspace) : Except Error Bytes :=
  p.1.map fun len => p.2.window.toList.take len

variable (hash D)

/-- What a volume holds in a window of a file: what a new scratch is loaded with. -/
def contents (v : Volume) (ino w : UInt64) : Except Error Bytes :=
  windowBytes (v.load hash D ino w (Scratch.new D))

variable {hash D}

/-- An answer gives what was asked for, and the scratch remembers it under the volume's numbers or
nothing at all. -/
inductive Gives (v : Volume) (ino w : UInt64) :
    Except Error Bytes → Except Error Nat × Scratch Workspace → Prop where
  | error {e : Error} {s : Scratch Workspace} (hnone : s.cached = none) :
    Gives v ino w (.error e) (.error e, s)
  | hole {s : Scratch Workspace} (hnone : s.cached = none) : Gives v ino w (.ok []) (.ok 0, s)
  | bytes {b : Bytes} {n : Nat} {s : Scratch Workspace} (hn : n ≤ WINDOW)
    (hbytes : s.window.toList.take n = b) (hcached : s.cached = some (v.subvolId, ino, w, n)) :
    Gives v ino w (.ok b) (.ok n, s)

/-- Decoding the same stored bytes in two scratches: the first gives what the second says. -/
theorem gives_of_decode {v : Volume} {ino w : UInt64} {c : Compression} {n len : Nat}
    {s s' : Scratch Workspace} (hstored : s.stored.toList.take n = s'.stored.toList.take n)
    (hlen : len ≤ WINDOW) (hnone : s.cached = none) :
    Gives v ino w
      (windowBytes (match s'.decode D c n len with
        | (.error e, s) => (.error e, s)
        | (.ok (), s) => (.ok len, { s with cached := some (v.subvolId, ino, w, len) })))
      (match s.decode D c n len with
        | (.error e, s) => (.error e, s)
        | (.ok (), s) => (.ok len, { s with cached := some (v.subvolId, ino, w, len) })) := by
  have hcached := (Scratch.cached_decode D c n len s).trans hnone
  obtain ⟨hanswer, hwindow⟩ := @Scratch.decode_fresh Workspace D c n len s s' hstored hlen
  rcases hs : s.decode D c n len with ⟨e | u, t⟩
  · rcases hs' : s'.decode D c n len with ⟨e' | u', t'⟩
    · rw [hs, hs'] at hanswer
      rw [hs] at hcached
      obtain rfl := Except.error.inj hanswer
      exact .error hcached
    · rw [hs, hs'] at hanswer
      cases hanswer
  · rcases hs' : s'.decode D c n len with ⟨e' | u', t'⟩
    · rw [hs, hs'] at hanswer
      cases hanswer
    · rw [hs, hs'] at hwindow
      have hbytes := hwindow rfl
      show Gives v ino w (.ok (t'.window.toList.take len))
        (.ok len, { t with cached := some (v.subvolId, ino, w, len) })
      rw [← hbytes]
      exact @Gives.bytes Workspace v ino w (t.window.toList.take len) len
        { t with cached := some (v.subvolId, ino, w, len) } hlen rfl rfl

/-- A load gives what the volume holds, whatever the scratch's buffers held. -/
theorem gives_load (v : Volume) (ino w : UInt64) {s : Scratch Workspace} (hnone : s.cached = none) :
    Gives v ino w (v.contents hash D ino w) (v.load hash D ino w s) := by
  obtain ⟨hanswer, hstate⟩ := @seek_agree hash v.dev v.sb v.subvolId ⟨ino, KIND_EXTENT, w⟩ v.root none
    s.node (Scratch.new D).node
  rw [contents, load, load]
  rcases hseek : seek hash v.dev v.sb v.subvolId ⟨ino, KIND_EXTENT, w⟩ v.root none s.node
    with ⟨e | c, node⟩
  · rcases hseek' : seek hash v.dev v.sb v.subvolId ⟨ino, KIND_EXTENT, w⟩ v.root none
      (Scratch.new D).node with ⟨e' | c', node'⟩
    · rw [hseek, hseek'] at hanswer
      obtain rfl := Except.error.inj hanswer
      exact .error hnone
    · rw [hseek, hseek'] at hanswer
      cases hanswer
  rcases hseek' : seek hash v.dev v.sb v.subvolId ⟨ino, KIND_EXTENT, w⟩ v.root none
    (Scratch.new D).node with ⟨e' | c', node'⟩
  · rw [hseek, hseek'] at hanswer
    cases hanswer
  rw [hseek, hseek'] at hanswer hstate
  obtain rfl := Except.ok.inj hanswer
  obtain rfl := hstate c rfl
  dsimp only
  by_cases hfound : c.index = c.count ∨ (leafItem node c.index).1 ≠ ⟨ino, KIND_EXTENT, w⟩
  · rw [if_pos hfound, if_pos hfound]
    exact .hole hnone
  rw [if_neg hfound, if_neg hfound]
  rcases hextent : Extent.decode (leafItem node c.index).2 with _ | ⟨c', len, data⟩ | r
  · exact .error hnone
  · obtain ⟨hlen, hdata⟩ := Extent.fits_of_decode hextent
    refine gives_of_decode ?_ hlen hnone
    rw [take_overwrite (Nat.le_refl _) hdata, take_overwrite (Nat.le_refl _) hdata]
  · obtain ⟨hlen, hstored, hblocks⟩ := Extent.fits_of_decode hextent
    dsimp only
    by_cases hrange : r.block.toNat < FIRST_FREE ∨
        r.block.toNat + r.blocks.toNat > v.sb.totalBlocks.toNat
    · rw [if_pos hrange, if_pos hrange]
      exact .error hnone
    rw [if_neg hrange, if_neg hrange]
    rcases hread : v.dev.read r.block r.blocks.toNat with e | b
    · exact .error hnone
    have hlength := v.dev.length_read hread
    have hsame : (overwrite s.stored b).toList.take r.stored.toNat =
        (overwrite (Scratch.new D).stored b).toList.take r.stored.toNat := by
      rw [take_overwrite (by omega) (by omega), take_overwrite (by omega) (by omega)]
    dsimp only
    by_cases hhash : hash ((overwrite s.stored b).toList.take r.stored.toNat) = r.hash
    · rw [if_neg (not_not.2 hhash), if_neg (not_not.2 (hsame ▸ hhash))]
      exact gives_of_decode hsame hlen hnone
    · rw [if_pos hhash, if_pos (hsame ▸ hhash)]
      exact .error hnone

variable (hash D)

/-- Whether a scratch that claims to hold a window of a volume does. -/
def Trusted (v : Volume) (ino w : UInt64) (s : Scratch Workspace) : Prop :=
  ∀ n, s.cached = some (v.subvolId, ino, w, n) →
    n ≤ WINDOW ∧ v.contents hash D ino w = .ok (s.window.toList.take n)

/-- Whether a scratch holds nothing, or a window of a volume. -/
def HoldsOf (v : Volume) (s : Scratch Workspace) : Prop :=
  ∀ sv ino w n, s.cached = some (sv, ino, w, n) →
    sv = v.subvolId ∧ n ≤ WINDOW ∧ v.contents hash D ino w = .ok (s.window.toList.take n)

variable {hash D}

theorem HoldsOf.trusted {v : Volume} {s : Scratch Workspace} (h : v.HoldsOf hash D s)
    (ino w : UInt64) : v.Trusted hash D ino w s :=
  fun n hn => (h _ ino w n hn).2

/-- A window asked for is the volume's if what the scratch claims to hold is. -/
theorem gives_window {v : Volume} {ino w : UInt64} {s : Scratch Workspace}
    (h : v.Trusted hash D ino w s) :
    Gives v ino w (v.contents hash D ino w) (v.window hash D ino w s) := by
  rw [window]
  rcases hcached : s.cached with _ | ⟨sv, i, ww, n⟩
  · exact gives_load v ino w hcached
  · dsimp only
    by_cases hhit : sv = v.subvolId ∧ i = ino ∧ ww = w
    · obtain ⟨rfl, rfl, rfl⟩ := hhit
      obtain ⟨hn, hcontents⟩ := h n hcached
      rw [if_pos ⟨rfl, rfl, rfl⟩, hcontents]
      exact .bytes hn rfl hcached
    · rw [if_neg hhit]
      exact gives_load v ino w rfl

/-- After a window was asked for, the scratch holds nothing else. -/
theorem Gives.holdsOf {v : Volume} {ino w : UInt64} {p : Except Error Nat × Scratch Workspace}
    (h : Gives v ino w (v.contents hash D ino w) p) : v.HoldsOf hash D p.2 := by
  intro sv i ww n hn
  generalize hcontents : v.contents hash D ino w = c at h
  cases h with
  | error hnone => exact absurd (hnone.symm.trans hn) (by simp)
  | hole hnone => exact absurd (hnone.symm.trans hn) (by simp)
  | bytes hle hbytes hcached =>
    obtain ⟨rfl, rfl, rfl, rfl⟩ : v.subvolId = sv ∧ ino = i ∧ w = ww ∧ _ = n := by
      simpa using hcached.symm.trans hn
    exact ⟨rfl, hle, hcontents.trans (congrArg Except.ok hbytes.symm)⟩

/-- The bytes of a window from one on, zeros past the end. -/
def padded (b : Bytes) (inW len : Nat) : Bytes :=
  slice b inW len ++ List.replicate (len - (slice b inW len).length) 0

/-- A range read in terms of what is in each window. -/
def readFrom (contents : UInt64 → Except Error Bytes) (offset stop pos : Nat) (out : Bytes) :
    Except Error Unit × Bytes :=
  if _h : pos < stop then
    let inW := pos % WINDOW
    let len := min (stop - pos) (WINDOW - inW)
    match contents (windowAt pos) with
    | .error e => (.error e, out)
    | .ok b => readFrom contents offset stop (pos + len) (splice out (pos - offset) (padded b inW len))
  else (.ok (), out)
termination_by stop - pos
decreasing_by
  have hin : pos % WINDOW < WINDOW := Nat.mod_lt _ (by decide)
  omega

/-- What a read takes from a scratch's window is that part of its first `n` bytes. -/
theorem padded_take {l : Bytes} {n inW len : Nat} (hn : n ≤ l.length) :
    slice l (min inW n) (min (inW + len) n - min inW n) ++
      List.replicate (len - (min (inW + len) n - min inW n)) 0 = padded (l.take n) inW len := by
  have hlength : (slice (l.take n) inW len).length = min (inW + len) n - min inW n := by
    rw [length_slice, List.length_take]
    omega
  have hslice : slice l (min inW n) (min (inW + len) n - min inW n) = slice (l.take n) inW len := by
    apply List.ext_getElem?
    intro i
    rw [getElem?_slice, getElem?_slice, List.getElem?_take]
    by_cases hi : i < min (inW + len) n - min inW n
    · rw [if_pos hi, if_pos (by omega), if_pos (by omega), Nat.min_eq_left (by omega)]
    · rw [if_neg hi]
      by_cases hlen : i < len
      · rw [if_pos hlen, if_neg (by omega)]
      · rw [if_neg hlen]
  rw [padded, hlength, hslice]

/-- A read goes by what the volume holds if its first window can be trusted, and leaves nothing else
in the scratch. -/
theorem readWindows_eq {v : Volume} {ino : UInt64} {offset stop : Nat} :
    ∀ {pos : Nat} {out : Bytes} {s : Scratch Workspace},
    (pos < stop → v.Trusted hash D ino (windowAt pos) s) →
    ((v.readWindows hash D ino offset stop pos out s).1,
        (v.readWindows hash D ino offset stop pos out s).2.1) =
      readFrom (v.contents hash D ino) offset stop pos out ∧
    (pos < stop → v.HoldsOf hash D
      (v.readWindows hash D ino offset stop pos out s).2.2) := by
  intro pos
  -- by the length left to read
  induction hleft : stop - pos using Nat.strong_induction_on generalizing pos with
  | _ left ih =>
  intro out s htrust
  by_cases hpos : pos < stop
  · have hgives := gives_window (htrust hpos)
    have hholds := hgives.holdsOf
    have hin : pos % WINDOW < WINDOW := Nat.mod_lt _ (by decide)
    rw [readWindows, readFrom, dif_pos hpos, dif_pos hpos]
    rcases hwindow : v.window hash D ino (windowAt pos) s with ⟨e | n, t⟩
    · rw [hwindow] at hgives hholds
      generalize v.contents hash D ino (windowAt pos) = c at hgives
      cases hgives
      exact ⟨rfl, fun _ => hholds⟩
    · rw [hwindow] at hgives hholds
      have hcontents : n ≤ WINDOW ∧
          v.contents hash D ino (windowAt pos) = .ok (t.window.toList.take n) := by
        generalize v.contents hash D ino (windowAt pos) = c at hgives
        cases hgives with
        | hole hnone => exact ⟨Nat.zero_le _, rfl⟩
        | bytes hle hbytes hcached => exact ⟨hle, congrArg Except.ok hbytes.symm⟩
      obtain ⟨hn, hcontents⟩ := hcontents
      rw [hcontents]
      dsimp only
      rw [padded_take (by rw [Vector.length_toList]; exact hn)]
      have hrest := @ih _ (by omega) (pos + min (stop - pos) (WINDOW - pos % WINDOW)) rfl
        (splice out (pos - offset) (padded (t.window.toList.take n) (pos % WINDOW)
          (min (stop - pos) (WINDOW - pos % WINDOW)))) t (fun _ => hholds.trusted ino _)
      refine ⟨hrest.1, fun _ => ?_⟩
      by_cases hnext : pos + min (stop - pos) (WINDOW - pos % WINDOW) < stop
      · exact hrest.2 hnext
      · rw [readWindows, dif_neg hnext]
        exact hholds
  · rw [readWindows, readFrom, dif_neg hpos, dif_neg hpos]
    exact ⟨rfl, fun h => absurd h hpos⟩

end Volume

/-! ## Histories of a scratch -/

/-- One read: the volume, the file with its size, where from and the buffer. -/
structure Ask where
  volume : Volume
  ino : UInt64
  size : UInt64
  offset : UInt64
  out : Bytes

/-- One use of a scratch: a read, a search for a file that is one raw extent, or anything done
through its node buffer. -/
inductive Use where
  | read (a : Ask)
  | contiguous (v : Volume) (ino size : UInt64)
  | node (b : Bytes)

section History

variable (hash : Bytes → Hash) {Workspace : Type} (D : Decoders Workspace)

namespace Ask

def run (a : Ask) (s : Scratch Workspace) : Except Error Nat × Bytes × Scratch Workspace :=
  a.volume.read hash D a.ino a.size a.offset a.out s

/-- What a read gives: its answer, and what its buffer holds then. -/
def answer (a : Ask) (s : Scratch Workspace) : Except Error Nat × Bytes :=
  ((a.run hash D s).1, (a.run hash D s).2.1)

/-- Whether a read has bytes to read. -/
def Reads (a : Ask) : Prop := a.offset < a.size ∧ a.out ≠ []

instance (a : Ask) : Decidable a.Reads := inferInstanceAs (Decidable (_ ∧ _))

end Ask

/-- A scratch, and the volume of the last read that had bytes to read. -/
abbrev History (Workspace : Type) := Scratch Workspace × Option Volume

def History.after (h : History Workspace) : Use → History Workspace
  | .read a => ((a.run hash D h.1).2.2, if a.Reads then some a.volume else h.2)
  | .contiguous v ino size => ((v.contiguous hash ino size h.1).2, h.2)
  | .node b => ({ h.1 with node := b }, h.2)

/-- The reads of a history, each with what came before. -/
@[grind =] def History.reads (h : History Workspace) : List Use → List (History Workspace × Ask)
  | [] => []
  | .read a :: uses => (h, a) :: History.reads (h.after hash D (.read a)) uses
  | use :: uses => History.reads (h.after hash D use) uses

/-- Whether a read gives what it gives with a new scratch. -/
def Fresh (c : History Workspace × Ask) : Prop :=
  c.2.answer hash D c.1.1 = c.2.answer hash D (Scratch.new D)

/-- Whether a read is of the volume read last, if its first window is one that the scratch claims to
hold. -/
def ClearRead (c : History Workspace × Ask) : Prop :=
  c.2.Reads → ∀ n, c.1.1.cached = some (c.2.volume.subvolId, c.2.ino,
    Volume.windowAt c.2.offset.toNat, n) → c.1.2 = some c.2.volume

variable {hash D}

/-- What a read gives, in terms of what its volume holds, and what it leaves in the scratch. -/
theorem Ask.run_eq {a : Ask} {s : Scratch Workspace}
    (h : a.Reads → a.volume.Trusted hash D a.ino (Volume.windowAt a.offset.toNat) s) :
    (a.answer hash D s =
      if a.offset ≥ a.size then (.ok 0, a.out)
      else
        let stop := min a.size.toNat (a.offset.toNat + a.out.length)
        let r := Volume.readFrom (a.volume.contents hash D a.ino) a.offset.toNat stop a.offset.toNat
          a.out
        (r.1.map fun _ => stop - a.offset.toNat, r.2)) ∧
    (a.Reads → a.volume.HoldsOf hash D (a.run hash D s).2.2) ∧
    (¬ a.Reads → (a.run hash D s).2.2 = s) := by
  rw [answer, run, Volume.read]
  by_cases hend : a.offset ≥ a.size
  · rw [if_pos hend, if_pos hend]
    exact ⟨rfl, fun hreads => absurd hreads.1 (UInt64.not_lt.2 hend), fun _ => rfl⟩
  rw [if_neg hend, if_neg hend]
  have hsize : a.offset.toNat < a.size.toNat := UInt64.lt_iff_toNat_lt.1 (UInt64.not_le.1 hend)
  have hreads : a.offset.toNat < min a.size.toNat (a.offset.toNat + a.out.length) ↔ a.Reads := by
    have hlen : 0 < a.out.length ↔ a.out ≠ [] := List.length_pos_iff
    rw [Reads, ← hlen, UInt64.lt_iff_toNat_lt]
    omega
  obtain ⟨hanswer, hholds⟩ := @Volume.readWindows_eq hash Workspace D a.volume a.ino a.offset.toNat
    (min a.size.toNat (a.offset.toNat + a.out.length)) a.offset.toNat a.out s
    (fun hlt => h (hreads.1 hlt))
  have hnone : ¬ a.Reads → (a.volume.readWindows hash D a.ino a.offset.toNat
      (min a.size.toNat (a.offset.toNat + a.out.length)) a.offset.toNat a.out s).2.2 = s := by
    intro hno
    rw [Volume.readWindows, dif_neg (fun hlt => hno (hreads.1 hlt))]
  dsimp only
  rw [← hanswer]
  rcases hrun : a.volume.readWindows hash D a.ino a.offset.toNat
    (min a.size.toNat (a.offset.toNat + a.out.length)) a.offset.toNat a.out s with ⟨e | u, out, t⟩
  · rw [hrun] at hholds hnone
    exact ⟨rfl, fun hr => hholds (hreads.2 hr), hnone⟩
  · rw [hrun] at hholds hnone
    exact ⟨rfl, fun hr => hholds (hreads.2 hr), hnone⟩

/-- The search for a raw extent leaves the window alone. -/
theorem Volume.contiguous_window (v : Volume) (ino size : UInt64) (s : Scratch Workspace) :
    (v.contiguous hash ino size s).2.cached = s.cached ∧
      (v.contiguous hash ino size s).2.window = s.window := by
  rw [contiguous]
  split
  · exact ⟨rfl, rfl⟩
  dsimp only
  split
  · exact ⟨rfl, rfl⟩
  split
  · exact ⟨rfl, rfl⟩
  split
  · exact ⟨rfl, rfl⟩
  · exact ⟨rfl, rfl⟩
  · split
    · exact ⟨rfl, rfl⟩
    split
    · exact ⟨rfl, rfl⟩
    split
    · exact ⟨rfl, rfl⟩
    split
    · exact ⟨rfl, rfl⟩
    · exact ⟨rfl, rfl⟩

/-- What the scratch holds is the last volume's. -/
def History.Sound (hash : Bytes → Hash) (D : Decoders Workspace) (h : History Workspace) : Prop :=
  h.1.cached = none ∨ ∃ u, h.2 = some u ∧ u.HoldsOf hash D h.1

/-- Uses that leave the window alone keep the scratch sound. -/
theorem History.Sound.of_window {h : History Workspace} {s : Scratch Workspace}
    (hsound : h.Sound hash D) (hcached : s.cached = h.1.cached) (hwindow : s.window = h.1.window) :
    History.Sound hash D (s, h.2) := by
  rcases hsound with hnone | ⟨u, hu, hholds⟩
  · exact .inl (hcached.trans hnone)
  · refine .inr ⟨u, hu, fun sv ino w n hn => ?_⟩
    rw [hwindow]
    exact hholds sv ino w n (hcached ▸ hn)

/-- A clear read finds a scratch that can be trusted. -/
theorem trusted_of_clear {h : History Workspace} {a : Ask} (hsound : h.Sound hash D)
    (hclear : ClearRead (h, a)) : a.Reads → a.volume.Trusted hash D a.ino
      (Volume.windowAt a.offset.toNat) h.1 := by
  intro hreads n hn
  rcases hsound with hnone | ⟨u, hu, hholds⟩
  · cases hnone.symm.trans hn
  · obtain rfl := Option.some.inj (hu.symm.trans (hclear hreads n hn))
    exact (hholds _ _ _ n hn).2

/-- A clear use keeps the scratch sound. -/
theorem History.Sound.after {h : History Workspace} (hsound : h.Sound hash D) :
    ∀ use, (∀ a, use = .read a → ClearRead (h, a)) → (h.after hash D use).Sound hash D
  | .read a, hclear => by
    obtain ⟨-, hread, hnone⟩ := Ask.run_eq (trusted_of_clear hsound (hclear a rfl))
    by_cases hreads : a.Reads
    · rw [History.after, if_pos hreads]
      exact .inr ⟨_, rfl, hread hreads⟩
    · rw [History.after, if_neg hreads, hnone hreads]
      exact hsound
  | .contiguous v ino size, _ => by
    obtain ⟨hcached, hwindow⟩ := @Volume.contiguous_window hash Workspace v ino size h.1
    exact hsound.of_window hcached hwindow
  | .node b, _ => hsound.of_window rfl rfl

end History

/-! ## Two volumes with one scratch -/

namespace Stale

/-- The key of the first window of file 5. -/
def key : Key := ⟨5, KIND_EXTENT, 0⟩

/-- An extent of one byte, kept in its item. -/
def item (x : UInt8) : Bytes := [0, 0, 0, 0, 1, 0, 0, 0, x]

def leaf (x : UInt8) : Mem := .leaf [(key, item x)]

def header : NodeHeader where
  level := 0
  count := 1
  block := 19
  gen := 1
  owner := 1
  fsid := Vector.replicate 16 0

def sb : Superblock where
  incompat := 0
  roCompat := 0
  compat := 0
  flags := 0
  fsid := Vector.replicate 16 0
  label := Vector.replicate 64 0
  generation := 1
  totalBlocks := 256
  created := 0
  committed := 0
  rootTree := ⟨20, 1, Vector.replicate 32 0, 0⟩
  nextSubvol := 2
  defaultSubvol := 1
  usedBlocks := 21
  sigBlocks := 0

theorem leaf_wellFormed (x : UInt8) : (leaf x).WellFormed := ⟨List.pairwise_singleton _ _, by
  show NODE_HEADER + (ITEM_HEADER + 9 + 0) ≤ BLOCK
  decide⟩

/-- A device with the leaf in block 19. -/
def dev (x : UInt8) : BlockDev where
  read block n := if block = 19 ∧ n = 1 then .ok (encodeMem (leaf x) header) else .error .io
  length_read := by
    intro block n b h
    split at h
    · rename_i hblock
      obtain rfl := Except.ok.inj h
      rw [(encodeMem_parts (leaf_wellFormed x) header).1, hblock.2, Nat.one_mul]
    · cases h

/-- A volume whose file 5 holds one byte. -/
def volume (hash : Bytes → Hash) (x : UInt8) : Volume where
  dev := dev x
  sb := sb
  subvolId := 1
  root := ⟨19, 1, hash (encodeMem (leaf x) header), 0⟩

section Volumes

variable {hash : Bytes → Hash} {Workspace : Type} {D : Decoders Workspace}

/-- A read of the file's byte. -/
def ask (hash : Bytes → Hash) (x : UInt8) : Ask := ⟨volume hash x, 5, 1, 0, [0]⟩

end Volumes

/-- A hash that tells no blocks apart. -/
def hash (_ : Bytes) : Hash := Vector.replicate 32 0

/-- Decoders that refuse everything. -/
def decoders : Decoders Unit where
  lz4 _ out := (.error .truncated, out)
  zstd _ _ out := (.error .truncated, out, ())
  workspace := ()
  length_lz4 _ _ := rfl
  length_zstd _ _ _ := rfl
  lz4_fresh _ _ _ _ := ⟨rfl, fun h => by cases h⟩
  zstd_fresh _ _ _ _ _ _ := ⟨rfl, fun _ h => by cases h⟩

end Stale

end NanoChrono.Ncfs
