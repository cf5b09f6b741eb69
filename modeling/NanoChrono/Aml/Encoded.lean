import NanoChrono.Aml.Grammar

/-! # Reading what is encoded

Bytes that stand at a position of a table (`At`), and readings that step over them by exactly their length or find
nothing (`Passes`): these compose as the bytes do. Names, package lengths and data objects are read so. -/

namespace NanoChrono.Aml

/-! ## Bytes at a position -/

/-- The bytes stand in the table from a position on. -/
def At (code : Bytes) (pos : Nat) (bytes : Bytes) : Prop := bytes <+: code.drop pos

section

variable {code : Bytes} {pos : Nat}

theorem At.left {a b : Bytes} (h : At code pos (a ++ b)) : At code pos a := (List.prefix_append a b).trans h

theorem At.right {a b : Bytes} (h : At code pos (a ++ b)) : At code (pos + a.length) b := by
  obtain ⟨rest, hrest⟩ := h
  refine ⟨rest, ?_⟩
  rw [← List.drop_drop, ← hrest, List.append_assoc, List.drop_left]

theorem At.head {b : UInt8} {bytes : Bytes} (h : At code pos (b :: bytes)) : code[pos]? = some b := by
  obtain ⟨rest, hrest⟩ := h
  have hget : (code.drop pos)[0]? = some b := by rw [← hrest]; rfl
  rwa [List.getElem?_drop, Nat.add_zero] at hget

theorem At.tail {b : UInt8} {bytes : Bytes} (h : At code pos (b :: bytes)) : At code (pos + 1) bytes :=
  At.right (a := [b]) h

/-- Bytes that stand in the table end in it. -/
theorem At.le {bytes : Bytes} (h : At code pos bytes) (hne : bytes ≠ []) : pos + bytes.length ≤ code.length := by
  have hlen := h.length_le
  rw [List.length_drop] at hlen
  have hpos := List.length_pos_of_ne_nil hne
  omega

theorem peek_at {b : UInt8} {bytes : Bytes} (h : At code pos (b :: bytes)) : (peek code).from pos = (some b, pos) :=
  congrArg (·, pos) h.head

theorem byte_at {b : UInt8} {bytes : Bytes} (h : At code pos (b :: bytes)) :
    (byte code).from pos = (some b, pos + 1) := by
  rw [from_byte, h.head]

theorem take_at {bytes : Bytes} (h : At code pos bytes) (hne : bytes ≠ []) :
    (take code bytes.length).from pos = (some bytes, pos + bytes.length) := by
  show (if pos + bytes.length ≤ code.length then (some ((code.drop pos).take bytes.length), pos + bytes.length)
    else (none, pos)) = _
  rw [if_pos (h.le hne)]
  obtain ⟨rest, hrest⟩ := h
  rw [← hrest, List.take_left]

end

/-! ## Readings that pass -/

section

variable {α β : Type} (code : Bytes)

/-- A reading steps over bytes by their length, wherever they stand, or it finds nothing there. -/
def Passes (x : Read α) (bytes : Bytes) (ok : Bool) : Prop := ∀ pos, At code pos bytes →
  if ok then ∃ a, x.from pos = (some a, pos + bytes.length) else (x.from pos).1 = none

/-- Nothing is found behind a reading that finds nothing. -/
theorem from_bind_none {x : Read α} {f : α → Read β} {pos : Nat} (h : (x.from pos).1 = none) :
    (Read.from (x >>= f) pos).1 = none := by
  rw [from_bind]
  rcases hrun : x.from pos with ⟨_ | a, next⟩
  · rfl
  · rw [hrun] at h
    cases h

variable {code} {x : Read α} {bytes rest : Bytes} {ok ok' : Bool}

theorem Passes.pure (a : α) : Passes code (Pure.pure a : Read α) [] true := fun _ _ => ⟨a, rfl⟩

theorem Passes.bind {f : α → Read β} (hx : Passes code x bytes ok) (hf : ∀ a, Passes code (f a) rest ok') :
    Passes code (x >>= f) (bytes ++ rest) (ok && ok') := by
  intro pos hat
  have hfirst := hx pos hat.left
  cases ok with
  | false => exact from_bind_none hfirst
  | true =>
    obtain ⟨a, ha⟩ := hfirst
    rw [from_bind, ha, List.length_append, ← Nat.add_assoc]
    exact hf a _ hat.right

/-- A reading that only gives what it reads on. -/
theorem Passes.map {f : α → β} (hx : Passes code x bytes ok) :
    Passes code (do let a ← x; Pure.pure (f a)) bytes ok := by
  have h := hx.bind (f := fun a => (Pure.pure (f a) : Read β)) fun a => .pure (f a)
  rwa [List.append_nil, Bool.and_true] at h

theorem Passes.byte (b : UInt8) : Passes code (byte code) [b] true := fun _ hat => ⟨b, byte_at hat⟩

theorem Passes.skipByte (b : UInt8) : Passes code (skipByte code) [b] true := (Passes.byte b).map

theorem Passes.advance {n : Nat} (h : bytes.length = n) : Passes code (advance n) bytes true :=
  fun pos _ => ⟨(), by rw [h]; rfl⟩

/-- A reading that finds nothing where another would not either. -/
theorem Passes.of_eq {y : Read α} (h : ∀ pos, At code pos bytes → x.from pos = y.from pos)
    (hy : Passes code y bytes ok) : Passes code x bytes ok := by
  intro pos hat
  rw [h pos hat]
  exact hy pos hat

theorem Passes.take (h : bytes ≠ []) : Passes code (take code bytes.length) bytes true :=
  fun _ hat => ⟨bytes, take_at hat h⟩

end

/-! ## Names -/

section

variable {code : Bytes}

theorem Seg.encode_length (s : Seg) : s.encode.length = 4 := s.chars.size_toArray

theorem seg_bytes (v : NameSeg) :
    #v[v.toList[0]?.getD 0, v.toList[1]?.getD 0, v.toList[2]?.getD 0, v.toList[3]?.getD 0] = v := by
  refine Vector.ext fun i hi => ?_
  match i, hi with
  | 0, _ => simp
  | 1, _ => simp
  | 2, _ => simp
  | 3, _ => simp

theorem segment_at {pos : Nat} (s : Seg) (h : At code pos s.encode) :
    (segment code).from pos = (some s.chars, pos + 4) := by
  have hlen := s.encode_length
  have hne : s.encode ≠ [] := by
    intro hnil
    rw [hnil] at hlen
    cases hlen
  have htake := take_at h hne
  rw [hlen] at htake
  show Read.from (_ >>= _) pos = _
  rw [from_bind, htake]
  exact congrArg (fun seg => (some seg, pos + 4)) (seg_bytes s.chars)

/-! ## Paths -/

theorem Path.push_room {p : Path} (h : p.segments.length < MAX_PATH) (s : NameSeg) :
    (p.push s).1.segments = p.segments ++ [s] ∧ (p.push s).2 = true := by
  unfold Path.push
  rw [dif_pos h]
  exact ⟨rfl, rfl⟩

theorem Path.push_full {p : Path} (h : ¬p.segments.length < MAX_PATH) (s : NameSeg) : p.push s = (p, false) := by
  unfold Path.push
  rw [dif_neg h]

theorem Path.pushAll_cons (p : Path) (s : NameSeg) (segs : List NameSeg) :
    p.pushAll (s :: segs) = (((p.push s).1.pushAll segs).1, (p.push s).2 && ((p.push s).1.pushAll segs).2) := by
  -- Whether all fit is gathered on the way, from whatever was found before.
  have hgather : ∀ (segs : List NameSeg) (p : Path) (b : Bool),
      segs.foldl (fun x s => ((x.1.push s).1, x.2 && (x.1.push s).2)) (p, b) =
        ((p.pushAll segs).1, b && (p.pushAll segs).2) := by
    intro segs
    induction segs with
    | nil => exact fun p b => by simp [Path.pushAll]
    | cons s segs ih =>
      intro p b
      rw [Path.pushAll, List.foldl_cons, List.foldl_cons, ih, ih, Bool.and_assoc, Bool.true_and]
  rw [Path.pushAll, List.foldl_cons, hgather, Bool.true_and]

/-- Segments that fit are all pushed. -/
theorem Path.pushAll_room (segs : List NameSeg) : ∀ {p : Path}, p.segments.length + segs.length ≤ MAX_PATH →
    (p.pushAll segs).1.segments = p.segments ++ segs ∧ (p.pushAll segs).2 = true := by
  induction segs with
  | nil => exact fun _ => ⟨(List.append_nil _).symm, rfl⟩
  | cons s segs ih =>
    intro p h
    rw [List.length_cons] at h
    obtain ⟨hpush, hroom⟩ := Path.push_room (p := p) (by omega) s
    obtain ⟨hall, hfit⟩ := ih (p := (p.push s).1) (by rw [hpush, List.length_append, List.length_singleton]; omega)
    rw [Path.pushAll_cons, hall, hpush, hroom, hfit, List.append_assoc]
    exact ⟨rfl, rfl⟩

/-- Segments of which some do not fit are found out. -/
theorem Path.pushAll_full (segs : List NameSeg) : ∀ {p : Path}, ¬p.segments.length + segs.length ≤ MAX_PATH →
    (p.pushAll segs).2 = false := by
  induction segs with
  | nil => exact fun {p} h => absurd p.fits h
  | cons s segs ih =>
    intro p h
    rw [Path.pushAll_cons]
    by_cases hroom : p.segments.length < MAX_PATH
    · obtain ⟨hpush, -⟩ := Path.push_room hroom s
      rw [ih (p := (p.push s).1) (by rw [hpush, List.length_append, List.length_singleton, List.length_cons] at *; omega)]
      exact Bool.and_false _
    · rw [Path.push_full hroom]
      rfl

/-! ## Names -/

/-- The path that a name is read as. -/
def NameString.read (n : NameString) : Path := (Path.root.pushAll n.segs).1

def NameString.isAbsolute (n : NameString) : Bool := n.root = .absolute

/-- Segments that are pushed one after another. -/
theorem segments_at (segs : List Seg) : ∀ {pos : Nat} (path : Path), At code pos (segs.flatMap Seg.encode) →
    (segments code segs.length path).from pos =
      (some (path.pushAll (segs.map Seg.chars)).1, pos + (segs.flatMap Seg.encode).length) := by
  induction segs with
  | nil => exact fun path _ => rfl
  | cons s segs ih =>
    intro pos path h
    rw [List.flatMap_cons] at h ⊢
    show Read.from (_ >>= _) pos = _
    rw [from_bind, segment_at s h.left]
    dsimp only
    have hright := h.right
    rw [s.encode_length] at hright
    rw [ih _ hright, List.map_cons, Path.pushAll_cons, List.length_append, s.encode_length, Nat.add_assoc]

/-- Segments that all have to fit. -/
theorem segmentsFit_at (segs : List Seg) : ∀ {pos : Nat} (path : Path), At code pos (segs.flatMap Seg.encode) →
    if (path.pushAll (segs.map Seg.chars)).2 then
      (segmentsFit code segs.length path).from pos =
        (some (path.pushAll (segs.map Seg.chars)).1, pos + (segs.flatMap Seg.encode).length)
    else ((segmentsFit code segs.length path).from pos).1 = none := by
  induction segs with
  | nil => exact fun path _ => rfl
  | cons s segs ih =>
    intro pos path h
    rw [List.flatMap_cons] at h ⊢
    have hright := h.right
    rw [s.encode_length] at hright
    have hrest := ih (path.push s.chars).1 hright
    have hrun : (segmentsFit code (s :: segs).length path).from pos =
        Read.from (if (path.push s.chars).2 then segmentsFit code segs.length (path.push s.chars).1 else failure)
          (pos + 4) := by
      show Read.from (_ >>= _) pos = _
      rw [from_bind, segment_at s h.left]
    rw [hrun, List.map_cons, Path.pushAll_cons, List.length_append, s.encode_length, ← Nat.add_assoc]
    cases (path.push s.chars).2 with
    | true => simpa using hrest
    | false => rfl

/-- A segment begins with its lead character, which no prefix is. -/
theorem Seg.encode_head (s : Seg) : ∃ b rest, s.encode = b :: rest ∧ isLead b = true := by
  refine ⟨s.chars[0], s.encode.tail, ?_, s.lead⟩
  have hget : s.encode[0]? = some s.chars[0] := by simp [Seg.encode]
  cases h : s.encode with
  | nil => rw [h] at hget; cases hget
  | cons b rest =>
    rw [h] at hget
    obtain rfl := Option.some.inj hget
    rfl

theorem isLead_ne {b c : UInt8} (hb : isLead b = true) (hc : isLead c = false) : b ≠ c := by
  rintro rfl
  rw [hb] at hc
  cases hc

/-- A name path does not begin as a marker does. -/
theorem NamePath.encode_head (p : NamePath) : ∃ b rest, p.encode = b :: rest ∧ b ≠ 0x5C ∧ b ≠ 0x5E := by
  cases p with
  | null => exact ⟨0x00, [], rfl, by decide, by decide⟩
  | seg s =>
    obtain ⟨b, rest, hb, hl⟩ := s.encode_head
    exact ⟨b, rest, hb, isLead_ne hl rfl, isLead_ne hl rfl⟩
  | dual s t => exact ⟨0x2E, _, rfl, by decide, by decide⟩
  | multi segs h => exact ⟨0x2F, _, rfl, by decide, by decide⟩

/-- The markers in front of a name path. -/
theorem markers_at {pos : Nat} (root : Root) (path : NamePath) (h : At code pos (root.encode ++ path.encode)) :
    (markers code).from pos = (some (decide (root = .absolute)), pos + root.encode.length) := by
  obtain ⟨b, rest, hb, hroot, hparent⟩ := path.encode_head
  cases root with
  | absolute =>
    show Read.from (_ >>= _) pos = _
    rw [from_bind, peek_at (h.left : At code pos [0x5C])]
    rfl
  | parents n =>
    rw [hb] at h
    cases n with
    | zero =>
      show Read.from (_ >>= _) pos = _
      rw [from_bind, peek_at h]
      dsimp only
      rw [if_neg hroot, if_neg hparent]
      rfl
    | succ n =>
      show Read.from (_ >>= _) pos = _
      rw [from_bind, peek_at h]
      have hcarets : carets code pos = n + 1 := by
        obtain ⟨rest', hrest⟩ := h
        unfold carets
        rw [← hrest, Root.encode, List.append_assoc, List.takeWhile_append_of_pos (by simp)]
        simp [hparent]
      show ((some false, pos + carets code pos) : Option Bool × Nat) = _
      rw [hcarets, Root.encode, List.length_replicate]
      rfl

/-- A name path is read as its segments, if a path can be held that has them. -/
theorem namePath_at {pos : Nat} (path : NamePath) (h : At code pos path.encode) :
    ∃ b rest, path.encode = b :: rest ∧
      if path.segs.length ≤ MAX_PATH then
        (namePath code b).from pos = (some (Path.root.pushAll path.segs).1, pos + path.encode.length)
      else ((namePath code b).from pos).1 = none := by
  cases path with
  | null => exact ⟨0x00, [], rfl, rfl⟩
  | seg s =>
    obtain ⟨b, rest, hb, hl⟩ := s.encode_head
    refine ⟨b, rest, hb, ?_⟩
    have hone : [s].flatMap Seg.encode = s.encode := by simp
    have hsegs := segments_at [s] .root (hone.symm ▸ (show At code pos s.encode from h))
    rw [hone] at hsegs
    unfold namePath
    rw [if_neg (isLead_ne hl rfl), if_neg (isLead_ne hl rfl), if_neg (isLead_ne hl rfl)]
    exact hsegs
  | dual s t =>
    refine ⟨0x2E, _, rfl, ?_⟩
    have htail : At code (pos + 1) ([s, t].flatMap Seg.encode) := by simpa using h.tail
    have hsegs := segments_at [s, t] .root htail
    have hlen : ([s, t].flatMap Seg.encode).length = (s.encode ++ t.encode).length := by simp
    rw [hlen, Nat.add_assoc, Nat.add_comm 1] at hsegs
    exact hsegs
  | multi segs hcount =>
    refine ⟨0x2F, _, rfl, ?_⟩
    have hsegs := segmentsFit_at segs .root h.tail.tail
    have hrun : (namePath code 0x2F).from pos = (segmentsFit code segs.length .root).from (pos + 1 + 1) := by
      show Read.from (byte code >>= _) (pos + 1) = _
      rw [from_bind, byte_at h.tail]
      dsimp only
      rw [UInt8.toNat_ofNat_of_lt' hcount]
    have hlen : (NamePath.multi segs hcount).encode.length = (segs.flatMap Seg.encode).length + 1 + 1 := rfl
    rw [hrun, hlen]
    show if (segs.map Seg.chars).length ≤ MAX_PATH then
      _ = (some (Path.root.pushAll (segs.map Seg.chars)).1, _) else _
    by_cases hfits : (segs.map Seg.chars).length ≤ MAX_PATH
    · have hroom := (Path.pushAll_room (segs.map Seg.chars) (p := .root) (by simpa [Path.root] using hfits)).2
      rw [if_pos hroom] at hsegs
      rw [if_pos hfits, hsegs]
      exact congrArg (_, ·) (by omega)
    · have hfull := Path.pushAll_full (segs.map Seg.chars) (p := .root) (by simpa [Path.root] using hfits)
      rw [hfull] at hsegs
      rw [if_neg hfits]
      exact hsegs

/-- A name is read as its segments, if a path can be held that has them. -/
theorem name_at {pos : Nat} (n : NameString) (h : At code pos n.encode) :
    if n.fits then (name code).from pos = (some (n.read, n.isAbsolute), pos + n.encode.length)
    else ((name code).from pos).1 = none := by
  obtain ⟨b, rest, hb, hpath⟩ := namePath_at n.path h.right
  have hrun : (name code).from pos = Read.from (do
      let path ← namePath code b
      pure (path, n.isAbsolute)) (pos + n.root.encode.length) := by
    show Read.from (_ >>= _) pos = _
    rw [from_bind, markers_at n.root n.path h]
    show Read.from (_ >>= _) (pos + n.root.encode.length) = _
    rw [from_bind, peek_at (hb ▸ h.right)]
    rfl
  have hlen : n.encode.length = n.root.encode.length + n.path.encode.length := List.length_append
  rw [hrun, hlen, ← Nat.add_assoc]
  by_cases hfits : n.path.segs.length ≤ MAX_PATH
  · rw [if_pos hfits] at hpath
    rw [if_pos (show n.fits = true from decide_eq_true hfits), from_bind, hpath]
    rfl
  · rw [if_neg hfits] at hpath
    have hnot : ¬n.fits = true := fun h => hfits (of_decide_eq_true h)
    rw [if_neg hnot]
    exact from_bind_none hpath

theorem Passes.name (n : NameString) : Passes code (name code) n.encode n.fits := by
  intro pos hat
  have h := name_at n hat
  cases hfits : n.fits with
  | true =>
    rw [hfits] at h
    exact ⟨_, h⟩
  | false =>
    rw [hfits] at h
    exact h

theorem Passes.skipName (n : NameString) : Passes code (skipName code) n.encode n.fits := (Passes.name n).map

/-! ## Packages -/

theorem leBytes_length (n : Nat) : ∀ value, (leBytes n value).length = n := by
  induction n with
  | zero => exact fun _ => rfl
  | succ n ih => exact fun value => congrArg (· + 1) (ih _)

theorem lengthBytes_at (n : Nat) : ∀ {pos value : Nat}, value < 256 ^ n → At code pos (leBytes n value) →
    (lengthBytes code n).from pos = (some value, pos + n) := by
  induction n with
  | zero =>
    intro pos value hlt _
    rw [Nat.lt_one_iff.mp hlt]
    rfl
  | succ n ih =>
    intro pos value hlt hat
    rw [Nat.pow_succ] at hlt
    have hrest := ih (Nat.div_lt_of_lt_mul (by omega)) hat.tail
    show Read.from (_ >>= _) pos = _
    rw [from_bind, byte_at hat]
    show Read.from (lengthBytes code n >>= _) (pos + 1) = _
    rw [from_bind, hrest, UInt8.toNat_ofNat_of_lt' (Nat.mod_lt _ (by decide))]
    exact Prod.ext (congrArg some (Nat.mod_add_div value 256)) (by simp; omega)

theorem pkgLength_length (width total : Nat) : (pkgLength width total).length = width + 1 := by
  unfold pkgLength
  split
  · rename_i h
    rw [h]
    rfl
  · rw [List.length_cons, leBytes_length]

theorem pack_length (width : Nat) (body : Bytes) : (pack width body).length = width + 1 + body.length := by
  rw [pack, List.length_append, pkgLength_length]

/-- A package length is read as what it was written from. -/
theorem lengthFrom_at {pos width total : Nat} (hfits : PkgFits width total) (h : At code pos (pkgLength width total)) :
    ∃ lead, (byte code).from pos = (some lead, pos + 1) ∧
      (lengthFrom code lead).from (pos + 1) = (some total, pos + width + 1) := by
  unfold pkgLength at h
  unfold PkgFits at hfits
  by_cases hwidth : width = 0
  · rw [if_pos hwidth] at h hfits
    refine ⟨_, byte_at h, ?_⟩
    unfold lengthFrom
    rw [UInt8.toNat_ofNat_of_lt' (show total < 256 by omega), if_pos (Nat.div_eq_of_lt hfits), hwidth, Nat.mod_eq_of_lt hfits]
    rfl
  · rw [if_neg hwidth] at h hfits
    obtain ⟨hle, hlt⟩ := hfits
    refine ⟨_, byte_at h, ?_⟩
    have hlead : (64 * width + total % 16) / 64 = width := by omega
    have hlow : (64 * width + total % 16) % 16 = total % 16 := by omega
    unfold lengthFrom
    rw [UInt8.toNat_ofNat_of_lt' (show 64 * width + total % 16 < 256 by omega), hlead, hlow, if_neg hwidth, from_bind,
      lengthBytes_at width (Nat.div_lt_of_lt_mul hlt) h.tail]
    exact Prod.ext (congrArg some (Nat.mod_add_div total 16)) (by show pos + 1 + width = pos + width + 1; omega)

/-- A package is found to be what its body was written as. -/
theorem package_at {pos width : Nat} {body : Bytes} (hfits : PackFits width body) (h : At code pos (pack width body)) :
    (package code).from pos = (some ⟨pos + width + 1, pos + width + 1 + body.length⟩, pos + width + 1) := by
  have hlen := pack_length width body
  have hend := h.le (by
    intro hnil
    rw [hnil] at hlen
    cases hlen.trans (Nat.add_right_comm width 1 body.length))
  rw [hlen] at hend
  obtain ⟨lead, hlead, htotal⟩ := lengthFrom_at hfits h.left
  show Read.from (position >>= _) pos = _
  rw [from_bind]
  show Read.from (byte code >>= _) pos = _
  rw [from_bind, hlead]
  dsimp only
  rw [from_bind, htotal]
  show Read.from (if pos + (width + 1 + body.length) > code.length ∨ pos + (width + 1 + body.length) < pos + width + 1
    then failure else pure (⟨pos + width + 1, pos + (width + 1 + body.length)⟩ : Span)) (pos + width + 1) = _
  rw [if_neg (by omega), ← Nat.add_assoc, ← Nat.add_assoc]
  rfl

/-- What stands in a package's body. -/
theorem At.body {pos width : Nat} {body : Bytes} (h : At code pos (pack width body)) :
    At code (pos + width + 1) body := by
  have hright := h.right
  rwa [pkgLength_length, ← Nat.add_assoc] at hright

theorem Passes.skipPackage {width : Nat} {body : Bytes} (hfits : PackFits width body) :
    Passes code (skipPackage code) (pack width body) true := by
  intro pos hat
  refine ⟨(), ?_⟩
  show Read.from (package code >>= _) pos = _
  rw [from_bind, package_at hfits hat, pack_length]
  exact Prod.ext rfl (by show pos + width + 1 + body.length = _; omega)

end

end NanoChrono.Aml
