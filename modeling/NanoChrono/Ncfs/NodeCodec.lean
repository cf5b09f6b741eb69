import NanoChrono.Ncfs.Node

/-! # The node codec

A block is accepted with a header and decodes to a node exactly when it is that node's encoding under
that header, the node keeps the format's rules and the header names the block that was asked for
(`check_iff`). So every accepted block is determined by what it decodes to, and nothing is hidden in
it. -/

namespace NanoChrono.Ncfs

open Buffer

/-- A part of a piece that a buffer holds. -/
theorem slice_part {b s : Bytes} {pos i m : Nat} (h : slice b pos s.length = s)
    (hin : i + m ≤ s.length) : slice b (pos + i) m = slice s i m := by
  rw [← slice_slice hin, h]

/-! ## Keys and headers -/

theorem Key.read_of_slice {b : Bytes} {pos : Nat} {k : Key}
    (h : slice b pos k.bytes.length = k.bytes) : Key.read b pos = k := by
  have hobj : rd64 b pos = k.obj := by
    apply rd64_of_slice
    have := slice_part h (i := 0) (m := 8) (by simp [KEY_LEN])
    rw [Nat.add_zero] at this
    rw [this, bytes]
    exact slice_first (length_le64 _).symm
  have hkind : rd8 b (pos + 8) = k.kind := by
    apply rd8_of_slice
    rw [slice_part h (by simp [KEY_LEN]), bytes]
    exact slice_middle (by simp) rfl
  have hoff : rd64 b (pos + 9) = k.off := by
    apply rd64_of_slice
    rw [slice_part h (by simp [KEY_LEN]), bytes, ← List.append_assoc]
    exact slice_last (by simp) (length_le64 _).symm
  rw [Key.read, hobj, hkind, hoff]

theorem Key.slice_of_read {b : Bytes} {pos : Nat} (h : pos + KEY_LEN ≤ b.length) :
    slice b pos KEY_LEN = (Key.read b pos).bytes := by
  have h17 : KEY_LEN = 17 := rfl
  rw [Key.bytes, Key.read]
  simp only
  rw [← slice_of_rd64 (by omega), ← slice_of_rd8 (by omega), ← slice_of_rd64 (by omega),
    slice_append_slice, slice_append_slice]
  rfl

@[simp] theorem length_itemHeader (k : Key) (off len : Nat) :
    (itemHeader k off len).length = ITEM_HEADER := by
  simp [itemHeader, KEY_LEN, ITEM_HEADER]

@[simp] theorem length_childEntry (k : Key) (p : Ptr) : (childEntry k p).length = CHILD_ENTRY := by
  simp [childEntry, KEY_LEN, CHILD_ENTRY]

/-- An item's header is read from its own bytes. -/
theorem read_itemHeader {b : Bytes} {pos off len : Nat} {k : Key}
    (h : slice b pos (itemHeader k off len).length = itemHeader k off len) (hoff : off < 65536)
    (hlen : len < 65536) : Key.read b pos = k ∧ (rd16 b (pos + KEY_LEN)).toNat = off ∧
      (rd16 b (pos + KEY_LEN + 2)).toNat = len := by
  have h17 : KEY_LEN = 17 := rfl
  refine ⟨?_, ?_, ?_⟩
  · apply Key.read_of_slice
    have := slice_part h (i := 0) (m := k.bytes.length) (by simp [KEY_LEN, ITEM_HEADER])
    rw [Nat.add_zero] at this
    rw [this, itemHeader]
    exact slice_first rfl
  · have : rd16 b (pos + KEY_LEN) = UInt16.ofNat off := by
      apply rd16_of_slice
      rw [slice_part h (by simp [KEY_LEN, ITEM_HEADER]), itemHeader]
      exact slice_middle (by simp) (by simp)
    rw [this, UInt16.toNat_ofNat_of_lt' hoff]
  · have : rd16 b (pos + KEY_LEN + 2) = UInt16.ofNat len := by
      apply rd16_of_slice
      rw [Nat.add_assoc, slice_part h (by simp [KEY_LEN, ITEM_HEADER]), itemHeader,
        ← List.append_assoc]
      exact slice_last (by simp [KEY_LEN]) (length_le16 _).symm
    rw [this, UInt16.toNat_ofNat_of_lt' hlen]

/-- What is read as an item's header are its bytes. -/
theorem slice_itemHeader {b : Bytes} {pos : Nat} (h : pos + ITEM_HEADER ≤ b.length) :
    slice b pos ITEM_HEADER = itemHeader (Key.read b pos) (rd16 b (pos + KEY_LEN)).toNat
      (rd16 b (pos + KEY_LEN + 2)).toNat := by
  have h17 : KEY_LEN = 17 := rfl
  have h21 : ITEM_HEADER = 21 := rfl
  rw [itemHeader, UInt16.ofNat_toNat, UInt16.ofNat_toNat, ← slice_of_rd16 (by omega),
    ← slice_of_rd16 (by omega), ← Key.slice_of_read (by omega), slice_append_slice,
    slice_append_slice]
  rfl

/-- A child's entry is read from its own bytes. -/
theorem read_childEntry {b : Bytes} {i : Nat} {k : Key} {p : Ptr} {level : UInt8}
    (h : slice b (NODE_HEADER + i * CHILD_ENTRY) (childEntry k p).length = childEntry k p)
    (hlevel : p.level = level - 1) : child b i level = (k, p) := by
  have hkey : Key.read b (NODE_HEADER + i * CHILD_ENTRY) = k := by
    apply Key.read_of_slice
    have := slice_part h (i := 0) (m := k.bytes.length) (by simp [KEY_LEN, CHILD_ENTRY])
    rw [Nat.add_zero] at this
    rw [this, childEntry]
    exact slice_first rfl
  have hblock : rd64 b (NODE_HEADER + i * CHILD_ENTRY + KEY_LEN) = p.block := by
    apply rd64_of_slice
    rw [slice_part h (by simp [KEY_LEN, CHILD_ENTRY]), childEntry]
    exact slice_middle (by simp) (length_le64 _).symm
  have hgen : rd64 b (NODE_HEADER + i * CHILD_ENTRY + KEY_LEN + 8) = p.gen := by
    apply rd64_of_slice
    rw [Nat.add_assoc, slice_part h (by simp [KEY_LEN, CHILD_ENTRY]), childEntry,
      ← List.append_assoc]
    exact slice_middle (by simp [KEY_LEN]) (length_le64 _).symm
  have hhash : rdArray 32 b (NODE_HEADER + i * CHILD_ENTRY + KEY_LEN + 16) = p.hash := by
    apply rdArray_of_slice
    rw [Nat.add_assoc, slice_part h (by simp [KEY_LEN, CHILD_ENTRY]), childEntry,
      ← List.append_assoc, ← List.append_assoc]
    exact slice_last (by simp [KEY_LEN]) Vector.length_toList.symm
  rw [child]
  simp only [hkey, hblock, hgen, hhash, ← hlevel]

/-- What is read as a child's entry are its bytes. -/
theorem slice_childEntry {b : Bytes} {i : Nat} {level : UInt8}
    (h : NODE_HEADER + i * CHILD_ENTRY + CHILD_ENTRY ≤ b.length) :
    slice b (NODE_HEADER + i * CHILD_ENTRY) CHILD_ENTRY =
      childEntry (child b i level).1 (child b i level).2 := by
  have h17 : KEY_LEN = 17 := rfl
  have h65 : CHILD_ENTRY = 65 := rfl
  rw [childEntry, child]
  simp only
  rw [toList_rdArray (by omega), ← slice_of_rd64 (by omega), ← slice_of_rd64 (by omega),
    ← Key.slice_of_read (by omega), slice_append_slice, slice_append_slice, slice_append_slice]
  rfl

/-- A header is read exactly from a block that begins with its bytes. -/
theorem NodeHeader.read_iff {b : Bytes} {h : NodeHeader} :
    NodeHeader.read b = some h ↔ b.length = BLOCK ∧ slice b 0 NODE_HEADER = h.bytes := by
  constructor
  · intro hread
    rw [NodeHeader.read] at hread
    split at hread
    · cases hread
    rename_i hrules
    obtain rfl := Option.some.inj hread
    simp only [not_or, not_not] at hrules
    obtain ⟨hlen, hmagic, hzero, hpad⟩ := hrules
    have hblock : BLOCK = 4096 := rfl
    have hpadding : slice b 48 16 = List.replicate 16 0 := by
      have h16 : (slice b 48 16).length = 16 := by
        rw [length_slice]
        omega
      rw [eq_replicate_zero hpad, h16]
    refine ⟨hlen, ?_⟩
    rw [NodeHeader.bytes]
    simp only
    rw [toList_rdArray (by omega), ← hmagic, ← hpadding, ← hzero, ← slice_of_rd8 (by omega),
      ← slice_of_rd8 (by omega), ← slice_of_rd16 (by omega), ← slice_of_rd64 (by omega),
      ← slice_of_rd64 (by omega), ← slice_of_rd64 (by omega), slice_append_slice,
      slice_append_slice, slice_append_slice, slice_append_slice, slice_append_slice,
      slice_append_slice, slice_append_slice, slice_append_slice]
    rfl
  · rintro ⟨hlen, hbytes⟩
    have hpart : ∀ i m, i + m ≤ NODE_HEADER → slice b i m = slice h.bytes i m := by
      intro i m hin
      rw [← hbytes, slice_slice hin, Nat.zero_add]
    have hmagic : slice b 0 4 = NODE_MAGIC := hpart 0 4 (by decide)
    have hlevel : rd8 b 4 = h.level := rd8_of_slice (hpart 4 1 (by decide))
    have hzero : rd8 b 5 = 0 := rd8_of_slice (hpart 5 1 (by decide))
    have hcount : rd16 b 6 = h.count := rd16_of_slice (hpart 6 2 (by decide))
    have hblock : rd64 b 8 = h.block := rd64_of_slice (hpart 8 8 (by decide))
    have hgen : rd64 b 16 = h.gen := rd64_of_slice (hpart 16 8 (by decide))
    have howner : rd64 b 24 = h.owner := rd64_of_slice (hpart 24 8 (by decide))
    have hbefore : h.bytes = (NODE_MAGIC ++ [h.level] ++ [0] ++ le16 h.count ++ le64 h.block ++
        le64 h.gen ++ le64 h.owner) ++ (h.fsid.toList ++ List.replicate 16 0) := by
      simp [bytes]
    have hfsid : rdArray 16 b 32 = h.fsid := by
      apply rdArray_of_slice
      rw [hpart 32 16 (by decide), hbefore]
      exact slice_middle (by simp [NODE_MAGIC]) Vector.length_toList.symm
    have hpad : slice b 48 16 = List.replicate 16 0 := by
      rw [hpart 48 16 (by decide), hbefore, ← List.append_assoc]
      exact slice_last (by simp [NODE_MAGIC]) (by simp)
    rw [NodeHeader.read, if_neg, hlevel, hcount, hblock, hgen, howner, hfsid]
    simp [hlen, hmagic, hzero, hpad]

/-! ## Leaves -/

/-- The bytes of the items' data. -/
def dataLen (items : List (Key × Bytes)) : Nat := (items.map fun i => i.2.length).sum

@[simp] theorem dataLen_nil : dataLen [] = 0 := rfl

@[simp] theorem dataLen_cons (k : Key) (v : Bytes) (items : List (Key × Bytes)) :
    dataLen ((k, v) :: items) = v.length + dataLen items := by
  simp [dataLen]

/-- Where the item headers of a leaf of `n` items end. -/
def itemsEnd (n : Nat) : Nat := NODE_HEADER + n * ITEM_HEADER

/-- A leaf's pieces are its item headers, in order from the front, and its data, from the back. -/
theorem leafPieces_bounds : ∀ {items : List (Key × Bytes)} {i stop : Nat} {f : Piece UInt8},
    dataLen items ≤ stop → f ∈ leafPieces i stop items →
    (itemsEnd i ≤ f.1 ∧ f.1 + f.2.length ≤ itemsEnd (i + items.length)) ∨
      (stop - dataLen items ≤ f.1 ∧ f.1 + f.2.length ≤ stop)
  | [], _, _, _, _, hf => by simp [leafPieces] at hf
  | (k, v) :: items, i, stop, f, hlen, hf => by
    have h21 : ITEM_HEADER = 21 := rfl
    rw [dataLen_cons] at hlen
    rw [leafPieces, List.mem_cons, List.mem_cons] at hf
    rcases hf with rfl | rfl | hf
    · refine .inl ⟨by rw [itemsEnd], ?_⟩
      rw [length_itemHeader, itemsEnd, List.length_cons, Nat.add_mul, Nat.add_mul]
      omega
    · refine .inr ⟨?_, ?_⟩
      · rw [dataLen_cons]
        show stop - (v.length + dataLen items) ≤ stop - v.length
        omega
      · show stop - v.length + v.length ≤ stop
        omega
    · rw [dataLen_cons, List.length_cons]
      rcases leafPieces_bounds (by omega) hf with ⟨hlow, hhigh⟩ | ⟨hlow, hhigh⟩
      · refine .inl ⟨?_, ?_⟩
        · rw [itemsEnd, Nat.add_mul] at hlow
          rw [itemsEnd]
          omega
        · rwa [show i + 1 + items.length = i + (items.length + 1) by omega] at hhigh
      · exact .inr ⟨by omega, by omega⟩

/-- The pieces of a leaf that fits lie apart. -/
theorem leafPieces_apart : ∀ {items : List (Key × Bytes)} {i stop : Nat},
    itemsEnd (i + items.length) + dataLen items ≤ stop → (leafPieces i stop items).Pairwise Apart
  | [], _, _, _ => .nil
  | (k, v) :: items, i, stop, h => by
    have h21 : ITEM_HEADER = 21 := rfl
    rw [dataLen_cons, List.length_cons, show i + (items.length + 1) = i + 1 + items.length by omega] at h
    have hend : itemsEnd (i + 1) ≤ itemsEnd (i + 1 + items.length) := by
      rw [itemsEnd, itemsEnd, Nat.add_mul (i + 1)]
      omega
    have hfirst : NODE_HEADER + i * ITEM_HEADER + ITEM_HEADER = itemsEnd (i + 1) := by
      rw [itemsEnd, Nat.add_mul]
      omega
    rw [leafPieces]
    refine List.pairwise_cons.2 ⟨fun g hg => ?_, List.pairwise_cons.2 ⟨fun g hg => ?_,
      leafPieces_apart (by omega)⟩⟩
    · -- the header comes before the data and the later items
      refine .inl ?_
      rw [length_itemHeader, hfirst]
      rcases List.mem_cons.1 hg with rfl | hg
      · show itemsEnd (i + 1) ≤ stop - v.length
        omega
      · rcases leafPieces_bounds (by omega) hg with ⟨hlow, -⟩ | ⟨hlow, -⟩ <;> omega
    · -- the later data ends where this begins
      refine .inr ?_
      rcases leafPieces_bounds (by omega) hg with ⟨-, hhigh⟩ | ⟨-, hhigh⟩
      · show g.1 + g.2.length ≤ stop - v.length
        omega
      · exact hhigh

/-- Every byte of the item headers and of the data is some piece's. -/
theorem leafPieces_cover : ∀ {items : List (Key × Bytes)} {i stop p : Nat}, dataLen items ≤ stop →
    ((itemsEnd i ≤ p ∧ p < itemsEnd (i + items.length)) ∨ (stop - dataLen items ≤ p ∧ p < stop)) →
    ∃ f ∈ leafPieces i stop items, Covers f p
  | [], i, stop, p, _, h => by
    simp only [List.length_nil, Nat.add_zero, dataLen_nil] at h
    omega
  | (k, v) :: items, i, stop, p, hlen, h => by
    have h21 : ITEM_HEADER = 21 := rfl
    have hfirst : NODE_HEADER + i * ITEM_HEADER + ITEM_HEADER = itemsEnd (i + 1) := by
      rw [itemsEnd, Nat.add_mul]
      omega
    rw [dataLen_cons] at hlen h
    rw [List.length_cons, show i + (items.length + 1) = i + 1 + items.length by omega] at h
    rw [leafPieces]
    by_cases hheader : itemsEnd i ≤ p ∧ p < itemsEnd (i + 1)
    · refine ⟨_, List.mem_cons_self, hheader.1, ?_⟩
      rw [length_itemHeader, hfirst]
      exact hheader.2
    · by_cases hdata : stop - v.length ≤ p ∧ p < stop
      · refine ⟨_, List.mem_cons_of_mem _ List.mem_cons_self, hdata.1, ?_⟩
        show p < stop - v.length + v.length
        omega
      · have hfirst' : itemsEnd i ≤ itemsEnd (i + 1) := by
          rw [← hfirst, itemsEnd]
          omega
        have hrest : ∃ f ∈ leafPieces (i + 1) (stop - v.length) items, Covers f p :=
          leafPieces_cover (by omega) (by omega)
        obtain ⟨f, hf, hcovers⟩ := hrest
        exact ⟨f, List.mem_cons_of_mem _ (List.mem_cons_of_mem _ hf), hcovers⟩

/-- The items the check accepts are those of the leaf: their headers and data are where they say,
side by side, and their keys ascend. -/
theorem items_of_check {b : Bytes} (hb : b.length = BLOCK) {n : Nat} :
    ∀ {left i stop stop' : Nat} {prev : Option Key}, checkItems b n left i stop prev = some stop' →
    i + left ≤ n → itemsEnd n ≤ stop → stop ≤ BLOCK →
    stop' + dataLen ((List.range' i left).map (leafItem b)) = stop ∧ itemsEnd n ≤ stop' ∧
    (∀ f ∈ leafPieces i stop ((List.range' i left).map (leafItem b)), slice b f.1 f.2.length = f.2) ∧
    (((List.range' i left).map (leafItem b)).map Prod.fst).Pairwise (· < ·) ∧
    ∀ p ∈ prev, ∀ item ∈ (List.range' i left).map (leafItem b), p < item.1
  | 0, i, stop, stop', prev, h, _, hlow, _ => by
    obtain rfl : stop = stop' := Option.some.inj h
    simp [leafPieces, hlow]
  | left + 1, i, stop, stop', prev, h, hn, hlow, hhigh => by
    have h21 : ITEM_HEADER = 21 := rfl
    rw [checkItems] at h
    split at h
    · cases h
    rename_i hrules
    simp only [not_or, not_not, not_lt] at hrules
    obtain ⟨hsum, hoff, hprev⟩ := hrules
    obtain ⟨hstop, hbase, hpieces, hsorted, hafter⟩ := items_of_check hb h (by omega) hoff (by omega)
    have hfirst : NODE_HEADER + i * ITEM_HEADER + ITEM_HEADER ≤ itemsEnd n := by
      have := Nat.mul_le_mul_right ITEM_HEADER (show i + 1 ≤ n by omega)
      rw [Nat.add_mul, Nat.one_mul] at this
      rw [itemsEnd]
      omega
    have hdata : (leafItem b i).2.length =
        (rd16 b (NODE_HEADER + i * ITEM_HEADER + KEY_LEN + 2)).toNat := by
      rw [leafItem, length_slice]
      omega
    have hbegin : stop - (leafItem b i).2.length =
        (rd16 b (NODE_HEADER + i * ITEM_HEADER + KEY_LEN)).toNat := by
      rw [hdata]
      omega
    rw [List.range'_succ, List.map_cons]
    refine ⟨?_, hbase, ?_, ?_, ?_⟩
    · rw [show leafItem b i = ((leafItem b i).1, (leafItem b i).2) from rfl, dataLen_cons, hdata]
      omega
    · intro f hf
      rw [show leafItem b i = ((leafItem b i).1, (leafItem b i).2) from rfl, leafPieces,
        List.mem_cons, List.mem_cons, hbegin] at hf
      rcases hf with rfl | rfl | hf
      · rw [length_itemHeader, slice_itemHeader (by omega), hdata]
        rfl
      · rw [hdata]
        rfl
      · exact hpieces f hf
    · rw [List.map_cons, List.pairwise_cons]
      refine ⟨fun k hk => ?_, hsorted⟩
      obtain ⟨item, hitem, rfl⟩ := List.mem_map.1 hk
      exact hafter _ rfl item hitem
    · intro p hp item hitem
      have hless : p < (leafItem b i).1 := by
        rw [Option.mem_def] at hp
        subst hp
        show p < Key.read b (NODE_HEADER + i * ITEM_HEADER)
        simpa using hprev
      rcases List.mem_cons.1 hitem with rfl | hitem
      · exact hless
      · exact hless.trans (hafter _ rfl item hitem)

/-- Items whose headers and data are where they should be are accepted, and are those read. -/
theorem check_of_items {b : Bytes} (hb : b.length = BLOCK) {n : Nat} :
    ∀ {items : List (Key × Bytes)} {i stop : Nat} {prev : Option Key},
    (∀ f ∈ leafPieces i stop items, slice b f.1 f.2.length = f.2) →
    itemsEnd n + dataLen items ≤ stop → stop ≤ BLOCK →
    (items.map Prod.fst).Pairwise (· < ·) → (∀ p ∈ prev, ∀ item ∈ items, p < item.1) →
    checkItems b n items.length i stop prev = some (stop - dataLen items) ∧
      (List.range' i items.length).map (leafItem b) = items
  | [], i, stop, prev, _, _, _, _, _ => ⟨rfl, rfl⟩
  | (k, v) :: items, i, stop, prev, hpieces, hlen, hstop, hsorted, hprev => by
    have hblock : BLOCK = 4096 := rfl
    rw [dataLen_cons] at hlen
    rw [leafPieces] at hpieces
    obtain ⟨hheader, hrest⟩ := List.forall_mem_cons.1 hpieces
    obtain ⟨hdata, hrest⟩ := List.forall_mem_cons.1 hrest
    rw [List.map_cons, List.pairwise_cons] at hsorted
    obtain ⟨hkey, hoff, hlength⟩ := read_itemHeader hheader (by omega) (by omega)
    have hafter : ∀ p ∈ some k, ∀ item ∈ items, p < item.1 := by
      rintro p hp item hitem
      obtain rfl := Option.some.inj hp
      exact hsorted.1 item.1 (List.mem_map_of_mem hitem)
    obtain ⟨hcheck, hitems⟩ := @check_of_items b hb n items (i + 1) (stop - v.length) (some k) hrest
      (by omega) (by omega) hsorted.2 hafter
    have hitem : leafItem b i = (k, v) := by
      rw [leafItem]
      simp only [hkey, hoff, hlength]
      exact Prod.ext rfl hdata
    refine ⟨?_, ?_⟩
    · rw [List.length_cons, checkItems]
      simp only [hkey, hoff, hlength]
      rw [if_neg, hcheck, dataLen_cons]
      · congr 1
        omega
      · rw [itemsEnd] at hlen
        simp only [not_or, not_not, not_lt]
        refine ⟨by omega, by omega, ?_⟩
        cases hp : prev with
        | none => simp
        | some p => simpa using hprev p hp (k, v) List.mem_cons_self
    · rw [List.length_cons, List.range'_succ, List.map_cons, hitem, hitems]

/-! ## Internal nodes -/

/-- Where the entries of `n` children end. -/
def childrenEnd (n : Nat) : Nat := NODE_HEADER + n * CHILD_ENTRY

theorem childrenEnd_succ (i : Nat) : childrenEnd (i + 1) = childrenEnd i + CHILD_ENTRY := by
  rw [childrenEnd, childrenEnd, Nat.add_mul, Nat.one_mul, Nat.add_assoc]

/-- Child `i` as a node read from disk holds it. -/
def diskChild (b : Bytes) (level : UInt8) (i : Nat) : Key × NodeRef :=
  ((child b i level).1, .disk (child b i level).2)

/-- The children's entries are written in order. -/
theorem childPieces_ordered : ∀ {ch : List (Key × NodeRef)} {i : Nat},
    Ordered (childrenEnd i) (childPieces i ch) (childrenEnd (i + ch.length))
  | [], i => Nat.le_refl _
  | (k, .disk p) :: ch, i => by
    rw [childPieces, List.length_cons, show i + (ch.length + 1) = i + 1 + ch.length by omega]
    refine ⟨Nat.le_refl _, ?_⟩
    rw [length_childEntry, ← childrenEnd, ← childrenEnd_succ]
    exact childPieces_ordered
  | (k, .mem _) :: ch, i => by
    rw [childPieces, List.length_cons, show i + (ch.length + 1) = i + 1 + ch.length by omega]
    exact Ordered.mono (by rw [childrenEnd_succ]; omega) childPieces_ordered

/-- Every byte of the entries of children on disk is some piece's. -/
theorem childPieces_cover : ∀ {ch : List (Key × NodeRef)} {i p : Nat},
    (∀ c ∈ ch, ∃ q, c.2 = .disk q) → childrenEnd i ≤ p → p < childrenEnd (i + ch.length) →
    ∃ f ∈ childPieces i ch, Covers f p
  | [], i, p, _, hlow, hhigh => by
    rw [List.length_nil, Nat.add_zero] at hhigh
    omega
  | (k, .mem j) :: ch, i, p, hdisk, _, _ => by
    obtain ⟨q, hq⟩ := hdisk _ List.mem_cons_self
    cases hq
  | (k, .disk q) :: ch, i, p, hdisk, hlow, hhigh => by
    rw [childPieces]
    by_cases hfirst : p < childrenEnd (i + 1)
    · refine ⟨_, List.mem_cons_self, hlow, ?_⟩
      rw [length_childEntry, ← childrenEnd, ← childrenEnd_succ]
      exact hfirst
    · rw [List.length_cons, show i + (ch.length + 1) = i + 1 + ch.length by omega] at hhigh
      obtain ⟨f, hf, hcovers⟩ := childPieces_cover (fun c hc => hdisk c (List.mem_cons_of_mem _ hc))
        (by omega) hhigh
      exact ⟨f, List.mem_cons_of_mem _ hf, hcovers⟩

/-- The children the check accepts are those read, in ascending order of their keys. -/
theorem children_of_check {b : Bytes} {level : UInt8} : ∀ {left i : Nat} {prev : Option Key},
    checkChildren b left i prev = true → childrenEnd (i + left) ≤ b.length →
    (∀ f ∈ childPieces i ((List.range' i left).map (diskChild b level)),
      slice b f.1 f.2.length = f.2) ∧
    (((List.range' i left).map (diskChild b level)).map Prod.fst).Pairwise (· < ·) ∧
    ∀ p ∈ prev, ∀ c ∈ (List.range' i left).map (diskChild b level), p < c.1
  | 0, i, prev, _, _ => by simp [childPieces]
  | left + 1, i, prev, h, hlen => by
    rw [checkChildren] at h
    split at h
    · cases h
    rename_i hprev
    rw [show i + (left + 1) = i + 1 + left by omega] at hlen
    obtain ⟨hpieces, hsorted, hafter⟩ := children_of_check h hlen
    have hfirst : childrenEnd (i + 1) ≤ childrenEnd (i + 1 + left) := by
      rw [childrenEnd, childrenEnd, Nat.add_mul (i + 1)]
      omega
    rw [childrenEnd_succ, childrenEnd] at hfirst
    rw [List.range'_succ, List.map_cons]
    refine ⟨?_, ?_, ?_⟩
    · rw [diskChild, childPieces]
      refine List.forall_mem_cons.2 ⟨?_, hpieces⟩
      rw [length_childEntry]
      exact slice_childEntry (by omega)
    · rw [List.map_cons, List.pairwise_cons]
      refine ⟨fun k hk => ?_, hsorted⟩
      obtain ⟨c, hc, rfl⟩ := List.mem_map.1 hk
      exact hafter _ rfl c hc
    · intro p hp c hc
      have hless : p < (diskChild b level i).1 := by
        rw [Option.mem_def] at hp
        subst hp
        show p < Key.read b (NODE_HEADER + i * CHILD_ENTRY)
        simpa using hprev
      rcases List.mem_cons.1 hc with rfl | hc
      · exact hless
      · exact hless.trans (hafter _ rfl c hc)

/-- Children whose entries are where they should be are accepted, and are those read. -/
theorem check_of_children {b : Bytes} {level : UInt8} :
    ∀ {ch : List (Key × NodeRef)} {i : Nat} {prev : Option Key},
    (∀ f ∈ childPieces i ch, slice b f.1 f.2.length = f.2) →
    (∀ c ∈ ch, ∃ p, c.2 = .disk p ∧ p.level = level - 1) →
    (ch.map Prod.fst).Pairwise (· < ·) → (∀ p ∈ prev, ∀ c ∈ ch, p < c.1) →
    checkChildren b ch.length i prev = true ∧ (List.range' i ch.length).map (diskChild b level) = ch
  | [], i, prev, _, _, _, _ => ⟨rfl, rfl⟩
  | (k, .mem j) :: ch, i, prev, _, hdisk, _, _ => by
    obtain ⟨q, hq, -⟩ := hdisk _ List.mem_cons_self
    cases hq
  | (k, .disk p) :: ch, i, prev, hpieces, hdisk, hsorted, hprev => by
    rw [childPieces] at hpieces
    obtain ⟨hentry, hrest⟩ := List.forall_mem_cons.1 hpieces
    obtain ⟨hfirst, hdisk⟩ := List.forall_mem_cons.1 hdisk
    rw [List.map_cons, List.pairwise_cons] at hsorted
    obtain ⟨q, hq, hlevel⟩ := hfirst
    obtain rfl := NodeRef.disk.inj hq
    have hread : child b i level = (k, p) := read_childEntry hentry hlevel
    have hkey : Key.read b (NODE_HEADER + i * CHILD_ENTRY) = k := congrArg Prod.fst hread
    have hafter : ∀ q ∈ some k, ∀ c ∈ ch, q < c.1 := by
      rintro q hq c hc
      obtain rfl := Option.some.inj hq
      exact hsorted.1 c.1 (List.mem_map_of_mem hc)
    obtain ⟨hcheck, hch⟩ := check_of_children hrest hdisk hsorted.2 hafter
    refine ⟨?_, ?_⟩
    · rw [List.length_cons, checkChildren]
      simp only [hkey]
      rw [if_neg, hcheck]
      cases hp : prev with
      | none => simp
      | some q => simpa using hprev q hp _ List.mem_cons_self
    · rw [List.length_cons, List.range'_succ, List.map_cons, hch, diskChild, hread]

/-! ## Nodes that keep the rules -/

namespace Mem

/-- The format's rules for a node: ascending keys, within the byte budget, and the children of an
internal node on disk, one level down. -/
def WellFormed : Mem → Prop
  | leaf items => (items.map Prod.fst).Pairwise (· < ·) ∧ (leaf items).size ≤ BLOCK
  | node l ch => (ch.map Prod.fst).Pairwise (· < ·) ∧ 0 < ch.length ∧ ch.length ≤ MAX_CHILDREN ∧
      l ≠ 0 ∧ ∀ c ∈ ch, ∃ p, c.2 = .disk p ∧ p.level = l - 1

/-- Where the free space between a node's headers and its data begins and ends. -/
def gap : Mem → Nat × Nat
  | leaf items => (itemsEnd items.length, BLOCK - dataLen items)
  | node _ ch => (childrenEnd ch.length, BLOCK)

theorem size_leaf (items : List (Key × Bytes)) :
    (leaf items).size = itemsEnd items.length + dataLen items := by
  have hsum : (items.map fun i => ITEM_HEADER + i.2.length).sum =
      items.length * ITEM_HEADER + dataLen items := by
    induction items with
    | nil => simp
    | cons item items ih =>
      obtain ⟨k, v⟩ := item
      rw [List.map_cons, List.sum_cons, ih, dataLen_cons, List.length_cons, Nat.add_mul]
      show ITEM_HEADER + v.length + _ = _
      omega
  rw [size, hsum, itemsEnd, Nat.add_assoc]

theorem childrenEnd_le {n : Nat} (h : n ≤ MAX_CHILDREN) : childrenEnd n ≤ BLOCK := by
  have := Nat.mul_le_mul_right CHILD_ENTRY h
  have : NODE_HEADER + MAX_CHILDREN * CHILD_ENTRY ≤ BLOCK := by decide
  rw [childrenEnd]
  omega

/-- The pieces of a node that keeps the rules lie apart, after the header. -/
theorem WellFormed.placed {m : Mem} (h : m.WellFormed) (header : NodeHeader) :
    Placed ((0, header.bytes) :: m.pieces) (List.replicate BLOCK (0 : UInt8)).length := by
  have h64 : NODE_HEADER = 64 := rfl
  rw [List.length_replicate]
  have hinside : ∀ f ∈ m.pieces, NODE_HEADER ≤ f.1 ∧ f.1 + f.2.length ≤ BLOCK := by
    cases m with
    | leaf items =>
      intro f hf
      have hsize := h.2
      rw [size_leaf] at hsize
      have hlow : NODE_HEADER ≤ itemsEnd items.length := Nat.le_add_right _ _
      rcases leafPieces_bounds (by omega) hf with ⟨hf₁, hf₂⟩ | ⟨hf₁, hf₂⟩
      · rw [Nat.zero_add] at hf₂
        have : NODE_HEADER ≤ itemsEnd 0 := Nat.le_add_right _ _
        omega
      · omega
    | node l ch =>
      intro f hf
      obtain ⟨hf₁, hf₂⟩ := childPieces_ordered.bounds f hf
      rw [Nat.zero_add] at hf₂
      have hlow : NODE_HEADER ≤ childrenEnd 0 := Nat.le_add_right _ _
      have := childrenEnd_le h.2.2.1
      omega
  have hapart : m.pieces.Pairwise Apart := by
    cases m with
    | leaf items =>
      have hsize := h.2
      rw [size_leaf] at hsize
      exact leafPieces_apart (by rwa [Nat.zero_add])
    | node l ch => exact childPieces_ordered.placed.apart
  refine ⟨List.forall_mem_cons.2 ⟨?_, fun f hf => (hinside f hf).2⟩,
    List.pairwise_cons.2 ⟨fun f hf => .inl ?_, hapart⟩⟩
  · rw [NodeHeader.length_bytes]
    show 0 + NODE_HEADER ≤ BLOCK
    decide
  · rw [NodeHeader.length_bytes]
    have := (hinside f hf).1
    omega

/-- What no piece covers lies between the headers and the data. -/
theorem WellFormed.uncovered {m : Mem} (h : m.WellFormed) {header : NodeHeader} {i : Nat}
    (hi : i < BLOCK) (hnone : ∀ f ∈ (0, header.bytes) :: m.pieces, ¬ Covers f i) :
    m.gap.1 ≤ i ∧ i < m.gap.2 := by
  have hheader : NODE_HEADER ≤ i := by
    by_contra hlt
    refine hnone _ List.mem_cons_self ⟨Nat.zero_le _, ?_⟩
    rw [NodeHeader.length_bytes]
    omega
  have hpieces : ∀ f ∈ m.pieces, ¬ Covers f i := fun f hf => hnone f (List.mem_cons_of_mem _ hf)
  by_contra hgap
  cases m with
  | leaf items =>
    have hsize := h.2
    rw [size_leaf] at hsize
    have hzero : itemsEnd 0 = NODE_HEADER := by rw [itemsEnd, Nat.zero_mul, Nat.add_zero]
    simp only [gap] at hgap
    have hcover : ∃ f ∈ leafPieces 0 BLOCK items, Covers f i := by
      refine leafPieces_cover (by omega) ?_
      rw [Nat.zero_add, hzero]
      omega
    obtain ⟨f, hf, hcovers⟩ := hcover
    exact hpieces f hf hcovers
  | node l ch =>
    have hzero : childrenEnd 0 = NODE_HEADER := by rw [childrenEnd, Nat.zero_mul, Nat.add_zero]
    simp only [gap] at hgap
    have hdisk : ∀ c ∈ ch, ∃ q, c.2 = .disk q := fun c hc => by
      obtain ⟨p, hp, -⟩ := h.2.2.2.2 c hc
      exact ⟨p, hp⟩
    have hcover : ∃ f ∈ childPieces 0 ch, Covers f i := by
      refine childPieces_cover hdisk ?_ ?_
      · omega
      · rw [Nat.zero_add]
        omega
    obtain ⟨f, hf, hcovers⟩ := hcover
    exact hpieces f hf hcovers

/-- No piece reaches into the gap. -/
theorem WellFormed.gap_free {m : Mem} (h : m.WellFormed) {header : NodeHeader} :
    ∀ f ∈ (0, header.bytes) :: m.pieces, f.1 + f.2.length ≤ m.gap.1 ∨ m.gap.2 ≤ f.1 := by
  have hheader : NODE_HEADER ≤ m.gap.1 := by
    cases m <;> exact Nat.le_add_right _ _
  refine List.forall_mem_cons.2 ⟨.inl ?_, fun f hf => ?_⟩
  · rw [NodeHeader.length_bytes]
    show 0 + NODE_HEADER ≤ m.gap.1
    omega
  · cases m with
    | leaf items =>
      have hsize := h.2
      rw [size_leaf] at hsize
      rcases leafPieces_bounds (by omega) hf with ⟨-, hf₂⟩ | ⟨hf₁, -⟩
      · rw [Nat.zero_add] at hf₂
        exact .inl hf₂
      · exact .inr hf₁
    | node l ch =>
      have hf₂ := (childPieces_ordered.bounds f hf).2
      rw [Nat.zero_add] at hf₂
      exact .inl hf₂

end Mem

/-! ## The codec -/

/-- The header of a node's block: it counts what the node holds, and it names the block, the write
and the volume of the pointer that led to it and a tree of the class asked for. -/
structure NodeHeader.Names (h : NodeHeader) (m : Mem) (ptr : Ptr) (fsid : Vector UInt8 16)
    (owner : UInt64) : Prop where
  level : h.level = m.level
  count : h.count.toNat = m.len
  block : h.block = ptr.block
  gen : h.gen = ptr.gen
  ptrLevel : h.level = ptr.level
  fsid : h.fsid = fsid
  owner : h.owner = 0 ↔ owner = 0
  small : h.level.toNat < MAX_LEVEL

/-- The rules of the header that do not look at the items. -/
theorem classOk_iff (a b : UInt64) : ((a == 0) == (b == 0)) = true ↔ (a = 0 ↔ b = 0) := by
  rw [beq_iff_eq, Bool.eq_iff_iff, beq_iff_eq, beq_iff_eq]

/-- A block that holds a well-formed node's pieces, and zeros in the gap, is its encoding. -/
theorem eq_encodeMem {b : Bytes} {m : Mem} {h : NodeHeader} (hb : b.length = BLOCK)
    (hm : m.WellFormed) (hheader : slice b 0 NODE_HEADER = h.bytes)
    (hpieces : ∀ f ∈ m.pieces, slice b f.1 f.2.length = f.2)
    (hgap : (slice b m.gap.1 (m.gap.2 - m.gap.1)).any (· ≠ 0) = false) : b = encodeMem m h := by
  refine eq_writeAll (hm.placed h) (by rw [List.length_replicate, hb]) ?_ ?_
  · refine List.forall_mem_cons.2 ⟨?_, hpieces⟩
    rw [NodeHeader.length_bytes]
    exact hheader
  · intro i hi hnone
    rw [List.length_replicate] at hi
    obtain ⟨hlow, hhigh⟩ := hm.uncovered hi hnone
    have hmem : b[i] ∈ slice b m.gap.1 (m.gap.2 - m.gap.1) := by
      refine List.mem_of_getElem? (i := i - m.gap.1) ?_
      rw [getElem?_slice, if_pos (by omega), show m.gap.1 + (i - m.gap.1) = i by omega]
      exact List.getElem?_eq_getElem _
    have hzero : b[i] = 0 := by
      have := List.any_eq_false.1 hgap _ hmem
      simpa using this
    rw [List.getElem?_eq_getElem (by omega), hzero, List.getElem?_replicate, if_pos hi]

/-- The parts of an encoding. -/
theorem encodeMem_parts {m : Mem} (hm : m.WellFormed) (h : NodeHeader) :
    (encodeMem m h).length = BLOCK ∧ slice (encodeMem m h) 0 NODE_HEADER = h.bytes ∧
      (∀ f ∈ m.pieces, slice (encodeMem m h) f.1 f.2.length = f.2) ∧
        (slice (encodeMem m h) m.gap.1 (m.gap.2 - m.gap.1)).any (· ≠ 0) = false := by
  have hplaced := hm.placed h
  refine ⟨?_, ?_, fun f hf => slice_writeAll hplaced (List.mem_cons_of_mem _ hf), ?_⟩
  · rw [encodeMem, length_writeAll hplaced, List.length_replicate]
  · have hheader : slice (encodeMem m h) 0 h.bytes.length = h.bytes :=
      slice_writeAll hplaced List.mem_cons_self
    rwa [NodeHeader.length_bytes] at hheader
  · have hgap : slice (encodeMem m h) m.gap.1 (m.gap.2 - m.gap.1) =
        slice (List.replicate BLOCK 0) m.gap.1 (m.gap.2 - m.gap.1) := by
      by_cases hle : m.gap.1 ≤ m.gap.2
      · refine slice_writeAll_of_apart hplaced fun f hf => ?_
        rw [show m.gap.1 + (m.gap.2 - m.gap.1) = m.gap.2 by omega]
        exact hm.gap_free f hf
      · rw [show m.gap.2 - m.gap.1 = 0 by omega, slice_zero, slice_zero]
    rw [hgap, List.any_eq_false]
    intro x hx
    have := List.eq_of_mem_replicate (List.mem_of_mem_drop (List.mem_of_mem_take hx))
    simp [this]

/-- What an accepted leaf decodes to keeps the rules, and the block is its encoding. -/
theorem encoded_of_checkLeaf {b : Bytes} {ptr : Ptr} {h h' : NodeHeader} (hleaf : h.level = 0)
    (hb : b.length = BLOCK) (hbytes : slice b 0 NODE_HEADER = h.bytes)
    (hcheck : checkLeaf b ptr h = .ok h') : h = h' ∧ h.level = (decodeNode b h).level ∧
      h.count.toNat = (decodeNode b h).len ∧ (decodeNode b h).WellFormed ∧
        b = encodeMem (decodeNode b h) h := by
  rw [checkLeaf] at hcheck
  split at hcheck
  · cases hcheck
  rename_i hfits
  split at hcheck
  · cases hcheck
  rename_i stop hitems
  split at hcheck
  · cases hcheck
  rename_i hzero
  rw [Bool.not_eq_true] at hzero
  obtain ⟨hstop, hlow, hpieces, hsorted, -⟩ := items_of_check hb hitems (by omega)
    (by rw [itemsEnd]; omega) (Nat.le_refl _)
  have hm : decodeNode b h = .leaf ((List.range' 0 h.count.toNat).map (leafItem b)) := by
    rw [decodeNode, if_pos hleaf, List.range_eq_range']
  have hlen : ((List.range' 0 h.count.toNat).map (leafItem b)).length = h.count.toNat := by
    rw [List.length_map, List.length_range']
  have hwf : (Mem.leaf ((List.range' 0 h.count.toNat).map (leafItem b))).WellFormed := by
    refine ⟨hsorted, ?_⟩
    rw [Mem.size_leaf, hlen]
    omega
  rw [hm]
  refine ⟨Except.ok.inj hcheck, hleaf, hlen.symm, hwf, eq_encodeMem hb hwf hbytes hpieces ?_⟩
  rw [Mem.gap, hlen, show BLOCK - dataLen _ = stop by omega]
  exact hzero

/-- What an accepted internal node decodes to keeps the rules, and the block is its encoding. -/
theorem encoded_of_checkInternal {b : Bytes} {ptr : Ptr} {h h' : NodeHeader} (hleaf : h.level ≠ 0)
    (hb : b.length = BLOCK) (hbytes : slice b 0 NODE_HEADER = h.bytes)
    (hcheck : checkInternal b ptr h = .ok h') : h = h' ∧ h.level = (decodeNode b h).level ∧
      h.count.toNat = (decodeNode b h).len ∧ (decodeNode b h).WellFormed ∧
        b = encodeMem (decodeNode b h) h := by
  rw [checkInternal] at hcheck
  split at hcheck
  · cases hcheck
  rename_i hcount
  split at hcheck
  · cases hcheck
  rename_i hchildren
  split at hcheck
  · cases hcheck
  rename_i hzero
  rw [Bool.not_eq_true] at hzero
  rw [Bool.not_eq_false] at hchildren
  obtain ⟨hpos, hmax⟩ := not_or.1 hcount
  have hend := Mem.childrenEnd_le (Nat.le_of_not_lt hmax)
  obtain ⟨hpieces, hsorted, -⟩ := @children_of_check b h.level _ _ _ hchildren
    (by rw [Nat.zero_add]; omega)
  have hm : decodeNode b h =
      .node h.level ((List.range' 0 h.count.toNat).map (diskChild b h.level)) := by
    rw [decodeNode, if_neg hleaf, List.range_eq_range']
    rfl
  have hlen : ((List.range' 0 h.count.toNat).map (diskChild b h.level)).length = h.count.toNat := by
    rw [List.length_map, List.length_range']
  have hwf : (Mem.node h.level
      ((List.range' 0 h.count.toNat).map (diskChild b h.level))).WellFormed := by
    refine ⟨hsorted, by omega, by omega, hleaf, fun c hc => ?_⟩
    obtain ⟨i, -, rfl⟩ := List.mem_map.1 hc
    exact ⟨_, rfl, rfl⟩
  rw [hm]
  refine ⟨Except.ok.inj hcheck, rfl, hlen.symm, hwf, eq_encodeMem hb hwf hbytes hpieces ?_⟩
  rw [Mem.gap, hlen, slice, List.take_of_length_le (by rw [List.length_drop, hb])]
  exact hzero

/-- What an accepted block decodes to keeps the rules, and the block is its encoding. -/
theorem encoded_of_check {hash : Bytes → Hash} {b : Bytes} {ptr : Ptr} {fsid : Vector UInt8 16}
    {owner : UInt64} {h : NodeHeader} (hcheck : checkNode hash b ptr fsid owner = .ok h) :
    hash b = ptr.hash ∧ h.Names (decodeNode b h) ptr fsid owner ∧ (decodeNode b h).WellFormed ∧
      b = encodeMem (decodeNode b h) h := by
  rw [checkNode] at hcheck
  split at hcheck
  · cases hcheck
  rename_i hhash
  rw [not_not] at hhash
  split at hcheck
  · cases hcheck
  rename_i header hread
  dsimp only at hcheck
  split at hcheck
  · cases hcheck
  rename_i hnames
  simp only [not_or, not_not, not_le, ge_iff_le] at hnames
  obtain ⟨hblock, hgen, hlevel, hfsid, hclass, hsmall⟩ := hnames
  obtain ⟨hb, hbytes⟩ := NodeHeader.read_iff.1 hread
  have hparts : header = h ∧ header.level = (decodeNode b header).level ∧
      header.count.toNat = (decodeNode b header).len ∧ (decodeNode b header).WellFormed ∧
        b = encodeMem (decodeNode b header) header := by
    split at hcheck
    · rename_i hleaf
      exact encoded_of_checkLeaf hleaf hb hbytes hcheck
    · rename_i hleaf
      exact encoded_of_checkInternal hleaf hb hbytes hcheck
  obtain ⟨rfl, hl, hc, hwf, henc⟩ := hparts
  exact ⟨hhash, ⟨hl, hc, hblock, hgen, hlevel, hfsid, (classOk_iff _ _).1 hclass, hsmall⟩, hwf, henc⟩

/-- A leaf's encoding passes the leaf's rules, and decodes to the leaf. -/
theorem checkLeaf_encoded {ptr : Ptr} {h : NodeHeader} {items : List (Key × Bytes)}
    (hlevel : h.level = 0) (hcount : h.count.toNat = items.length)
    (hm : (Mem.leaf items).WellFormed) :
    checkLeaf (encodeMem (.leaf items) h) ptr h = .ok h ∧
      decodeNode (encodeMem (.leaf items) h) h = .leaf items := by
  obtain ⟨hb, -, hpieces, hgap⟩ := encodeMem_parts hm h
  have hsize := hm.2
  rw [Mem.size_leaf] at hsize
  have hend : NODE_HEADER + items.length * ITEM_HEADER = itemsEnd items.length := rfl
  have hnone : ∀ p ∈ (none : Option Key), ∀ item ∈ items, p < item.1 := by
    intro p hp
    cases hp
  obtain ⟨hitems, hread⟩ := check_of_items hb hpieces hsize (Nat.le_refl _) hm.1 hnone
  refine ⟨?_, ?_⟩
  · rw [checkLeaf]
    simp only [hcount, hend]
    rw [if_neg (by omega), hitems]
    dsimp only
    rw [Mem.gap] at hgap
    rw [if_neg (by rw [hgap]; exact Bool.false_ne_true)]
  · rw [decodeNode, if_pos hlevel, hcount, List.range_eq_range', hread]

/-- An internal node's encoding passes the internal node's rules, and decodes to the node. -/
theorem checkInternal_encoded {ptr : Ptr} {h : NodeHeader} {ch : List (Key × NodeRef)}
    (hcount : h.count.toNat = ch.length) (hm : (Mem.node h.level ch).WellFormed) :
    checkInternal (encodeMem (.node h.level ch) h) ptr h = .ok h ∧
      decodeNode (encodeMem (.node h.level ch) h) h = .node h.level ch := by
  obtain ⟨hb, -, hpieces, hgap⟩ := encodeMem_parts hm h
  obtain ⟨hsorted, hpos, hmax, hlevel, hdisk⟩ := hm
  have hend : NODE_HEADER + ch.length * CHILD_ENTRY = childrenEnd ch.length := rfl
  have hnone : ∀ p ∈ (none : Option Key), ∀ c ∈ ch, p < c.1 := by
    intro p hp
    cases hp
  obtain ⟨hchildren, hread⟩ := check_of_children hpieces hdisk hsorted hnone
  refine ⟨?_, ?_⟩
  · rw [checkInternal]
    simp only [hcount, hend]
    rw [if_neg (by omega), if_neg (by rw [hchildren]; exact Bool.noConfusion), if_neg]
    -- the entries reach to no further than the gap's end, which is the block's
    rw [Mem.gap, slice, List.take_of_length_le (by rw [List.length_drop, hb])] at hgap
    rw [hgap]
    exact Bool.false_ne_true
  · rw [decodeNode, if_neg hlevel, hcount, List.range_eq_range']
    exact congrArg (Mem.node h.level) hread

/-- The encoding of a node that keeps the rules is accepted, and decodes to the node. -/
theorem check_encoded {hash : Bytes → Hash} {ptr : Ptr} {fsid : Vector UInt8 16} {owner : UInt64}
    {h : NodeHeader} {m : Mem} (hhash : hash (encodeMem m h) = ptr.hash)
    (hnames : h.Names m ptr fsid owner) (hm : m.WellFormed) :
    checkNode hash (encodeMem m h) ptr fsid owner = .ok h ∧ decodeNode (encodeMem m h) h = m := by
  obtain ⟨hb, hbytes, -, -⟩ := encodeMem_parts hm h
  have hread : NodeHeader.read (encodeMem m h) = some h := NodeHeader.read_iff.2 ⟨hb, hbytes⟩
  have hclass : ((h.owner == 0) == (owner == 0)) = true := (classOk_iff _ _).2 hnames.owner
  have hsmall : ¬ h.level.toNat ≥ MAX_LEVEL := Nat.not_le.2 hnames.small
  have hrules : checkNode hash (encodeMem m h) ptr fsid owner =
      if h.level = 0 then checkLeaf (encodeMem m h) ptr h
      else checkInternal (encodeMem m h) ptr h := by
    rw [checkNode, if_neg (not_not.2 hhash), hread]
    dsimp only
    rw [if_neg]
    simp only [not_or, not_not]
    exact ⟨hnames.block, hnames.gen, hnames.ptrLevel, hnames.fsid, hclass, hsmall⟩
  rw [hrules]
  cases m with
  | leaf items =>
    have hlevel : h.level = 0 := hnames.level
    rw [if_pos hlevel]
    exact checkLeaf_encoded hlevel hnames.count hm
  | node l ch =>
    obtain rfl : h.level = l := hnames.level
    rw [if_neg hm.2.2.2.1]
    exact checkInternal_encoded hnames.count hm

/-- A block is accepted with a header and decodes to a node exactly when it is that node's encoding
under the header, the node keeps the format's rules, and the header names what was asked for. -/
theorem check_iff (hash : Bytes → Hash) (b : Bytes) (ptr : Ptr) (fsid : Vector UInt8 16)
    (owner : UInt64) (h : NodeHeader) (m : Mem) :
    (checkNode hash b ptr fsid owner = .ok h ∧ decodeNode b h = m) ↔
      (hash b = ptr.hash ∧ h.Names m ptr fsid owner ∧ m.WellFormed ∧ b = encodeMem m h) := by
  constructor
  · rintro ⟨hcheck, rfl⟩
    exact encoded_of_check hcheck
  · rintro ⟨hhash, hnames, hm, rfl⟩
    exact check_encoded hhash hnames hm

end NanoChrono.Ncfs
