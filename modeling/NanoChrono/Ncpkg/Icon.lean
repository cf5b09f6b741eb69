import Mathlib.Algebra.BigOperators.Group.Finset.Basic
import Mathlib.Algebra.Order.BigOperators.Group.Finset
import Mathlib.Data.Finset.Prod
import Mathlib.Data.List.Nodup
import Mathlib.Data.List.ProdSigma
import Mathlib.Order.Interval.Finset.Nat
import Mathlib.Tactic.Linarith
import Mathlib.Tactic.Ring

/-! # Package icons

An icon is scaled to a thumbnail row by row: each of its pixels is added to one sum of five, in words of 32
bits that wrap around. What the sums ought to be is said in numbers without a bound. -/

namespace NanoChrono.Ncpkg.Icon

abbrev Bytes := List UInt8

def MIN_SIDE : UInt32 := 16

def MAX_SIDE : UInt32 := 512

/-- A pixel of RGBA8. -/
structure Pixel where
  r : UInt8
  g : UInt8
  b : UInt8
  a : UInt8
deriving DecidableEq, Repr

/-- The bytes of a pixel. -/
def Pixel.bytes (px : Pixel) : Bytes := [px.r, px.g, px.b, px.a]

/-- The pixels of a row. Bytes that make no pixel at its end are left out. -/
@[grind =] def pixels : Bytes → List Pixel
  | r :: g :: b :: a :: rest => ⟨r, g, b, a⟩ :: pixels rest
  | _ => []

/-- What is summed up for a pixel of the thumbnail: premultiplied R, G, B, then A, and the weight. -/
inductive Part where
  | r
  | g
  | b
  | a
  | weight
deriving DecidableEq, Repr

/-- What a pixel adds to each sum. -/
def Pixel.part (px : Pixel) : Part → Nat
  | .r => px.r.toNat * px.a.toNat
  | .g => px.g.toNat * px.a.toNat
  | .b => px.b.toNat * px.a.toNat
  | .a => px.a.toNat
  | .weight => 1

/-- The sums of one pixel of the thumbnail. -/
abbrev Cell := Part → UInt32

/-- A thumbnail in the making, with room for `N` pixels. -/
structure Thumb (N : Nat) where
  src : UInt32
  size : UInt32
  acc : Vector Cell N

namespace Thumb

variable {N : Nat}

/-- A thumbnail of `size` × `size` pixels, from a square source of `src` pixels a side. The product is one of
32 bits. -/
def new (N : Nat) (src size : UInt32) : Option (Thumb N) :=
  if size = 0 ∨ N < (size * size).toNat ∨ src = 0 then none
  else some ⟨src, size, Vector.replicate N fun _ => 0⟩

/-- The cell that the pixel of row `y` and column `x` is added to. -/
def place (src size : UInt32) (y x : Nat) : Nat :=
  (UInt32.ofNat (y * size.toNat / src.toNat) * size + UInt32.ofNat (x * size.toNat / src.toNat)).toNat

/-- Adds a pixel to cell `i`, if there is one. -/
def count (t : Thumb N) (i : Nat) (px : Pixel) : Thumb N :=
  if h : i < N then { t with acc := t.acc.set i fun k => t.acc[i] k + .ofNat (px.part k) } else t

/-- The pixels of row `y` from column `x` on. -/
def rowFrom (t : Thumb N) (y x : Nat) : List Pixel → Thumb N
  | [] => t
  | px :: rest => (t.count (place t.src t.size y x) px).rowFrom y (x + 1) rest

/-- One source row, of RGBA8. -/
def row (t : Thumb N) (y : UInt32) (rgba : Bytes) : Thumb N := t.rowFrom y.toNat 0 (pixels rgba)

/-- The pixel of a cell: what nothing was added to, or nothing but transparent pixels, is transparent. -/
def shade (c : Cell) : Pixel :=
  if c .weight = 0 ∨ c .a = 0 then ⟨0, 0, 0, 0⟩
  else ⟨(c .r / c .a).toUInt8, (c .g / c .a).toUInt8, (c .b / c .a).toUInt8, (c .a / c .weight).toUInt8⟩

/-- The thumbnail as RGBA8, as far as `out` has room for its pixels. -/
def finish (t : Thumb N) (out : Bytes) : Bytes :=
  let shades := (t.acc.toList.take (t.size * t.size).toNat).map shade
  let shown := (shades.take (out.length / 4)).flatMap Pixel.bytes
  shown ++ out.drop shown.length

end Thumb

/-! ## Icons -/

/-- An icon of a side that the rules allow, with a pixel in each row and column. -/
structure Picture where
  side : UInt32
  pixel : Nat → Nat → Pixel
  side_ge : MIN_SIDE ≤ side
  side_le : side ≤ MAX_SIDE

namespace Picture

variable {N : Nat}

/-- A row, as it is decoded. -/
def row (icon : Picture) (y : Nat) : Bytes := (List.range icon.side.toNat).flatMap fun x => (icon.pixel y x).bytes

/-- All rows are fed, from the first on. -/
def feed (icon : Picture) (t : Thumb N) : Thumb N :=
  (List.range icon.side.toNat).foldl (fun t y => t.row (.ofNat y) (icon.row y)) t

/-- The rows and columns of the pixels. -/
def points (icon : Picture) : Finset (Nat × Nat) := Finset.range icon.side.toNat ×ˢ Finset.range icon.side.toNat

/-- What some pixels add up to. -/
def total (icon : Picture) (area : Finset (Nat × Nat)) (k : Part) : Nat :=
  ∑ p ∈ area, (icon.pixel p.1 p.2).part k

/-- The premultiplied average of some pixels, rounded down. Transparent pixels only are transparent. -/
def average (icon : Picture) (area : Finset (Nat × Nat)) : Pixel :=
  let mean (k : Part) := UInt8.ofNat (icon.total area k / icon.total area .a)
  ⟨mean .r, mean .g, mean .b, .ofNat (icon.total area .a / icon.total area .weight)⟩

/-- The pixels of an icon are shared out among those of a thumbnail, none of which goes without, the sums are
what they ought to be, and each pixel of the thumbnail is the average of its share. -/
structure Averaged (icon : Picture) (size : UInt32) (t : Thumb N) (area : Nat → Finset (Nat × Nat)) : Prop where
  nonempty : ∀ i < size.toNat * size.toNat, (area i).Nonempty
  subset : ∀ i < size.toNat * size.toNat, area i ⊆ icon.points
  once : ∀ p ∈ icon.points, ∃! i, i < size.toNat * size.toNat ∧ p ∈ area i
  sums : ∀ i < size.toNat * size.toNat, ∃ c, t.acc[i]? = some c ∧ ∀ k, (c k).toNat = icon.total (area i) k
  shade : ∀ i < size.toNat * size.toNat, ∀ out : Bytes, out.length = 4 * (size.toNat * size.toNat) →
    (pixels (t.finish out))[i]? = some (icon.average (area i))

/-- The thumbnail is what the averages make of the icon, and of one opaque colour if the icon is. -/
def TrueAverages (icon : Picture) (size : UInt32) (t : Thumb N) : Prop :=
  (∃ area, icon.Averaged size t area) ∧
    ∀ colour : Pixel, colour.a = 255 → (∀ p ∈ icon.points, icon.pixel p.1 p.2 = colour) →
      ∀ out : Bytes, out.length = 4 * (size.toNat * size.toNat) →
        pixels (t.finish out) = List.replicate (size.toNat * size.toNat) colour

end Picture

/-! ## Rows and pixels -/

theorem pixels_flatMap (shades : List Pixel) (rest : Bytes) :
    pixels (shades.flatMap Pixel.bytes ++ rest) = shades ++ pixels rest := by
  induction shades with
  | nil => rfl
  | cons px shades ih =>
    rw [List.flatMap_cons, List.append_assoc]
    exact congrArg (px :: ·) ih

theorem length_flatMap_bytes (shades : List Pixel) : (shades.flatMap Pixel.bytes).length = 4 * shades.length := by
  induction shades with
  | nil => rfl
  | cons px shades ih =>
    rw [List.flatMap_cons, List.length_append, ih, List.length_cons]
    change 4 + _ = _
    ring

theorem Picture.pixels_row (icon : Picture) (y : Nat) :
    pixels (icon.row y) = (List.range icon.side.toNat).map (icon.pixel y) := by
  have h := pixels_flatMap ((List.range icon.side.toNat).map (icon.pixel y)) []
  rw [List.append_nil, List.flatMap_map] at h
  exact h.trans (List.append_nil _)

namespace Thumb

variable {N : Nat} (t : Thumb N)

@[simp]
theorem count_src (i : Nat) (px : Pixel) : (t.count i px).src = t.src := by
  unfold count
  split <;> rfl

@[simp]
theorem count_size (i : Nat) (px : Pixel) : (t.count i px).size = t.size := by
  unfold count
  split <;> rfl

/-- One cell is added to. -/
theorem count_acc (i : Nat) (px : Pixel) (j : Nat) :
    (t.count i px).acc[j]? =
      t.acc[j]?.map fun c k => if i = j then c k + .ofNat (px.part k) else c k := by
  unfold count
  split
  case isTrue hi =>
    rw [Vector.getElem?_set]
    split
    case isTrue hij =>
      subst hij
      simp [hi]
    case isFalse hij => cases t.acc[j]? <;> rfl
  case isFalse hi =>
    by_cases hj : j < N
    · rw [Vector.getElem?_eq_getElem hj, Option.map_some]
      simp only [show i ≠ j by omega, if_false]
    · rw [Vector.getElem?_eq_none (by omega), Option.map_none]

/-- A pixel is added at its place. -/
def add (pixel : Nat → Nat → Pixel) (t : Thumb N) (p : Nat × Nat) : Thumb N :=
  t.count (place t.src t.size p.1 p.2) (pixel p.1 p.2)

theorem rowFrom_eq (pixel : Nat → Nat → Pixel) (y x n : Nat) :
    t.rowFrom y x ((List.range' x n).map (pixel y)) =
      ((List.range' x n).map (y, ·)).foldl (add pixel) t := by
  induction n generalizing t x with
  | zero => rfl
  | succ n ih => exact ih _ (x + 1)

/-- The sums of a cell are those of the pixels whose place it is. -/
theorem foldl_add_acc (pixel : Nat → Nat → Pixel) (points : List (Nat × Nat)) (j : Nat) :
    (points.foldl (add pixel) t).acc[j]? = t.acc[j]?.map fun c k =>
      c k + .ofNat ((points.filter fun p => place t.src t.size p.1 p.2 = j).map
        fun p => (pixel p.1 p.2).part k).sum := by
  induction points generalizing t with
  | nil =>
    have hid : (fun (c : Cell) k => c k + UInt32.ofNat 0) = id := by
      funext c k
      exact UInt32.add_zero (c k)
    simp only [List.foldl_nil, List.filter_nil, List.map_nil, List.sum_nil, hid, Option.map_id_fun, id]
  | cons p points ih =>
    rw [List.foldl_cons, ih, add, count_acc, count_src, count_size, Option.map_map]
    congr 1
    funext c k
    by_cases hp : place t.src t.size p.1 p.2 = j
    · simp [hp, UInt32.add_assoc]
    · simp [hp]

@[simp]
theorem foldl_add_size (pixel : Nat → Nat → Pixel) (points : List (Nat × Nat)) :
    (points.foldl (add pixel) t).size = t.size := by
  induction points generalizing t with
  | nil => rfl
  | cons p points ih => rw [List.foldl_cons, ih, add, count_size]

end Thumb

namespace Picture

variable {N : Nat} (icon : Picture)

/-- The points row by row. -/
def pointList : List (Nat × Nat) :=
  (List.range icon.side.toNat).flatMap fun y => (List.range icon.side.toNat).map (y, ·)

theorem feed_eq (t : Thumb N) : icon.feed t = icon.pointList.foldl (Thumb.add icon.pixel) t := by
  rw [feed, pointList, List.foldl_flatMap]
  refine List.foldl_ext _ _ t fun t y hy => ?_
  have hsmall : y < 2 ^ 32 := (List.mem_range.1 hy).trans icon.side.toNat_lt
  rw [Thumb.row, icon.pixels_row, UInt32.toNat_ofNat_of_lt' hsmall, List.range_eq_range']
  exact t.rowFrom_eq icon.pixel y 0 icon.side.toNat

theorem toFinset_pointList : icon.pointList.toFinset = icon.points := by
  ext p
  simp [pointList, points, Prod.ext_iff]

theorem nodup_pointList : icon.pointList.Nodup :=
  (List.nodup_range).product List.nodup_range

/-- What a list of the points that have a property adds up to. -/
theorem sum_filter_pointList (q : Nat × Nat → Prop) [DecidablePred q] (k : Part) :
    ((icon.pointList.filter fun p => q p).map fun p => (icon.pixel p.1 p.2).part k).sum =
      icon.total {p ∈ icon.points | q p} k := by
  rw [total, ← toFinset_pointList, ← List.sum_toFinset _ (icon.nodup_pointList.filter _)]
  congr 1
  ext p
  simp

/-- The area of the icon that is added to one cell. -/
def areaOf (size : UInt32) (j : Nat) : Finset (Nat × Nat) :=
  {p ∈ icon.points | Thumb.place icon.side size p.1 p.2 = j}

/-- The sums of a cell of the finished thumbnail. -/
theorem feed_acc {size : UInt32} {t : Thumb N} (hnew : Thumb.new N icon.side size = some t) (j : Nat) (hj : j < N) :
    ∃ c, (icon.feed t).acc[j]? = some c ∧ ∀ k, c k = .ofNat (icon.total (icon.areaOf size j) k) := by
  rw [Thumb.new, Option.ite_none_left_eq_some, Option.some.injEq] at hnew
  obtain ⟨-, rfl⟩ := hnew
  rw [feed_eq, Thumb.foldl_add_acc]
  simp only [Vector.getElem?_replicate, if_pos hj, Option.map_some]
  refine ⟨_, rfl, fun k => ?_⟩
  rw [icon.sum_filter_pointList (fun p => Thumb.place icon.side size p.1 p.2 = j)]
  exact UInt32.zero_add _

theorem feed_size {size : UInt32} {t : Thumb N} (hnew : Thumb.new N icon.side size = some t) :
    (icon.feed t).size = size ∧ (size * size).toNat ≤ N := by
  rw [Thumb.new, Option.ite_none_left_eq_some, Option.some.injEq] at hnew
  obtain ⟨hroom, rfl⟩ := hnew
  rw [feed_eq, Thumb.foldl_add_size]
  exact ⟨rfl, by omega⟩

end Picture

/-! ## Scaling down

Where the thumbnail is not larger than the icon, each of its pixels is the place of some. -/

namespace Picture

variable {N : Nat} (icon : Picture)

theorem side_bounds : 16 ≤ icon.side.toNat ∧ icon.side.toNat ≤ 512 :=
  ⟨UInt32.le_iff_toNat_le.1 icon.side_ge, UInt32.le_iff_toNat_le.1 icon.side_le⟩

variable {size : UInt32} (hpos : 0 < size.toNat) (hle : size.toNat ≤ icon.side.toNat)

/-- A coordinate of the icon has its place within the thumbnail. -/
theorem scaled_lt {n m x : Nat} (hx : x < n) (hm : 0 < m) : x * m / n < m := by
  rw [Nat.div_lt_iff_lt_mul (by omega), Nat.mul_comm m n]
  exact Nat.mul_lt_mul_of_pos_right hx hm

/-- The row of the icon that a row of the thumbnail is reached at. -/
theorem exists_scaled {n m d : Nat} (hm : 0 < m) (hmn : m ≤ n) (hd : d < m) : ∃ x < n, x * m / n = d := by
  have hn : 0 < n := by omega
  have hlow : d * n ≤ (d * n + m - 1) / m * m := by
    have := Nat.div_add_mod' (d * n + m - 1) m
    have := Nat.mod_lt (d * n + m - 1) hm
    omega
  have hhigh : (d * n + m - 1) / m * m < (d + 1) * n := by
    have := Nat.div_mul_le_self (d * n + m - 1) m
    rw [Nat.add_mul]
    omega
  refine ⟨(d * n + m - 1) / m, ?_, ?_⟩
  · have hbound : (d + 1) * n ≤ m * n := Nat.mul_le_mul_right n hd
    rw [Nat.mul_comm m n] at hbound
    exact Nat.lt_of_mul_lt_mul_right (hhigh.trans_le hbound)
  · exact Nat.div_eq_of_lt_le hlow hhigh

/-- A row of the thumbnail is made of as many rows as fit its share, rounded up. -/
theorem card_scaled_le {n m c : Nat} (d : Nat) (hn : n ≤ c * m) :
    ((Finset.range n).filter fun x => x * m / n = d).card ≤ c := by
  rcases Nat.eq_zero_or_pos n with rfl | hpos
  · simp
  have hm : 0 < m := by
    rcases Nat.eq_zero_or_pos m with rfl | hm
    · omega
    · exact hm
  have hsub : ((Finset.range n).filter fun x => x * m / n = d) ⊆
      Finset.Ico ((d * n + m - 1) / m) ((d * n + m - 1) / m + c) := by
    intro x hx
    obtain ⟨-, hx⟩ := Finset.mem_filter.1 hx
    have hlow : d * n ≤ x * m := by
      rw [← hx]
      exact Nat.div_mul_le_self _ _
    have hhigh : x * m < d * n + n := by
      have := Nat.lt_div_mul_add (a := x * m) hpos
      rwa [hx] at this
    have := Nat.div_add_mod' (d * n + m - 1) m
    have := Nat.mod_lt (d * n + m - 1) hm
    refine Finset.mem_Ico.2 ⟨?_, ?_⟩
    · refine Nat.lt_succ_iff.1 ((Nat.div_lt_iff_lt_mul hm).2 ?_)
      rw [Nat.succ_mul]
      omega
    · refine Nat.lt_of_mul_lt_mul_right (a := m) ?_
      rw [Nat.add_mul]
      omega
  exact (Finset.card_le_card hsub).trans (by simp)

include hpos hle in
/-- With a thumbnail that is not larger than the icon, no place is out of the 32 bits. -/
theorem place_eq {p : Nat × Nat} (hp : p ∈ icon.points) :
    Thumb.place icon.side size p.1 p.2 =
      p.1 * size.toNat / icon.side.toNat * size.toNat + p.2 * size.toNat / icon.side.toNat := by
  obtain ⟨hy, hx⟩ := Finset.mem_product.1 hp
  have hy := scaled_lt (Finset.mem_range.1 hy) hpos
  have hx := scaled_lt (Finset.mem_range.1 hx) hpos
  have hside := icon.side_bounds.2
  have hsquare : size.toNat * size.toNat ≤ 512 * 512 := Nat.mul_le_mul (by omega) (by omega)
  simp only [Thumb.place, UInt32.toNat_add, UInt32.toNat_mul, UInt32.toNat_ofNat']
  generalize p.1 * size.toNat / icon.side.toNat = dy at hy ⊢
  generalize p.2 * size.toNat / icon.side.toNat = dx at hx ⊢
  have hcell : dy * size.toNat + dx < size.toNat * size.toNat := by nlinarith
  rw [Nat.mod_eq_of_lt (a := dy) (by omega), Nat.mod_eq_of_lt (a := dx) (by omega),
    Nat.mod_eq_of_lt (a := dy * size.toNat) (by omega), Nat.mod_eq_of_lt (by omega)]

include hpos hle in
/-- No pixel of the thumbnail goes without. -/
theorem areaOf_nonempty {i : Nat} (hi : i < size.toNat * size.toNat) : (icon.areaOf size i).Nonempty := by
  have hrow : i / size.toNat < size.toNat := (Nat.div_lt_iff_lt_mul hpos).2 hi
  obtain ⟨y, hy, hdy⟩ := exists_scaled hpos hle hrow
  obtain ⟨x, hx, hdx⟩ := exists_scaled hpos hle (Nat.mod_lt i hpos)
  have hp : (y, x) ∈ icon.points := Finset.mem_product.2 ⟨Finset.mem_range.2 hy, Finset.mem_range.2 hx⟩
  refine ⟨(y, x), Finset.mem_filter.2 ⟨hp, ?_⟩⟩
  rw [icon.place_eq hpos hle hp, hdy, hdx]
  exact Nat.div_add_mod' i size.toNat

include hpos hle in
/-- Every pixel of the icon has one place in the thumbnail. -/
theorem areaOf_once {p : Nat × Nat} (hp : p ∈ icon.points) :
    ∃! i, i < size.toNat * size.toNat ∧ p ∈ icon.areaOf size i := by
  obtain ⟨hy, hx⟩ := Finset.mem_product.1 hp
  have hy := scaled_lt (Finset.mem_range.1 hy) hpos
  have hx := scaled_lt (Finset.mem_range.1 hx) hpos
  refine ⟨Thumb.place icon.side size p.1 p.2, ⟨?_, Finset.mem_filter.2 ⟨hp, rfl⟩⟩, ?_⟩
  · rw [icon.place_eq hpos hle hp]
    nlinarith
  · rintro i ⟨-, hi⟩
    exact (Finset.mem_filter.1 hi).2.symm

/-- No sum has more than the pixels of its area. -/
theorem total_le (area : Finset (Nat × Nat)) (k : Part) : icon.total area k ≤ area.card * (255 * 255) := by
  refine Finset.sum_le_card_nsmul _ _ _ fun p _ => ?_
  have hr := (icon.pixel p.1 p.2).r.toNat_lt
  have hg := (icon.pixel p.1 p.2).g.toNat_lt
  have hb := (icon.pixel p.1 p.2).b.toNat_lt
  have ha := (icon.pixel p.1 p.2).a.toNat_lt
  cases k with
  | r => exact Nat.mul_le_mul (by omega) (by omega)
  | g => exact Nat.mul_le_mul (by omega) (by omega)
  | b => exact Nat.mul_le_mul (by omega) (by omega)
  | a => exact le_trans (by omega : (icon.pixel p.1 p.2).a.toNat ≤ 255) (by omega)
  | weight => exact (by omega : 1 ≤ 255 * 255)

include hpos hle in
/-- The sums of two rows of a thumbnail or more stay within 32 bits. -/
theorem total_areaOf_lt (htwo : 2 ≤ size.toNat) (i : Nat) (k : Part) : icon.total (icon.areaOf size i) k < 2 ^ 32 := by
  have hside := icon.side_bounds.2
  have hsub : icon.areaOf size i ⊆
      ((Finset.range icon.side.toNat).filter fun x => x * size.toNat / icon.side.toNat = i / size.toNat) ×ˢ
        (Finset.range icon.side.toNat).filter fun x => x * size.toNat / icon.side.toNat = i % size.toNat := by
    intro p hp
    obtain ⟨hp, hi⟩ := Finset.mem_filter.1 hp
    rw [icon.place_eq hpos hle hp] at hi
    obtain ⟨hy, hx⟩ := Finset.mem_product.1 hp
    have hdx := scaled_lt (Finset.mem_range.1 hx) hpos
    refine Finset.mem_product.2 ⟨Finset.mem_filter.2 ⟨hy, ?_⟩, Finset.mem_filter.2 ⟨hx, ?_⟩⟩
    · rw [← hi, Nat.add_comm, Nat.add_mul_div_right _ _ hpos, Nat.div_eq_of_lt hdx, Nat.zero_add]
    · rw [← hi, Nat.add_comm, Nat.add_mul_mod_self_right, Nat.mod_eq_of_lt hdx]
  have hcard := Finset.card_le_card hsub
  rw [Finset.card_product] at hcard
  have hbound : icon.side.toNat ≤ 256 * size.toNat := by omega
  have hrows := card_scaled_le (i / size.toNat) hbound
  have hcolumns := card_scaled_le (i % size.toNat) hbound
  have harea := hcard.trans (Nat.mul_le_mul hrows hcolumns)
  have htotal := icon.total_le (icon.areaOf size i) k
  omega

end Picture

/-! ## The thumbnail -/

namespace Thumb

variable {N : Nat}

/-- With room for all pixels, each is the shade of its cell. -/
theorem pixels_finish {t : Thumb N} {n : Nat} {out : Bytes} (hsize : (t.size * t.size).toNat = n) (hroom : n ≤ N)
    (hout : out.length = 4 * n) : pixels (t.finish out) = (t.acc.toList.take n).map shade := by
  have hlength : ((t.acc.toList.take n).map shade).length = n := by simp [hroom]
  have hcount : out.length / 4 = n := by omega
  have hshown : (((t.acc.toList.take n).map shade).take n).flatMap Pixel.bytes =
      ((t.acc.toList.take n).map shade).flatMap Pixel.bytes := by
    rw [List.take_of_length_le hlength.le]
  rw [finish]
  simp only [hsize, hcount, hshown]
  rw [pixels_flatMap, length_flatMap_bytes, hlength, ← hout, List.drop_length]
  exact List.append_nil _

end Thumb

namespace Picture

variable {N : Nat} (icon : Picture)

theorem total_weight (area : Finset (Nat × Nat)) : icon.total area .weight = area.card := by
  rw [total, Finset.card_eq_sum_ones]
  rfl

/-- Where the sums are what they ought to be, the shade is the average. -/
theorem shade_eq {area : Finset (Nat × Nat)} {c : Cell} (hc : ∀ k, (c k).toNat = icon.total area k)
    (harea : area.Nonempty) : Thumb.shade c = icon.average area := by
  have hweight : c .weight ≠ 0 := by
    intro hzero
    have h := hc .weight
    rw [hzero, total_weight] at h
    exact harea.card_pos.ne h
  have hbyte (k l : Part) : (c k / c l).toUInt8 = .ofNat (icon.total area k / icon.total area l) := by
    rw [← hc, ← hc, ← UInt32.toNat_div]
    rfl
  unfold Thumb.shade
  split
  case isTrue hzero =>
    have ha : icon.total area .a = 0 := by
      rw [← hc, hzero.resolve_left hweight]
      rfl
    simp only [average, ha, Nat.div_zero, Nat.zero_div]
    rfl
  case isFalse => simp only [hbyte, average]

/-- The average of one opaque colour is that colour. -/
theorem average_const {area : Finset (Nat × Nat)} {colour : Pixel} (hsolid : colour.a = 255)
    (harea : area.Nonempty) (hall : ∀ p ∈ area, icon.pixel p.1 p.2 = colour) : icon.average area = colour := by
  have htotal (k : Part) : icon.total area k = area.card * colour.part k :=
    Finset.sum_const_nat fun p hp => congrArg (Pixel.part · k) (hall p hp)
  have hmean (x : UInt8) : UInt8.ofNat (area.card * (x.toNat * 255) / (area.card * 255)) = x := by
    rw [← Nat.mul_assoc, Nat.mul_right_comm, Nat.mul_div_cancel_left _ (Nat.mul_pos harea.card_pos (by decide))]
    exact UInt8.ofNat_toNat
  have halpha : UInt8.ofNat (area.card * 255 / (area.card * 1)) = 255 := by
    rw [Nat.mul_one, Nat.mul_div_cancel_left _ harea.card_pos]
    rfl
  obtain ⟨r, g, b, a⟩ := colour
  obtain rfl : a = 255 := hsolid
  simp only [average, htotal, Pixel.part]
  change Pixel.mk (UInt8.ofNat (area.card * (r.toNat * 255) / (area.card * 255)))
    (UInt8.ofNat (area.card * (g.toNat * 255) / (area.card * 255)))
    (UInt8.ofNat (area.card * (b.toNat * 255) / (area.card * 255)))
    (UInt8.ofNat (area.card * 255 / (area.card * 1))) = _
  rw [hmean, hmean, hmean, halpha]

/-- The thumbnail is not larger than the icon, and where it is a single pixel, none of its sums leaves the 32
bits. -/
def Fits (size : UInt32) : Prop :=
  size.toNat ≤ icon.side.toNat ∧ (size = 1 → ∀ k, icon.total icon.points k < 2 ^ 32)

/-- Up to 257 pixels a side make one without its sums leaving the 32 bits. -/
theorem total_points_lt (hside : icon.side.toNat ≤ 257) (k : Part) : icon.total icon.points k < 2 ^ 32 := by
  have htotal := icon.total_le icon.points k
  rw [points, Finset.card_product, Finset.card_range] at htotal
  have hcard : icon.side.toNat * icon.side.toNat ≤ 257 * 257 := Nat.mul_le_mul hside hside
  have := Nat.mul_le_mul_right (255 * 255) hcard
  exact htotal.trans_lt (by omega)

section Feed

variable {size : UInt32} {t : Thumb N}

theorem Fits.total_lt {icon : Picture} (hfits : icon.Fits size) (hpos : 0 < size.toNat) (i : Nat) (k : Part) :
    icon.total (icon.areaOf size i) k < 2 ^ 32 := by
  rcases Nat.lt_or_ge 1 size.toNat with htwo | hone
  · exact icon.total_areaOf_lt hpos hfits.1 htwo i k
  · have hsize : size = 1 := UInt32.toNat_inj.1 (by rw [UInt32.toNat_one]; omega)
    have hsub : icon.areaOf size i ⊆ icon.points := Finset.filter_subset _ _
    exact (Finset.sum_le_sum_of_subset hsub).trans_lt (hfits.2 hsize k)

/-- What a thumbnail that fits has room for. -/
theorem Fits.room {icon : Picture} (hfits : icon.Fits size) (hnew : Thumb.new N icon.side size = some t) :
    0 < size.toNat ∧ (size * size).toNat = size.toNat * size.toNat ∧ size.toNat * size.toNat ≤ N := by
  have hpos : 0 < size.toNat := by
    rw [Thumb.new, Option.ite_none_left_eq_some] at hnew
    refine Nat.pos_of_ne_zero fun hzero => hnew.1 (.inl (UInt32.toNat_inj.1 hzero))
  have hsmall : size.toNat * size.toNat ≤ 512 * 512 :=
    Nat.mul_le_mul (hfits.1.trans icon.side_bounds.2) (hfits.1.trans icon.side_bounds.2)
  have hsquare : (size * size).toNat = size.toNat * size.toNat := by
    rw [UInt32.toNat_mul, Nat.mod_eq_of_lt (by omega)]
  exact ⟨hpos, hsquare, hsquare ▸ (icon.feed_size hnew).2⟩

/-- The sums of a thumbnail that fits. -/
theorem Fits.sums {icon : Picture} (hfits : icon.Fits size) (hnew : Thumb.new N icon.side size = some t) {i : Nat}
    (hi : i < size.toNat * size.toNat) :
    ∃ c, (icon.feed t).acc[i]? = some c ∧ ∀ k, (c k).toNat = icon.total (icon.areaOf size i) k := by
  obtain ⟨hpos, -, hroom⟩ := hfits.room hnew
  obtain ⟨c, hacc, hc⟩ := icon.feed_acc hnew i (by omega)
  refine ⟨c, hacc, fun k => ?_⟩
  rw [hc, UInt32.toNat_ofNat_of_lt' (hfits.total_lt hpos i k)]

/-- The pixels of a thumbnail that fits. -/
theorem Fits.shade {icon : Picture} (hfits : icon.Fits size) (hnew : Thumb.new N icon.side size = some t)
    {out : Bytes} (hout : out.length = 4 * (size.toNat * size.toNat)) :
    pixels ((icon.feed t).finish out) =
      (List.range (size.toNat * size.toNat)).map fun i => icon.average (icon.areaOf size i) := by
  obtain ⟨hpos, hsquare, hroom⟩ := hfits.room hnew
  have hsize := (icon.feed_size hnew).1
  rw [Thumb.pixels_finish (by rw [hsize, hsquare]) hroom hout]
  apply List.ext_getElem?
  intro i
  rw [List.getElem?_map, List.getElem?_take, List.getElem?_map]
  by_cases hi : i < size.toNat * size.toNat
  · obtain ⟨c, hacc, hc⟩ := hfits.sums hnew hi
    rw [if_pos hi, Vector.getElem?_toList, hacc, List.getElem?_range hi]
    exact congrArg some (icon.shade_eq hc (icon.areaOf_nonempty hpos hfits.1 hi))
  · rw [if_neg hi, List.getElem?_eq_none (by simpa using hi)]
    rfl

/-- A thumbnail that fits is made of true averages. -/
theorem Fits.trueAverages {icon : Picture} (hfits : icon.Fits size) (hnew : Thumb.new N icon.side size = some t) :
    icon.TrueAverages size (icon.feed t) := by
  obtain ⟨hpos, -, -⟩ := hfits.room hnew
  refine ⟨⟨icon.areaOf size, ?_⟩, fun colour hsolid hall out hout => ?_⟩
  · exact {
      nonempty := fun i hi => icon.areaOf_nonempty hpos hfits.1 hi
      subset := fun i _ => Finset.filter_subset _ _
      once := fun p hp => icon.areaOf_once hpos hfits.1 hp
      sums := fun i hi => hfits.sums hnew hi
      shade := fun i hi out hout => by rw [hfits.shade hnew hout, List.getElem?_map, List.getElem?_range hi]; rfl }
  · rw [hfits.shade hnew hout]
    refine List.eq_replicate_iff.2 ⟨by simp, fun px hpx => ?_⟩
    obtain ⟨i, hi, rfl⟩ := List.mem_map.1 hpx
    exact icon.average_const hsolid (icon.areaOf_nonempty hpos hfits.1 (List.mem_range.1 hi))
      fun p hp => hall p (Finset.filter_subset _ _ hp)

/-- There are not enough pixels in an icon for a thumbnail that is larger. -/
theorem Averaged.size_le {icon : Picture} {area : Nat → Finset (Nat × Nat)} {t : Thumb N}
    (h : icon.Averaged size t area) : size.toNat ≤ icon.side.toNat := by
  have hcard : (Finset.range (size.toNat * size.toNat)).card ≤ icon.points.card := by
    classical
    choose! pick hpick using h.nonempty
    refine Finset.card_le_card_of_injOn pick
      (fun i hi => h.subset i (Finset.mem_range.1 hi) (hpick i (Finset.mem_range.1 hi))) fun i hi j hj hij => ?_
    have hi := Finset.mem_range.1 hi
    have hj := Finset.mem_range.1 hj
    refine (h.once (pick i) (h.subset i hi (hpick i hi))).unique ⟨hi, hpick i hi⟩ ⟨hj, ?_⟩
    rw [hij]
    exact hpick j hj
  rw [points, Finset.card_product, Finset.card_range, Finset.card_range] at hcard
  exact Nat.mul_self_le_mul_self_iff.1 hcard

/-- A thumbnail of one pixel has the sums of all pixels of the icon. -/
theorem Averaged.total_lt {icon : Picture} {area : Nat → Finset (Nat × Nat)} {t : Thumb N}
    (h : icon.Averaged 1 t area) (k : Part) : icon.total icon.points k < 2 ^ 32 := by
  have hall : area 0 = icon.points := by
    refine Finset.Subset.antisymm (h.subset 0 (by decide)) fun p hp => ?_
    obtain ⟨i, ⟨hi, hmem⟩, -⟩ := h.once p hp
    obtain rfl : i = 0 := Nat.lt_one_iff.1 hi
    exact hmem
  obtain ⟨c, -, hc⟩ := h.sums 0 (by decide)
  rw [← hall, ← hc]
  exact (c k).toNat_lt

theorem TrueAverages.fits {icon : Picture} {t : Thumb N} (h : icon.TrueAverages size t) : icon.Fits size := by
  obtain ⟨⟨area, harea⟩, -⟩ := h
  refine ⟨harea.size_le, ?_⟩
  rintro rfl k
  exact harea.total_lt k

/-- A thumbnail is made of true averages if it is not larger than the icon and, where it is a single pixel, the
sums of all pixels of the icon stay within 32 bits, and not otherwise. -/
theorem trueAverages_iff (hnew : Thumb.new N icon.side size = some t) :
    icon.TrueAverages size (icon.feed t) ↔ icon.Fits size :=
  ⟨TrueAverages.fits, fun hfits => hfits.trueAverages hnew⟩

end Feed

/-- An icon of one colour. -/
def plain (side : UInt32) (hge : MIN_SIDE ≤ side) (hle : side ≤ MAX_SIDE) (colour : Pixel) : Picture :=
  ⟨side, fun _ _ => colour, hge, hle⟩

theorem plain_total (side : UInt32) (hge : MIN_SIDE ≤ side) (hle : side ≤ MAX_SIDE) (colour : Pixel) (k : Part) :
    (plain side hge hle colour).total (plain side hge hle colour).points k =
      side.toNat * side.toNat * colour.part k := by
  have hcard : (plain side hge hle colour).points.card = side.toNat * side.toNat := by
    rw [points, Finset.card_product, Finset.card_range]
    rfl
  rw [← hcard]
  exact Finset.sum_const_nat fun _ _ => rfl

/-- A red icon of 16 pixels a side in a thumbnail of four. -/
theorem trueAverages_red :
    (plain 16 (by decide) (by decide) ⟨255, 0, 0, 255⟩).TrueAverages 2
      (feed (plain 16 (by decide) (by decide) ⟨255, 0, 0, 255⟩) ⟨16, 2, Vector.replicate 4 fun _ => 0⟩) := by
  refine (trueAverages_iff _ rfl).2 ⟨by decide, fun hone => ?_⟩
  exact absurd hone (by decide)

/-- The sums of a white icon of 258 pixels a side leave the 32 bits where it is scaled to a single one. -/
theorem not_trueAverages_white :
    ¬∀ (N : Nat) (icon : Picture) (size : UInt32) (t : Thumb N), Thumb.new N icon.side size = some t →
      icon.TrueAverages size (icon.feed t) := by
  intro hall
  have hred := (hall 1 (plain 258 (by decide) (by decide) ⟨255, 255, 255, 255⟩) 1 _ rfl).fits.2 rfl .r
  rw [plain_total] at hred
  exact absurd hred (by decide)

end Picture

end NanoChrono.Ncpkg.Icon
