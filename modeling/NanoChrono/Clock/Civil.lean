import Mathlib.Tactic

/-! # The civil calendar

A Unix time as a date of the proleptic Gregorian calendar and a time of day. The source divides the days into
eras of 400 years that begin with a March; the calendar counts the days of the years and the months before a
date, leap years as they are (`dayNumber`). The date that comes out is one the calendar has, and its day count
and seconds are the instant again (`civilFromUnixNs_valid`, `civilFromUnixNs_instant`). -/

namespace NanoChrono.Clock

/-! ## The source's conversion -/

/-- A broken-down civil date and time. -/
structure CivilTime where
  year : Int
  /-- 1-12. -/
  month : Int
  /-- 1-31. -/
  day : Int
  hour : Int
  minute : Int
  second : Int
  nanosecond : Int
  /-- 0 = Sunday. -/
  weekday : Int
deriving DecidableEq, Repr

/-- The instant in its zone, in nanoseconds since the epoch there. -/
def adjusted (unixNs : UInt64) (offsetMinutes : Int32) : Int :=
  unixNs.toNat + offsetMinutes.toInt * 60 * 1000000000

/-- Splits Unix nanoseconds plus an offset into civil fields. -/
def civilFromUnixNs (unixNs : UInt64) (offsetMinutes : Int32) : CivilTime :=
  let adjusted := max (adjusted unixNs offsetMinutes) 0
  let totalSecs := adjusted / 1000000000
  let nanosecond := adjusted % 1000000000
  let days := totalSecs / 86400
  let secsOfDay := totalSecs % 86400
  -- 1970-01-01 was a Thursday (weekday 4).
  let weekday := (days + 4) % 7
  -- Shift the epoch to 0000-03-01 so leap days land at the end of the cycle.
  let z := days + 719468
  let era := z / 146097
  let doe := z % 146097
  let yoe := (doe - doe / 1460 + doe / 36524 - doe / 146096) / 365
  let y := yoe + era * 400
  let doy := doe - (365 * yoe + yoe / 4 - yoe / 100)
  let mp := (5 * doy + 2) / 153
  let day := doy - (153 * mp + 2) / 5 + 1
  let month := if mp < 10 then mp + 3 else mp - 9
  let year := if month ≤ 2 then y + 1 else y
  { year, month, day
    hour := secsOfDay / 3600
    minute := secsOfDay / 60 % 60
    second := secsOfDay % 60
    nanosecond, weekday }

/-! ## The calendar -/

/-- Every fourth year is a leap year, but of the full centuries only every fourth. -/
def IsLeap (year : Int) : Prop := year % 4 = 0 ∧ (year % 100 ≠ 0 ∨ year % 400 = 0)

instance (year : Int) : Decidable (IsLeap year) := inferInstanceAs (Decidable (_ ∧ _))

def yearLength (year : Int) : Int := if IsLeap year then 366 else 365

/-- The months' lengths, January first. -/
def monthLength (year : Int) (month : Int) : Int :=
  if month = 2 then if IsLeap year then 29 else 28
  else if month = 4 ∨ month = 6 ∨ month = 9 ∨ month = 11 then 30
  else 31

/-- The days of the years from 1970 on. -/
@[grind =] def daysOfYears : Nat → Int
  | 0 => 0
  | n + 1 => daysOfYears n + yearLength (1970 + n)

/-- The days of the first months of a year. -/
@[grind =] def daysOfMonths (year : Int) : Nat → Int
  | 0 => 0
  | n + 1 => daysOfMonths year n + monthLength year (n + 1)

/-- The days from 1970-01-01 to a date from then on. -/
def dayNumber (year month day : Int) : Int :=
  daysOfYears (year - 1970).toNat + daysOfMonths year (month - 1).toNat + (day - 1)

/-- A date and a time of day that there are, from 1970 on, with its day of the week. -/
structure Valid (c : CivilTime) : Prop where
  year : 1970 ≤ c.year
  month : 1 ≤ c.month ∧ c.month ≤ 12
  day : 1 ≤ c.day ∧ c.day ≤ monthLength c.year c.month
  hour : 0 ≤ c.hour ∧ c.hour < 24
  minute : 0 ≤ c.minute ∧ c.minute < 60
  second : 0 ≤ c.second ∧ c.second < 60
  nanosecond : 0 ≤ c.nanosecond ∧ c.nanosecond < 1000000000
  /-- The first day was a Thursday. -/
  weekday : c.weekday = (4 + dayNumber c.year c.month c.day) % 7

/-- The nanoseconds from the epoch to a civil time. -/
def instant (c : CivilTime) : Int :=
  ((((dayNumber c.year c.month c.day * 24 + c.hour) * 60 + c.minute) * 60 + c.second) * 1000000000) +
    c.nanosecond

/-- A civil time before another. -/
def Earlier (a b : CivilTime) : Prop :=
  a.year < b.year ∨ a.year = b.year ∧ (a.month < b.month ∨ a.month = b.month ∧
    (a.day < b.day ∨ a.day = b.day ∧ (a.hour < b.hour ∨ a.hour = b.hour ∧
      (a.minute < b.minute ∨ a.minute = b.minute ∧ (a.second < b.second ∨ a.second = b.second ∧
        a.nanosecond < b.nanosecond)))))

/-! ## Counting days -/

/-- The leap years up to a year. -/
def leaps (year : Int) : Int := year / 4 - year / 100 + year / 400

theorem leaps_succ (year : Int) : leaps (year + 1) = leaps year + if IsLeap (year + 1) then 1 else 0 := by
  rw [leaps, leaps]
  split
  next h =>
    rw [IsLeap] at h
    omega
  next h =>
    rw [IsLeap] at h
    omega

theorem daysOfYears_eq (n : Nat) : daysOfYears n = 365 * n + leaps (1969 + n) - 477 := by
  induction n with
  | zero => decide
  | succ n ih =>
    have hleaps := leaps_succ (1969 + n)
    rw [show (1969 : Int) + n + 1 = 1970 + n by omega] at hleaps
    rw [daysOfYears, ih, yearLength, Nat.cast_succ, show (1969 : Int) + (n + 1) = 1970 + n by omega, hleaps]
    split <;> omega

/-- The days before a year, counted in its own way by whether the year begins in March. -/
theorem daysOfYears_toNat {year : Int} (h : 1970 ≤ year) :
    daysOfYears (year - 1970).toNat = 365 * (year - 1970) + leaps (year - 1) - 477 := by
  rw [daysOfYears_eq, Int.toNat_of_nonneg (by omega), show (1969 : Int) + (year - 1970) = year - 1 by omega]

/-- The days before a month of a year, the months from March on having the leap day behind them. -/
theorem daysOfMonths_eq (year : Int) {month : Nat} (h : month ≤ 11) :
    daysOfMonths year month = match month with
      | 0 => 0
      | 1 => 31
      | n + 2 => (153 * n + 2) / 5 + 59 + if IsLeap year then 1 else 0 := by
  interval_cases month <;> simp [daysOfMonths, monthLength] <;> split <;> omega

/-- A day of an era by its century, its four years, its year and its place there. -/
theorem era_parts {doe : Int} (h0 : 0 ≤ doe) (h1 : doe < 146097) : ∃ c q t doy : Int,
    (0 ≤ c ∧ c ≤ 3) ∧ (0 ≤ q ∧ q ≤ 24) ∧ (0 ≤ t ∧ t ≤ 3) ∧ (0 ≤ doy ∧ doy ≤ 365) ∧
      doe = 36524 * c + 1461 * q + 365 * t + doy ∧ (doy = 365 → t = 3 ∧ (q < 24 ∨ c = 3)) := by
  refine ⟨min (doe / 36524) 3, (doe - 36524 * min (doe / 36524) 3) / 1461,
    min ((doe - 36524 * min (doe / 36524) 3) % 1461 / 365) 3,
    (doe - 36524 * min (doe / 36524) 3) % 1461 -
      365 * min ((doe - 36524 * min (doe / 36524) 3) % 1461 / 365) 3, ?_⟩
  omega

/-- The source's year of an era. -/
theorem yoe_eq {doe c q t doy : Int} (hc : 0 ≤ c ∧ c ≤ 3) (hq : 0 ≤ q ∧ q ≤ 24) (ht : 0 ≤ t ∧ t ≤ 3)
    (hdoy : 0 ≤ doy ∧ doy ≤ 365) (h : doe = 36524 * c + 1461 * q + 365 * t + doy)
    (hlast : doy = 365 → t = 3 ∧ (q < 24 ∨ c = 3)) :
    (doe - doe / 1460 + doe / 36524 - doe / 146096) / 365 = 100 * c + 4 * q + t := by
  -- The two long divisions differ by the century, on the era's last day as well.
  have hcent : doe / 36524 - doe / 146096 = c := by
    rcases Int.lt_or_le doe 146096 with hinside | hend
    · have hshort : doe < 36524 * (c + 1) := by omega
      omega
    · have hlastDay : doe = 146096 ∧ c = 3 := by omega
      rw [hlastDay.1, hlastDay.2]
      decide
  -- Where the division by 1460 is one ahead, the year is long begun.
  have hfour : doe / 1460 = 25 * c + q + (24 * c + q + 365 * t + doy) / 1460 := by
    rw [h, show 36524 * c + 1461 * q + 365 * t + doy =
      24 * c + q + 365 * t + doy + 1460 * (25 * c + q) by ring, Int.add_mul_ediv_left _ _ (by decide)]
    ring
  have hahead : 0 ≤ doy - (24 * c + q + 365 * t + doy) / 1460 ∧
      doy - (24 * c + q + 365 * t + doy) / 1460 < 365 := by omega
  generalize (24 * c + q + 365 * t + doy) / 1460 = ahead at hfour hahead
  rw [show doe - doe / 1460 + doe / 36524 - doe / 146096 =
    doy - ahead + 365 * (100 * c + 4 * q + t) by omega, Int.add_mul_ediv_left _ _ (by decide),
    Int.ediv_eq_zero_of_lt hahead.1 hahead.2, zero_add]

/-- The source's month and day, by the day of a year that begins in March. -/
def monthDay (doy : Int) : Int × Int :=
  let mp := (5 * doy + 2) / 153
  (if mp < 10 then mp + 3 else mp - 9, doy - (153 * mp + 2) / 5 + 1)

/-- From March on the months of a year are those of its calendar. -/
theorem monthDay_spring {y doy : Int} (h : 0 ≤ doy ∧ doy < 306) :
    (2 < (monthDay doy).1 ∧ (monthDay doy).1 ≤ 12) ∧
      (1 ≤ (monthDay doy).2 ∧ (monthDay doy).2 ≤ monthLength y (monthDay doy).1) ∧
      daysOfMonths y ((monthDay doy).1 - 1).toNat + (monthDay doy).2 - 1 =
        doy + 59 + if IsLeap y then 1 else 0 := by
  have hmp : 0 ≤ (5 * doy + 2) / 153 ∧ (5 * doy + 2) / 153 < 10 := by omega
  rw [monthDay]
  dsimp only
  rw [if_pos hmp.2]
  generalize hn : (5 * doy + 2) / 153 = mp at hmp ⊢
  obtain ⟨h0, h10⟩ := hmp
  have hmonths : daysOfMonths y (mp + 3 - 1).toNat = (153 * mp + 2) / 5 + 59 + if IsLeap y then 1 else 0 := by
    obtain ⟨n, rfl⟩ := Int.eq_ofNat_of_zero_le h0
    rw [show ((n : Int) + 3 - 1).toNat = n + 2 by omega, daysOfMonths_eq y (by omega)]
  refine ⟨by omega, ?_, by rw [hmonths]; omega⟩
  rw [monthLength]
  interval_cases mp <;> simp <;> omega

/-- January and February are the end of a year that begins in March. -/
theorem monthDay_winter {y doy : Int} (h : 306 ≤ doy ∧ doy ≤ 365) (hleap : doy = 365 → IsLeap y) :
    (1 ≤ (monthDay doy).1 ∧ (monthDay doy).1 ≤ 2) ∧
      (1 ≤ (monthDay doy).2 ∧ (monthDay doy).2 ≤ monthLength y (monthDay doy).1) ∧
      daysOfMonths y ((monthDay doy).1 - 1).toNat + (monthDay doy).2 - 1 = doy - 306 := by
  have hmp : 10 ≤ (5 * doy + 2) / 153 ∧ (5 * doy + 2) / 153 < 12 := by omega
  rw [monthDay]
  dsimp only
  rw [if_neg (by omega)]
  generalize hn : (5 * doy + 2) / 153 = mp at hmp ⊢
  obtain ⟨h10, h12⟩ := hmp
  interval_cases mp
  · refine ⟨by omega, ?_, ?_⟩
    · rw [monthLength]
      simp
      omega
    · rw [show ((10 : Int) - 9 - 1).toNat = 0 by decide, daysOfMonths]
      omega
  · refine ⟨by omega, ?_, ?_⟩
    · rw [monthLength, if_pos (by decide)]
      split
      next => omega
      next hnot =>
        have hne : doy ≠ 365 := fun heq => hnot (hleap heq)
        omega
    · rw [show ((11 : Int) - 9 - 1).toNat = 1 by decide, daysOfMonths_eq y (by omega)]
      dsimp only
      omega

/-- The day of the year that is left of a day of the era. -/
theorem doy_eq {doe c q t doy : Int} (hq : 0 ≤ q ∧ q ≤ 24) (ht : 0 ≤ t ∧ t ≤ 3)
    (h : doe = 36524 * c + 1461 * q + 365 * t + doy) :
    doe - (365 * (100 * c + 4 * q + t) + (100 * c + 4 * q + t) / 4 - (100 * c + 4 * q + t) / 100) = doy := by
  have hfour : (100 * c + 4 * q + t) / 4 = 25 * c + q := by omega
  have hhundred : (100 * c + 4 * q + t) / 100 = c := by omega
  omega

/-- The leap years up to a year of an era. -/
theorem leaps_era {era c q t : Int} (hc : 0 ≤ c ∧ c ≤ 3) (hq : 0 ≤ q ∧ q ≤ 24) (ht : 0 ≤ t ∧ t ≤ 3) :
    leaps (100 * c + 4 * q + t + era * 400) = 97 * era + 24 * c + q := by
  have hfour : (100 * c + 4 * q + t + era * 400) / 4 = 100 * era + 25 * c + q := by omega
  have hhundred : (100 * c + 4 * q + t + era * 400) / 100 = 4 * era + c := by omega
  have hall : (100 * c + 4 * q + t + era * 400) / 400 = era := by omega
  rw [leaps, hfour, hhundred, hall]
  omega

/-- The year that ends with a leap day. -/
theorem isLeap_era {era c q t : Int} (hq : 0 ≤ q ∧ q ≤ 24)
    (h : t = 3 ∧ (q < 24 ∨ c = 3)) : IsLeap (100 * c + 4 * q + t + era * 400 + 1) := by
  rw [IsLeap]
  omega

/-- The date `doy` days into a year that begins in March, counted from the epoch. -/
theorem dayNumber_march {y doy : Int} (hdoy : 0 ≤ doy ∧ doy ≤ 365) (hleap : doy = 365 → IsLeap (y + 1))
    (hy : 1969 ≤ y) (hfirst : y = 1969 → 306 ≤ doy) :
    let md := monthDay doy
    let year := if md.1 ≤ 2 then y + 1 else y
    1970 ≤ year ∧ (1 ≤ md.1 ∧ md.1 ≤ 12) ∧ (1 ≤ md.2 ∧ md.2 ≤ monthLength year md.1) ∧
      dayNumber year md.1 md.2 = 365 * y + leaps y + doy - 719468 := by
  dsimp only
  rcases Int.lt_or_le doy 306 with hspring | hwinter
  · obtain ⟨hmonth, hdays, hnumber⟩ := @monthDay_spring y doy ⟨hdoy.1, hspring⟩
    have hyear : 1970 ≤ y := by omega
    rw [if_neg (by omega)]
    refine ⟨hyear, by omega, hdays, ?_⟩
    have hsucc := leaps_succ (y - 1)
    rw [Int.sub_add_cancel] at hsucc
    rw [dayNumber, daysOfYears_toNat hyear]
    omega
  · obtain ⟨hmonth, hdays, hnumber⟩ := @monthDay_winter (y + 1) doy ⟨hwinter, hdoy.2⟩ hleap
    have hyear : 1970 ≤ y + 1 := by omega
    rw [if_pos hmonth.2]
    refine ⟨hyear, by omega, hdays, ?_⟩
    rw [dayNumber, daysOfYears_toNat hyear, Int.add_sub_cancel]
    omega

/-- The source's date of a day, counted from the epoch. -/
def civilFromDays (days : Int) : Int × Int × Int :=
  let z := days + 719468
  let era := z / 146097
  let doe := z % 146097
  let yoe := (doe - doe / 1460 + doe / 36524 - doe / 146096) / 365
  let y := yoe + era * 400
  let md := monthDay (doe - (365 * yoe + yoe / 4 - yoe / 100))
  (if md.1 ≤ 2 then y + 1 else y, md)

/-- The source's date is one of the calendar, and its day is the one it came from. -/
theorem civilFromDays_spec {days : Int} (h : 0 ≤ days) :
    let d := civilFromDays days
    1970 ≤ d.1 ∧ (1 ≤ d.2.1 ∧ d.2.1 ≤ 12) ∧ (1 ≤ d.2.2 ∧ d.2.2 ≤ monthLength d.1 d.2.1) ∧
      dayNumber d.1 d.2.1 d.2.2 = days := by
  have hdoe := Int.emod_nonneg (days + 719468) (show (146097 : Int) ≠ 0 by decide)
  have hlt := Int.emod_lt_of_pos (days + 719468) (show (0 : Int) < 146097 by decide)
  have hz := Int.emod_add_mul_ediv (days + 719468) 146097
  obtain ⟨c, q, t, doy, hc, hq, ht, hdoy, hparts, hlast⟩ := era_parts hdoe hlt
  have hyoe := yoe_eq hc hq ht hdoy hparts hlast
  have hyear := @doy_eq _ c q t doy hq ht hparts
  have hleaps := @leaps_era ((days + 719468) / 146097) c q t hc hq ht
  rw [civilFromDays]
  dsimp only
  rw [hyoe, hyear]
  generalize (days + 719468) / 146097 = era at hz hleaps ⊢
  generalize (days + 719468) % 146097 = doe at hz hparts
  -- The epoch is in the year 1969 of those that begin in March, past its December.
  have hy : 1969 ≤ 100 * c + 4 * q + t + era * 400 := by omega
  have hspec := @dayNumber_march (100 * c + 4 * q + t + era * 400) doy hdoy
    (fun h365 => isLeap_era hq (hlast h365)) hy (fun h1969 => by omega)
  dsimp only at hspec
  obtain ⟨h1970, hmonth, hday, hnumber⟩ := hspec
  exact ⟨h1970, hmonth, hday, by rw [hnumber]; omega⟩

/-! ## The order of dates -/

/-- The day a month begins, in its year. -/
theorem daysOfMonths_mono (year : Int) {m n : Nat} (h : m ≤ n) : daysOfMonths year m ≤ daysOfMonths year n := by
  induction n, h using Nat.le_induction with
  | base => exact Int.le_refl _
  | succ n _ ih =>
    rw [daysOfMonths, monthLength]
    split
    · split <;> omega
    · split <;> omega

theorem daysOfYears_mono {m n : Nat} (h : m ≤ n) : daysOfYears m ≤ daysOfYears n := by
  induction n, h using Nat.le_induction with
  | base => exact Int.le_refl _
  | succ n _ ih =>
    rw [daysOfYears, yearLength]
    split <;> omega

/-- A day of a month comes before the next month. -/
theorem daysOfMonths_step (year : Int) {month : Int} (h : 1 ≤ month) :
    daysOfMonths year month.toNat = daysOfMonths year (month - 1).toNat + monthLength year month := by
  obtain ⟨n, hn⟩ := Int.eq_ofNat_of_zero_le (show 0 ≤ month - 1 by omega)
  obtain rfl : month = n + 1 := by omega
  rw [show ((n : Int) + 1).toNat = n + 1 by omega, show ((n : Int) + 1 - 1).toNat = n by omega, daysOfMonths]

/-- The months of a year fill it. -/
theorem daysOfMonths_year (year : Int) : daysOfMonths year 12 = yearLength year := by
  simp [daysOfMonths, monthLength, yearLength]
  split <;> omega

/-- A date's day is in its year. -/
theorem dayOfYear_lt {year month day : Int} (hm : 1 ≤ month ∧ month ≤ 12)
    (hd : 1 ≤ day ∧ day ≤ monthLength year month) :
    0 ≤ daysOfMonths year (month - 1).toNat + (day - 1) ∧
      daysOfMonths year (month - 1).toNat + (day - 1) < yearLength year := by
  have hlow := daysOfMonths_mono year (Nat.zero_le (month - 1).toNat)
  have hhigh := daysOfMonths_mono year (show month.toNat ≤ 12 by omega)
  rw [daysOfMonths] at hlow
  rw [daysOfMonths_step year hm.1, daysOfMonths_year] at hhigh
  omega

/-- An earlier date has the smaller day. -/
theorem dayNumber_lt {y m d y' m' d' : Int} (hy : 1970 ≤ y) (hm : 1 ≤ m ∧ m ≤ 12)
    (hd : 1 ≤ d ∧ d ≤ monthLength y m) (hm' : 1 ≤ m' ∧ m' ≤ 12) (hd' : 1 ≤ d' ∧ d' ≤ monthLength y' m')
    (h : y < y' ∨ y = y' ∧ (m < m' ∨ m = m' ∧ d < d')) : dayNumber y m d < dayNumber y' m' d' := by
  rw [dayNumber, dayNumber]
  rcases h with hlt | ⟨rfl, hlt | ⟨rfl, hlt⟩⟩
  · have hin := dayOfYear_lt hm hd
    have hin' := dayOfYear_lt hm' hd'
    have hyears := daysOfYears_mono (show (y - 1970).toNat + 1 ≤ (y' - 1970).toNat by omega)
    rw [daysOfYears, show (1970 : Int) + ((y - 1970).toNat : Nat) = y by omega] at hyears
    omega
  · have hmonths := daysOfMonths_mono y (show m.toNat ≤ (m' - 1).toNat by omega)
    rw [daysOfMonths_step y hm.1] at hmonths
    omega
  · omega

/-- An earlier civil time is the smaller instant. -/
theorem instant_lt {a b : CivilTime} (ha : Valid a) (hb : Valid b) (h : Earlier a b) :
    instant a < instant b := by
  obtain ⟨hya, hma, hda, hha, hia, hsa, hna, -⟩ := ha
  obtain ⟨hyb, hmb, hdb, hhb, hib, hsb, hnb, -⟩ := hb
  have hdays : (a.year < b.year ∨ a.year = b.year ∧ (a.month < b.month ∨ a.month = b.month ∧ a.day < b.day)) →
      dayNumber a.year a.month a.day < dayNumber b.year b.month b.day := dayNumber_lt hya hma hda hmb hdb
  rw [instant, instant]
  rcases h with hlt | ⟨hy, hlt | ⟨hm, hlt | ⟨hd, htime⟩⟩⟩
  · have hlt := hdays (Or.inl hlt)
    omega
  · have hlt := hdays (Or.inr ⟨hy, Or.inl hlt⟩)
    omega
  · have hlt := hdays (Or.inr ⟨hy, Or.inr ⟨hm, hlt⟩⟩)
    omega
  · rw [hy, hm, hd]
    omega

/-- Two civil times are in order one way or the other, or they are the same. -/
theorem earlier_total (a b : CivilTime) : Earlier a b ∨ Earlier b a ∨ (a.year = b.year ∧ a.month = b.month ∧
    a.day = b.day ∧ a.hour = b.hour ∧ a.minute = b.minute ∧ a.second = b.second ∧ a.nanosecond = b.nanosecond) := by
  rw [Earlier, Earlier]
  omega

/-- The smaller instant is the earlier civil time. -/
theorem earlier_of_instant {a b : CivilTime} (ha : Valid a) (hb : Valid b) (h : instant a < instant b) :
    Earlier a b := by
  rcases earlier_total a b with hab | hba | ⟨hy, hm, hd, hh, hi, hs, hn⟩
  · exact hab
  · exact absurd (instant_lt hb ha hba) (by omega)
  · rw [instant, instant, hy, hm, hd, hh, hi, hs, hn] at h
    exact absurd h (Int.lt_irrefl _)

/-! ## The conversion is right -/

/-- The conversion's date is that of the days, its time what is left of the day. -/
theorem civilFromUnixNs_eq (unixNs : UInt64) (offsetMinutes : Int32) :
    civilFromUnixNs unixNs offsetMinutes =
      let secs := max (adjusted unixNs offsetMinutes) 0 / 1000000000
      let d := civilFromDays (secs / 86400)
      { year := d.1, month := d.2.1, day := d.2.2
        hour := secs % 86400 / 3600
        minute := secs % 86400 / 60 % 60
        second := secs % 86400 % 60
        nanosecond := max (adjusted unixNs offsetMinutes) 0 % 1000000000
        weekday := (secs / 86400 + 4) % 7 } := by
  delta civilFromUnixNs civilFromDays monthDay
  rfl

/-- What comes out is a date and a time of day that there are. -/
theorem civilFromUnixNs_valid (unixNs : UInt64) (offsetMinutes : Int32) :
    Valid (civilFromUnixNs unixNs offsetMinutes) := by
  rw [civilFromUnixNs_eq]
  generalize hall : max (adjusted unixNs offsetMinutes) 0 = ns
  have hns : 0 ≤ ns := by omega
  obtain ⟨hyear, hmonth, hday, hnumber⟩ :=
    @civilFromDays_spec (ns / 1000000000 / 86400) (Int.ediv_nonneg (Int.ediv_nonneg hns (by decide)) (by decide))
  refine ⟨hyear, hmonth, hday, ?_, ?_, ?_, ?_, ?_⟩
  · dsimp only
    omega
  · dsimp only
    omega
  · dsimp only
    omega
  · dsimp only
    omega
  · dsimp only
    rw [hnumber, Int.add_comm]

/-- Its day count, hours, minutes, seconds and nanoseconds are the instant, from the epoch on. -/
theorem civilFromUnixNs_instant {unixNs : UInt64} {offsetMinutes : Int32} (h : 0 ≤ adjusted unixNs offsetMinutes) :
    instant (civilFromUnixNs unixNs offsetMinutes) = adjusted unixNs offsetMinutes := by
  rw [civilFromUnixNs_eq, Int.max_eq_left h]
  generalize adjusted unixNs offsetMinutes = ns at h ⊢
  have hnumber := (@civilFromDays_spec (ns / 1000000000 / 86400)
    (Int.ediv_nonneg (Int.ediv_nonneg h (by decide)) (by decide))).2.2.2
  rw [instant]
  dsimp only
  rw [hnumber]
  omega

/-- The conversion of every instant from the epoch on: a date and time of the calendar with its weekday, which
is that instant, and the later the instant the later the date. -/
theorem civilFromUnixNs_exact {unixNs : UInt64} {offsetMinutes : Int32} (h : 0 ≤ adjusted unixNs offsetMinutes) :
    Valid (civilFromUnixNs unixNs offsetMinutes) ∧
      instant (civilFromUnixNs unixNs offsetMinutes) = adjusted unixNs offsetMinutes ∧
      ∀ (laterNs : UInt64) (laterOffset : Int32), adjusted unixNs offsetMinutes < adjusted laterNs laterOffset →
        Earlier (civilFromUnixNs unixNs offsetMinutes) (civilFromUnixNs laterNs laterOffset) := by
  have hinstant := civilFromUnixNs_instant h
  refine ⟨civilFromUnixNs_valid _ _, hinstant, fun laterNs laterOffset hlater => ?_⟩
  have hinstant' := civilFromUnixNs_instant (show 0 ≤ adjusted laterNs laterOffset by omega)
  exact earlier_of_instant (civilFromUnixNs_valid _ _) (civilFromUnixNs_valid _ _) (by omega)

/-- The end of the leap year 2016, two hours east, and the new year there. -/
theorem civilFromUnixNs_exact_leap_year :
    Valid (civilFromUnixNs 1483221599000000000 120) ∧
      instant (civilFromUnixNs 1483221599000000000 120) = adjusted 1483221599000000000 120 ∧
      Earlier (civilFromUnixNs 1483221599000000000 120) (civilFromUnixNs 1483221600000000000 120) :=
  have hexact := @civilFromUnixNs_exact 1483221599000000000 120 (by decide)
  ⟨hexact.1, hexact.2.1, hexact.2.2 1483221600000000000 120 (by decide)⟩

end NanoChrono.Clock
