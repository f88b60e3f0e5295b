import Icu.Calendar.GregoDates

/-!
# `PersianCalendar`

The conversions of `persncal.cpp`.  The leap rule, the starts of the years and the estimate of the
year agree, where the product of the estimate is an `int32_t`.
-/

namespace Icu.Calendar.Persian

open Lib

variable {year month julianDay : Int}

def persianEpoch : Int := 1948320

/-- `kPersianNumDays`. -/
def persianNumDays : List Int := [0, 31, 62, 93, 124, 155, 186, 216, 246, 276, 306, 336]

/-- `kPersianMonthLength`. -/
def persianMonthLength : List Int := [31, 31, 31, 31, 31, 31, 30, 30, 30, 30, 30, 29]

/-- `kPersianLeapMonthLength`. -/
def persianLeapMonthLength : List Int := [31, 31, 31, 31, 31, 31, 30, 30, 30, 30, 30, 30]

/-- `isLeapYear`. -/
def isLeapYear (year : Int) : Option Bool := do
  let x ← checked32 (25 * year)
  let x ← checked32 (x + 11)
  let (_, remainder) ← ClockMath.floorDivideRemainder x 33
  return decide (remainder < 8)

/-- The year and the month, where a month out of range is adjusted into range. -/
def adjustMonth (extendedYear month : Int) : Option (Int × Int) :=
  if month < 0 ∨ 11 < month then do
    let (years, month) ← ClockMath.floorDivideRemainder month 12
    return (← checked32 (extendedYear + years), month)
  else some (extendedYear, month)

/-- `handleGetMonthLength`. -/
def handleGetMonthLength (extendedYear month : Int) : Option Int := do
  let (extendedYear, month) ← adjustMonth extendedYear month
  element (if ← isLeapYear extendedYear then persianLeapMonthLength else persianMonthLength) month

/-- `handleGetYearLength`. -/
def handleGetYearLength (extendedYear : Int) : Option Int := do
  return if ← isLeapYear extendedYear then 366 else 365

/-- `handleComputeMonthStart`. -/
def handleComputeMonthStart (eyear month : Int) : Option Int := do
  let (eyear, month) ← adjustMonth eyear month
  let y ← checked32 (eyear - 1)
  let days ← checked32 (365 * y)
  let julianDay ← checked32 (persianEpoch - 1 + days)
  let x ← checked32 (8 * eyear)
  let x ← checked32 (x + 21)
  let julianDay ← checked32 (julianDay + (← ClockMath.floorDivide x 33))
  if month ≠ 0 then checked32 (julianDay + (← element persianNumDays month)) else some julianDay

/-- `yearStart`. -/
def yearStart (year : Int) : Option Int :=
  handleComputeMonthStart year 0

/-- The fields that `handleComputeFields` sets. -/
structure Fields where
  year : Int
  month : Int
  dayOfMonth : Int
  dayOfYear : Int
  deriving DecidableEq, Repr

/-- `handleComputeFields`. -/
def handleComputeFields (julianDay : Int) : Option Fields := do
  let daysSinceEpoch ← checked32 (julianDay - persianEpoch)
  let x ← checked32 (33 * daysSinceEpoch)
  let x ← checked32 (x + 3)
  let year ← checked32 (1 + (← ClockMath.floorDivide x 12053))
  let days ← checked32 (365 * (year - 1))
  let x ← checked32 (8 * year)
  let x ← checked32 (x + 21)
  let farvardin1 ← checked32 (days + (← ClockMath.floorDivide x 33))
  let dayOfYear ← checked32 (daysSinceEpoch - farvardin1)
  let month := if dayOfYear < 216 then dayOfYear.tdiv 31 else (dayOfYear - 6).tdiv 30
  let dayOfMonth := dayOfYear - (← element persianNumDays month) + 1
  return ⟨year, month, dayOfMonth, dayOfYear + 1⟩

/-- The days since the epoch before a year. -/
def startDays (year : Int) : Int :=
  365 * (year - 1) + (8 * year + 21) / 33

def isLeap (year : Int) : Bool :=
  decide ((25 * year + 11) % 33 < 8)

def yearDays (year : Int) : Int :=
  if isLeap year then 366 else 365

theorem startDays_succ (year : Int) : startDays (year + 1) = startDays year + yearDays year := by
  have hnext : 8 * (year + 1) + 21 = 8 * year + 29 := by omega
  have hsum : 25 * year + 11 = 33 * year + (40 - (8 * year + 29)) := by omega
  have hleap : (25 * year + 11) % 33 < 8 ↔ (8 * year + 29) % 33 < 8 := by
    rw [hsum]
    generalize 8 * year + 29 = x
    omega
  unfold startDays yearDays isLeap
  rw [hnext]
  simp only [hleap, decide_eq_true_eq]
  split <;> omega

def yearOf (days : Int) : Int :=
  1 + (33 * days + 3) / 12053

theorem yearOf_spec (days : Int) :
    startDays (yearOf days) ≤ days ∧ days < startDays (yearOf days + 1) := by
  unfold yearOf startDays
  omega

theorem isLeapYear_eq (hlow : -80000000 ≤ year) (hhigh : year ≤ 80000000) :
    isLeapYear year = some (isLeap year) := by
  unfold isLeapYear isLeap
  simp only [checked32_eq (show -0x80000000 ≤ 25 * year by omega) (by omega),
    checked32_eq (show -0x80000000 ≤ 25 * year + 11 by omega) (by omega),
    ClockMath.floorDivideRemainder_eq (show (0 : Int) < 33 by decide) (by decide)
      (show -0x80000000 ≤ (25 * year + 11) / 33 by omega) (by omega), Option.bind_eq_bind,
    Option.bind_some, Option.pure_def]

theorem yearLength_eq (hlow : -80000000 ≤ year) (hhigh : year ≤ 80000000) :
    handleGetYearLength year = some (yearDays year) := by
  unfold handleGetYearLength
  rw [isLeapYear_eq hlow hhigh]
  rfl

def monthOf (dayOfYear : Int) : Int :=
  if dayOfYear < 216 then dayOfYear / 31 else (dayOfYear - 6) / 30

def monthStart (month : Int) : Int :=
  if month ≤ 6 then 31 * month else 30 * month + 6

def monthDays (year month : Int) : Int :=
  if month < 6 then 31 else if month < 11 then 30 else yearDays year - 336

theorem numDays_eq (hlow : 0 ≤ month) (hhigh : month ≤ 11) :
    element persianNumDays month = some (monthStart month) := by
  interval_cases month <;> rfl

theorem monthOf_spec {dayOfYear : Int} (hlow : 0 ≤ dayOfYear)
    (hhigh : dayOfYear < yearDays year) : 0 ≤ monthOf dayOfYear ∧ monthOf dayOfYear ≤ 11 ∧
    monthStart (monthOf dayOfYear) ≤ dayOfYear ∧
    dayOfYear < monthStart (monthOf dayOfYear) + monthDays year (monthOf dayOfYear) := by
  have hlength : yearDays year ≤ 366 := by
    unfold yearDays
    split <;> omega
  unfold monthDays monthStart monthOf
  split_ifs <;> omega

theorem monthLength_eq {year month : Int} (hlow : -80000000 ≤ year) (hhigh : year ≤ 80000000)
    (hmonth : 0 ≤ month) (hmonth' : month ≤ 11) :
    handleGetMonthLength year month = some (monthDays year month) := by
  unfold handleGetMonthLength adjustMonth
  rw [if_neg (by omega)]
  simp only [Option.bind_eq_bind, Option.bind_some, isLeapYear_eq hlow hhigh]
  unfold monthDays yearDays
  cases isLeap year <;> interval_cases month <;> rfl

theorem computeMonthStart_eq (hlow : -5850000 ≤ year) (hhigh : year ≤ 5850000)
    (hmonth : 0 ≤ month) (hmonth' : month ≤ 11) : handleComputeMonthStart year month =
      some (persianEpoch - 1 + startDays year + monthStart month) := by
  unfold handleComputeMonthStart adjustMonth persianEpoch
  rw [if_neg (by omega)]
  have hstart : 0 ≤ monthStart month ∧ monthStart month ≤ 336 := by
    unfold monthStart
    split <;> omega
  simp only [checked32_eq (show -0x80000000 ≤ year - 1 by omega) (by omega),
    checked32_eq (show -0x80000000 ≤ 365 * (year - 1) by omega) (by omega),
    checked32_eq (show -0x80000000 ≤ 1948320 - 1 + 365 * (year - 1) by omega) (by omega),
    checked32_eq (show -0x80000000 ≤ 8 * year by omega) (by omega),
    checked32_eq (show -0x80000000 ≤ 8 * year + 21 by omega) (by omega),
    ClockMath.floorDivide_eq (show -0x80000000 ≤ 8 * year + 21 by omega) (by omega)
      (show (0 : Int) < 33 by decide), Option.bind_eq_bind, Option.bind_some,
    checked32_eq (show -0x80000000 ≤ 1948320 - 1 + 365 * (year - 1) + (8 * year + 21) / 33 by omega)
      (by omega), numDays_eq hmonth hmonth']
  unfold startDays
  by_cases hzero : month = 0
  · subst hzero
    rw [if_neg (not_not.mpr rfl), Option.some.injEq]
    unfold monthStart
    omega
  · rw [if_pos hzero, checked32_eq (by omega) (by omega), Option.some.injEq]
    omega

/-! ## The fields -/

/-- The fields of a day are in their ranges and lead back to the day. -/
structure FieldsFit (julianDay : Int) (fields : Fields) (length days start : Int) : Prop where
  computed : handleComputeFields julianDay = some fields
  monthLength : handleGetMonthLength fields.year fields.month = some length
  yearLength : handleGetYearLength fields.year = some days
  monthStart : handleComputeMonthStart fields.year fields.month = some start
  month : 0 ≤ fields.month ∧ fields.month ≤ 11
  dayOfMonth : 1 ≤ fields.dayOfMonth ∧ fields.dayOfMonth ≤ length
  dayOfYear : 1 ≤ fields.dayOfYear ∧ fields.dayOfYear ≤ days
  julianDay : start + fields.dayOfMonth = julianDay

def FieldsRight (julianDay : Int) : Prop :=
  ∃ fields length days start, FieldsFit julianDay fields length days start

/-- The product of the estimate of the year, and its sum, are `int32_t`. -/
def EstimateFits (julianDay : Int) : Prop :=
  -0x80000000 ≤ 33 * (julianDay - persianEpoch) ∧ 33 * (julianDay - persianEpoch) + 3 ≤ 0x7fffffff

theorem computeFields_eq (hfits : EstimateFits julianDay) : handleComputeFields julianDay =
      let days := julianDay - persianEpoch
      let dayOfYear := days - startDays (yearOf days)
      let month := monthOf dayOfYear
      some ⟨yearOf days, month, dayOfYear - monthStart month + 1, dayOfYear + 1⟩ := by
  obtain ⟨hlow, hhigh⟩ := hfits
  unfold handleComputeFields
  generalize julianDay - persianEpoch = days at *
  obtain ⟨hstart, hend⟩ := yearOf_spec days
  rw [startDays_succ] at hend
  obtain ⟨hmonth, hmonth', -⟩ := monthOf_spec (show 0 ≤ days - startDays (yearOf days) by omega)
    (show days - startDays (yearOf days) < yearDays (yearOf days) by omega)
  have hyear : -200000 ≤ yearOf days ∧ yearOf days ≤ 200000 := by
    unfold yearOf
    omega
  have hyearOf : 1 + (33 * days + 3) / 12053 = yearOf days := rfl
  have hlength : yearDays (yearOf days) ≤ 366 := by
    unfold yearDays
    split <;> omega
  have hmonthOf : (if days - startDays (yearOf days) < 216 then
    (days - startDays (yearOf days)).tdiv 31
      else (days - startDays (yearOf days) - 6).tdiv 30) =
      monthOf (days - startDays (yearOf days)) := by
    unfold monthOf
    split
    · rw [Int.tdiv_eq_ediv_of_nonneg (by omega)]
    · rw [Int.tdiv_eq_ediv_of_nonneg (by omega)]
  have hfarvardin : 365 * (yearOf days - 1) + (8 * yearOf days + 21) / 33 =
      startDays (yearOf days) := rfl
  simp only [checked32_eq (show -0x80000000 ≤ days by omega) (by omega),
    checked32_eq hlow (show 33 * days ≤ 0x7fffffff by omega),
    checked32_eq (show -0x80000000 ≤ 33 * days + 3 by omega) hhigh,
    ClockMath.floorDivide_eq (show -0x80000000 ≤ 33 * days + 3 by omega) hhigh
      (show (0 : Int) < 12053 by decide), hyearOf, Option.bind_eq_bind, Option.bind_some,
    checked32_eq (show -0x80000000 ≤ yearOf days by omega) (by omega),
    checked32_eq (show -0x80000000 ≤ 365 * (yearOf days - 1) by omega) (by omega),
    checked32_eq (show -0x80000000 ≤ 8 * yearOf days by omega) (by omega),
    checked32_eq (show -0x80000000 ≤ 8 * yearOf days + 21 by omega) (by omega),
    ClockMath.floorDivide_eq (show -0x80000000 ≤ 8 * yearOf days + 21 by omega) (by omega)
      (show (0 : Int) < 33 by decide), hfarvardin,
    checked32_eq (show -0x80000000 ≤ startDays (yearOf days) by omega) (by omega),
    checked32_eq (show -0x80000000 ≤ days - startDays (yearOf days) by omega) (by omega),
    hmonthOf, numDays_eq hmonth hmonth', Option.pure_def]

theorem fieldsRight_of_fits (hfits : EstimateFits julianDay) : FieldsRight julianDay := by
  have hfields := computeFields_eq hfits
  obtain ⟨hlow, hhigh⟩ := hfits
  generalize hdays : julianDay - persianEpoch = days at *
  obtain ⟨hstart, hend⟩ := yearOf_spec days
  rw [startDays_succ] at hend
  obtain ⟨hmonth, hmonth', hday, hday'⟩ := monthOf_spec
    (show 0 ≤ days - startDays (yearOf days) by omega)
    (show days - startDays (yearOf days) < yearDays (yearOf days) by omega)
  have hyear : -200000 ≤ yearOf days ∧ yearOf days ≤ 200000 := by
    unfold yearOf
    omega
  refine ⟨_, _, _, _, hfields, monthLength_eq (by dsimp only; omega) (by dsimp only; omega) hmonth
    hmonth', yearLength_eq (by dsimp only; omega) (by dsimp only; omega),
    computeMonthStart_eq (by dsimp only; omega) (by dsimp only; omega) hmonth hmonth',
    ⟨hmonth, hmonth'⟩, ?_, ?_, ?_⟩
  · dsimp only
    omega
  · dsimp only
    omega
  · dsimp only
    omega

theorem fits_of_fieldsRight (hright : FieldsRight julianDay) : EstimateFits julianDay := by
  obtain ⟨fields, _, _, _, hfit⟩ := hright
  have hcomputed := hfit.computed
  simp only [handleComputeFields, Option.bind_eq_bind, Option.bind_eq_some_iff] at hcomputed
  obtain ⟨days, hdays, x, hx, x', hx', -⟩ := hcomputed
  unfold checked32 at hdays hx hx'
  simp only [Option.ite_none_right_eq_some, Option.some.injEq] at hdays hx hx'
  obtain ⟨-, rfl⟩ := hdays
  obtain ⟨hlow, rfl⟩ := hx
  exact ⟨hlow.1, hx'.1.2⟩

/-- The years of the days from `MIN_JULIAN` to `MAX_JULIAN`. -/
def minYear : Int := -5839011
def maxYear : Int := 5828343

theorem year_range : startDays minYear ≤ minJulian - persianEpoch ∧
    minJulian - persianEpoch < startDays (minYear + 1) ∧
    startDays maxYear ≤ maxJulian - persianEpoch ∧
    maxJulian - persianEpoch < startDays (maxYear + 1) := by
  decide

def LengthRight (year : Int) : Prop :=
  ∃ start next length, yearStart year = some start ∧ yearStart (year + 1) = some next ∧
    handleGetYearLength year = some length ∧ next - start = length

theorem lengthRight (hlow : minYear ≤ year) (hhigh : year ≤ maxYear) : LengthRight year := by
  unfold minYear at hlow
  unfold maxYear at hhigh
  have hsucc := startDays_succ year
  refine ⟨_, _, _, computeMonthStart_eq (by omega) (by omega) (Int.le_refl 0) (by decide),
    computeMonthStart_eq (by omega) (by omega) (Int.le_refl 0) (by decide),
    yearLength_eq (by omega) (by omega), ?_⟩
  omega

/-- The fields of a day are right exactly if the product of the estimate does not overflow.  The
lengths are right for all years of the days from `MIN_JULIAN` to `MAX_JULIAN`. -/
theorem persian_conversion_iff (julianDay year : Int) :
    (startDays minYear ≤ minJulian - persianEpoch ∧
      maxJulian - persianEpoch < startDays (maxYear + 1)) ∧
    (minYear ≤ year → year ≤ maxYear → LengthRight year) ∧
    (minJulian ≤ julianDay → julianDay ≤ maxJulian →
      (FieldsRight julianDay ↔ EstimateFits julianDay)) :=
  ⟨⟨year_range.1, year_range.2.2.2⟩, lengthRight,
    fun _ _ => ⟨fits_of_fieldsRight, fieldsRight_of_fits⟩⟩

/-- A day of the year 1394, and a year before the epoch. -/
theorem persian_conversion_iff_1394 : FieldsRight 2457400 ∧ LengthRight (-5000000) :=
  ⟨((persian_conversion_iff 2457400 0).2.2 (by decide) (by decide)).mpr
    (by unfold EstimateFits; decide),
    (persian_conversion_iff 0 (-5000000)).2.1 (by decide) (by decide)⟩

/-- From the day 67023582 on the product overflows. -/
theorem conversion_overflow : ¬ ((∀ julianDay, minJulian ≤ julianDay → julianDay ≤ maxJulian →
    FieldsRight julianDay) ∧ ∀ year, minYear ≤ year → year ≤ maxYear → LengthRight year) := by
  rintro ⟨hfields, -⟩
  have hfits := fits_of_fieldsRight (hfields 67023582 (by decide) (by decide))
  exact absurd hfits.2 (by decide)

theorem monthOf_eq {day : Int} (hlow : 0 ≤ month) (hhigh : month ≤ 11) (hday : 1 ≤ day)
    (hday' : day ≤ monthDays year month) : monthOf (monthStart month + (day - 1)) = month ∧
      0 ≤ monthStart month ∧ monthStart month + day ≤ yearDays year := by
  have hlength : 365 ≤ yearDays year ∧ yearDays year ≤ 366 := by
    unfold yearDays
    split <;> omega
  unfold monthDays at hday'
  unfold monthOf monthStart
  split_ifs at * <;> omega

/-- The fields of the day that a date stands for are the date. -/
theorem persian_date_roundTrip {day start length : Int} (hlow : minYear ≤ year)
    (hhigh : year ≤ maxYear) (hmonth : 0 ≤ month) (hmonth' : month ≤ 11)
    (hstart : handleComputeMonthStart year month = some start)
    (hlength : handleGetMonthLength year month = some length) (hday : 1 ≤ day)
    (hday' : day ≤ length)
    (hfits : EstimateFits (start + day)) : ∃ dayOfYear,
      handleComputeFields (start + day) = some ⟨year, month, day, dayOfYear⟩ := by
  unfold minYear at hlow
  unfold maxYear at hhigh
  rw [computeMonthStart_eq (by omega) (by omega) hmonth hmonth', Option.some.injEq] at hstart
  rw [monthLength_eq (by omega) (by omega) hmonth hmonth', Option.some.injEq] at hlength
  obtain ⟨hmonthOf, hpos, hinside⟩ := monthOf_eq hmonth hmonth' hday (hday'.trans hlength.ge)
  have hdays : start + day - persianEpoch = startDays year + (monthStart month + (day - 1)) := by
    omega
  have hyear : yearOf (startDays year + (monthStart month + (day - 1))) = year := by
    have hnext := startDays_succ year
    unfold startDays at hnext ⊢
    unfold yearOf
    omega
  rw [computeFields_eq hfits]
  simp only [hdays, hyear, add_sub_cancel_left, hmonthOf, sub_add_cancel]
  exact ⟨_, rfl⟩

theorem persian_date_roundTrip_1394 :
    ∃ dayOfYear, handleComputeFields 2457400 = some ⟨1394, 9, 22, dayOfYear⟩ :=
  @persian_date_roundTrip 1394 9 22 2457378 30 (by decide) (by decide) (by decide) (by decide)
    (by decide) (by decide) (by decide) (by decide) (by unfold EstimateFits; decide)

end Icu.Calendar.Persian
