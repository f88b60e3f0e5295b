import Icu.Calendar.Islamic

/-!
# The fields of a day in the Islamic civil calendar

The years and months are counted from the leap rule.  The estimates of the code are exact, as long
as thirty times the days fit into an `int32_t`.
-/

namespace Icu.Calendar.Islamic

open Lib

variable {year month days julianDay : Int}

def civilStart (year : Int) : Int :=
  (year - 1) * 354 + (3 + 11 * year) / 30

def isCivilLeap (year : Int) : Bool :=
  decide ((14 + 11 * year) % 30 < 11)

def civilLength (year : Int) : Int :=
  if isCivilLeap year then 355 else 354

theorem civilStart_succ (year : Int) :
    civilStart (year + 1) = civilStart year + civilLength year := by
  have hnext : 3 + 11 * (year + 1) = 14 + 11 * year := by omega
  unfold civilStart civilLength isCivilLeap
  rw [hnext]
  split <;> simp_all <;> omega

theorem civilStart_pos_bound (hstart : civilStart year ≤ 0x7fffffff) : year ≤ 6060100 := by
  unfold civilStart at hstart
  omega

theorem civilLeapYear_eq (hlow : 1 ≤ year) (hhigh : year ≤ 6060100) :
    civilLeapYear year = some (isCivilLeap year) := by
  unfold civilLeapYear isCivilLeap
  simp only [checked32_eq (show -0x80000000 ≤ 11 * year by omega) (by omega),
    checked32_eq (show -0x80000000 ≤ 14 + 11 * year by omega) (by omega), Option.bind_eq_bind,
    Option.bind_some]
  rw [Int.tmod_eq_emod_of_nonneg (by omega)]
  rfl

theorem civilYearStart_eq (hlow : 1 ≤ year)
    (hstart : civilStart year ≤ 0x7fffffff) : civilYearStart year = some (civilStart year) := by
  have hhigh := civilStart_pos_bound hstart
  unfold civilStart at hstart
  unfold civilYearStart civilStart
  simp only [checked32_eq (show -0x80000000 ≤ year - 1 by omega) (by omega),
    checked32_eq (show -0x80000000 ≤ (year - 1) * 354 by omega) (by omega),
    checked32_eq (show -0x80000000 ≤ 11 * year by omega) (by omega),
    checked32_eq (show -0x80000000 ≤ 3 + 11 * year by omega) (by omega),
    ClockMath.floorDivide_eq (show -0x80000000 ≤ 3 + 11 * year by omega) (by omega)
      (show (0 : Int) < 30 by decide), Option.bind_eq_bind, Option.bind_some]
  exact checked32_eq (by omega) hstart

/-- A start that does not fit is not computed. -/
theorem civilYearStart_le {start : Int} (hstart : civilYearStart year = some start) :
    start = civilStart year ∧ civilStart year ≤ 0x7fffffff := by
  unfold civilYearStart at hstart
  simp only [Option.bind_eq_bind, Option.bind_eq_some_iff] at hstart
  obtain ⟨y, hy, days, hdays, x, hx, x', hx', leaps, hleaps, hsum⟩ := hstart
  unfold checked32 at hy hdays hx hx' hsum
  simp only [Option.ite_none_right_eq_some, Option.some.injEq] at hy hdays hx hx' hsum
  obtain ⟨-, rfl⟩ := hy
  obtain ⟨-, rfl⟩ := hdays
  obtain ⟨-, rfl⟩ := hx
  obtain ⟨hbounds, rfl⟩ := hx'
  obtain ⟨hfits, rfl⟩ := hsum
  rw [ClockMath.floorDivide_eq hbounds.1 hbounds.2 (by decide), Option.some.injEq] at hleaps
  subst hleaps
  exact ⟨rfl, hfits.2⟩

def civilMonthStart (month : Int) : Int :=
  (59 * month + 1) / 2

theorem ceilDivide_two (month : Int) : ceilDivide (59 * month) 2 = civilMonthStart month := by
  unfold ceilDivide civilMonthStart
  omega

def civilMonthLength (year month : Int) : Int :=
  29 + (month + 1) % 2 + if month = 11 ∧ isCivilLeap year then 1 else 0

theorem civilMonthStart_succ (hlow : 0 ≤ month) (hhigh : month ≤ 11) :
    civilMonthStart month + civilMonthLength year month =
      if month = 11 then civilLength year else civilMonthStart (month + 1) := by
  unfold civilMonthStart civilMonthLength civilLength
  interval_cases month <;> cases isCivilLeap year <;> rfl

variable {cType : ECalculationType}

theorem monthLength_civil (hlow : 1 ≤ year)
    (hhigh : year ≤ 6060100) (hcivil : isCivilYear cType year = true) (hmonth : 0 ≤ month) :
    handleGetMonthLength cType year month = some (civilMonthLength year month) := by
  unfold handleGetMonthLength civilMonthLength dhuAlHijjah
  rw [if_pos hcivil, Int.tmod_eq_emod_of_nonneg (by omega)]
  by_cases hlast : month = 11
  · cases hleap : isCivilLeap year <;> simp [hlast, civilLeapYear_eq hlow hhigh, hleap]
  · simp [hlast]

theorem yearLength_civil (hlow : 1 ≤ year)
    (hhigh : year ≤ 6060100) (hcivil : isCivilYear cType year = true) :
    handleGetYearLength cType year = some (civilLength year) := by
  unfold handleGetYearLength civilLength
  cases hleap : isCivilLeap year <;> simp [hcivil, civilLeapYear_eq hlow hhigh, hleap]

/-- The fields of a day are in their ranges and lead back to the day. -/
structure FieldsFit (cType : ECalculationType) (julianDay : Int) (fields : Fields)
    (length days start : Int) : Prop where
  computed : handleComputeFields cType julianDay = some fields
  monthLength : handleGetMonthLength cType fields.year fields.month = some length
  yearLength : handleGetYearLength cType fields.year = some days
  monthStart : handleComputeMonthStart cType fields.year fields.month = some start
  year : 1 ≤ fields.year
  month : 0 ≤ fields.month ∧ fields.month ≤ 11
  dayOfMonth : 1 ≤ fields.dayOfMonth ∧ fields.dayOfMonth ≤ length
  dayOfYear : 1 ≤ fields.dayOfYear ∧ fields.dayOfYear ≤ days
  julianDay : start + fields.dayOfMonth = julianDay

def FieldsRight (cType : ECalculationType) (julianDay : Int) : Prop :=
  ∃ fields length days start, FieldsFit cType julianDay fields length days start

theorem epoc_bounds (cType : ECalculationType) : 0 ≤ epoc cType ∧ epoc cType ≤ 1948440 := by
  cases cType <;> decide

theorem fieldsRight_of_bounds {julianDay year month first start
    monthLength yearLength : Int} (hlast : julianDay ≤ maxJulian)
    (hyearMonth : yearMonth cType (julianDay - epoc cType) = some (year, month))
    (hfirst : monthStart cType year 0 = some first)
    (hstart : monthStart cType year month = some start)
    (hmonthLength : handleGetMonthLength cType year month = some monthLength)
    (hyearLength : handleGetYearLength cType year = some yearLength)
    (hyear : 1 ≤ year) (hyear' : year ≤ 6060100) (hmonth : 0 ≤ month) (hmonth' : month ≤ 11)
    (hpos : 0 ≤ first) (hle : first ≤ start)
    (hday : start ≤ julianDay - epoc cType) (hday' : julianDay - epoc cType < start + monthLength)
    (hdayOfYear : julianDay - epoc cType < first + yearLength) : FieldsRight cType julianDay := by
  have hepoc := epoc_bounds cType
  unfold maxJulian at hlast
  refine ⟨⟨year, month, julianDay - epoc cType - start + 1, julianDay - epoc cType - first + 1⟩,
    monthLength, yearLength, start + epoc cType - 1, ?_, hmonthLength, hyearLength, ?_, hyear,
    ⟨hmonth, hmonth'⟩, ?_, ?_, ?_⟩
  · unfold handleComputeFields
    simp only [hyearMonth, hstart, hfirst, Option.bind_eq_bind, Option.bind_some,
      Option.pure_def, checked32_eq (show -0x80000000 ≤ julianDay - epoc cType by omega) (by omega),
      checked32_eq (show -0x80000000 ≤ julianDay - epoc cType - start by omega) (by omega),
      checked32_eq (show -0x80000000 ≤ julianDay - epoc cType - start + 1 by omega) (by omega),
      checked32_eq (show -0x80000000 ≤ julianDay - epoc cType - first by omega) (by omega),
      checked32_eq (show -0x80000000 ≤ julianDay - epoc cType - first + 1 by omega) (by omega)]
  · unfold handleComputeMonthStart
    simp only [if_neg (show ¬ 11 < month by omega), if_neg (show ¬ month < 0 by omega), hstart,
      checked32_eq (show -0x80000000 ≤ year by omega) (by omega), Option.bind_eq_bind,
      Option.bind_some, checked32_eq (show -0x80000000 ≤ start + epoc cType by omega) (by omega)]
    exact checked32_eq (by omega) (by omega)
  · dsimp only
    omega
  · dsimp only
    omega
  · dsimp only
    omega

/-- The year of the days since the epoch. -/
def yearOf (days : Int) : Int :=
  (30 * days + 10646) / 10631

/-- The month of the days since the start of a year. -/
def monthOf (dayOfYear : Int) : Int :=
  min (ceilDivide (2 * (dayOfYear - 29)) 59) 11

theorem yearOf_spec (hdays : 0 ≤ days) : 1 ≤ yearOf days ∧
    civilStart (yearOf days) ≤ days ∧ days < civilStart (yearOf days + 1) := by
  unfold yearOf civilStart
  omega

theorem monthOf_spec {dayOfYear : Int} (hlow : 0 ≤ dayOfYear)
    (hhigh : dayOfYear < civilLength year) : 0 ≤ monthOf dayOfYear ∧ monthOf dayOfYear ≤ 11 ∧
    civilMonthStart (monthOf dayOfYear) ≤ dayOfYear ∧
    dayOfYear < civilMonthStart (monthOf dayOfYear) + civilMonthLength year
      (monthOf dayOfYear) := by
  have hmonth : 0 ≤ monthOf dayOfYear ∧ monthOf dayOfYear ≤ 11 := by
    unfold monthOf ceilDivide
    omega
  rw [civilMonthStart_succ hmonth.1 hmonth.2]
  refine ⟨hmonth.1, hmonth.2, ?_, ?_⟩
  · unfold civilLength at hhigh
    unfold civilMonthStart monthOf ceilDivide
    split at hhigh <;> omega
  split
  · exact hhigh
  · next hother =>
    unfold civilMonthStart monthOf ceilDivide at *
    omega

/-- The code finds the estimates, where they do not overflow. -/
theorem civilYearMonth_eq (hdays : 0 ≤ days) (hfits : 30 * days + 10646 ≤ 0x7fffffff)
    (hcivil : isCivilYear cType (yearOf days) = true) : civilYearMonth cType days =
      some (yearOf days, monthOf (days - civilStart (yearOf days))) := by
  obtain ⟨hyear, hstart, -⟩ := yearOf_spec hdays
  have hpos : 0 ≤ civilStart (yearOf days) := by
    unfold civilStart
    omega
  have hyearStart : yearStart cType (yearOf days) = some (civilStart (yearOf days)) := by
    rw [yearStart, if_pos hcivil, civilYearStart_eq hyear (by omega)]
  have hsub : days - 29 - civilStart (yearOf days) = days - civilStart (yearOf days) - 29 := by
    omega
  have hyearOf : (30 * days + 10646) / 10631 = yearOf days := rfl
  unfold civilYearMonth
  simp only [hyearOf, checked32_eq (show -0x80000000 ≤ 30 * days by omega) (by omega),
    checked32_eq (show -0x80000000 ≤ 30 * days + 10646 by omega) hfits,
    checked32_eq (show -0x80000000 ≤ days - 29 by omega) (by omega), hyearStart,
    checked32_eq (show -0x80000000 ≤ days - 29 - civilStart (yearOf days) by omega) (by omega),
    Option.bind_eq_bind, Option.bind_some, Option.pure_def, Option.some.injEq, Prod.mk.injEq,
    true_and]
  unfold monthOf
  rw [hsub]
  split <;> omega

section

variable (hrule : cType = .civil ∨ cType = .tbla)
include hrule

theorem monthStart_civil (hlow : 1 ≤ year) (hmonth : 0 ≤ month)
    (hmonth' : month ≤ 11) (hstart : civilStart year ≤ 0x7fffff00) :
    monthStart cType year month = some (civilStart year + civilMonthStart month) := by
  have hhigh := civilStart_pos_bound (show civilStart year ≤ 0x7fffffff by omega)
  unfold civilStart at hstart
  unfold monthStart civilStart
  rw [if_pos hrule, ceilDivide_two]
  have hmonthStart : 0 ≤ civilMonthStart month ∧ civilMonthStart month ≤ 325 := by
    unfold civilMonthStart
    omega
  simp only [checked32_eq (show -0x80000000 ≤ year - 1 by omega) (by omega),
    checked32_eq (show -0x80000000 ≤ (year - 1) * 354 by omega) (by omega),
    checked32_eq (show -0x80000000 ≤ civilMonthStart month + (year - 1) * 354 by omega) (by omega),
    checked32_eq (show -0x80000000 ≤ 11 * year by omega) (by omega),
    checked32_eq (show -0x80000000 ≤ 3 + 11 * year by omega) (by omega),
    ClockMath.floorDivide_eq (show -0x80000000 ≤ 3 + 11 * year by omega) (by omega)
      (show (0 : Int) < 30 by decide), Option.bind_eq_bind, Option.bind_some]
  rw [checked32_eq (by omega) (by omega), Option.some.injEq]
  omega

theorem yearMonth_civil (days : Int) : yearMonth cType days = civilYearMonth cType days := by
  obtain rfl | rfl := hrule <;> rfl

theorem fits_of_fieldsRight (hlast : julianDay ≤ maxJulian) (hright : FieldsRight cType julianDay) :
    30 * (julianDay - epoc cType) + 10646 ≤ 0x7fffffff := by
  obtain ⟨fields, _, _, _, hfit⟩ := hright
  by_contra hover
  have hfields := hfit.computed
  have hnone : civilYearMonth cType (julianDay - epoc cType) = none := by
    unfold civilYearMonth
    by_cases hproduct : 30 * (julianDay - epoc cType) ≤ 0x7fffffff
    · rw [checked32_eq (by omega) hproduct, Option.bind_eq_bind, Option.bind_some, checked32,
        if_neg (by omega)]
      rfl
    · rw [checked32, if_neg (by omega)]
      rfl
  have hepoc := epoc_bounds cType
  unfold maxJulian at hlast
  rw [handleComputeFields, checked32_eq (by omega) (by omega)] at hfields
  simp [yearMonth_civil hrule, hnone] at hfields

theorem fieldsRight_of_fits (hfirst : epoc cType ≤ julianDay)
    (hlast : julianDay ≤ maxJulian) (hfits : 30 * (julianDay - epoc cType) + 10646 ≤ 0x7fffffff) :
    FieldsRight cType julianDay := by
  have hcivil : ∀ year, isCivilYear cType year = true := by
    obtain rfl | rfl := hrule <;> exact fun year => rfl
  have hyearMonth := yearMonth_civil hrule (julianDay - epoc cType)
  have hdays : 0 ≤ julianDay - epoc cType := by omega
  generalize hd : julianDay - epoc cType = days at hfits hdays hyearMonth
  obtain ⟨hyear, hstart, hend⟩ := yearOf_spec hdays
  have hpos : 0 ≤ civilStart (yearOf days) := by
    unfold civilStart
    omega
  have hyear' := civilStart_pos_bound (show civilStart (yearOf days) ≤ 0x7fffffff by omega)
  rw [civilStart_succ] at hend
  obtain ⟨hmonth, hmonth', hday, hday'⟩ := monthOf_spec
    (show 0 ≤ days - civilStart (yearOf days) by omega)
    (show days - civilStart (yearOf days) < civilLength (yearOf days) by omega)
  have hmonthZero : civilMonthStart 0 = 0 := rfl
  have hmonthStart : 0 ≤ civilMonthStart (monthOf (days - civilStart (yearOf days))) := by
    unfold civilMonthStart
    omega
  refine fieldsRight_of_bounds hlast
    (by rw [hd, hyearMonth, civilYearMonth_eq hdays hfits (hcivil _)])
    (monthStart_civil hrule hyear (Int.le_refl 0) (by decide) (by omega))
    (monthStart_civil hrule hyear hmonth hmonth' (by omega))
    (monthLength_civil hyear hyear' (hcivil _) hmonth)
    (yearLength_civil hyear hyear' (hcivil _)) hyear hyear' hmonth hmonth' ?_ ?_ ?_ ?_ ?_ <;> omega

end

/-- The conversion is right exactly for the days, thirty times which do not overflow. -/
theorem islamic_fieldsRight_iff {cType : ECalculationType} {julianDay : Int}
    (hrule : cType = .civil ∨ cType = .tbla) (hfirst : epoc cType ≤ julianDay)
    (hlast : julianDay ≤ maxJulian) :
    FieldsRight cType julianDay ↔ 30 * (julianDay - epoc cType) + 10646 ≤ 0x7fffffff :=
  ⟨fits_of_fieldsRight hrule hlast, fieldsRight_of_fits hrule hfirst hlast⟩

/-- A day of the year 1437. -/
theorem islamic_fieldsRight_iff_1437 : FieldsRight .civil 2457400 :=
  (islamic_fieldsRight_iff (.inl rfl) (by decide) (by decide)).mpr (by decide)

/-- From the day 73530873 on the product overflows. -/
theorem fieldsRight_overflow : ¬ ∀ (cType : ECalculationType) (julianDay : Int),
    cType = .civil ∨ cType = .tbla → epoc cType ≤ julianDay → julianDay ≤ maxJulian →
    FieldsRight cType julianDay := by
  intro h
  have hright := h .civil 73530874 (.inl rfl) (by decide) (by decide)
  exact absurd (fits_of_fieldsRight (.inl rfl) (by decide) hright) (by decide)

end Icu.Calendar.Islamic
