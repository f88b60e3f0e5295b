import Icu.Calendar.Grego

/-!
# The Gregorian conversions are inverse

The dates of the proleptic Gregorian calendar are counted by the lengths of their years and months.
-/

namespace Icu.Calendar

open Lib

variable {n : Int}

theorem tdiv_succ_sub_one {d : Int} (hn : n < 0) (hd : 0 < d) : (n + 1).tdiv d - 1 = n / d := by
  obtain ⟨m, rfl⟩ : ∃ m : Nat, n = Int.negSucc m := ⟨(-n - 1).toNat, by omega⟩
  have hsucc : Int.negSucc m + 1 = -(m : Int) := by omega
  have hdiv : Int.negSucc m / d = -((m : Int) / d + 1) := Int.negSucc_ediv m hd
  rw [hsucc, Int.neg_tdiv, Int.tdiv_eq_ediv_of_nonneg (by omega), hdiv]
  omega

namespace ClockMath

theorem floorDivide_eq {d : Int} (hlow : -0x80000000 ≤ n) (hhigh : n ≤ 0x7fffffff)
    (hd : 0 < d) : floorDivide n d = some (n / d) := by
  have hlow' : -0x80000000 ≤ n / d := by
    rw [Int.le_ediv_iff_mul_le hd]
    nlinarith
  have hneg : n < 0 → n / d < 0 := fun h => Int.ediv_neg_of_neg_of_pos h hd
  have hhigh' : n / d ≤ 0x7fffffff := by
    rcases Int.lt_or_le n 0 with h | h
    · have := hneg h
      omega
    · exact Int.le_trans (Int.ediv_le_self d h) hhigh
  unfold floorDivide
  by_cases hn : 0 ≤ n
  · rw [if_pos hn, Int.tdiv_eq_ediv_of_nonneg hn, checked32_eq hlow' hhigh']
  have hq := tdiv_succ_sub_one (show n < 0 by omega) hd
  have hq' := hneg (show n < 0 by omega)
  rw [if_neg hn, checked32_eq (by omega) (by omega)]
  simp only [Option.bind_eq_bind, Option.bind_some, hq, checked32_eq hlow' hhigh']

theorem floorDivideRemainder_eq {d : Int} (hd : 0 < d) (hdhigh : d ≤ 0x7fffffff)
    (hlow : -0x80000000 ≤ n / d) (hhigh : n / d ≤ 0x7fffffff) :
    floorDivideRemainder n d = some (n / d, n % d) := by
  have hnonneg := Int.emod_nonneg n (Int.ne_of_gt hd)
  have hlt := Int.emod_lt_of_pos n hd
  have hremainder : n - n / d * d = n % d := by
    rw [Int.emod_def, Int.mul_comm]
  unfold floorDivideRemainder
  rw [Int.fdiv_eq_ediv_of_nonneg n (Int.le_of_lt hd)]
  simp [hremainder, checked32_eq hlow hhigh, checked32_eq (show -0x80000000 ≤ n % d by omega)
    (by omega)]

theorem exists_floorDivideRemainder {d : Int} (hd : 0 < d) (hdhigh : d ≤ 0x7fffffff)
    (hlow : -0x80000000 ≤ n / d) (hhigh : n / d ≤ 0x7fffffff) :
    ∃ q r, floorDivideRemainder n d = some (q, r) ∧ r + d * q = n ∧ 0 ≤ r ∧ r < d :=
  ⟨_, _, floorDivideRemainder_eq hd hdhigh hlow hhigh, Int.emod_add_mul_ediv n d,
    Int.emod_nonneg n (Int.ne_of_gt hd), Int.emod_lt_of_pos n hd⟩

end ClockMath

namespace Grego

variable {isLeap : Bool} {day : Int}

theorem isLeapYear_iff {year : Int} :
    isLeapYear year = true ↔ year % 4 = 0 ∧ (year % 100 ≠ 0 ∨ year % 400 = 0) := by
  have h100 : year.tmod 100 = 0 ↔ year % 100 = 0 := by
    rw [← Int.dvd_iff_tmod_eq_zero, Int.dvd_iff_emod_eq_zero]
  have h400 : year.tmod 400 = 0 ↔ year % 400 = 0 := by
    rw [← Int.dvd_iff_tmod_eq_zero, Int.dvd_iff_emod_eq_zero]
  simp [isLeapYear, h100, h400]

def monthDays (isLeap : Bool) : List Int :=
  [31, if isLeap then 29 else 28, 31, 30, 31, 30, 31, 31, 30, 31, 30, 31]

def monthStart (isLeap : Bool) (month : Int) : Int :=
  ((monthDays isLeap).take month.toNat).sum

/-- The days from January 1, 1 CE to the start of a year. -/
def yearStart (year : Int) : Int :=
  365 * (year - 1) + (year - 1) / 4 - (year - 1) / 100 + (year - 1) / 400

def yearDays (year : Int) : Int :=
  if isLeapYear year then 366 else 365

theorem yearStart_succ (year : Int) : yearStart (year + 1) = yearStart year + yearDays year := by
  have hleap := @isLeapYear_iff year
  unfold yearStart yearDays
  split
  · have := hleap.mp ‹_›
    omega
  have : ¬ (year % 4 = 0 ∧ (year % 100 ≠ 0 ∨ year % 400 = 0)) := fun h => by
    simp_all
  omega

structure Date where
  year : Int
  month : Int
  dom : Int
  deriving DecidableEq, Repr

namespace Date

structure Valid (d : Date) : Prop where
  month_nonneg : 0 ≤ d.month
  month_le : d.month ≤ 11
  dom_pos : 1 ≤ d.dom
  dom_le : d.dom ≤ (monthDays (isLeapYear d.year)).getD d.month.toNat 0

def dayOfYear (d : Date) : Int :=
  monthStart (isLeapYear d.year) d.month + d.dom

/-- The day, counted from January 1, 1970. -/
def epochDay (d : Date) : Int :=
  yearStart d.year + d.dayOfYear - 1 - yearStart 1970

def Before (d e : Date) : Prop :=
  d.year < e.year ∨ d.year = e.year ∧ (d.month < e.month ∨ d.month = e.month ∧ d.dom < e.dom)

end Date

/-- The epoch days between `MIN_JULIAN` and `MAX_JULIAN`. -/
def InRange (day : Int) : Prop :=
  minJulian - julian1970CE ≤ day ∧ day ≤ maxJulian - julian1970CE

theorem monthLength_eq {d : Date} (hlow : 0 ≤ d.month) (hhigh : d.month ≤ 11) :
    monthLength d.year d.month = some ((monthDays (isLeapYear d.year)).getD d.month.toNat 0) := by
  obtain ⟨year, month, dom⟩ := d
  unfold monthLength monthIndex
  generalize isLeapYear year = isLeap
  interval_cases month <;> cases isLeap <;> rfl

theorem daysBefore_eq {d : Date} (hlow : 0 ≤ d.month) (hhigh : d.month ≤ 11) :
    element daysBeforeTable (monthIndex d.year d.month) =
      some (monthStart (isLeapYear d.year) d.month) := by
  obtain ⟨year, month, dom⟩ := d
  unfold monthIndex
  generalize isLeapYear year = isLeap
  interval_cases month <;> cases isLeap <;> rfl

theorem doyToMonth_eq {isLeap : Bool} {doy : Int} (hlow : 0 ≤ doy) :
    doyToMonth isLeap doy = (12 * (doy + if (if isLeap then 60 else 59) ≤ doy then
      (if isLeap then 1 else 2) else 0) + 6) / 367 := by
  unfold doyToMonth
  rw [Int.tdiv_eq_ediv_of_nonneg]
  cases isLeap <;> simp only [if_true, Bool.false_eq_true, if_false] <;> split <;> omega

/-- The days that February lacks, for the months behind it. -/
def februaryGap (isLeap : Bool) (month : Int) : Int :=
  if month ≤ 1 then 0 else if isLeap then 1 else 2

theorem monthStart_eq {isLeap : Bool} {month : Int} (hlow : 0 ≤ month) (hhigh : month ≤ 11) :
    monthStart isLeap month = (367 * month + 5) / 12 - februaryGap isLeap month := by
  interval_cases month <;> cases isLeap <;> rfl

theorem monthStart_add_monthDays {isLeap : Bool} {month : Int} (hlow : 0 ≤ month)
    (hhigh : month ≤ 11) : monthStart isLeap month + (monthDays isLeap).getD month.toNat 0 =
      (367 * (month + 1) + 5) / 12 - februaryGap isLeap (month + 1) := by
  interval_cases month <;> cases isLeap <;> rfl

theorem doyToMonth_spec {doy : Int} (hlow : 0 ≤ doy) (hhigh : doy < if isLeap then 366 else 365) :
    0 ≤ doyToMonth isLeap doy ∧ doyToMonth isLeap doy ≤ 11 ∧
      monthStart isLeap (doyToMonth isLeap doy) ≤ doy ∧
      doy < monthStart isLeap (doyToMonth isLeap doy) +
        (monthDays isLeap).getD (doyToMonth isLeap doy).toNat 0 := by
  have hmonth := @doyToMonth_eq isLeap doy hlow
  generalize doyToMonth isLeap doy = month at hmonth ⊢
  have hbounds : 0 ≤ month ∧ month ≤ 11 := by
    cases isLeap <;> simp only [if_true, Bool.false_eq_true, if_false] at hmonth hhigh <;>
      split at hmonth <;> omega
  obtain ⟨hnonneg, hle⟩ := hbounds
  refine ⟨hnonneg, hle, ?_⟩
  rw [monthStart_add_monthDays hnonneg hle, monthStart_eq hnonneg hle]
  unfold februaryGap
  cases isLeap <;> simp only [if_true, Bool.false_eq_true, if_false] at hmonth hhigh ⊢ <;>
    split at hmonth <;> omega

/-- The month is the only one with the day. -/
theorem doyToMonth_of_month {month dom : Int} (hlow : 0 ≤ month)
    (hhigh : month ≤ 11) (hdom : 1 ≤ dom) (hdom' : dom ≤ (monthDays isLeap).getD month.toNat 0) :
    0 ≤ monthStart isLeap month + dom - 1 ∧
      monthStart isLeap month + dom ≤ (if isLeap then 366 else 365) ∧
      doyToMonth isLeap (monthStart isLeap month + dom - 1) = month := by
  have hstart := @monthStart_eq isLeap month hlow hhigh
  have hend := @monthStart_add_monthDays isLeap month hlow hhigh
  generalize monthStart isLeap month = start at hstart hend ⊢
  have hlast : start + dom ≤ (367 * (month + 1) + 5) / 12 - februaryGap isLeap (month + 1) := by
    omega
  unfold februaryGap at hstart hlast
  have hpos : 0 ≤ start := by
    split_ifs at hstart <;> omega
  refine ⟨by omega, ?_, ?_⟩
  · cases isLeap <;> simp only [if_true, Bool.false_eq_true, if_false] at hlast ⊢ <;>
      split at hlast <;> omega
  rw [doyToMonth_eq (by omega)]
  cases isLeap <;> simp only [if_true, Bool.false_eq_true, if_false] at hstart hlast ⊢ <;>
    split at hstart <;> split at hlast <;> split <;> omega

theorem yearStart_cycles {n400 n100 n4 n1 : Int} (h100 : 0 ≤ n100) (h100' : n100 ≤ 3) (h4 : 0 ≤ n4)
    (h4' : n4 ≤ 24) (h1 : 0 ≤ n1) (h1' : n1 ≤ 3) :
    yearStart (400 * n400 + 100 * n100 + 4 * n4 + n1 + 1) =
      146097 * n400 + 36524 * n100 + 1461 * n4 + 365 * n1 := by
  have hdiv4 : (400 * n400 + 100 * n100 + 4 * n4 + n1 + 1 - 1) / 4 =
    100 * n400 + 25 * n100 + n4 := by
    omega
  have hdiv100 : (400 * n400 + 100 * n100 + 4 * n4 + n1 + 1 - 1) / 100 = 4 * n400 + n100 := by
    omega
  have hdiv400 : (400 * n400 + 100 * n100 + 4 * n4 + n1 + 1 - 1) / 400 = n400 := by
    omega
  unfold yearStart
  rw [hdiv4, hdiv100, hdiv400]
  omega

theorem dayToYear_spec {day : Int} (hlow : -0x7f1a4512 ≤ day) (hhigh : day ≤ 0x7f000000) :
    ∃ year doy, dayToYear day = some (year, doy) ∧ day = yearStart year + doy ∧
      0 ≤ doy ∧ doy < yearDays year := by
  obtain ⟨n400, r400, heq, h400, hr400, hr400'⟩ := @ClockMath.exists_floorDivideRemainder day 146097
    (by decide) (by decide) (by omega) (by omega)
  rw [dayToYear, bind_eq_of_eq_some heq]
  dsimp only
  obtain ⟨n100, r100, heq, h100, hr100, hr100'⟩ := @ClockMath.exists_floorDivideRemainder r400 36524
    (by decide) (by decide) (by omega) (by omega)
  rw [bind_eq_of_eq_some heq]
  dsimp only
  obtain ⟨n4, r4, heq, h4, hr4, hr4'⟩ := @ClockMath.exists_floorDivideRemainder r100 1461
    (by decide) (by decide) (by omega) (by omega)
  rw [bind_eq_of_eq_some heq]
  dsimp only
  obtain ⟨n1, r1, heq, h1, hr1, hr1'⟩ := @ClockMath.exists_floorDivideRemainder r4 365
    (by decide) (by decide) (by omega) (by omega)
  rw [bind_eq_of_eq_some heq]
  dsimp only
  rw [bind_eq_of_eq_some (checked32_eq (by omega) (by omega))]
  rw [bind_eq_of_eq_some (checked32_eq (by omega) (by omega))]
  rw [bind_eq_of_eq_some (checked32_eq (by omega) (by omega))]
  rw [bind_eq_of_eq_some (checked32_eq (by omega) (by omega))]
  by_cases hend : n100 = 4 ∨ n1 = 4
  · -- the year has a day more than four common years, or than four centuries
    refine ⟨400 * n400 + 100 * n100 + 4 * n4 + n1, 365, by rw [if_pos hend]; rfl, ?_, by decide, ?_⟩
    · rcases hend with rfl | rfl
      · have hcycles := @yearStart_cycles n400 3 24 3 (by decide) (by decide) (by decide)
          (by decide)
          (by decide) (by decide)
        rw [show 400 * n400 + 100 * 4 + 4 * n4 + n1 = 400 * n400 + 100 * 3 + 4 * 24 + 3 +
          1 by omega,
          hcycles]
        omega
      · have hcycles := @yearStart_cycles n400 n100 n4 3 (by omega) (by omega) (by omega) (by omega)
          (by decide) (by decide)
        rw [show 400 * n400 + 100 * n100 + 4 * n4 + 4 = 400 * n400 + 100 * n100 + 4 * n4 + 3 + 1 by
          omega, hcycles]
        omega
    · have hleap : isLeapYear (400 * n400 + 100 * n100 + 4 * n4 + n1) = true := by
        rw [isLeapYear_iff]
        omega
      rw [yearDays, if_pos hleap]
      decide
  · rw [if_neg hend, checked32_eq (by omega) (by omega)]
    obtain ⟨hn100, hn1⟩ : n100 ≤ 3 ∧ n1 ≤ 3 := by omega
    refine ⟨400 * n400 + 100 * n100 + 4 * n4 + n1 + 1, r1, rfl, ?_, hr1, ?_⟩
    · clear hend
      rw [yearStart_cycles (by omega) hn100 (by omega) (by omega) (by omega) hn1]
      omega
    · unfold yearDays
      split <;> omega

theorem yearStart_mono {y z : Int} (h : y < z) : yearStart y + yearDays y ≤ yearStart z := by
  rw [← yearStart_succ]
  unfold yearStart
  omega

/-- A day is in one year only. -/
theorem year_unique {y z d e : Int} (h : yearStart y + d = yearStart z + e) (hd : 0 ≤ d)
    (hd' : d < yearDays y) (he : 0 ≤ e) (he' : e < yearDays z) : y = z := by
  rcases Int.lt_trichotomy y z with hlt | heq | hgt
  · have := yearStart_mono hlt
    omega
  · exact heq
  · have := yearStart_mono hgt
    omega

/-! ## The conversions -/

theorem monthStart_bounds {isLeap : Bool} {month : Int} (hlow : 0 ≤ month) (hhigh : month ≤ 11) :
    0 ≤ monthStart isLeap month ∧ monthStart isLeap month ≤ 335 := by
  interval_cases month <;> cases isLeap <;> decide

variable {d : Date}

theorem Date.Valid.dayOfYear (hv : d.Valid) : 1 ≤ d.dayOfYear ∧ d.dayOfYear ≤ yearDays d.year := by
  obtain ⟨hlow, hhigh, -⟩ := doyToMonth_of_month hv.month_nonneg hv.month_le hv.dom_pos hv.dom_le
  exact ⟨by unfold Date.dayOfYear; omega, hhigh⟩

theorem fieldsToDay_eq (hv : d.Valid) (hr : InRange d.epochDay) :
    fieldsToDay d.year d.month d.dom = some d.epochDay := by
  have hdoy := hv.dayOfYear
  have hstart := @monthStart_bounds (isLeapYear d.year) d.month hv.month_nonneg hv.month_le
  have hdays : yearDays d.year ≤ 366 := by
    unfold yearDays
    split <;> decide
  have h1970 : yearStart 1970 = 719162 := by decide
  unfold InRange Date.epochDay minJulian maxJulian julian1970CE at hr
  rw [h1970] at hr
  have hyear : yearStart d.year = 365 * (d.year - 1) + (d.year - 1) / 4 - (d.year - 1) / 100 +
      (d.year - 1) / 400 := rfl
  unfold fieldsToDay Date.epochDay Date.dayOfYear
  unfold Date.dayOfYear at hdoy hr
  rw [hyear] at hr
  rw [h1970, hyear]
  unfold julian1CE julian1970CE
  rw [bind_eq_of_eq_some (checked32_eq (by omega) (by omega))]
  rw [bind_eq_of_eq_some (checked32_eq (by omega) (by omega))]
  rw [bind_eq_of_eq_some (ClockMath.floorDivide_eq (by omega) (by omega) (by decide))]
  rw [bind_eq_of_eq_some (checked32_eq (by omega) (by omega))]
  rw [bind_eq_of_eq_some (checked32_eq (by omega) (by omega))]
  rw [bind_eq_of_eq_some (ClockMath.floorDivide_eq (by omega) (by omega) (by decide))]
  rw [bind_eq_of_eq_some (checked32_eq (by omega) (by omega))]
  rw [bind_eq_of_eq_some (ClockMath.floorDivide_eq (by omega) (by omega) (by decide))]
  rw [bind_eq_of_eq_some (checked32_eq (by omega) (by omega))]
  rw [bind_eq_of_eq_some (checked32_eq (by omega) (by omega))]
  rw [bind_eq_of_eq_some (daysBefore_eq hv.month_nonneg hv.month_le)]
  rw [bind_eq_of_eq_some (checked32_eq (by omega) (by omega))]
  rw [bind_eq_of_eq_some (checked32_eq (by omega) (by omega))]
  rw [Option.pure_def, Option.some.injEq]
  omega

def Fields.date (f : Fields) : Date :=
  ⟨f.year, f.month, f.dom⟩

theorem dayToDow_eq (day : Int) : dayToDow day = some ((day + 1) % 7 + 1) := by
  have hmod : (day + 1).tmod 7 = (day + 1) % 7 ∨
      (day + 1).tmod 7 = (day + 1) % 7 - 7 ∧ (day + 1) % 7 ≠ 0 := by
    rw [Int.tmod_eq_emod]
    split
    · left
      simp
    · next h =>
      right
      refine ⟨rfl, fun hzero => h (Or.inr (Int.dvd_of_emod_eq_zero hzero))⟩
  unfold dayToDow
  rcases hmod with h | ⟨h, hne⟩
  · rw [h, checked32_eq (by omega) (by omega)]
    simp only [Option.bind_eq_bind, Option.bind_some]
    rw [if_neg (by omega), checked32_eq (by omega) (by omega)]
  rw [h, checked32_eq (by omega) (by omega)]
  simp only [Option.bind_eq_bind, Option.bind_some]
  rw [if_pos (by omega), checked32_eq (by omega) (by omega), Option.some.injEq]
  omega

theorem dayOfWeek_eq (hr : InRange day) : dayOfWeek day = some ((day + 719162 + 1) % 7 + 1) := by
  unfold InRange minJulian maxJulian julian1970CE at hr
  unfold dayOfWeek
  rw [ClockMath.floorDivideRemainder_eq (by decide) (by decide) (by omega) (by omega)]
  simp only [Option.bind_eq_bind, Option.bind_some, Option.pure_def, Option.some.injEq]
  split <;> omega

theorem dayToFields_spec (hr : InRange day) :
    ∃ f, dayToFields day = some f ∧ f.date.Valid ∧ f.date.epochDay = day ∧
      f.doy = f.date.dayOfYear ∧ dayOfWeek day = some f.dow := by
  have hdow := dayOfWeek_eq hr
  unfold InRange minJulian maxJulian julian1970CE at hr
  have hshift : julian1970CE - julian1CE = 719162 := by decide
  have hday : day + 719162 ≤ 0x7f000000 := by omega
  obtain ⟨year, doy, hyear, hstart, hlow, hhigh⟩ := @dayToYear_spec (day + 719162) (by omega) hday
  obtain ⟨hmonth, hmonth', hdoy, hdoy'⟩ := doyToMonth_spec hlow hhigh
  refine ⟨⟨year, doyToMonth (isLeapYear year) doy, doy - monthStart (isLeapYear year)
    (doyToMonth (isLeapYear year) doy) + 1, (day + 719162 + 1) % 7 + 1, doy + 1⟩, ?_, ?_, ?_, ?_,
      hdow⟩
  · unfold dayToFields
    rw [hshift]
    simp only [Option.bind_eq_bind, hyear, Option.bind_some, dayToDow_eq,
      @daysBefore_eq ⟨year, doyToMonth (isLeapYear year) doy, 0⟩ hmonth hmonth']
    rfl
  · exact ⟨hmonth, hmonth', by simp only [Fields.date]; omega, by simp only [Fields.date]; omega⟩
  · have h1970 : yearStart 1970 = 719162 := by decide
    simp only [Fields.date, Date.epochDay, Date.dayOfYear, h1970]
    omega
  · simp only [Fields.date, Date.dayOfYear]
    omega

theorem doyToMonth_mono {isLeap : Bool} {doy doy' : Int} (hlow : 0 ≤ doy) (h : doy ≤ doy') :
    doyToMonth isLeap doy ≤ doyToMonth isLeap doy' := by
  rw [doyToMonth_eq hlow, doyToMonth_eq (by omega)]
  cases isLeap <;> simp only [if_true, Bool.false_eq_true, if_false] <;> split <;> split <;> omega

theorem Date.Valid.month_eq (hd : d.Valid) :
    doyToMonth (isLeapYear d.year) (d.dayOfYear - 1) = d.month :=
  (doyToMonth_of_month hd.month_nonneg hd.month_le hd.dom_pos hd.dom_le).2.2

/-- A date that is not before another one is not on an earlier day. -/
theorem Date.Valid.epochDay_le {e : Date} (hd : d.Valid) (he : e.Valid) (h : ¬ d.Before e) :
    e.epochDay ≤ d.epochDay := by
  obtain ⟨hd1, hd2⟩ := hd.dayOfYear
  obtain ⟨he1, he2⟩ := he.dayOfYear
  rw [Date.Before] at h
  unfold Date.epochDay
  rcases Int.lt_trichotomy d.year e.year with hlt | heq | hgt
  · exact absurd (Or.inl hlt) h
  · rw [heq]
    by_contra hlt
    have hle : d.dayOfYear - 1 ≤ e.dayOfYear - 1 := by omega
    have hmonth := @doyToMonth_mono (isLeapYear e.year) _ _ (by omega) hle
    rw [he.month_eq, ← heq, hd.month_eq] at hmonth
    refine h (Or.inr ⟨heq, ?_⟩)
    rcases Int.lt_or_eq_of_le hmonth with hmonth | hmonth
    · exact Or.inl hmonth
    refine Or.inr ⟨hmonth, ?_⟩
    unfold Date.dayOfYear at hlt
    rw [heq, hmonth] at hlt
    omega
  · have := yearStart_mono hgt
    omega

theorem Date.Valid.eq_of_epochDay {e : Date} (hd : d.Valid) (he : e.Valid)
    (h : d.epochDay = e.epochDay) : d = e := by
  obtain ⟨hd1, hd2⟩ := hd.dayOfYear
  obtain ⟨he1, he2⟩ := he.dayOfYear
  unfold Date.epochDay at h
  have hyear : d.year = e.year := @year_unique d.year e.year (d.dayOfYear - 1) (e.dayOfYear - 1)
    (by omega) (by omega) (by omega) (by omega) (by omega)
  have hdoy : d.dayOfYear = e.dayOfYear := by
    rw [hyear] at h
    omega
  have hmonth : d.month = e.month := by
    rw [← hd.month_eq, ← he.month_eq, hyear, hdoy]
  have hdom : d.dom = e.dom := by
    unfold Date.dayOfYear at hdoy
    rw [hyear, hmonth] at hdoy
    omega
  cases d
  cases e
  simp_all

/-- Days and dates: `dayToFields` and `fieldsToDay` convert without an overflow and are inverse to
each other, the day of the year and of the week are right, and dates follow each other as days
do. -/
theorem dayToFields_fieldsToDay (day : Int) (hr : InRange day) :
    (∃ f, dayToFields day = some f ∧ 0 ≤ f.month ∧ f.month ≤ 11 ∧ 1 ≤ f.dom ∧
      (∃ length, monthLength f.year f.month = some length ∧ f.dom ≤ length) ∧
      fieldsToDay f.year f.month f.dom = some day ∧ f.doy = f.date.dayOfYear ∧
      dayOfWeek day = some f.dow ∧
      ∀ f', InRange (day + 1) → dayToFields (day + 1) = some f' → f.date.Before f'.date) ∧
    ∀ d : Date, d.Valid → d.epochDay = day → fieldsToDay d.year d.month d.dom = some day ∧
      ∃ f, dayToFields day = some f ∧ f.date = d := by
  obtain ⟨f, hf, hv, hday, hdoy, hdow⟩ := dayToFields_spec hr
  have hback : ∀ d : Date, d.Valid → d.epochDay = day →
      fieldsToDay d.year d.month d.dom = some day := by
    intro d hd hepoch
    rw [fieldsToDay_eq hd (by rwa [hepoch]), hepoch]
  refine ⟨⟨f, hf, hv.month_nonneg, hv.month_le, hv.dom_pos, ?_, hback f.date hv hday, hdoy, hdow,
    ?_⟩,
    fun d hd hepoch => ⟨hback d hd hepoch, f, hf, hv.eq_of_epochDay hd (hday.trans hepoch.symm)⟩⟩
  · exact ⟨_, @monthLength_eq f.date hv.month_nonneg hv.month_le, hv.dom_le⟩
  intro f' hr' hf'
  obtain ⟨g, hg, hv', hday', -⟩ := dayToFields_spec hr'
  rw [hg, Option.some.injEq] at hf'
  rw [← hf']
  by_contra hbefore
  have := hv.epochDay_le hv' hbefore
  omega

/-- The leap day of the year 2000. -/
theorem dayToFields_fieldsToDay_leap : InRange 11016 ∧
    dayToFields 11016 = some ⟨2000, 1, 29, 3, 60⟩ ∧ fieldsToDay 2000 1 29 = some 11016 := by
  have hr : InRange 11016 := by
    unfold InRange minJulian maxJulian julian1970CE
    omega
  obtain ⟨-, hback⟩ := dayToFields_fieldsToDay 11016 hr
  exact ⟨hr, by decide, (hback ⟨2000, 1, 29⟩ ⟨by decide, by decide, by decide, by decide⟩
    (by decide)).1⟩

end Grego

end Icu.Calendar
