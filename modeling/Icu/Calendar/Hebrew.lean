import Icu.Calendar.GregoDates
import Icu.ErrorCode

/-!
# `HebrewCalendar`

The years and months of `hebrwcal.cpp`.  `startOfYear` is modelled without its cache, which keeps
the results of former calls.
-/

namespace Icu.Calendar

open Lib

namespace Hebrew

def heshvan : Int := 1
def kislev : Int := 2
def adar1 : Int := 5
def elul : Int := 12

/-- `isLeapYear`. -/
def isLeapYear (year : Int) : Bool :=
  let x := (int32 (int32 (year * 12) + 17)).tmod 19
  decide ((if x < 0 then -7 else 12) ≤ x)

/-- Without an overflow, the formula is the one of the comment. -/
theorem isLeapYear_eq_emod {year : Int} (hlow : -178956970 ≤ year) (hhigh : year ≤ 178956969) :
    isLeapYear year = decide (12 ≤ (12 * year + 17) % 19) := by
  have hx : int32 (int32 (year * 12) + 17) = 12 * year + 17 := by
    rw [@int32_eq (year * 12) (by omega) (by omega), int32_eq (by omega) (by omega), Int.mul_comm]
  have hmod := Int.emod_lt_of_pos (12 * year + 17) (show (0 : Int) < 19 by decide)
  have hmod' := Int.emod_nonneg (12 * year + 17) (show (19 : Int) ≠ 0 by decide)
  unfold isLeapYear
  rw [hx, Int.tmod_eq_emod, decide_eq_decide]
  split_ifs <;> omega

/-- `monthsInYear`. -/
def monthsInYear (year : Int) : Int :=
  if isLeapYear year then 13 else 12

/-- The loop of `add(UCAL_MONTH, amount)` for an amount above 0.  Each round but the last takes
more than eleven months away, so that the number of months is enough fuel. -/
def addLoop : Nat → Bool → Int → Int → Option (Int × Int)
  | 0, _, _, _ => none
  | fuel + 1, acrossAdar1, year, month =>
    let month := if acrossAdar1 && decide (adar1 ≤ month) && !isLeapYear year then
      int32 (month + 1) else month
    if month ≤ elul then some (year, month)
    else addLoop fuel true (int32 (year + 1)) (int32 (month - (elul + 1)))

def subtractLoop : Nat → Bool → Int → Int → Option (Int × Int)
  | 0, _, _, _ => none
  | fuel + 1, acrossAdar1, year, month =>
    let month := if acrossAdar1 && decide (month ≤ adar1) && !isLeapYear year then
      int32 (month - 1) else month
    if 0 ≤ month then some (year, month)
    else subtractLoop fuel true (int32 (year - 1)) (int32 (month + (elul + 1)))

/-- The year and the month that `add(UCAL_MONTH, amount)` sets. -/
def addMonth (year month amount : Int) : Option (Int × Int) :=
  if 0 < amount then
    -- started before ADAR_1?
    addLoop (amount.toNat + 14) (decide (month < adar1)) year (int32 (month + amount))
  else
    -- started after ADAR_1?
    subtractLoop (amount.natAbs + 2) (decide (adar1 < month)) year (int32 (month + amount))

/-- The month that `roll(UCAL_MONTH, amount)` sets.  No sum leaves an `int32_t` for a month. -/
def rollMonth (year month amount : Int) : Int :=
  let leapYear := isLeapYear year
  let yearLength := monthsInYear year
  let newMonth := month + amount.tmod yearLength
  -- roll an extra month for the missing ADAR_1
  let newMonth :=
    if leapYear then newMonth
    else if 0 < amount ∧ month < adar1 ∧ adar1 ≤ newMonth then newMonth + 1
    else if amount < 0 ∧ adar1 < month ∧ newMonth ≤ adar1 then newMonth - 1
    else newMonth
  (newMonth + 13).tmod 13

/-! ## Years and days -/

def hourParts : Int := 1080
def dayParts : Int := 24 * hourParts
def monthFract : Int := 12 * hourParts + 793
def monthParts : Int := 29 * dayParts + monthFract
def baharad : Int := 11 * hourParts + 204

/-- `isLeapYear` without an overflow. -/
def leapYear (year : Int) : Option Bool := do
  let _ ← checked32 (year * 12)
  let _ ← checked32 (year * 12 + 17)
  return isLeapYear year

theorem leapYear_eq_ite (year : Int) : leapYear year =
    if -178956970 ≤ year ∧ year ≤ 178956969 then some (isLeapYear year) else none := by
  unfold leapYear
  split_ifs with hfits
  · rw [checked32_eq (by omega) (by omega)]
    simp only [Option.bind_eq_bind, Option.bind_some]
    rw [checked32_eq (by omega) (by omega)]
    rfl
  · unfold checked32
    by_cases hproduct : -0x80000000 ≤ year * 12 ∧ year * 12 ≤ 0x7fffffff
    · rw [if_pos hproduct, if_neg (by omega)]
      rfl
    · rw [if_neg hproduct]
      rfl

/-- The postponement rules of `startOfYear`, for the day of the new moon and the time of the day.
Both leap rules are asked for, where the code asks for the one that matters. -/
def postpone (year day frac : Int) : Option Int := do
  let isLeap ← leapYear year
  let wasLeap ← leapYear (year - 1)
  let wd := day.tmod 7
  let day ← checked32 (if wd = 2 ∨ wd = 4 ∨ wd = 6 then day + 1 else day)
  let wd := day.tmod 7
  checked32 (if wd = 1 ∧ 15 * hourParts + 204 < frac ∧ isLeap = false then day + 2
    else if wd = 0 ∧ 21 * hourParts + 589 < frac ∧ wasLeap = true then day + 1
    else day)

/-- `startOfYear`.  An `int64_t` has room for the fractional part. -/
def startOfYear (year : Int) : Option Int := do
  let months ← checked32 (235 * year)
  let months ← checked32 (months - 234)
  let months := months.tdiv 19
  let frac := months * monthFract + baharad
  let day ← checked32 (months * 29)
  let whole ← checked32 (frac.tdiv dayParts)
  let day ← checked32 (day + whole)
  postpone year day (frac.tmod dayParts)

/-- `handleGetYearLength`. -/
def yearLength (eyear : Int) : Option Int := do
  let next ← startOfYear (eyear + 1)
  let start ← startOfYear eyear
  checked32 (next - start)

/-- `yearType`: deficient, normal or complete. -/
def yearType (year : Int) : Option Nat := do
  let length ← yearLength year
  let length := if 380 < length then length - 30 else length
  return if length = 353 then 0 else if length = 354 then 1 else if length = 355 then 2 else 1

/-- `MONTH_LENGTH`. -/
def monthLengthTable : List (List Int) :=
  [[30, 30, 30], [29, 29, 30], [29, 30, 30], [29, 29, 29], [30, 30, 30], [30, 30, 30],
   [29, 29, 29], [30, 30, 30], [29, 29, 29], [30, 30, 30], [29, 29, 29], [30, 30, 30], [29, 29, 29]]

/-- `MONTH_START`. -/
def monthStartTable : List (List Int) :=
  [[0, 0, 0], [30, 30, 30], [59, 59, 60], [88, 89, 90], [117, 118, 119], [147, 148, 149],
   [147, 148, 149], [176, 177, 178], [206, 207, 208], [235, 236, 237], [265, 266, 267],
   [294, 295, 296], [324, 325, 326], [353, 354, 355]]

/-- `LEAP_MONTH_START`. -/
def leapMonthStartTable : List (List Int) :=
  [[0, 0, 0], [30, 30, 30], [59, 59, 60], [88, 89, 90], [117, 118, 119], [147, 148, 149],
   [177, 178, 179], [206, 207, 208], [236, 237, 238], [265, 266, 267], [295, 296, 297],
   [324, 325, 326], [354, 355, 356], [383, 384, 385]]

/-- `table[month][type]`. -/
def entry (table : List (List Int)) (month : Int) (type : Nat) : Option Int :=
  if 0 ≤ month then do (← table[month.toNat]?)[type]? else none

/-- `isLeap ? LEAP_MONTH_START[month][type] : MONTH_START[month][type]`. -/
def monthStart (isLeap : Bool) (month : Int) (type : Nat) : Option Int :=
  entry (if isLeap then leapMonthStartTable else monthStartTable) month type

def resolveMonth : Nat → Int → Int → Option (Int × Int)
  | 0, _, _ => none
  | fuel + 1, eyear, month =>
    if month < 0 then resolveMonth fuel (eyear - 1) (month + monthsInYear (eyear - 1))
    else if 12 < month then resolveMonth fuel (eyear + 1) (month - monthsInYear eyear)
    else some (eyear, month)

/-- `handleGetMonthLength`. -/
def handleGetMonthLength (extendedYear month : Int) : Option Int := do
  let (extendedYear, month) ← resolveMonth (month.natAbs + 1) extendedYear month
  if month = heshvan ∨ month = kislev then
    entry monthLengthTable month (← yearType extendedYear)
  else entry monthLengthTable month 0

/-- `handleComputeMonthStart`. -/
def handleComputeMonthStart (eyear month : Int) : Option Int := do
  let (eyear, month) ← resolveMonth (month.natAbs + 1) eyear month
  let day ← startOfYear eyear
  let day ← if month ≠ 0 then do
      let isLeap ← leapYear eyear
      checked32 (day + (← monthStart isLeap month (← yearType eyear)))
    else some day
  checked32 (day + 347997)

/-- The approximate year of a day, with exact rational numbers. -/
def estimateYear (d : Int) : Int :=
  (19 * dayParts * d + (234 + 235) * monthParts).tdiv (235 * monthParts)

def correctYear (d : Int) : Nat → Int → Option (Int × Int)
  | 0, _ => none
  | fuel + 1, year => do
    let ys ← startOfYear year
    let dayOfYear ← checked32 (d - ys)
    if dayOfYear < 1 then correctYear d fuel (year - 1)
    else some (year, dayOfYear)

/-- The loop that looks for the month; `momax` is the number of rows of the table. -/
def findMonth (isLeap : Bool) (type : Nat) (dayOfYear : Int) : Nat → Int → Option Int
  | 0, month => some month
  | fuel + 1, month => do
    if (← monthStart isLeap month type) < dayOfYear then
      findMonth isLeap type dayOfYear fuel (month + 1)
    else some month

/-- The fields that `handleComputeFields` sets. -/
structure Fields where
  year : Int
  month : Int
  dayOfMonth : Int
  dayOfYear : Int
  deriving DecidableEq, Repr

/-- `handleComputeFields`: the fields, or an error. -/
def handleComputeFields (julianDay : Int) : Option (Except UErrorCode Fields) := do
  let d ← checked32 (julianDay - 347997)
  let year ← checked32 (estimateYear d)
  let (year, dayOfYear) ← correctYear d (year.toNat + 1) year
  let type ← yearType year
  let isLeap ← leapYear year
  let momax := monthStartTable.length
  let month ← findMonth isLeap type dayOfYear momax 0
  if (momax : Int) ≤ month ∨ month ≤ 0 then
    return .error .illegalArgumentError
  else
    let month := month - 1
    let start ← monthStart isLeap month type
    return .ok ⟨year, month, dayOfYear - start, dayOfYear⟩

end Hebrew

end Icu.Calendar
