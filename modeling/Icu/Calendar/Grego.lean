import Icu.Lib.Int32
import Mathlib.Data.List.Basic
import Mathlib.Tactic.IntervalCases
import Mathlib.Tactic.Linarith

/-!
# The Gregorian calendar of `gregoimp.cpp`

An `int32_t` expression is `none` if its value overflows.  The doubles of these functions hold
integers, and are exact.
-/

namespace Icu.Calendar

open Lib

theorem bind_eq_of_eq_some {α β : Type} {o : Option α} {a : α} (h : o = some a)
    (f : α → Option β) : (o >>= f) = f a := by
  rw [h]
  rfl

/-- `array[i]`. -/
def element (array : List Int) (i : Int) : Option Int :=
  if 0 ≤ i then array[i.toNat]? else none

def minJulian : Int := -0x7F000000
def maxJulian : Int := 0x7F000000

namespace ClockMath

/-- `floorDivide(int32_t, int32_t)`. -/
def floorDivide (numerator denominator : Int) : Option Int :=
  if 0 ≤ numerator then checked32 (numerator.tdiv denominator)
  else do
    let quotient ← checked32 ((numerator + 1).tdiv denominator)
    checked32 (quotient - 1)

/-- `floorDivide(double, int32_t, int32_t&)`: the quotient and the remainder. -/
def floorDivideRemainder (numerator denominator : Int) : Option (Int × Int) := do
  let quotient := numerator.fdiv denominator
  let remainder ← checked32 (numerator - quotient * denominator)
  return (← checked32 quotient, remainder)

end ClockMath

namespace Grego

def julian1CE : Int := 1721426
def julian1970CE : Int := 2440588

/-- `DAYS_BEFORE`. -/
def daysBeforeTable : List Int :=
  [0, 31, 59, 90, 120, 151, 181, 212, 243, 273, 304, 334,
   0, 31, 60, 91, 121, 152, 182, 213, 244, 274, 305, 335]

/-- `MONTH_LENGTH`. -/
def monthLengthTable : List Int :=
  [31, 28, 31, 30, 31, 30, 31, 31, 30, 31, 30, 31,
   31, 29, 31, 30, 31, 30, 31, 31, 30, 31, 30, 31]

/-- `isLeapYear`. -/
def isLeapYear (year : Int) : Bool :=
  year % 4 == 0 && (year.tmod 100 != 0 || year.tmod 400 == 0)

def monthIndex (year month : Int) : Int :=
  month + if isLeapYear year then 12 else 0

/-- `monthLength`. -/
def monthLength (year month : Int) : Option Int :=
  element monthLengthTable (monthIndex year month)

/-- `fieldsToDay`. -/
def fieldsToDay (year month dom : Int) : Option Int := do
  let y ← checked32 (year - 1)
  let julian ← checked32 (365 * y)
  let julian ← checked32 (julian + (← ClockMath.floorDivide y 4))
  let julian ← checked32 (julian + (julian1CE - 3))
  let julian ← checked32 (julian + (← ClockMath.floorDivide y 400))
  let julian ← checked32 (julian - (← ClockMath.floorDivide y 100))
  let julian ← checked32 (julian + 2)
  let julian ← checked32 (julian + (← element daysBeforeTable (monthIndex year month)))
  let julian ← checked32 (julian + dom)
  return julian - julian1970CE

/-- The output parameters of `dayToFields`. -/
structure Fields where
  year : Int
  month : Int
  dom : Int
  dow : Int
  doy : Int
  deriving DecidableEq, Repr

/-- The year and the zero-based day of the year, in 400-, 100-, 4- and 1-year cycles, for a day
from January 1, 1 CE on. -/
def dayToYear (day : Int) : Option (Int × Int) := do
  let (n400, doy) ← ClockMath.floorDivideRemainder day 146097
  let (n100, doy) ← ClockMath.floorDivideRemainder doy 36524
  let (n4, doy) ← ClockMath.floorDivideRemainder doy 1461
  let (n1, doy) ← ClockMath.floorDivideRemainder doy 365
  let year ← checked32 (400 * n400)
  let year ← checked32 (year + 100 * n100)
  let year ← checked32 (year + 4 * n4)
  let year ← checked32 (year + n1)
  if n100 = 4 ∨ n1 = 4 then
    -- Dec 31 at end of 4- or 400-year cycle
    return (year, 365)
  else
    return (← checked32 (year + 1), doy)

/-- The day of the week, where day zero is a Monday. -/
def dayToDow (day : Int) : Option Int := do
  let dow ← checked32 ((day + 1).tmod 7)
  checked32 (dow + if dow < 0 then 1 + 7 else 1)

def doyToMonth (isLeap : Bool) (doy : Int) : Int :=
  let march1 := if isLeap then 60 else 59
  let correction := if march1 ≤ doy then (if isLeap then 1 else 2) else 0
  (12 * (doy + correction) + 6).tdiv 367

/-- `dayToFields`. -/
def dayToFields (day : Int) : Option Fields := do
  let day := day + (julian1970CE - julian1CE)
  let (year, doy) ← dayToYear day
  let dow ← dayToDow day
  let month := doyToMonth (isLeapYear year) doy
  let dom := doy - (← element daysBeforeTable (monthIndex year month)) + 1
  return ⟨year, month, dom, dow, doy + 1⟩

/-- `dayOfWeek`. -/
def dayOfWeek (day : Int) : Option Int := do
  let (_, dow) ← ClockMath.floorDivideRemainder (day + 5) 7
  return if dow = 0 then 7 else dow

end Grego

end Icu.Calendar
