import Icu.Calendar.GregoDates

/-!
# `IslamicCalendar`

The calculation types of `islamcal.cpp` that are arithmetic; the astronomical one needs the age of
the moon.  The doubles hold integers, or quotients that are farther from the next integer than they
are rounded.
-/

namespace Icu.Calendar.Islamic

open Lib

inductive ECalculationType
  | civil
  | umalqura
  | tbla
  deriving DecidableEq, Repr

def civilEpoc : Int := 1948440
def astronomicalEpoc : Int := 1948439
def umalquraYearStart : Int := 1300
def umalquraYearEnd : Int := 1600

/-- `DHU_AL_HIJJAH`, the last month. -/
def dhuAlHijjah : Int := 11

/-- `UMALQURA_MONTHLENGTH`: a bit for each month, that of the first month is bit 11. -/
def umalquraMonthLength : List Nat :=
  [0xAAA, 0xD54, 0xEC9, 0x6D4, 0x6EA, 0x36C, 0xAAD, 0x555, 0x6A9, 0x792,
   0xBA9, 0x5D4, 0xADA, 0x55C, 0xD2D, 0x695, 0x74A, 0xB54, 0xB6A, 0x5AD,
   0x4AE, 0xA4F, 0x517, 0x68B, 0x6A5, 0xAD5, 0x2D6, 0x95B, 0x49D, 0xA4D,
   0xD26, 0xD95, 0x5AC, 0x9B6, 0x2BA, 0xA5B, 0x52B, 0xA95, 0x6CA, 0xAE9,
   0x2F4, 0x976, 0x2B6, 0x956, 0xACA, 0xBA4, 0xBD2, 0x5D9, 0x2DC, 0x96D,
   0x54D, 0xAA5, 0xB52, 0xBA5, 0x5B4, 0x9B6, 0x557, 0x297, 0x54B, 0x6A3,
   0x752, 0xB65, 0x56A, 0xAAB, 0x52B, 0xC95, 0xD4A, 0xDA5, 0x5CA, 0xAD6,
   0x957, 0x4AB, 0x94B, 0xAA5, 0xB52, 0xB6A, 0x575, 0x276, 0x8B7, 0x45B,
   0x555, 0x5A9, 0x5B4, 0x9DA, 0x4DD, 0x26E, 0x936, 0xAAA, 0xD54, 0xDB2,
   0x5D5, 0x2DA, 0x95B, 0x4AB, 0xA55, 0xB49, 0xB64, 0xB71, 0x5B4, 0xAB5,
   0xA55, 0xD25, 0xE92, 0xEC9, 0x6D4, 0xAE9, 0x96B, 0x4AB, 0xA93, 0xD49,
   0xDA4, 0xDB2, 0xAB9, 0x4BA, 0xA5B, 0x52B, 0xA95, 0xB2A, 0xB55, 0x55C,
   0x4BD, 0x23D, 0x91D, 0xA95, 0xB4A, 0xB5A, 0x56D, 0x2B6, 0x93B, 0x49B,
   0x655, 0x6A9, 0x754, 0xB6A, 0x56C, 0xAAD, 0x555, 0xB29, 0xB92, 0xBA9,
   0x5D4, 0xADA, 0x55A, 0xAAB, 0x595, 0x749, 0x764, 0xBAA, 0x5B5, 0x2B6,
   0xA56, 0xE4D, 0xB25, 0xB52, 0xB6A, 0x5AD, 0x2AE, 0x92F, 0x497, 0x64B,
   0x6A5, 0x6AC, 0xAD6, 0x55D, 0x49D, 0xA4D, 0xD16, 0xD95, 0x5AA, 0x5B5,
   0x2DA, 0x95B, 0x4AD, 0x595, 0x6CA, 0x6E4, 0xAEA, 0x4F5, 0x2B6, 0x956,
   0xAAA, 0xB54, 0xBD2, 0x5D9, 0x2EA, 0x96D, 0x4AD, 0xA95, 0xB4A, 0xBA5,
   0x5B2, 0x9B5, 0x4D6, 0xA97, 0x547, 0x693, 0x749, 0xB55, 0x56A, 0xA6B,
   0x52B, 0xA8B, 0xD46, 0xDA3, 0x5CA, 0xAD6, 0x4DB, 0x26B, 0x94B, 0xAA5,
   0xB52, 0xB69, 0x575, 0x176, 0x8B7, 0x25B, 0x52B, 0x565, 0x5B4, 0x9DA,
   0x4ED, 0x16D, 0x8B6, 0xAA6, 0xD52, 0xDA9, 0x5D4, 0xADA, 0x95B, 0x4AB,
   0x653, 0x729, 0x762, 0xBA9, 0x5B2, 0xAB5, 0x555, 0xB25, 0xD92, 0xEC9,
   0x6D2, 0xAE9, 0x56B, 0x4AB, 0xA55, 0xD29, 0xD54, 0xDAA, 0x9B5, 0x4BA,
   0xA3B, 0x49B, 0xA4D, 0xAAA, 0xAD5, 0x2DA, 0x95D, 0x45E, 0xA2E, 0xC9A,
   0xD55, 0x6B2, 0x6B9, 0x4BA, 0xA5D, 0x52D, 0xA95, 0xB52, 0xBA8, 0xBB4,
   0x5B9, 0x2DA, 0x95A, 0xB4A, 0xDA4, 0xED1, 0x6E8, 0xB6A, 0x56D, 0x535,
   0x695, 0xD4A, 0xDA8, 0xDD4, 0x6DA, 0x55B, 0x29D, 0x62B, 0xB15, 0xB4A,
   0xB95, 0x5AA, 0xAAE, 0x92E, 0xC8F, 0x527, 0x695, 0x6AA, 0xAD6, 0x55D,
   0x29D]

/-- `getUmalqura_MonthLength`, for a year from 1300 on. -/
def getUmalquraMonthLength (y m : Int) : Option Int :=
  if 0 ≤ y ∧ 0 ≤ m ∧ m ≤ 11 then do
    let months ← umalquraMonthLength[y.toNat]?
    let mask := 1 <<< (11 - m).toNat
    return if months &&& mask = 0 then 29 else 30
  else none

/-- `ceil(numerator / denominator)`. -/
def ceilDivide (numerator denominator : Int) : Int :=
  -(-numerator / denominator)

/-- `civilLeapYear`. -/
def civilLeapYear (year : Int) : Option Bool := do
  let x ← checked32 (11 * year)
  let x ← checked32 (14 + x)
  return decide (x.tmod 30 < 11)

def isCivilYear (cType : ECalculationType) (year : Int) : Bool :=
  cType == .civil || cType == .tbla ||
    (cType == .umalqura && (decide (year < umalquraYearStart) || decide (umalquraYearEnd < year)))

/-- `for(i=start; i<start+count; i++) sum += term(i);` -/
def addTerms (term : Int → Option Int) : Nat → Int → Int → Option Int
  | 0, _, sum => some sum
  | count + 1, i, sum => do
    let sum ← checked32 (sum + (← term i))
    addTerms term count (i + 1) sum

/-- `handleGetMonthLength`. -/
def handleGetMonthLength (cType : ECalculationType) (extendedYear month : Int) : Option Int :=
  if isCivilYear cType extendedYear then do
    let length := 29 + (month + 1).tmod 2
    let leapDay ← if month = dhuAlHijjah then civilLeapYear extendedYear else some false
    return if leapDay then length + 1 else length
  else getUmalquraMonthLength (extendedYear - umalquraYearStart) month

/-- `handleGetYearLength`. -/
def handleGetYearLength (cType : ECalculationType) (extendedYear : Int) : Option Int :=
  if isCivilYear cType extendedYear then do
    return 354 + if ← civilLeapYear extendedYear then 1 else 0
  else addTerms (handleGetMonthLength cType extendedYear) 12 0 0

def civilYearStart (year : Int) : Option Int := do
  let y ← checked32 (year - 1)
  let days ← checked32 (y * 354)
  let x ← checked32 (11 * year)
  let x ← checked32 (3 + x)
  checked32 (days + (← ClockMath.floorDivide x 30))

/-- `yearStart`.  The recursive call is for the year 1299, with the civil rule. -/
def yearStart (cType : ECalculationType) (year : Int) : Option Int :=
  if isCivilYear cType year then civilYearStart year
  else do
    let ys ← civilYearStart (umalquraYearStart - 1)
    let ys ← checked32 (ys + (← handleGetYearLength cType (umalquraYearStart - 1)))
    addTerms (handleGetYearLength cType) (year - umalquraYearStart).toNat umalquraYearStart ys

/-- `monthStart`, for a month in the range 0..11. -/
def monthStart (cType : ECalculationType) (year month : Int) : Option Int :=
  if cType = .civil ∨ cType = .tbla then do
    let start := ceilDivide (59 * month) 2
    let y ← checked32 (year - 1)
    let days ← checked32 (y * 354)
    let days ← checked32 (start + days)
    let x ← checked32 (11 * year)
    let x ← checked32 (3 + x)
    checked32 (days + (← ClockMath.floorDivide x 30))
  else do
    let ms ← yearStart cType year
    addTerms (handleGetMonthLength cType year) month.toNat 0 ms

def epoc (cType : ECalculationType) : Int :=
  if cType = .tbla then astronomicalEpoc else civilEpoc

/-- `handleComputeMonthStart`. -/
def handleComputeMonthStart (cType : ECalculationType) (eyear month : Int) : Option Int := do
  let (eyear, month) :=
    if 11 < month then (eyear + month.tdiv 12, month.tmod 12)
    else if month < 0 then
      (eyear + ((month + 1).tdiv 12 - 1), (month + 1).tmod 12 + 11)
    else (eyear, month)
  let start ← monthStart cType (← checked32 eyear) month
  let day ← checked32 (start + epoc cType)
  checked32 (day - 1)

/-- The fields that `handleComputeFields` sets. -/
structure Fields where
  year : Int
  month : Int
  dayOfMonth : Int
  dayOfYear : Int
  deriving DecidableEq, Repr

def civilYearMonth (cType : ECalculationType) (days : Int) : Option (Int × Int) := do
  let x ← checked32 (30 * days)
  let x ← checked32 (x + 10646)
  let year := x / 10631
  let rest ← checked32 (days - 29)
  let rest ← checked32 (rest - (← yearStart cType year))
  let month := ceilDivide (2 * rest) 59
  return (year, if month < 11 then month else 11)

/-- The loop `while(d > monthLen)`. -/
def searchMonth (y : Int) : Nat → Int → Int → Option Int
  | 0, _, _ => none
  | fuel + 1, d, m => do
    let monthLen ← handleGetMonthLength .umalqura y m
    if monthLen < d then searchMonth y fuel (d - monthLen) (m + 1)
    else some m

/-- The loop `while(d > 0)`, with `y` counted. -/
def searchYear (days : Int) : Nat → Int → Option (Int × Int)
  | 0, _ => none
  | fuel + 1, y => do
    let d ← checked32 (days - (← yearStart .umalqura y))
    let d ← checked32 (d + 1)
    let length ← handleGetYearLength .umalqura y
    if d = length then some (y, 11)
    else if d < length then do
      return (y, ← searchMonth y 13 d 0)
    else if 0 < d then searchYear days fuel (y + 1)
    else some (y, 0)

/-- The year and month that `handleComputeFields` finds for the days since the epoch. -/
def yearMonth (cType : ECalculationType) (days : Int) : Option (Int × Int) :=
  match cType with
  | .civil => civilYearMonth .civil days
  | .tbla => civilYearMonth .tbla days
  | .umalqura => do
    let umalquraStartdays ← yearStart .umalqura umalquraYearStart
    if days < umalquraStartdays then civilYearMonth .umalqura days
    else searchYear days (days.toNat + 1) umalquraYearStart

/-- `handleComputeFields`. -/
def handleComputeFields (cType : ECalculationType) (julianDay : Int) : Option Fields := do
  let days ← checked32 (julianDay - epoc cType)
  let (year, month) ← yearMonth cType days
  let dayOfMonth ← checked32 (days - (← monthStart cType year month))
  let dayOfMonth ← checked32 (dayOfMonth + 1)
  let dayOfYear ← checked32 (days - (← monthStart cType year 0))
  let dayOfYear ← checked32 (dayOfYear + 1)
  return ⟨year, month, dayOfMonth, dayOfYear⟩

end Icu.Calendar.Islamic
