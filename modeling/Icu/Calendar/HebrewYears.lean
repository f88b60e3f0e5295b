import Icu.Calendar.Hebrew
import Mathlib.Tactic.IntervalCases

/-!
# The lengths of Hebrew years

The start of a year follows from the day and the time of its new moon, the molad, and from two leap
rules.  The code compares the time with two limits of the postponement rules by `>`, so that a new
moon exactly at a limit does not postpone the year.
-/

namespace Icu.Calendar.Hebrew

open Lib

variable {year frac wd : Int}

/-! ## The start of a year -/

def moladParts (year : Int) : Int :=
  (235 * year - 234) / 19 * monthParts + baharad

def moladDay (year : Int) : Int :=
  moladParts year / dayParts

def moladTime (year : Int) : Int :=
  moladParts year % dayParts

def delay (wd frac : Int) (isLeap wasLeap : Bool) : Int :=
  if wd = 2 ∨ wd = 4 ∨ wd = 6 then
    1 + if wd = 6 ∧ 21 * hourParts + 589 < frac ∧ wasLeap = true then 1 else 0
  else if wd = 1 ∧ 15 * hourParts + 204 < frac ∧ isLeap = false then 2
  else if wd = 0 ∧ 21 * hourParts + 589 < frac ∧ wasLeap = true then 1
  else 0

def newYear (year : Int) : Int :=
  moladDay year + delay (moladDay year % 7) (moladTime year) (isLeapYear year)
    (isLeapYear (year - 1))

/-- The year in which `MAX_JULIAN` is. -/
def maxYear : Int := 5832655

theorem isLeapYear_eq (hlow : 0 ≤ year) (hhigh : year ≤ maxYear + 2) :
    isLeapYear year = decide (12 ≤ (12 * year + 17) % 19) := by
  unfold maxYear at hhigh
  exact isLeapYear_eq_emod (by omega) (by omega)

theorem leapYear_eq (hlow : 0 ≤ year) (hhigh : year ≤ maxYear + 2) :
    leapYear year = some (isLeapYear year) := by
  unfold maxYear at hhigh
  rw [leapYear_eq_ite, if_pos (by omega)]

theorem exists_place (year : Int) :
    ∃ cycle place : Int, year = 19 * cycle + place ∧ 0 ≤ place ∧ place < 19 :=
  ⟨year / 19, year % 19, by omega, by omega, by omega⟩

theorem isLeapYear_succ (hlow : 0 ≤ year) (hhigh : year ≤ maxYear + 1)
    (hleap : isLeapYear year = true) : isLeapYear (year + 1) = false := by
  rw [isLeapYear_eq hlow (by omega), decide_eq_true_eq] at hleap
  rw [isLeapYear_eq (by omega) (by omega), decide_eq_false_iff_not]
  obtain ⟨cycle, place, rfl, hplace, hplace'⟩ := exists_place year
  interval_cases place <;> omega

theorem isLeapYear_pred (hlow : 1 ≤ year) (hhigh : year ≤ maxYear + 2)
    (hleap : isLeapYear year = true) : isLeapYear (year - 1) = false := by
  by_contra h
  have hnext := isLeapYear_succ (show 0 ≤ year - 1 by omega) (by omega) (by simpa using h)
  rw [Int.sub_add_cancel, hleap] at hnext
  contradiction

theorem moladParts_succ (hlow : 0 ≤ year) (hhigh : year ≤ maxYear + 1) :
    moladParts (year + 1) = moladParts year + monthsInYear year * monthParts := by
  have hmonths : (235 * (year + 1) - 234) / 19 = (235 * year - 234) / 19 + monthsInYear year := by
    unfold monthsInYear
    rw [isLeapYear_eq hlow (by omega)]
    simp only [decide_eq_true_eq]
    obtain ⟨cycle, place, rfl, hplace, hplace'⟩ := exists_place year
    interval_cases place <;> split <;> omega
  unfold moladParts
  rw [hmonths, Int.add_mul]
  omega

theorem moladTime_bounds (year : Int) : 0 ≤ moladTime year ∧ moladTime year < 25920 := by
  unfold moladTime dayParts hourParts
  omega

theorem delay_bounds (wd frac : Int) (isLeap wasLeap : Bool) :
    0 ≤ delay wd frac isLeap wasLeap ∧ delay wd frac isLeap wasLeap ≤ 2 := by
  unfold delay
  split_ifs <;> omega

theorem postpone_eq {day : Int} (hlow : 1 ≤ year) (hhigh : year ≤ maxYear + 2)
    (hday : 0 ≤ day) (hday' : day ≤ 0x7ffffff0) : postpone year day frac =
      some (day + delay (day % 7) frac (isLeapYear year) (isLeapYear (year - 1))) := by
  have hnonneg : 0 ≤ day % 7 ∧ day % 7 ≤ 6 := by omega
  have hsucc : (day + 1) % 7 = if day % 7 = 6 then 0 else day % 7 + 1 := by
    split <;> omega
  unfold postpone
  rw [leapYear_eq (by omega) hhigh, leapYear_eq (by omega) (by omega)]
  simp only [Option.bind_eq_bind, Option.bind_some]
  rw [Int.tmod_eq_emod_of_nonneg hday, checked32_eq (by split <;> omega) (by split <;> omega)]
  simp only [Option.bind_some]
  rw [Int.tmod_eq_emod_of_nonneg (by split <;> omega), checked32_eq (by split_ifs <;> omega)
    (by split_ifs <;> omega), Option.some.injEq]
  unfold delay
  by_cases hearly : day % 7 = 2 ∨ day % 7 = 4 ∨ day % 7 = 6
  · rw [if_pos hearly, if_pos hearly, hsucc]
    have hone : ¬ (if day % 7 = 6 then 0 else day % 7 + 1) = 1 := by
      split <;> omega
    have hzero : (if day % 7 = 6 then 0 else day % 7 + 1) = 0 ↔ day % 7 = 6 := by
      split <;> omega
    rw [if_neg (fun h => hone h.1)]
    simp only [hzero]
    split <;> omega
  · rw [if_neg hearly, if_neg hearly]
    split
    · rfl
    split
    · rfl
    · omega

theorem startOfYear_eq (hlow : 1 ≤ year) (hhigh : year ≤ maxYear + 2) :
    startOfYear year = some (newYear year) := by
  have hyear := hhigh
  unfold maxYear at hyear
  have hmonths : 0 ≤ (235 * year - 234) / 19 ∧ (235 * year - 234) / 19 ≤ 72140750 := by omega
  have hday : (235 * year - 234) / 19 * 29 + ((235 * year - 234) / 19 * monthFract + baharad) /
      dayParts = moladDay year := by
    unfold moladDay moladParts monthParts monthFract baharad dayParts hourParts
    omega
  have htime : ((235 * year - 234) / 19 * monthFract + baharad) % dayParts = moladTime year := by
    unfold moladTime moladParts monthParts monthFract baharad dayParts hourParts
    omega
  have hpositive : 0 ≤ (235 * year - 234) / 19 * monthFract + baharad := by
    unfold monthFract baharad hourParts
    omega
  have hmolad : 0 ≤ moladDay year ∧ moladDay year ≤ 0x7ffffff0 := by
    unfold moladDay moladParts monthParts monthFract baharad dayParts hourParts
    omega
  have hwhole : 0 ≤ ((235 * year - 234) / 19 * monthFract + baharad) / dayParts ∧
      ((235 * year - 234) / 19 * monthFract + baharad) / dayParts ≤ 0x7fffffff := by
    unfold monthFract baharad dayParts hourParts
    omega
  unfold startOfYear
  rw [checked32_eq (by omega) (by omega)]
  simp only [Option.bind_eq_bind, Option.bind_some]
  rw [checked32_eq (by omega) (by omega)]
  simp only [Option.bind_some]
  rw [Int.tdiv_eq_ediv_of_nonneg (show 0 ≤ 235 * year - 234 by omega),
    checked32_eq (by omega) (by omega)]
  simp only [Option.bind_some]
  rw [Int.tdiv_eq_ediv_of_nonneg hpositive, checked32_eq (by omega) hwhole.2]
  simp only [Option.bind_some]
  rw [hday, Int.tmod_eq_emod_of_nonneg hpositive, htime, checked32_eq (by omega) (by omega)]
  exact postpone_eq hlow hhigh hmolad.1 hmolad.2

/-! ## The lengths -/

/-- The days of a year between its two new moons and the two delays. -/
def lengthOf (wd frac : Int) (isLeap wasLeap nextLeap : Bool) : Int :=
  let parts := frac + (if isLeap then 13 else 12) * monthParts
  parts / dayParts + delay ((wd + parts / dayParts) % 7) (parts % dayParts) nextLeap isLeap -
    delay wd frac isLeap wasLeap

/-- A common year whose new moon is on Tuesday exactly at the limit. -/
def tuesdayLimit (year : Int) : Bool :=
  !isLeapYear year && decide (moladDay year % 7 = 1) && decide (moladTime year =
    15 * hourParts + 204)

/-- A leap year after which the new moon is on Monday exactly at the limit. -/
def mondayLimit (year : Int) : Bool :=
  isLeapYear year && decide (moladDay (year + 1) % 7 = 0) &&
    decide (moladTime (year + 1) = 21 * hourParts + 589)

theorem newYear_succ (hlow : 0 ≤ year) (hhigh : year ≤ maxYear + 1) :
    newYear (year + 1) = newYear year + lengthOf (moladDay year % 7) (moladTime year)
      (isLeapYear year) (isLeapYear (year - 1)) (isLeapYear (year + 1)) := by
  have hparts := moladParts_succ hlow hhigh
  unfold monthsInYear at hparts
  have hday : moladDay (year + 1) = moladDay year +
      (moladTime year + (if isLeapYear year then 13 else 12) * monthParts) / dayParts := by
    unfold moladDay moladTime dayParts hourParts
    rw [hparts]
    generalize (if isLeapYear year = true then (13 : Int) else 12) * monthParts = added
    omega
  have htime : moladTime (year + 1) =
      (moladTime year + (if isLeapYear year then 13 else 12) * monthParts) % dayParts := by
    unfold moladTime dayParts hourParts
    rw [hparts]
    generalize (if isLeapYear year = true then (13 : Int) else 12) * monthParts = added
    omega
  unfold newYear lengthOf
  dsimp only
  rw [hday, htime, Int.add_sub_cancel, Int.emod_add_emod]
  omega

theorem lengthOf_common (wasLeap nextLeap : Bool) (hwd : 0 ≤ wd) (hwd' : wd < 7)
    (hfrac : 0 ≤ frac) (hfrac' : frac < 25920) :
    (wd = 1 ∧ frac = 16404 → lengthOf wd frac false wasLeap nextLeap = 356) ∧
      (¬ (wd = 1 ∧ frac = 16404) → 353 ≤ lengthOf wd frac false wasLeap nextLeap ∧
        lengthOf wd frac false wasLeap nextLeap ≤ 355) := by
  unfold lengthOf
  by_cases hcarry : frac < 16404
  · have hdiv : (frac + 9185196) / 25920 = 354 := by omega
    have hmod : (frac + 9185196) % 25920 = frac + 9516 := by omega
    simp [monthParts, monthFract, dayParts, hourParts, hdiv, hmod]
    interval_cases wd <;> simp [delay, hourParts] <;> split_ifs <;> omega
  · have hdiv : (frac + 9185196) / 25920 = 355 := by omega
    have hmod : (frac + 9185196) % 25920 = frac - 16404 := by omega
    simp [monthParts, monthFract, dayParts, hourParts, hdiv, hmod]
    interval_cases wd <;> simp [delay, hourParts] <;> split_ifs <;> omega

theorem lengthOf_leap (hwd : 0 ≤ wd) (hwd' : wd < 7) (hfrac : 0 ≤ frac) (hfrac' : frac < 25920) :
    (wd = 2 ∧ frac = 0 → lengthOf wd frac true false false = 382) ∧
      (¬ (wd = 2 ∧ frac = 0) → 383 ≤ lengthOf wd frac true false false ∧
        lengthOf wd frac true false false ≤ 385) := by
  unfold lengthOf
  by_cases hcarry : frac < 2651
  · have hdiv : (frac + 9950629) / 25920 = 383 := by omega
    have hmod : (frac + 9950629) % 25920 = frac + 23269 := by omega
    simp [monthParts, monthFract, dayParts, hourParts, hdiv, hmod]
    interval_cases wd <;> simp [delay, hourParts] <;> split_ifs <;> omega
  · have hdiv : (frac + 9950629) / 25920 = 384 := by omega
    have hmod : (frac + 9950629) % 25920 = frac - 2651 := by omega
    simp [monthParts, monthFract, dayParts, hourParts, hdiv, hmod]
    interval_cases wd <;> simp [delay, hourParts] <;> split_ifs <;> omega

theorem tuesdayLimit_iff : tuesdayLimit year = true ↔
    isLeapYear year = false ∧ moladDay year % 7 = 1 ∧ moladTime year = 16404 := by
  unfold tuesdayLimit hourParts
  simp only [Bool.and_eq_true, Bool.not_eq_true', decide_eq_true_eq, and_assoc]
  rfl

theorem mondayLimit_iff (hlow : 0 ≤ year) (hhigh : year ≤ maxYear + 1) : mondayLimit year = true ↔
      isLeapYear year = true ∧ moladDay year % 7 = 2 ∧ moladTime year = 0 := by
  have hparts := moladParts_succ hlow hhigh
  unfold monthsInYear at hparts
  simp only [mondayLimit, Bool.and_eq_true, decide_eq_true_eq, and_assoc]
  apply and_congr_right
  intro hleap
  rw [if_pos hleap] at hparts
  unfold moladDay moladTime
  rw [hparts]
  unfold monthParts monthFract dayParts hourParts
  omega

/-- The length of a year that is not at a limit. -/
theorem newYear_succ_bounds (hlow : 1 ≤ year) (hhigh : year ≤ maxYear + 1)
    (htuesday : tuesdayLimit year = false) (hmonday : mondayLimit year = false) :
    if isLeapYear year then
      newYear year + 383 ≤ newYear (year + 1) ∧ newYear (year + 1) ≤ newYear year + 385
    else newYear year + 353 ≤ newYear (year + 1) ∧ newYear (year + 1) ≤ newYear year + 355 := by
  have htime := moladTime_bounds year
  rw [newYear_succ (by omega) hhigh]
  split
  · next hleap =>
    have hnext := isLeapYear_succ (show 0 ≤ year by omega) hhigh hleap
    have hlast := isLeapYear_pred hlow (by omega) hleap
    have hlength := (lengthOf_leap (show 0 ≤ moladDay year % 7 by omega) (by omega) htime.1
      htime.2).2
    rw [← Bool.not_eq_true, mondayLimit_iff (by omega) hhigh] at hmonday
    have := hlength (fun h => hmonday ⟨hleap, h⟩)
    rw [hleap, hnext, hlast]
    omega
  · next hleap =>
    rw [Bool.not_eq_true] at hleap
    have hlength := (lengthOf_common (isLeapYear (year - 1))
      (isLeapYear (year + 1)) (show 0 ≤ moladDay year % 7 by omega) (by omega) htime.1 htime.2).2
    rw [← Bool.not_eq_true, tuesdayLimit_iff] at htuesday
    have := hlength (fun h => htuesday ⟨hleap, h⟩)
    rw [hleap]
    omega

theorem newYear_succ_tuesday (hlow : 1 ≤ year) (hhigh : year ≤ maxYear + 1)
    (htuesday : tuesdayLimit year = true) : newYear (year + 1) = newYear year + 356 := by
  obtain ⟨hleap, hwd, htime⟩ := tuesdayLimit_iff.mp htuesday
  rw [newYear_succ (by omega) hhigh, hleap, hwd, htime,
    (lengthOf_common _ _ (by decide) (by decide) (by decide) (by decide)).1 ⟨rfl, rfl⟩]

theorem newYear_succ_monday (hlow : 1 ≤ year) (hhigh : year ≤ maxYear + 1)
    (hmonday : mondayLimit year = true) : newYear (year + 1) = newYear year + 382 := by
  obtain ⟨hleap, hwd, htime⟩ := (mondayLimit_iff (by omega) hhigh).mp hmonday
  have hnext := isLeapYear_succ (show 0 ≤ year by omega) hhigh hleap
  have hlast := isLeapYear_pred hlow (by omega) hleap
  rw [newYear_succ (by omega) hhigh, hleap, hwd, htime, hlast, hnext,
    (lengthOf_leap (by decide) (by decide) (by decide) (by decide)).1 ⟨rfl, rfl⟩]

def LengthRight (year : Int) : Prop :=
  ∃ start next, startOfYear year = some start ∧ startOfYear (year + 1) = some next ∧
    if isLeapYear year then 383 ≤ next - start ∧ next - start ≤ 385
    else 353 ≤ next - start ∧ next - start ≤ 355

theorem lengthRight_iff (hlow : 1 ≤ year) (hhigh : year ≤ maxYear) :
    LengthRight year ↔ tuesdayLimit year = false ∧ mondayLimit year = false := by
  unfold LengthRight
  rw [startOfYear_eq hlow (by omega), startOfYear_eq (by omega) (by omega)]
  constructor
  · rintro ⟨start, next, hstart, hnext, hlength⟩
    rw [Option.some.injEq] at hstart hnext
    constructor
    · by_contra h
      rw [Bool.not_eq_false] at h
      have hlong := newYear_succ_tuesday hlow (by omega) h
      rw [(tuesdayLimit_iff.mp h).1, if_neg (by decide)] at hlength
      omega
    · by_contra h
      rw [Bool.not_eq_false] at h
      have hshort := newYear_succ_monday hlow (by omega) h
      rw [((mondayLimit_iff (by omega) (by omega)).mp h).1, if_pos rfl] at hlength
      omega
  · intro h
    have hbounds := newYear_succ_bounds hlow (by omega) h.1 h.2
    refine ⟨_, _, rfl, rfl, ?_⟩
    split at hbounds
    · next hleap =>
      rw [if_pos hleap]
      omega
    · next hleap =>
      rw [if_neg hleap]
      omega

end Icu.Calendar.Hebrew
