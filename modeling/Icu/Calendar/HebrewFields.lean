import Icu.Calendar.HebrewYears

/-!
# The fields of a Hebrew day

The year of a day is found from an estimate that is never too early.  The month is found in a table
that has the days of a year, unless the year has 356 of them.
-/

namespace Icu.Calendar.Hebrew

open Lib

variable {year d julianDay : Int} {type month : Nat}

/-- The last day that calendars work with, `MAX_JULIAN`. -/
def maxJulian : Int := 0x7f000000

theorem newYear_succ_range (hlow : 1 ≤ year) (hhigh : year ≤ maxYear + 1) :
    newYear year + 353 ≤ newYear (year + 1) ∧ newYear (year + 1) ≤ newYear year + 385 := by
  by_cases htuesday : tuesdayLimit year = true
  · have := newYear_succ_tuesday hlow hhigh htuesday
    omega
  by_cases hmonday : mondayLimit year = true
  · have := newYear_succ_monday hlow hhigh hmonday
    omega
  have hbounds := newYear_succ_bounds hlow hhigh (by simpa using htuesday)
    (by simpa using hmonday)
  split at hbounds <;> omega

theorem newYear_add_mono (hlow : 1 ≤ year) (years : Nat)
    (hhigh : year + years ≤ maxYear + 2) : newYear year ≤ newYear (year + years) := by
  induction years with
  | zero =>
    simp
  | succ years ih =>
    have hlast := (newYear_succ_range (show 1 ≤ year + (years : Int) by omega) (by omega)).1
    have hfirst := ih (by omega)
    rw [Int.add_assoc] at hlast
    push_cast
    omega

theorem newYear_mono {first last : Int} (hlow : 1 ≤ first) (hle : first ≤ last)
    (hhigh : last ≤ maxYear + 2) : newYear first ≤ newYear last := by
  obtain ⟨years, rfl⟩ := Int.le.dest hle
  exact newYear_add_mono hlow years hhigh

theorem newYear_one : newYear 1 = 0 := by decide

theorem newYear_maxYear : newYear maxYear = 2130358324 := by decide

theorem newYear_maxYear_succ : newYear (maxYear + 1) = 2130358678 := by decide

theorem exists_year (hlow : 1 ≤ d) (years : Nat) (hhigh : d ≤ newYear (1 + years)) :
    ∃ year : Int, 1 ≤ year ∧ year ≤ years ∧ newYear year < d ∧ d ≤ newYear (year + 1) := by
  induction years with
  | zero =>
    have := newYear_one
    simp at hhigh
    omega
  | succ years ih =>
    by_cases hearlier : d ≤ newYear (1 + years)
    · obtain ⟨year, h1, h2, h3⟩ := ih hearlier
      exact ⟨year, h1, by push_cast; omega, h3⟩
    refine ⟨1 + years, by omega, by push_cast; omega, by omega, ?_⟩
    rw [Int.add_assoc]
    exact_mod_cast hhigh

/-- The estimate is not too early. -/
theorem le_estimateYear (hd : 1 ≤ d) (hstart : newYear year < d) : year ≤ estimateYear d := by
  have hdelay := (delay_bounds (moladDay year % 7) (moladTime year) (isLeapYear year)
    (isLeapYear (year - 1))).1
  unfold newYear moladDay moladParts monthParts monthFract baharad dayParts hourParts at *
  unfold estimateYear monthParts monthFract dayParts hourParts
  rw [Int.tdiv_eq_ediv_of_nonneg (by omega)]
  omega

theorem estimateYear_le (hd : 1 ≤ d) (hlast : d ≤ maxJulian - 347997) :
    estimateYear d ≤ maxYear + 1 := by
  unfold maxJulian at hlast
  unfold estimateYear monthParts monthFract dayParts hourParts maxYear
  rw [Int.tdiv_eq_ediv_of_nonneg (by omega)]
  omega

theorem correctYear_eq (hyear : 1 ≤ year) (hd : 1 ≤ d) (hd' : d ≤ maxJulian)
    (hstart : newYear year < d) (hend : d ≤ newYear (year + 1)) (fuel extra : Nat)
    (hfuel : extra < fuel) (hhigh : year + extra ≤ maxYear + 1) :
    correctYear d fuel (year + extra) = some (year, d - newYear year) := by
  unfold maxJulian at hd'
  induction fuel generalizing extra with
  | zero =>
    omega
  | succ fuel ih =>
    have hfirst := newYear_mono (Int.le_refl 1) (show 1 ≤ year + extra by omega) (by omega)
    have hlast := newYear_mono (show 1 ≤ year + extra by omega) hhigh (by omega)
    rw [newYear_one] at hfirst
    rw [newYear_maxYear_succ] at hlast
    unfold correctYear
    simp only [startOfYear_eq (show 1 ≤ year + (extra : Int) by omega) (by omega),
      Option.bind_eq_bind, Option.bind_some]
    rw [checked32_eq (by omega) (by omega), Option.bind_some]
    cases extra with
    | zero =>
      rw [if_neg (by simp; omega)]
      simp
    | succ extra =>
      have hlater := newYear_mono (show 1 ≤ year + 1 by omega)
        (show year + 1 ≤ year + (extra + 1 : Nat) by omega) (by omega)
      rw [if_pos (by omega), show year + ((extra + 1 : Nat) : Int) - 1 = year + extra by omega]
      exact ih extra (by omega) (by omega)

/-- The days of a year of a type, in the row after the last month. -/
def totalDays (isLeap : Bool) (type : Nat) : Int :=
  (if isLeap then 383 else 353) + type

theorem exists_monthStart (isLeap : Bool) (htype : type < 3)
    (hmonth : month < 14) : ∃ start, monthStart isLeap month type = some start ∧
      0 ≤ start ∧ start ≤ totalDays isLeap type := by
  cases isLeap <;> interval_cases type <;> interval_cases month <;>
    exact ⟨_, rfl, by decide, by decide⟩

theorem monthStart_zero (isLeap : Bool) (htype : type < 3) : monthStart isLeap 0 type = some 0 := by
  cases isLeap <;> interval_cases type <;> rfl

theorem monthStart_total (isLeap : Bool) (htype : type < 3) :
    monthStart isLeap (14 - 1 : Nat) type = some (totalDays isLeap type) := by
  cases isLeap <;> interval_cases type <;> rfl

/-- The months of a year follow each other, and `ADAR_1` takes no days of a common year. -/
theorem monthStart_succ (isLeap : Bool) (htype : type < 3)
    (hmonth : month < 13) : ∃ start next length, monthStart isLeap month type = some start ∧
      monthStart isLeap (month + 1 : Nat) type = some next ∧
      entry monthLengthTable month (if month = 1 ∨ month = 2 then type else 0) = some length ∧
      next = start + if month = 5 ∧ isLeap = false then 0 else length := by
  cases isLeap <;> interval_cases type <;> interval_cases month <;>
    exact ⟨_, _, _, rfl, rfl, rfl, by decide⟩

theorem findMonth_spec (isLeap : Bool) (dayOfYear : Int) (htype : type < 3)
    (fuel month : Nat) (hrows : month + fuel = 14)
    (hbefore : month = 0 ∨ ∃ start, monthStart isLeap (month - 1 : Nat) type = some start ∧
      start < dayOfYear) :
    ∃ found : Nat, findMonth isLeap type dayOfYear fuel month = some (found : Int) ∧ found ≤ 14 ∧
      (found = 0 ∨ ∃ start, monthStart isLeap (found - 1 : Nat) type = some start ∧
        start < dayOfYear) ∧
      (found = 14 ∨ ∃ start, monthStart isLeap found type = some start ∧ dayOfYear ≤ start) := by
  induction fuel generalizing month with
  | zero =>
    exact ⟨month, rfl, by omega, hbefore, Or.inl (by omega)⟩
  | succ fuel ih =>
    obtain ⟨start, hstart, -⟩ := exists_monthStart isLeap htype (show month < 14 by omega)
    unfold findMonth
    simp only [hstart, Option.bind_eq_bind, Option.bind_some]
    by_cases hlater : start < dayOfYear
    · rw [if_pos hlater]
      exact_mod_cast ih (month + 1) (by omega) (Or.inr ⟨start, hstart, hlater⟩)
    · rw [if_neg hlater]
      exact ⟨month, rfl, by omega, hbefore, Or.inr ⟨start, hstart, by omega⟩⟩

/-- The table has all the days of a year, but for two days of a year at the limit on Tuesday. -/
theorem yearType_spec (hlow : 1 ≤ year) (hhigh : year ≤ maxYear + 1) :
    ∃ type, yearType year = some type ∧ type < 3 ∧
      (tuesdayLimit year = true →
        totalDays (isLeapYear year) type + 2 = newYear (year + 1) - newYear year) ∧
      (tuesdayLimit year = false →
        newYear (year + 1) - newYear year ≤ totalDays (isLeapYear year) type) := by
  have hrange := newYear_succ_range hlow hhigh
  unfold yearType yearLength
  simp only [startOfYear_eq hlow (show year ≤ maxYear + 2 by omega),
    startOfYear_eq (show 1 ≤ year + 1 by omega) (show year + 1 ≤ maxYear + 2 by omega),
    Option.bind_eq_bind, Option.bind_some, Option.pure_def]
  rw [checked32_eq (by omega) (by omega)]
  simp only [Option.bind_some, Option.some.injEq, exists_eq_left']
  unfold totalDays
  by_cases htuesday : tuesdayLimit year = true
  · have hlength := newYear_succ_tuesday hlow hhigh htuesday
    simp [(tuesdayLimit_iff.mp htuesday).1, htuesday, hlength]
  rw [Bool.not_eq_true] at htuesday
  simp only [htuesday, Bool.false_eq_true, false_implies, true_and, true_implies]
  by_cases hmonday : mondayLimit year = true
  · have hlength := newYear_succ_monday hlow hhigh hmonday
    simp [((mondayLimit_iff (by omega) hhigh).mp hmonday).1, hlength]
  have hbounds := newYear_succ_bounds hlow hhigh htuesday (by simpa using hmonday)
  split at hbounds
  · next hleap =>
    simp only [if_pos hleap]
    split_ifs <;> omega
  · next hleap =>
    simp only [if_neg hleap]
    split_ifs <;> omega

/-! ## The fields -/

/-- The fields of a day are those of an existing month and lead back to the day. -/
def FieldsRight (julianDay : Int) : Prop :=
  ∃ fields length start, handleComputeFields julianDay = some (.ok fields) ∧
    handleGetMonthLength fields.year fields.month = some length ∧
    1 ≤ fields.dayOfMonth ∧ fields.dayOfMonth ≤ length ∧
    ¬ (fields.month = adar1 ∧ isLeapYear fields.year = false) ∧
    handleComputeMonthStart fields.year fields.month = some start ∧
    start + fields.dayOfMonth = julianDay

theorem resolveMonth_month (fuel : Nat) (year : Int) (hmonth : month < 13) :
    resolveMonth (fuel + 1) year month = some (year, (month : Int)) := by
  unfold resolveMonth
  rw [if_neg (by omega), if_neg (by omega)]

theorem monthLength_eq {year : Int} {type month : Nat} (htype : yearType year = some type)
    (hmonth : month < 13) : handleGetMonthLength year month =
      entry monthLengthTable month (if month = 1 ∨ month = 2 then type else 0) := by
  unfold handleGetMonthLength heshvan kislev
  rw [resolveMonth_month _ _ hmonth]
  simp only [Option.bind_eq_bind, Option.bind_some, htype]
  by_cases hvaries : month = 1 ∨ month = 2
  · rw [if_pos hvaries, if_pos (by omega)]
  · rw [if_neg hvaries, if_neg (by omega)]

theorem computeMonthStart_eq {start : Int} (hlow : 1 ≤ year)
    (hhigh : year ≤ maxYear) (htype : yearType year = some type) (htype' : type < 3)
    (hmonth : month < 13) (hstart : monthStart (isLeapYear year) month type = some start)
    (hstart' : 0 ≤ start) (hstart'' : start ≤ 385) :
    handleComputeMonthStart year month = some (newYear year + start + 347997) := by
  have hfirst := newYear_mono (Int.le_refl 1) hlow (by omega)
  have hlast := newYear_mono hlow hhigh (by omega)
  rw [newYear_one] at hfirst
  rw [newYear_maxYear] at hlast
  unfold handleComputeMonthStart
  rw [resolveMonth_month _ _ hmonth]
  simp only [startOfYear_eq hlow (show year ≤ maxYear + 2 by omega), htype, hstart,
    leapYear_eq (show 0 ≤ year by omega) (show year ≤ maxYear + 2 by omega),
    Option.bind_eq_bind, Option.bind_some]
  by_cases hzero : month = 0
  · subst hzero
    rw [Int.natCast_zero, monthStart_zero _ htype', Option.some.injEq] at hstart
    rw [if_neg (by simp), checked32_eq (by omega) (by omega), ← hstart, Int.add_zero]
  · rw [if_pos (by omega), checked32_eq (by omega) (by omega), Option.bind_some,
      checked32_eq (by omega) (by omega)]

theorem computeFields_eq (hlow : 1 ≤ year)
    (hlast : julianDay ≤ maxJulian) (hfirst : 347998 ≤ julianDay)
    (hstart : newYear year < julianDay - 347997) (hend : julianDay - 347997 ≤ newYear (year + 1))
    (hhigh : year ≤ maxYear) (htype : yearType year = some type) : handleComputeFields julianDay =
      (findMonth (isLeapYear year) type (julianDay - 347997 - newYear year) 14 0).bind fun month =>
        if 14 ≤ month ∨ month ≤ 0 then some (.error .illegalArgumentError)
        else (monthStart (isLeapYear year) (month - 1) type).bind fun start =>
          some (.ok ⟨year, month - 1, julianDay - 347997 - newYear year - start,
            julianDay - 347997 - newYear year⟩) := by
  have hnotEarly := le_estimateYear (show 1 ≤ julianDay - 347997 by omega) hstart
  have hlate := estimateYear_le (show 1 ≤ julianDay - 347997 by omega) (by omega)
  obtain ⟨extra, hextra⟩ := Int.le.dest hnotEarly
  have hcorrect := correctYear_eq hlow (show 1 ≤ julianDay - 347997 by omega) (by omega) hstart hend
    ((estimateYear (julianDay - 347997)).toNat + 1) extra (by omega) (by omega)
  rw [hextra] at hcorrect
  unfold maxJulian at hlast
  unfold maxYear at hlate
  unfold handleComputeFields
  simp only [checked32_eq (show -0x80000000 ≤ julianDay - 347997 by omega) (by omega),
    checked32_eq (show -0x80000000 ≤ estimateYear (julianDay - 347997) by omega) (by omega),
    hcorrect, htype, leapYear_eq (show 0 ≤ year by omega) (show year ≤ maxYear + 2 by omega),
    Option.bind_eq_bind, Option.bind_some, Option.pure_def]
  rfl

theorem fieldsRight_of_le (hlow : 1 ≤ year)
    (hlast : julianDay ≤ maxJulian) (hfirst : 347998 ≤ julianDay)
    (hstart : newYear year < julianDay - 347997) (hend : julianDay - 347997 ≤ newYear (year + 1))
    (hhigh : year ≤ maxYear) (htype : yearType year = some type) (htype' : type < 3)
    (hday : julianDay - 347997 - newYear year ≤ totalDays (isLeapYear year) type) :
    FieldsRight julianDay := by
  have hcompute := computeFields_eq hlow hlast hfirst hstart hend hhigh htype
  obtain ⟨found, hfound, hrows, hbefore, hafter⟩ := findMonth_spec
    (isLeapYear year) (julianDay - 347997 - newYear year) htype' 14 0 rfl
    (Or.inl rfl)
  rw [Int.natCast_zero] at hfound
  rw [hfound, Option.bind_some] at hcompute
  have hfirstRow : found ≠ 0 := by
    rintro rfl
    obtain hlast | ⟨start, hzero, hle⟩ := hafter
    · omega
    rw [Int.natCast_zero, monthStart_zero _ htype', Option.some.injEq] at hzero
    omega
  have hlastRow : found ≠ 14 := by
    rintro rfl
    obtain hzero | ⟨start, htotal, hlt⟩ := hbefore
    · omega
    rw [monthStart_total _ htype', Option.some.injEq] at htotal
    omega
  obtain ⟨month, rfl⟩ := Nat.exists_eq_succ_of_ne_zero hfirstRow
  obtain ⟨start, next, length, hstartRow, hnextRow, hlength, hnext⟩ :=
    monthStart_succ (isLeapYear year) htype' (show month < 13 by omega)
  obtain ⟨start', hstart', hafterStart⟩ := hbefore.resolve_left hfirstRow
  rw [Nat.succ_sub_one, hstartRow, Option.some.injEq] at hstart'
  obtain ⟨next', hnext', hbeforeNext⟩ := hafter.resolve_left hlastRow
  rw [hnextRow, Option.some.injEq] at hnext'
  obtain ⟨start'', hstart'', hbounds⟩ := exists_monthStart (isLeapYear year) htype'
    (show month < 14 by omega)
  rw [hstartRow, Option.some.injEq] at hstart''
  have htotal : totalDays (isLeapYear year) type ≤ 385 := by
    unfold totalDays
    split <;> omega
  have hmonth : ((Nat.succ month : Nat) : Int) - 1 = month := by
    push_cast
    omega
  rw [if_neg (by omega), hmonth, hstartRow, Option.bind_some] at hcompute
  refine ⟨_, length, _, hcompute, ?_, ?_, ?_, ?_, computeMonthStart_eq hlow hhigh htype htype'
    (by omega) hstartRow (by omega) (by omega), ?_⟩
  · rw [monthLength_eq htype (by omega), hlength]
  · dsimp only
    omega
  · dsimp only
    split at hnext <;> omega
  · rintro ⟨hadar, hcommon⟩
    unfold adar1 at hadar
    rw [if_pos ⟨by dsimp only at hadar; omega, hcommon⟩] at hnext
    omega
  · dsimp only
    omega

/-- A day that the table does not have. -/
theorem not_fieldsRight_of_lt (hlow : 1 ≤ year)
    (hlast : julianDay ≤ maxJulian) (hfirst : 347998 ≤ julianDay)
    (hstart : newYear year < julianDay - 347997) (hend : julianDay - 347997 ≤ newYear (year + 1))
    (hhigh : year ≤ maxYear) (htype : yearType year = some type) (htype' : type < 3)
    (hday : totalDays (isLeapYear year) type < julianDay - 347997 - newYear year) :
    ¬ FieldsRight julianDay := by
  have hcompute := computeFields_eq hlow hlast hfirst hstart hend hhigh htype
  obtain ⟨found, hfound, hrows, hbefore, hafter⟩ := findMonth_spec
    (isLeapYear year) (julianDay - 347997 - newYear year) htype' 14 0 rfl
    (Or.inl rfl)
  rw [Int.natCast_zero] at hfound
  rw [hfound, Option.bind_some] at hcompute
  have hlastRow : found = 14 := by
    by_contra hother
    obtain ⟨start, hrow, hle⟩ := hafter.resolve_left hother
    obtain ⟨start', hrow', -, htotal⟩ := exists_monthStart (isLeapYear year) htype'
      (show found < 14 by omega)
    rw [hrow, Option.some.injEq] at hrow'
    omega
  subst hlastRow
  rw [if_pos (by simp)] at hcompute
  rintro ⟨fields, length, start, hfields, -⟩
  rw [hcompute] at hfields
  simp at hfields

theorem year_unique {year other d : Int} (hlow : 1 ≤ year) (hhigh : year ≤ maxYear)
    (hlow' : 1 ≤ other) (hhigh' : other ≤ maxYear) (hstart : newYear year < d)
    (hend : d ≤ newYear (year + 1)) (hstart' : newYear other < d)
    (hend' : d ≤ newYear (other + 1)) : other = year := by
  obtain hlt | heq | hgt := Int.lt_trichotomy other year
  · have := newYear_mono (show 1 ≤ other + 1 by omega) (show other + 1 ≤ year by omega) (by omega)
    omega
  · exact heq
  · have := newYear_mono (show 1 ≤ year + 1 by omega) (show year + 1 ≤ other by omega) (by omega)
    omega

theorem newYear_tuesday (htuesday : tuesdayLimit year = true) : newYear year = moladDay year := by
  obtain ⟨hleap, hwd, htime⟩ := tuesdayLimit_iff.mp htuesday
  unfold newYear
  rw [hwd, htime, hleap]
  simp [delay, hourParts]

theorem fieldsRight_iff (hfirst : 347998 ≤ julianDay)
    (hlast : julianDay ≤ maxJulian) : FieldsRight julianDay ↔
      ¬ ∃ year, 1 ≤ year ∧ year ≤ maxYear ∧ tuesdayLimit year = true ∧
        (julianDay = 347997 + moladDay year + 355 ∨ julianDay = 347997 + moladDay year + 356) := by
  have hmax := newYear_maxYear_succ
  obtain ⟨year, hlow, hhigh, hstart, hend⟩ := exists_year (show 1 ≤ julianDay - 347997 by omega)
    maxYear.toNat (by
      have : (1 : Int) + (maxYear.toNat : Int) = maxYear + 1 := by decide
      rw [this, hmax]
      unfold maxJulian at hlast
      omega)
  have hhigh : year ≤ maxYear := by
    have : (maxYear.toNat : Int) = maxYear := by decide
    omega
  obtain ⟨type, htype, htype', htuesday, hother⟩ :=
    yearType_spec hlow (show year ≤ maxYear + 1 by omega)
  by_cases hin : julianDay - 347997 - newYear year ≤ totalDays (isLeapYear year) type
  · refine iff_of_true (fieldsRight_of_le hlow hlast hfirst hstart hend hhigh htype htype' hin) ?_
    rintro ⟨limit, hlow', hhigh', hlimit, hday⟩
    have hnew := newYear_tuesday hlimit
    have hlength := newYear_succ_tuesday hlow' (by omega) hlimit
    have := year_unique hlow hhigh hlow' hhigh' hstart hend (by omega) (by omega)
    subst this
    have := htuesday hlimit
    omega
  refine iff_of_false (not_fieldsRight_of_lt hlow hlast hfirst hstart hend hhigh htype htype'
    (by omega)) (not_not.mpr ?_)
  by_cases hlimit : tuesdayLimit year = true
  · have hnew := newYear_tuesday hlimit
    have hlength := newYear_succ_tuesday hlow (by omega) hlimit
    have := htuesday hlimit
    exact ⟨year, hlow, hhigh, hlimit, by omega⟩
  · have := hother (by simpa using hlimit)
    omega

theorem startOfYear_maxYear : startOfYear maxYear = some 2130358324 ∧
    startOfYear (maxYear + 1) = some 2130358678 := by
  rw [startOfYear_eq (by decide) (by decide), startOfYear_eq (by decide) (by decide),
    newYear_maxYear, newYear_maxYear_succ]
  exact ⟨rfl, rfl⟩

/-- The years up to the one of the last day have a length of their kind, and the days have right
fields, with the exceptions that a new moon exactly at a limit makes. -/
theorem conversion_iff (year julianDay : Int) :
    (∃ start next, startOfYear maxYear = some start ∧ startOfYear (maxYear + 1) = some next ∧
      start < maxJulian - 347997 ∧ maxJulian - 347997 ≤ next) ∧
    (1 ≤ year → year ≤ maxYear →
      (LengthRight year ↔ tuesdayLimit year = false ∧ mondayLimit year = false)) ∧
    (347998 ≤ julianDay → julianDay ≤ maxJulian →
      (FieldsRight julianDay ↔
        ¬ ∃ year, 1 ≤ year ∧ year ≤ maxYear ∧ tuesdayLimit year = true ∧
          (julianDay = 347997 + moladDay year + 355 ∨
            julianDay = 347997 + moladDay year + 356))) :=
  ⟨⟨_, _, startOfYear_maxYear.1, startOfYear_maxYear.2, by decide, by decide⟩,
    lengthRight_iff, fieldsRight_iff⟩

theorem conversion_iff_leap : LengthRight 5776 :=
  ((conversion_iff 5776 347998).2.1 (by decide) (by decide)).mpr ⟨by decide, by decide⟩

/-- The year 193151 has 356 days, the last two of which have no fields. -/
theorem conversion_tuesday : ¬ ((∀ year, 1 ≤ year → year ≤ maxYear → LengthRight year) ∧
    ∀ julianDay, 347998 ≤ julianDay → julianDay ≤ maxJulian → FieldsRight julianDay) := by
  rintro ⟨hlength, -⟩
  obtain ⟨htuesday, -⟩ := (lengthRight_iff (by decide) (by decide)).mp
    (hlength 193151 (by decide) (by decide))
  exact absurd htuesday (by decide)

end Icu.Calendar.Hebrew
