import Icu.Calendar.HebrewMonths

/-!
# Adding months moves by existing months

Both loops of `add` go through the months that exist by `isLeapYear`.  They reach the month that the
leap rule asks for if no sum overflows and both rules count the same number of common years.
-/

namespace Icu.Calendar.Hebrew

open Lib

variable {d : Int × Int} {n k fuel : Nat} {month year amount : Int} {acrossAdar1 : Bool}

theorem iterate_next_first (year : Int) (hn : (n : Int) < monthsInYear year) :
    (next isLeapYear)^[n] (year, 0) =
    (year, if 5 ≤ n ∧ isLeapYear year = false then (n : Int) + 1 else n) := by
  have hle : n ≤ 12 := by
    unfold monthsInYear at hn
    split at hn <;> omega
  interval_cases n <;> cases hleap : isLeapYear year <;>
    simp_all [next, elul, adar1, monthsInYear, Function.iterate_succ_apply]

theorem iterate_prev_last (year : Int) (hn : (n : Int) < monthsInYear year) :
    (prev isLeapYear)^[n] (year, elul) =
      (year, if 7 ≤ n ∧ isLeapYear year = false then 11 - (n : Int) else 12 - (n : Int)) := by
  have hle : n ≤ 12 := by
    unfold monthsInYear at hn
    split at hn <;> omega
  interval_cases n <;> cases hleap : isLeapYear year <;>
    simp_all [prev, elul, adar1, monthsInYear, Function.iterate_succ_apply]

theorem iterate_next_year (year : Int) :
    (next isLeapYear)^[(monthsInYear year).toNat] (year, 0) = (year + 1, 0) := by
  cases hleap : isLeapYear year <;>
    simp [next, elul, adar1, monthsInYear, hleap, Function.iterate_succ_apply]

theorem iterate_prev_year (year : Int) :
    (prev isLeapYear)^[(monthsInYear year).toNat] (year, elul) = (year - 1, elul) := by
  cases hleap : isLeapYear year <;>
    simp [prev, elul, adar1, monthsInYear, hleap, Function.iterate_succ_apply]

theorem monthsInYear_ge (year : Int) : 12 ≤ monthsInYear year := by
  unfold monthsInYear
  split <;> omega

/-! ## The loops -/

theorem addLoop_stop (hsmall : (n : Int) < monthsInYear year) :
    addLoop (fuel + 1) true year n = some ((next isLeapYear)^[n] (year, 0)) := by
  rw [iterate_next_first year hsmall, addLoop]
  unfold monthsInYear at hsmall
  cases hleap : isLeapYear year with
  | true =>
    rw [hleap] at hsmall
    simp only [if_true] at hsmall
    simp [elul]
    omega
  | false =>
    rw [hleap] at hsmall
    simp only [Bool.false_eq_true, if_false] at hsmall
    by_cases hadar : 5 ≤ n
    · have hwrap := @int32_eq ((n : Int) + 1) (by omega) (by omega)
      simp [adar1, elul, hadar, hwrap]
      omega
    · simp [adar1, elul, hadar]
      omega

/-- The loop takes the months of a year away. -/
theorem addLoop_next (hk : n = k + (monthsInYear year).toNat)
    (hn : (n : Int) + (if isLeapYear year then 0 else 1) ≤ 0x7fffffff) :
    addLoop (fuel + 1) true year n = addLoop fuel true (int32 (year + 1)) k := by
  rw [addLoop]
  unfold monthsInYear at hk
  cases hleap : isLeapYear year with
  | true =>
    rw [hleap] at hk hn
    simp only [if_true] at hk hn
    have hwrap := @int32_eq ((n : Int) - 13) (by omega) (by omega)
    have hsub : (n : Int) - 13 = k := by omega
    simp only [Bool.not_true, Bool.and_false, Bool.false_eq_true, if_false, elul]
    rw [if_neg (by omega), show (12 : Int) + 1 = 13 by rfl, hwrap, hsub]
  | false =>
    rw [hleap] at hk hn
    simp only [Bool.false_eq_true, if_false] at hk hn
    have hwrap := @int32_eq ((n : Int) + 1) (by omega) (by omega)
    have hwrap' := @int32_eq ((n : Int) + 1 - 13) (by omega) (by omega)
    have hsub : (n : Int) + 1 - 13 = k := by omega
    have hadar : adar1 ≤ n := by
      unfold adar1
      omega
    simp only [Bool.not_false, Bool.and_true, decide_eq_true hadar, if_true, hwrap, elul]
    rw [if_neg (by omega), show (12 : Int) + 1 = 13 by rfl, hwrap', hsub]

theorem iterate_next_add_year (hk : n = k + (monthsInYear year).toNat) :
    (next isLeapYear)^[n] (year, 0) = (next isLeapYear)^[k] (year + 1, 0) := by
  rw [hk, Function.iterate_add_apply, iterate_next_year]

/-- Behind `ADAR_1` of the first year, the loop counts months from the start of a year. -/
theorem addLoop_eq : ∀ (fuel n : Nat) (year : Int), n < 12 * fuel →
    (n : Int) + (if isLeapYear year then 0 else 1) ≤ 0x7fffffff → -0x80000000 ≤ year →
    ((next isLeapYear)^[n] (year, 0)).1 ≤ 0x7fffffff →
    addLoop fuel true year n = some ((next isLeapYear)^[n] (year, 0))
  | 0, n, year, hfuel, _, _, _ => by omega
  | fuel + 1, n, year, hfuel, hn, hlow, hhigh => by
    by_cases hsmall : (n : Int) < monthsInYear year
    · exact addLoop_stop hsmall
    have hmonths := monthsInYear_ge year
    obtain ⟨k, hk⟩ : ∃ k : Nat, n = k + (monthsInYear year).toNat :=
      ⟨n - (monthsInYear year).toNat, by omega⟩
    rw [iterate_next_add_year hk] at hhigh ⊢
    have hyear := iterate_next_bounds isLeapYear (year + 1, 0) k
    rw [addLoop_next hk hn, @int32_eq (year + 1) (by omega) (by omega)]
    exact addLoop_eq fuel k (year + 1) (by omega) (by split <;> split at hn <;> omega) (by omega)
      hhigh

/-- A year above the largest one wraps around, and too few months are left to reach year 1. -/
theorem addLoop_wraps : ∀ (fuel n : Nat) (year : Int), n < 12 * fuel →
    (n : Int) + (if isLeapYear year then 0 else 1) ≤ 0x7fffffff → -0x80000000 ≤ year →
    year ≤ 0x7fffffff → 0x7fffffff < ((next isLeapYear)^[n] (year, 0)).1 →
    ∃ e, addLoop fuel true year n = some e ∧ e.1 < 1
  | 0, n, year, hfuel, _, _, _, _ => by omega
  | fuel + 1, n, year, hfuel, hn, hlow, hhigh, hwraps => by
    by_cases hsmall : (n : Int) < monthsInYear year
    · rw [iterate_next_first year hsmall] at hwraps
      omega
    have hmonths := monthsInYear_ge year
    obtain ⟨k, hk⟩ : ∃ k : Nat, n = k + (monthsInYear year).toNat :=
      ⟨n - (monthsInYear year).toNat, by omega⟩
    have hk' : ∀ year', (k : Int) + (if isLeapYear year' then 0 else 1) ≤ 0x7fffffff := by
      intro year'
      split <;> split at hn <;> omega
    rw [iterate_next_add_year hk] at hwraps
    rw [addLoop_next hk hn]
    rcases Int.lt_or_eq_of_le hhigh with hlt | rfl
    · rw [@int32_eq (year + 1) (by omega) (by omega)]
      exact addLoop_wraps fuel k (year + 1) (by omega) (hk' _) (by omega) (by omega) hwraps
    · have hyear := iterate_next_bounds isLeapYear (-0x80000000, 0) k
      dsimp only at hyear
      rw [show int32 (0x7fffffff + 1) = -0x80000000 by decide,
        addLoop_eq fuel k (-0x80000000) (by omega) (hk' _) (Int.le_refl _) (by omega)]
      exact ⟨_, rfl, by omega⟩

theorem subtractLoop_stop (hsmall : (n : Int) < monthsInYear year) :
    subtractLoop (fuel + 1) true year (12 - n) = some ((prev isLeapYear)^[n] (year, elul)) := by
  rw [iterate_prev_last year hsmall, subtractLoop]
  unfold monthsInYear at hsmall
  cases hleap : isLeapYear year with
  | true =>
    rw [hleap] at hsmall
    simp only [if_true] at hsmall
    simp
    omega
  | false =>
    rw [hleap] at hsmall
    simp only [Bool.false_eq_true, if_false] at hsmall
    have hwrap := @int32_eq (12 - (n : Int) - 1) (by omega) (by omega)
    by_cases hadar : 7 ≤ n
    · have hadar' : 12 - (n : Int) ≤ 5 := by omega
      have hnonneg : 1 ≤ 12 - (n : Int) := by omega
      simp [adar1, hadar, hadar', hwrap, hnonneg]
      omega
    · have hadar' : ¬ 12 - (n : Int) ≤ 5 := by omega
      simp [adar1, hadar, hadar']
      omega

theorem subtractLoop_prev (hk : n = k + (monthsInYear year).toNat)
    (hn : (n : Int) + (if isLeapYear year then 0 else 1) ≤ 0x8000000c) :
    subtractLoop (fuel + 1) true year (12 - n) =
      subtractLoop fuel true (int32 (year - 1)) (12 - k) := by
  rw [subtractLoop]
  unfold monthsInYear at hk
  cases hleap : isLeapYear year with
  | true =>
    rw [hleap] at hk hn
    simp only [if_true] at hk hn
    have hwrap := @int32_eq (12 - (n : Int) + 13) (by omega) (by omega)
    have hadd : 12 - (n : Int) + 13 = 12 - (k : Int) := by omega
    simp only [Bool.not_true, Bool.and_false, Bool.false_eq_true, if_false, elul]
    rw [if_neg (by omega), show (12 : Int) + 1 = 13 by rfl, hwrap, hadd]
  | false =>
    rw [hleap] at hk hn
    simp only [Bool.false_eq_true, if_false] at hk hn
    have hwrap := @int32_eq (12 - (n : Int) - 1) (by omega) (by omega)
    have hwrap' := @int32_eq (12 - (n : Int) - 1 + 13) (by omega) (by omega)
    have hadd : 12 - (n : Int) - 1 + 13 = 12 - (k : Int) := by omega
    have hadar : 12 - (n : Int) ≤ adar1 := by
      unfold adar1
      omega
    simp only [Bool.not_false, Bool.and_true, decide_eq_true hadar, if_true, hwrap, elul]
    rw [if_neg (by omega), show (12 : Int) + 1 = 13 by rfl, hwrap', hadd]

/-- Before `ADAR_1` of the last year, the loop counts months back from the end of a year. -/
theorem subtractLoop_eq : ∀ (fuel n : Nat) (year : Int), n < 12 * fuel →
    (n : Int) + (if isLeapYear year then 0 else 1) ≤ 0x8000000c → year ≤ 0x7fffffff →
    -0x80000000 ≤ ((prev isLeapYear)^[n] (year, elul)).1 →
    subtractLoop fuel true year (12 - n) = some ((prev isLeapYear)^[n] (year, elul))
  | 0, n, year, hfuel, _, _, _ => by omega
  | fuel + 1, n, year, hfuel, hn, hhigh, hlow => by
    by_cases hsmall : (n : Int) < monthsInYear year
    · exact subtractLoop_stop hsmall
    have hmonths := monthsInYear_ge year
    obtain ⟨k, hk⟩ : ∃ k : Nat, n = k + (monthsInYear year).toNat :=
      ⟨n - (monthsInYear year).toNat, by omega⟩
    have hiterate : (prev isLeapYear)^[n] (year, elul) =
        (prev isLeapYear)^[k] (year - 1, elul) := by
      rw [hk, Function.iterate_add_apply, iterate_prev_year]
    rw [hiterate] at hlow ⊢
    have hyear := iterate_prev_bounds isLeapYear (year - 1, elul) k
    rw [subtractLoop_prev hk hn, @int32_eq (year - 1) (by omega) (by omega)]
    exact subtractLoop_eq fuel k (year - 1) (by omega) (by split <;> split at hn <;> omega)
      (by omega) hlow

/-- In a leap year it does not matter where the month started. -/
theorem addLoop_leap (hleap : isLeapYear year = true) :
    addLoop fuel acrossAdar1 year month = addLoop fuel true year month := by
  cases fuel with
  | zero => rfl
  | succ fuel => simp [addLoop, hleap]

theorem subtractLoop_leap (hleap : isLeapYear year = true) :
    subtractLoop fuel acrossAdar1 year month = subtractLoop fuel true year month := by
  cases fuel with
  | zero => rfl
  | succ fuel => simp [subtractLoop, hleap]

theorem addLoop_behind (hleap : isLeapYear year = false)
    (hmonth : 6 ≤ month) (hhigh : month ≤ 0x7fffffff) :
    addLoop fuel false year month = addLoop fuel true year (month - 1) := by
  cases fuel with
  | zero => rfl
  | succ fuel =>
    have hwrap := @int32_eq month (by omega) (by omega)
    have hadar : adar1 ≤ month - 1 := by
      unfold adar1
      omega
    simp only [addLoop, hleap, decide_eq_true hadar, Bool.and_true, Bool.not_false, if_true,
      Bool.false_and, Bool.false_eq_true, if_false, Int.sub_add_cancel, hwrap]

theorem subtractLoop_before (hleap : isLeapYear year = false)
    (hmonth : month ≤ 4) (hlow : -0x80000000 ≤ month) :
    subtractLoop fuel false year month = subtractLoop fuel true year (month + 1) := by
  cases fuel with
  | zero => rfl
  | succ fuel =>
    have hwrap := @int32_eq month (by omega) (by omega)
    have hadar : month + 1 ≤ adar1 := by
      unfold adar1
      omega
    simp only [subtractLoop, hleap, decide_eq_true hadar, Bool.and_true, Bool.not_false, if_true,
      Bool.false_and, Bool.false_eq_true, if_false, Int.add_sub_cancel, hwrap]

/-! ## The first year -/

def monthsBefore (year month : Int) : Nat :=
  (month - if adar1 ≤ month ∧ isLeapYear year = false then 1 else 0).toNat

def monthsBehind (year month : Int) : Nat :=
  (elul - month - if month ≤ adar1 ∧ isLeapYear year = false then 1 else 0).toNat

/-- The month of the first year that the code computes, where it starts before `ADAR_1`. -/
def unwrappedMonth (year month amount : Int) : Int :=
  month + amount + if month < adar1 ∧ isLeapYear year = false then 1 else 0

section

variable (hmonth : 0 ≤ month) (hmonth' : month ≤ elul)
include hmonth hmonth'

/-- Also the missing `ADAR_1` of a common year is followed by the month behind it. -/
theorem next_eq_iterate : next isLeapYear (year, month) =
    (next isLeapYear)^[monthsBefore year month + 1] (year, 0) := by
  unfold elul at hmonth'
  have hsmall : (monthsBefore year month : Int) < monthsInYear year := by
    unfold monthsBefore monthsInYear adar1
    cases isLeapYear year with
    | true =>
      simp only [Bool.true_eq_false, and_false, if_false, if_true]
      omega
    | false =>
      simp only [and_true, Bool.false_eq_true, if_false]
      split <;> omega
  rw [Function.iterate_succ_apply', iterate_next_first year hsmall]
  interval_cases month <;> cases hleap : isLeapYear year <;>
    simp [monthsBefore, next, adar1, elul, hleap]

theorem prev_eq_iterate : prev isLeapYear (year, month) =
    (prev isLeapYear)^[monthsBehind year month + 1] (year, elul) := by
  unfold elul at hmonth'
  have hsmall : (monthsBehind year month : Int) < monthsInYear year := by
    unfold monthsBehind monthsInYear adar1 elul
    cases isLeapYear year with
    | true =>
      simp only [Bool.true_eq_false, and_false, if_false, if_true]
      omega
    | false =>
      simp only [and_true, Bool.false_eq_true, if_false]
      split <;> omega
  rw [Function.iterate_succ_apply', iterate_prev_last year hsmall]
  interval_cases month <;> cases hleap : isLeapYear year <;>
    simp [monthsBehind, prev, adar1, elul, hleap]

theorem move_pos (hpos : 0 < amount) : move isLeapYear amount (year, month) =
    (next isLeapYear)^[amount.toNat + monthsBefore year month] (year, 0) := by
  obtain ⟨n, hn⟩ := Nat.exists_eq_add_of_lt (show 0 < amount.toNat by omega)
  rw [move, if_pos (Int.le_of_lt hpos), show amount.toNat = n + 1 by omega,
    Function.iterate_succ_apply, next_eq_iterate hmonth hmonth', ← Function.iterate_add_apply,
    show n + (monthsBefore year month + 1) = n + 1 + monthsBefore year month by omega]

theorem move_neg (hneg : amount < 0) : move isLeapYear amount (year, month) =
    (prev isLeapYear)^[amount.natAbs + monthsBehind year month] (year, elul) := by
  obtain ⟨n, hn⟩ := Nat.exists_eq_add_of_lt (show 0 < amount.natAbs by omega)
  rw [move, if_neg (by omega), show (-amount).toNat = n + 1 by omega,
    show amount.natAbs = n + 1 by omega, Function.iterate_succ_apply,
    prev_eq_iterate hmonth hmonth', ← Function.iterate_add_apply,
    show n + (monthsBehind year month + 1) = n + 1 + monthsBehind year month by omega]

theorem addMonth_eq_addLoop (hpos : 0 < amount)
    (hfits : unwrappedMonth year month amount ≤ 0x7fffffff) :
    addMonth year month amount = addLoop (amount.toNat + 14) true year
      (amount.toNat + monthsBefore year month : Nat) ∧
    ((amount.toNat + monthsBefore year month : Nat) : Int) + (if isLeapYear year then 0 else 1) ≤
      0x7fffffff ∧ monthsBefore year month ≤ 12 := by
  unfold elul at hmonth'
  have hsum : month + amount ≤ 0x7fffffff := by
    unfold unwrappedMonth at hfits
    split at hfits <;> omega
  rw [addMonth, if_pos hpos, int32_eq (by omega) hsum]
  unfold unwrappedMonth adar1 at *
  unfold monthsBefore adar1
  cases hleap : isLeapYear year with
  | true =>
    simp only [Bool.true_eq_false, and_false, if_false, if_true]
    rw [addLoop_leap hleap,
      show month + amount = ((amount.toNat + (month - 0).toNat : Nat) : Int) by omega]
    exact ⟨rfl, by omega, by omega⟩
  | false =>
    simp only [hleap, and_true, Bool.false_eq_true, if_false] at hfits ⊢
    by_cases hbehind : 5 ≤ month
    · rw [if_pos hbehind, decide_eq_false (by omega), addLoop_behind hleap (by omega) hsum,
        show month + amount - 1 = ((amount.toNat + (month - 1).toNat : Nat) : Int) by omega]
      exact ⟨rfl, by omega, by omega⟩
    · rw [if_pos (by omega)] at hfits
      rw [if_neg hbehind, decide_eq_true (by omega),
        show month + amount = ((amount.toNat + (month - 0).toNat : Nat) : Int) by omega]
      exact ⟨rfl, by omega, by omega⟩

theorem addMonth_pos (hlow : -0x80000000 ≤ year) (hpos : 0 < amount)
    (hfits : unwrappedMonth year month amount ≤ 0x7fffffff)
    (hyear : (move isLeapYear amount (year, month)).1 ≤ 0x7fffffff) :
    addMonth year month amount = some (move isLeapYear amount (year, month)) := by
  obtain ⟨heq, hn, hbefore⟩ := @addMonth_eq_addLoop month year amount hmonth hmonth' hpos hfits
  rw [move_pos hmonth hmonth' hpos] at hyear ⊢
  rw [heq]
  exact addLoop_eq _ _ _ (by omega) hn hlow hyear

theorem addMonth_wraps (hlow : -0x80000000 ≤ year) (hhigh : year ≤ 0x7fffffff)
    (hpos : 0 < amount) (hfits : unwrappedMonth year month amount ≤ 0x7fffffff)
    (hyear : 0x7fffffff < (move isLeapYear amount (year, month)).1) :
    ∃ e, addMonth year month amount = some e ∧ e.1 < 1 := by
  obtain ⟨heq, hn, hbefore⟩ := @addMonth_eq_addLoop month year amount hmonth hmonth' hpos hfits
  rw [move_pos hmonth hmonth' hpos] at hyear
  rw [heq]
  exact addLoop_wraps _ _ _ (by omega) hn hlow hhigh hyear

theorem addMonth_zero : addMonth year month 0 = some (year, month) := by
  unfold elul at hmonth'
  have hwrap := @int32_eq month (by omega) (by omega)
  have hcond : ¬ (adar1 < month ∧ month ≤ adar1) := by omega
  rw [addMonth, if_neg (by decide), Int.add_zero, hwrap, subtractLoop]
  simp only [Bool.and_eq_true, decide_eq_true_eq, hcond, false_and, if_false]
  rw [if_pos hmonth]

theorem addMonth_neg (hhigh : year ≤ 0x7fffffff) (hneg : amount < 0)
    (hamount : -0x80000000 ≤ amount)
    (hyear : -0x80000000 ≤ (move isLeapYear amount (year, month)).1) :
    addMonth year month amount = some (move isLeapYear amount (year, month)) := by
  rw [move_neg hmonth hmonth' hneg] at hyear ⊢
  unfold elul at hmonth'
  rw [addMonth, if_neg (by omega), int32_eq (by omega) (by omega)]
  unfold monthsBehind at *
  unfold adar1 elul at *
  cases hleap : isLeapYear year with
  | true =>
    simp only [hleap, Bool.true_eq_false, and_false, if_false] at hyear ⊢
    rw [subtractLoop_leap hleap,
      show month + amount = 12 - ((amount.natAbs + (12 - month - 0).toNat : Nat) : Int) by omega]
    exact subtractLoop_eq _ _ _ (by omega) (by rw [if_pos hleap]; omega) hhigh hyear
  | false =>
    simp only [hleap, and_true] at hyear ⊢
    by_cases hbefore : month ≤ 5
    · rw [if_pos hbefore] at hyear ⊢
      rw [decide_eq_false (by omega), subtractLoop_before hleap (by omega) (by omega),
        show month + amount + 1 = 12 - ((amount.natAbs + (12 - month - 1).toNat : Nat) : Int) by
          omega]
      exact subtractLoop_eq _ _ _ (by omega)
        (by simp only [hleap, Bool.false_eq_true, if_false]; omega) hhigh hyear
    · rw [if_neg hbefore] at hyear ⊢
      rw [decide_eq_true (by omega),
        show month + amount = 12 - ((amount.natAbs + (12 - month - 0).toNat : Nat) : Int) by omega]
      exact subtractLoop_eq _ _ _ (by omega)
        (by simp only [hleap, Bool.false_eq_true, if_false]; omega) hhigh hyear

theorem addMonth_overflow (hpos : 0 < amount) (hamount : amount ≤ 0x7fffffff)
    (hover : 0x7fffffff < unwrappedMonth year month amount) :
    ∃ m, addMonth year month amount = some (year, m) ∧ m < 0 := by
  rw [addMonth, if_pos hpos, addLoop]
  unfold unwrappedMonth at hover
  unfold adar1 elul at *
  by_cases hsum : month + amount ≤ 0x7fffffff
  · rw [int32_eq (by omega) hsum]
    have hcond : month < 5 ∧ isLeapYear year = false := by
      by_contra hcon
      rw [if_neg hcon] at hover
      omega
    have hmin : int32 (month + amount + 1) = -0x80000000 := by
      rw [if_pos hcond] at hover
      rw [show month + amount + 1 = 0x80000000 by omega]
      decide
    refine ⟨-0x80000000, ?_, by decide⟩
    have hfive : 5 ≤ month + amount := by omega
    simp [hcond.1, hcond.2, hfive, hmin]
  · have hwrap : int32 (month + amount) = month + amount - 0x100000000 := by
      unfold int32
      rw [Int.bmod_def]
      split <;> omega
    refine ⟨month + amount - 0x100000000, ?_, by omega⟩
    have hneg : ¬ 5 ≤ month + amount - 0x100000000 := by omega
    rw [hwrap]
    simp [hneg]
    omega

end

/-! ## The result -/

/-- The sums before the loop and the years fit into an `int32_t`, and by `isLeapYear` the month that
the leap rule asks for exists and as many common years are passed. -/
structure Meets (d : Int × Int) (amount : Int) : Prop where
  month : 0 < amount → unwrappedMonth d.1 d.2 amount ≤ 0x7fffffff
  year : (move leapRule amount d).1 ≤ 0x7fffffff
  leap : amount ≠ 0 → MonthExists isLeapYear (move leapRule amount d) ∧
    (commonYears isLeapYear d (move leapRule amount d)).card =
      (commonYears leapRule d (move leapRule amount d)).card

theorem commonYears_congr {leap leap' : Int → Bool} {e : Int × Int}
    (h : ∀ y ∈ Finset.uIcc d.1 e.1, leap y = leap' y) :
    commonYears leap d e = commonYears leap' d e :=
  Finset.filter_congr fun y hy => by rw [h y hy]

/-- Up to the last year for which `isLeapYear` does not overflow, only the month can. -/
theorem meets_of_years (hexists : MonthExists leapRule d)
    (hstart : -178956970 ≤ d.1 ∧ d.1 ≤ 178956969)
    (htarget : -178956970 ≤ (move leapRule amount d).1 ∧ (move leapRule amount d).1 ≤ 178956969)
    (hmonth : 0 < amount → unwrappedMonth d.1 d.2 amount ≤ 0x7fffffff) : Meets d amount where
  month := hmonth
  year := by omega
  leap _ := by
    have hagree : ∀ y ∈ Finset.uIcc d.1 (move leapRule amount d).1, isLeapYear y = leapRule y := by
      intro y hy
      rw [Finset.mem_uIcc] at hy
      exact isLeapYear_eq_leapRule (by omega) (by omega)
    obtain ⟨hlow, hhigh, hadar⟩ := exists_move hexists amount
    refine ⟨⟨hlow, hhigh, fun heq => ?_⟩, by rw [commonYears_congr hagree]⟩
    rw [hagree _ Finset.right_mem_uIcc]
    exact hadar heq

theorem addMonth_eq_some_iff (hlow : -0x80000000 ≤ year) (hhigh : year ≤ 0x7fffffff)
    (hexists : MonthExists leapRule (year, month)) (hamount : -0x80000000 ≤ amount)
    (hamount' : amount ≤ 0x7fffffff) (htarget : 1 ≤ (move leapRule amount (year, month)).1) :
    addMonth year month amount = some (move leapRule amount (year, month)) ↔
      Meets (year, month) amount := by
  have hexists' := exists_move hexists amount
  obtain ⟨hmonth, hmonth', -⟩ := hexists
  dsimp only at hmonth hmonth'
  rcases Int.lt_trichotomy amount 0 with hneg | rfl | hpos
  · -- the years fall, so that they fit
    have hyear := iterate_prev_bounds isLeapYear (year, month) (-amount).toNat
    have hyear' := iterate_prev_bounds leapRule (year, month) (-amount).toNat
    have hcode : move isLeapYear amount (year, month) =
        (prev isLeapYear)^[(-amount).toNat] (year, month) := if_neg (by omega)
    have hrule : move leapRule amount (year, month) =
        (prev leapRule)^[(-amount).toNat] (year, month) := if_neg (by omega)
    dsimp only at hyear hyear'
    rw [← hcode] at hyear
    rw [← hrule] at hyear'
    rw [addMonth_neg hmonth hmonth' hhigh hneg hamount (by omega), Option.some.injEq,
      move_eq_move_iff hmonth hmonth' (by omega) rfl]
    exact ⟨fun h => ⟨fun hpos => by omega, by omega, fun _ => h⟩, fun h => h.leap (by omega)⟩
  · rw [addMonth_zero hmonth hmonth']
    exact ⟨fun _ => ⟨fun hpos => absurd hpos (by decide), hhigh, fun hne => absurd rfl hne⟩,
      fun _ => rfl⟩
  · by_cases hfits : unwrappedMonth year month amount ≤ 0x7fffffff
    · by_cases hyear : (move isLeapYear amount (year, month)).1 ≤ 0x7fffffff
      · rw [addMonth_pos hmonth hmonth' hlow hpos hfits hyear, Option.some.injEq]
        rw [move_eq_move_iff hmonth hmonth' (Int.ne_of_gt hpos) rfl]
        refine ⟨fun h => ?_, fun h => h.leap (Int.ne_of_gt hpos)⟩
        have heq := (move_eq_move_iff hmonth hmonth' (Int.ne_of_gt hpos) rfl).mpr h
        exact ⟨fun _ => hfits, heq ▸ hyear, fun _ => h⟩
      · -- the wrapped year is below year 1
        obtain ⟨e, he, hsmall⟩ := addMonth_wraps hmonth hmonth' hlow hhigh hpos hfits (by omega)
        rw [he, Option.some.injEq]
        refine ⟨fun heq => by rw [heq] at hsmall; omega, fun h => ?_⟩
        have heq := (move_eq_move_iff hmonth hmonth' (Int.ne_of_gt hpos) rfl).mpr
          (h.leap (Int.ne_of_gt hpos))
        exact absurd (heq ▸ h.year) hyear
    · obtain ⟨m, hm, hneg⟩ := addMonth_overflow hmonth hmonth' hpos hamount' (not_le.mp hfits)
      rw [hm, Option.some.injEq]
      refine ⟨fun heq => ?_, fun h => absurd (h.month hpos) hfits⟩
      rw [← heq] at hexists'
      exact absurd hexists'.1 (by dsimp only; omega)

/-- The result is the existing month that lies the amount away, and the negated amount leads back
where it is an `int32_t` and the date is not before year 1. -/
def AddsMonths (year month amount : Int) : Prop :=
  addMonth year month amount = some (move leapRule amount (year, month)) ∧
    (-0x80000000 < amount → 1 ≤ year →
      (addMonth year month amount).bind (fun d => addMonth d.1 d.2 (-amount)) = some (year, month))

/-- `add(UCAL_MONTH, amount)` moves by existing months, where both ways meet the condition. -/
theorem addMonth_iff {year month amount : Int} (hlow : -0x80000000 ≤ year)
    (hhigh : year ≤ 0x7fffffff) (hexists : MonthExists leapRule (year, month))
    (hamount : -0x80000000 ≤ amount) (hamount' : amount ≤ 0x7fffffff)
    (htarget : 1 ≤ (move leapRule amount (year, month)).1) :
    MonthExists leapRule (move leapRule amount (year, month)) ∧
      move leapRule (-amount) (move leapRule amount (year, month)) = (year, month) ∧
      (AddsMonths year month amount ↔ Meets (year, month) amount ∧
        (-0x80000000 < amount → 1 ≤ year → Meets (move leapRule amount (year, month))
          (-amount))) := by
  have hexists' := exists_move hexists amount
  have hback := move_neg_move hexists amount
  refine ⟨hexists', hback, ?_⟩
  unfold AddsMonths
  rw [addMonth_eq_some_iff hlow hhigh hexists hamount hamount' htarget]
  refine and_congr_right fun hmeets => forall₂_congr fun hmin hyear => ?_
  rw [(addMonth_eq_some_iff hlow hhigh hexists hamount hamount' htarget).mpr hmeets,
    Option.bind_some]
  have hreturn := @addMonth_eq_some_iff (move leapRule amount (year, month)).2
    (move leapRule amount (year, month)).1 (-amount) (by omega) hmeets.year hexists' (by omega)
    (by omega) (by rw [hback]; exact hyear)
  rwa [hback] at hreturn

/-- From the end of 5775, over `ADAR_1` of the leap year 5776, to its month `NISAN`, and back. -/
theorem addMonth_iff_nisan : AddsMonths 5775 12 8 ∧ addMonth 5775 12 8 = some (5776, 7) := by
  have hexists : MonthExists leapRule (5775, 12) := ⟨by decide, by decide, by decide⟩
  have hmove : move leapRule 8 (5775, 12) = (5776, 7) := by decide
  refine ⟨?_, by decide⟩
  refine (addMonth_iff (by decide) (by decide) hexists (by decide) (by decide)
    (by rw [hmove]; decide)).2.2.mpr ⟨?_, fun _ _ => ?_⟩
  · exact meets_of_years hexists (by decide) (by rw [hmove]; decide) fun _ => by decide
  · rw [hmove]
    exact meets_of_years ⟨by decide, by decide, by decide⟩ (by decide) (by decide)
      fun hpos => absurd hpos (by decide)

/-- The largest amount overflows, and leaves a month that does not exist. -/
theorem addMonth_largest : ¬ ∀ year month amount : Int, -0x80000000 ≤ year → year ≤ 0x7fffffff →
    MonthExists leapRule (year, month) → -0x80000000 ≤ amount → amount ≤ 0x7fffffff →
    1 ≤ (move leapRule amount (year, month)).1 → AddsMonths year month amount := by
  intro h
  have hexists : MonthExists leapRule (5775, 12) := ⟨by decide, by decide, by decide⟩
  have hyear := (iterate_next_bounds leapRule (5775, 12) 0x7fffffff).1
  have htarget : 1 ≤ (move leapRule 0x7fffffff (5775, 12)).1 := by
    rw [move, if_pos (by decide)]
    exact Int.le_trans (by decide) hyear
  have heq := (h 5775 12 0x7fffffff (by decide) (by decide) hexists (by decide) (by decide)
    htarget).1
  obtain ⟨m, hm, hneg⟩ := @addMonth_overflow 12 5775 0x7fffffff (by decide)
    (by decide) (show (0 : Int) < 0x7fffffff by decide) (Int.le_refl _) (by decide)
  have hmonth := (exists_move hexists 0x7fffffff).1
  rw [heq, Option.some.injEq] at hm
  rw [hm] at hmonth
  exact absurd hmonth (by dsimp only; omega)

/-- `ADAR_1` of the leap year 178956970 is skipped, as its `year * 12 + 17` overflows. -/
example : move leapRule 1 (178956970, 4) = (178956970, 5) ∧
    addMonth 178956970 4 1 = some (178956970, 6) := by decide

end Icu.Calendar.Hebrew
