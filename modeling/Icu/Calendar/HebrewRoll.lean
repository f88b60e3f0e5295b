import Icu.Calendar.HebrewMonths

/-!
# Rolling months through a year

A roll moves in the list of the months of a year, from its end to its start.  The code makes up for
the missing `ADAR_1` before the end of the year, but not after it.
-/

namespace Icu.Calendar.Hebrew

variable {month year : Int}

def yearMonths (year : Int) : List Int :=
  if isLeapYear year then [0, 1, 2, 3, 4, 5, 6, 7, 8, 9, 10, 11, 12]
  else [0, 1, 2, 3, 4, 6, 7, 8, 9, 10, 11, 12]

def position (year month : Int) : Int :=
  (yearMonths year).idxOf month

theorem mem_yearMonths : month ∈ yearMonths year ↔ MonthExists isLeapYear (year, month) := by
  unfold yearMonths MonthExists elul adar1
  cases isLeapYear year <;> simp <;> omega

theorem position_leap (hleap : isLeapYear year = true)
    (hexists : MonthExists isLeapYear (year, month)) : position year month = month := by
  obtain ⟨hlow, hhigh, -⟩ := hexists
  dsimp only [elul] at *
  simp only [position, yearMonths, hleap, if_true]
  interval_cases month <;> rfl

theorem position_common (hleap : isLeapYear year = false)
    (hexists : MonthExists isLeapYear (year, month)) :
    position year month = if month < adar1 then month else month - 1 := by
  obtain ⟨hlow, hhigh, hadar⟩ := hexists
  dsimp only [elul] at *
  have hne : month ≠ 5 := fun heq => by simp [hadar heq] at hleap
  simp only [position, yearMonths, hleap, Bool.false_eq_true, if_false]
  interval_cases month <;> first | contradiction | rfl

/-- The new month is the one that the amount leads to in the list of the months. -/
def RollsTo (year month amount newMonth : Int) : Prop :=
  newMonth ∈ yearMonths year ∧
    position year newMonth = (position year month + amount) % monthsInYear year

def PassesEnd (year month amount : Int) : Prop :=
  (position year month + amount.tmod (monthsInYear year)) / 12 ≠ 0

/-- The roll passes the place of the missing `ADAR_1`, which is before position 5. -/
def PassesAdar1 (year month amount : Int) : Prop :=
  (position year month + amount.tmod (monthsInYear year) + 7) / 12 ≠ (position year month + 7) / 12

instance (year month amount : Int) : Decidable (PassesEnd year month amount) := by
  unfold PassesEnd
  infer_instance

instance (year month amount : Int) : Decidable (PassesAdar1 year month amount) := by
  unfold PassesAdar1
  infer_instance

theorem exists_remainder (amount : Int) {n : Int} (hn : 0 < n) : ∃ r, amount.tmod n = r ∧
    (∀ p, (p + amount) % n = (p + r) % n) ∧ (-amount).tmod n = -r ∧ -n < r ∧ r < n ∧
      (0 < r → 0 < amount) ∧ (r < 0 → amount < 0) := by
  refine ⟨amount.tmod n, rfl, fun p => ?_, Int.neg_tmod .., ?_, Int.tmod_lt_of_pos amount hn, ?_,
    ?_⟩
  · have hdiv := Int.tmod_add_mul_tdiv amount n
    nth_rewrite 1 [← hdiv]
    rw [← Int.add_assoc, Int.add_mul_emod_self_left]
  · have := Int.tmod_lt_of_pos (-amount) hn
    rw [Int.neg_tmod] at this
    omega
  · intro hpos
    by_contra hneg
    have := Int.tmod_nonneg n (show 0 ≤ -amount by omega)
    rw [Int.neg_tmod] at this
    omega
  · intro hneg
    by_contra hpos
    have := Int.tmod_nonneg n (show 0 ≤ amount by omega)
    omega

theorem rollMonth_leap (hleap : isLeapYear year = true) (hlow : 0 ≤ month)
    (amount : Int) : rollMonth year month amount = (month + amount.tmod 13) % 13 := by
  obtain ⟨r, hr, -, -, hmin, -⟩ := exists_remainder amount (show (0 : Int) < 13 by decide)
  simp only [rollMonth, monthsInYear, hleap, if_true, hr]
  rw [Int.tmod_eq_emod_of_nonneg (by omega)]
  omega

theorem rollsCyclically_leap (hleap : isLeapYear year = true)
    (hexists : MonthExists isLeapYear (year, month)) (amount : Int) :
    RollsTo year month amount (rollMonth year month amount) ∧
      rollMonth year month (monthsInYear year) = month ∧
      rollMonth year (rollMonth year month amount) (-amount) = month := by
  obtain ⟨hlow, hhigh, -⟩ := hexists
  obtain ⟨r, hr, hmod, hneg, hmin, hmax, -⟩ :=
    exists_remainder amount (show (0 : Int) < 13 by decide)
  dsimp only [elul] at hlow hhigh
  have hnew := rollMonth_leap hleap hlow amount
  rw [hr] at hnew
  have hback := rollMonth_leap hleap (show 0 ≤ rollMonth year month amount by omega) (-amount)
  have hyear := rollMonth_leap hleap hlow 13
  have hexists' : MonthExists isLeapYear (year, rollMonth year month amount) :=
    ⟨by dsimp only; omega, by dsimp only [elul]; omega, fun _ => hleap⟩
  refine ⟨⟨mem_yearMonths.mpr hexists', ?_⟩, ?_, ?_⟩
  · rw [position_leap hleap hexists', position_leap hleap ⟨hlow, hhigh, fun _ => hleap⟩]
    simp only [monthsInYear, hleap, if_true]
    rw [hmod, hnew]
  · simp only [monthsInYear, hleap, if_true]
    rw [hyear, Int.tmod_self]
    omega
  · rw [hback, hneg, hnew]
    omega

/-! ## Common years -/

section

variable (hleap : isLeapYear year = false)
include hleap

theorem rollMonth_common (hlow : 0 ≤ month)
    (hhigh : month ≤ 12) (amount : Int) : rollMonth year month amount =
      (month + amount.tmod 12 +
        if month < 5 ∧ 5 ≤ month + amount.tmod 12 then 1
        else if 5 < month ∧ month + amount.tmod 12 ≤ 5 then -1 else 0) % 13 := by
  obtain ⟨r, hr, -, -, hmin, hmax, hpos, hneg⟩ :=
    exists_remainder amount (show (0 : Int) < 12 by decide)
  simp only [rollMonth, monthsInYear, hleap, Bool.false_eq_true, if_false, adar1, hr]
  rw [Int.tmod_eq_emod_of_nonneg (by split_ifs <;> omega)]
  split_ifs <;> omega

theorem rollMonth_before (hlow : 0 ≤ month) (hhigh : month < 5) (amount : Int) :
    rollMonth year month amount =
      if month + amount.tmod 12 < 0 then month + amount.tmod 12 + 13
      else if month + amount.tmod 12 < 5 then month + amount.tmod 12
      else if month + amount.tmod 12 < 12 then month + amount.tmod 12 + 1
      else month + amount.tmod 12 - 12 := by
  obtain ⟨r, hr, -, -, hmin, hmax, -⟩ := exists_remainder amount (show (0 : Int) < 12 by decide)
  rw [rollMonth_common hleap hlow (by omega), hr]
  simp only [hhigh, not_lt_of_gt hhigh, true_and, false_and, if_false]
  split_ifs <;> omega

theorem rollMonth_behind (hlow : 5 < month) (hhigh : month ≤ 12) (amount : Int) :
    rollMonth year month amount =
      if month + amount.tmod 12 ≤ 0 then month + amount.tmod 12 + 12
      else if month + amount.tmod 12 ≤ 5 then month + amount.tmod 12 - 1
      else if month + amount.tmod 12 < 13 then month + amount.tmod 12
      else month + amount.tmod 12 - 13 := by
  obtain ⟨r, hr, -, -, hmin, hmax, -⟩ := exists_remainder amount (show (0 : Int) < 12 by decide)
  rw [rollMonth_common hleap (by omega) hhigh, hr]
  simp only [hlow, not_lt_of_gt hlow, true_and, false_and, if_false]
  split_ifs <;> omega

theorem rollsTo_iff (hexists : MonthExists isLeapYear (year, month)) (amount : Int) :
    RollsTo year month amount (rollMonth year month amount) ↔
      rollMonth year month amount ≠ 5 ∧
        (if rollMonth year month amount < 5 then rollMonth year month amount
          else rollMonth year month amount - 1) =
        ((if month < 5 then month else month - 1) + amount) % 12 := by
  rw [RollsTo, position_common hleap hexists,
    show (monthsInYear year : Int) = 12 by simp [monthsInYear, hleap]]
  have hmem : rollMonth year month amount ∈ yearMonths year ↔ rollMonth year month amount ≠ 5 := by
    rw [mem_yearMonths, rollMonth_common hleap hexists.1 hexists.2.1]
    refine ⟨fun h heq => ?_, fun h => ⟨?_, ?_, fun heq => absurd heq h⟩⟩
    · simp [h.2.2 heq] at hleap
    · exact Int.emod_nonneg _ (by decide)
    · exact Int.le_of_lt_add_one (Int.emod_lt_of_pos _ (by decide))
  rw [hmem]
  refine and_congr_right fun hne => ?_
  rw [position_common hleap (mem_yearMonths.mp (hmem.mpr hne))]
  rfl

/-- The new month is right, unless the roll passes the end of the year first and the place of the
missing month behind it. -/
theorem rollsTo_common (hexists : MonthExists isLeapYear (year, month)) (amount : Int) :
    RollsTo year month amount (rollMonth year month amount) ↔
      ¬ (adar1 < month ∧ 18 ≤ month + amount.tmod 12 ∨
        month < adar1 ∧ month + amount.tmod 12 < -7) := by
  obtain ⟨r, hr, hmod, -, hmin, hmax, -⟩ :=
    exists_remainder amount (show (0 : Int) < 12 by decide)
  rw [rollsTo_iff hleap hexists, hmod]
  obtain ⟨hlow, hhigh, hadar⟩ := hexists
  dsimp only [elul] at hlow hhigh
  have hne : month ≠ 5 := fun heq => by simp [hadar heq] at hleap
  unfold adar1
  rcases lt_or_gt_of_ne hne with hbefore | hbehind
  · rw [rollMonth_before hleap hlow hbefore, hr]
    simp only [hbefore, not_lt_of_gt hbefore, if_true, true_and, false_and, false_or]
    split_ifs <;> omega
  · have hbehind : 5 < month := hbehind
    rw [rollMonth_behind hleap hbehind hhigh, hr]
    simp only [hbehind, not_lt_of_gt hbehind, if_false, true_and, false_and, or_false]
    split_ifs <;> omega

/-- The way back is right for a right new month, unless it passes both places in the other order. -/
theorem return_common (hexists : MonthExists isLeapYear (year, month)) (amount : Int)
    (hcond : ¬ (adar1 < month ∧ 18 ≤ month + amount.tmod 12 ∨
      month < adar1 ∧ month + amount.tmod 12 < -7)) :
    rollMonth year (rollMonth year month amount) (-amount) = month ↔
      ¬ (month < adar1 ∧ 12 ≤ month + amount.tmod 12 ∨
        adar1 < month ∧ month + amount.tmod 12 ≤ 0) := by
  obtain ⟨r, hr, -, hneg, hmin, hmax, -⟩ :=
    exists_remainder amount (show (0 : Int) < 12 by decide)
  obtain ⟨hlow, hhigh, hadar⟩ := hexists
  dsimp only [elul] at hlow hhigh
  have hne : month ≠ 5 := fun heq => by simp [hadar heq] at hleap
  rw [hr] at hcond ⊢
  unfold adar1 at *
  rcases lt_or_gt_of_ne hne with hbefore | hbehind
  · simp only [hbefore, not_lt_of_gt hbefore, true_and, false_and, or_false, false_or] at hcond ⊢
    rw [rollMonth_before hleap hlow hbefore, hr]
    split_ifs
    · rw [rollMonth_behind hleap (by omega) (by omega), hneg, if_neg (by omega), if_neg (by omega),
        if_neg (by omega)]
      omega
    · rw [rollMonth_before hleap (by omega) (by omega), hneg, if_neg (by omega), if_pos (by omega)]
      omega
    · rw [rollMonth_behind hleap (by omega) (by omega), hneg, if_neg (by omega), if_pos (by omega)]
      omega
    · rw [rollMonth_before hleap (by omega) (by omega), hneg, if_pos (by omega)]
      omega
  · have hbehind : 5 < month := hbehind
    simp only [hbehind, not_lt_of_gt hbehind, true_and, false_and, or_false, false_or] at hcond ⊢
    rw [rollMonth_behind hleap hbehind hhigh, hr]
    split_ifs
    · rw [rollMonth_behind hleap (by omega) (by omega), hneg, if_neg (by omega), if_neg (by omega),
        if_neg (by omega)]
      omega
    · rw [rollMonth_before hleap (by omega) (by omega), hneg, if_neg (by omega), if_neg (by omega),
        if_pos (by omega)]
      omega
    · rw [rollMonth_behind hleap (by omega) (by omega), hneg, if_neg (by omega), if_neg (by omega),
        if_pos (by omega)]
      omega
    · rw [rollMonth_before hleap (by omega) (by omega), hneg, if_pos (by omega)]
      omega

theorem rollMonth_monthsInYear
    (hexists : MonthExists isLeapYear (year, month)) :
    rollMonth year month (monthsInYear year) = month := by
  obtain ⟨hlow, hhigh, hadar⟩ := hexists
  dsimp only [elul] at hlow hhigh
  have hyear : monthsInYear year = 12 := by simp [monthsInYear, hleap]
  rw [hyear, rollMonth_common hleap hlow hhigh, Int.tmod_self]
  split_ifs <;> omega

end

/-- A roll leads to the month in the list, and back, and a whole year leads nowhere. -/
def RollsCyclically (year month amount : Int) : Prop :=
  RollsTo year month amount (rollMonth year month amount) ∧
    rollMonth year month (monthsInYear year) = month ∧
    rollMonth year (rollMonth year month amount) (-amount) = month

theorem ediv_ne_iff (p q : Int) : p / 12 ≠ q ↔ p < 12 * q ∨ 12 * q + 12 ≤ p := by
  omega

theorem passes_common (hleap : isLeapYear year = false)
    (hexists : MonthExists isLeapYear (year, month)) (amount : Int) :
    PassesEnd year month amount ∧ PassesAdar1 year month amount ↔
      (adar1 < month ∧ 18 ≤ month + amount.tmod 12 ∨
        month < adar1 ∧ month + amount.tmod 12 < -7) ∨
      (month < adar1 ∧ 12 ≤ month + amount.tmod 12 ∨
        adar1 < month ∧ month + amount.tmod 12 ≤ 0) := by
  have hposition := position_common hleap hexists
  obtain ⟨hlow, hhigh, hadar⟩ := hexists
  dsimp only [elul] at hlow hhigh
  have hne : month ≠ 5 := fun heq => by simp [hadar heq] at hleap
  have hyear : monthsInYear year = 12 := by simp [monthsInYear, hleap]
  unfold PassesEnd PassesAdar1
  rw [hposition, hyear, ediv_ne_iff]
  unfold adar1
  by_cases hbefore : month < 5
  · rw [if_pos hbefore, show (month + 7) / 12 = 0 by omega, ediv_ne_iff]
    omega
  · rw [if_neg hbefore, show (month - 1 + 7) / 12 = 1 by omega, ediv_ne_iff]
    omega

/-- `roll(UCAL_MONTH, amount)` cycles within the year, unless in a common year it passes both the
end of the year and the place of the missing `ADAR_1`. -/
theorem rollMonth_iff {year month : Int} (hexists : MonthExists isLeapYear (year, month))
    (amount : Int) :
    RollsCyclically year month amount ↔
      (isLeapYear year = false → ¬ (PassesEnd year month amount ∧
      PassesAdar1 year month amount)) := by
  cases hleap : isLeapYear year with
  | true => simp [RollsCyclically, rollsCyclically_leap hleap hexists amount]
  | false =>
    have hyear := rollMonth_monthsInYear hleap hexists
    rw [passes_common hleap hexists]
    constructor
    · rintro ⟨hnew, -, hback⟩ -
      have hcond := (rollsTo_common hleap hexists amount).mp hnew
      exact not_or.mpr ⟨hcond, (return_common hleap hexists amount hcond).mp hback⟩
    intro h
    obtain ⟨hcond, hcond'⟩ := not_or.mp (h rfl)
    exact ⟨(rollsTo_common hleap hexists amount).mpr hcond, hyear,
      (return_common hleap hexists amount hcond).mpr hcond'⟩

/-- From `AV` of the common year 5775 over its end to `TISHRI`, and back. -/
theorem rollMonth_iff_av : RollsCyclically 5775 11 2 ∧ rollMonth 5775 11 2 = 0 :=
  ⟨(rollMonth_iff ⟨by decide, by decide, by decide⟩ 2).mpr (by decide), by decide⟩

/-- From `ELUL` of the common year 5775, six months lead to the missing `ADAR_1`. -/
theorem rollMonth_missing : ¬ ∀ year month amount : Int, MonthExists isLeapYear (year, month) →
    -0x80000000 ≤ amount → amount ≤ 0x7fffffff → RollsCyclically year month amount := by
  intro h
  have hmember := (h 5775 12 6 ⟨by decide, by decide, by decide⟩ (by decide) (by decide)).1.1
  have hadar : rollMonth 5775 12 6 = adar1 := by decide
  rw [hadar] at hmember
  exact absurd hmember (by decide)

end Icu.Calendar.Hebrew
