import Icu.Calendar.IslamicCivil

/-!
# The Umm al-Qura calendar

The table of the month lengths is between the years with the civil rule.  The starts of its years
are sums, and the last sum meets the civil rule again.
-/

namespace Icu.Calendar.Islamic

open Lib

variable {year days : Int}

/-- The sum of `count` terms from `i` on. -/
def total (t : Int → Int) : Nat → Int → Int
  | 0, _ => 0
  | count + 1, i => t i + total t count (i + 1)

theorem total_succ (t : Int → Int) (count : Nat) (i : Int) :
    total t (count + 1) i = total t count i + t (i + count) := by
  induction count generalizing i with
  | zero => simp [total]
  | succ count ih =>
    have hnext : i + 1 + (count : Int) = i + ((count + 1 : Nat) : Int) := by
      push_cast
      omega
    rw [total, ih (i + 1), hnext, total, Int.add_assoc]

theorem total_bounds {t : Int → Int} {low high : Int} {count : Nat} {i : Int}
    (h : ∀ k : Nat, k < count → low ≤ t (i + k) ∧ t (i + k) ≤ high) :
    low * count ≤ total t count i ∧ total t count i ≤ high * count := by
  induction count with
  | zero => simp [total]
  | succ count ih =>
    have hlast := h count (Nat.lt_succ_self count)
    obtain ⟨hlow, hhigh⟩ := ih fun k hk => h k (by omega)
    rw [total_succ]
    push_cast
    rw [Int.mul_add, Int.mul_add]
    omega

theorem total_le_total {t : Int → Int} {i : Int} (count more : Nat)
    (h : ∀ k : Nat, k < count + more → 0 ≤ t (i + k)) :
    total t count i ≤ total t (count + more) i := by
  induction more with
  | zero => exact Int.le_refl _
  | succ more ih =>
    have hterm := h (count + more) (by omega)
    have hinit := ih fun k hk => h k (by omega)
    rw [← Nat.add_assoc, total_succ t (count + more)]
    omega

theorem addTerms_eq {term : Int → Option Int} {t : Int → Int} {count : Nat} {i sum : Int}
    (h : ∀ k : Nat, k < count → term (i + k) = some (t (i + k)) ∧ 0 ≤ t (i + k)) (hsum : 0 ≤ sum)
    (hfits : sum + total t count i ≤ 0x7fffffff) :
    addTerms term count i sum = some (sum + total t count i) := by
  induction count generalizing i sum with
  | zero => simp [addTerms, total]
  | succ count ih =>
    obtain ⟨hterm, hpos⟩ := h 0 (Nat.succ_pos count)
    have hrest : ∀ k : Nat, k < count →
        term (i + 1 + k) = some (t (i + 1 + k)) ∧ 0 ≤ t (i + 1 + k) := by
      intro k hk
      have := h (k + 1) (by omega)
      push_cast at this
      rwa [show i + ((k : Int) + 1) = i + 1 + k by omega] at this
    have hnonneg : 0 ≤ total t count (i + 1) := by
      have := @total_le_total t (i + 1) 0 count fun k hk => (hrest k (by omega)).2
      rwa [Nat.zero_add] at this
    rw [Int.natCast_zero, Int.add_zero] at hterm hpos
    rw [total] at hfits ⊢
    simp only [addTerms, hterm, Option.bind_eq_bind, Option.bind_some,
      checked32_eq (show -0x80000000 ≤ sum + t i by omega) (by omega)]
    rw [ih hrest (by omega) (by omega), Int.add_assoc]

def monthDays (year month : Int) : Int :=
  if isCivilYear .umalqura year then civilMonthLength year month
  else (getUmalquraMonthLength (year - umalquraYearStart) month).getD 0

def yearDays (year : Int) : Int :=
  if isCivilYear .umalqura year then civilLength year else total (monthDays year) 12 0

def startDays (year : Int) : Int :=
  if isCivilYear .umalqura year then civilStart year
  else civilStart umalquraYearStart +
    total yearDays (year - umalquraYearStart).toNat umalquraYearStart

theorem isCivilYear_umalqura : isCivilYear .umalqura year = true ↔ year < 1300 ∨ 1600 < year := by
  unfold isCivilYear umalquraYearStart umalquraYearEnd
  simp only [beq_self_eq_true, Bool.true_and, Bool.or_eq_true, decide_eq_true_iff,
    show (ECalculationType.umalqura == .civil) = false by rfl,
    show (ECalculationType.umalqura == .tbla) = false by rfl, Bool.false_or]

theorem length_umalquraMonthLength :
    umalquraMonthLength.length = 301 := by set_option maxRecDepth 2000 in decide

theorem getUmalquraMonthLength_spec {y m : Int} (hy : 0 ≤ y) (hy' : y ≤ 300) (hm : 0 ≤ m)
    (hm' : m ≤ 11) : ∃ length, getUmalquraMonthLength y m = some length ∧
      29 ≤ length ∧ length ≤ 30 := by
  have hlength := length_umalquraMonthLength
  have hindex : y.toNat < umalquraMonthLength.length := by omega
  unfold getUmalquraMonthLength
  rw [if_pos ⟨hy, hm, hm'⟩, List.getElem?_eq_getElem hindex]
  refine ⟨_, rfl, ?_⟩
  split <;> omega

theorem monthLength_eq {year month : Int} (hlow : 1 ≤ year) (hhigh : year ≤ 6060100)
    (hmonth : 0 ≤ month) (hmonth' : month ≤ 11) :
    handleGetMonthLength .umalqura year month = some (monthDays year month) ∧
      29 ≤ monthDays year month ∧ monthDays year month ≤ 30 := by
  by_cases hcivil : isCivilYear .umalqura year = true
  · rw [monthLength_civil hlow hhigh hcivil hmonth, monthDays, if_pos hcivil]
    refine ⟨rfl, ?_⟩
    unfold civilMonthLength
    split <;> omega
  have htable : ¬ (year < 1300 ∨ 1600 < year) := fun h => hcivil (isCivilYear_umalqura.mpr h)
  unfold monthDays handleGetMonthLength umalquraYearStart
  rw [if_neg hcivil, if_neg hcivil]
  obtain ⟨length, hlength, hbounds⟩ := getUmalquraMonthLength_spec
    (show 0 ≤ year - 1300 by omega) (by omega) hmonth hmonth'
  rw [hlength]
  exact ⟨rfl, hbounds⟩

theorem total_monthDays (year : Int) : total (monthDays year) 12 0 = yearDays year := by
  unfold yearDays
  split
  · next hcivil =>
    simp only [total, monthDays, hcivil, if_true, civilMonthLength, civilLength]
    cases isCivilLeap year <;> rfl
  · rfl

theorem yearDays_bounds {year : Int} (hlow : 1 ≤ year) (hhigh : year ≤ 6060100) :
    348 ≤ yearDays year ∧ yearDays year ≤ 360 := by
  rw [← total_monthDays]
  have hbounds := @total_bounds (monthDays year) 29 30 12 0 fun k hk =>
    (monthLength_eq hlow hhigh (by omega) (by omega)).2
  simpa using hbounds

theorem yearLength_eq (hlow : 1 ≤ year) (hhigh : year ≤ 6060100) :
    handleGetYearLength .umalqura year = some (yearDays year) := by
  by_cases hcivil : isCivilYear .umalqura year = true
  · rw [yearLength_civil hlow hhigh hcivil, yearDays, if_pos hcivil]
  have hbounds := yearDays_bounds hlow hhigh
  rw [handleGetYearLength, if_neg hcivil, ← total_monthDays]
  rw [← total_monthDays] at hbounds
  have hsum := @addTerms_eq (handleGetMonthLength .umalqura year) (monthDays year) 12 0 0
    (fun k hk => by
      have := monthLength_eq hlow hhigh (show (0 : Int) ≤ 0 + k by omega) (by omega)
      exact ⟨this.1, by omega⟩) (Int.le_refl 0) (by omega)
  rw [hsum, Int.zero_add]

/-! ## The starts of the years -/

theorem total_congr {t t' : Int → Int} {count : Nat} {i : Int}
    (h : ∀ k : Nat, k < count → t (i + k) = t' (i + k)) : total t count i = total t' count i := by
  induction count with
  | zero => rfl
  | succ count ih =>
    rw [total_succ, total_succ, ih fun k hk => h k (by omega), h count (Nat.lt_succ_self count)]

theorem total_eq_sum {t : Int → Int} {f : Nat → Int} {rows : List Nat} {i : Int}
    (h : ∀ (k : Nat) (hk : k < rows.length), t (i + k) = f rows[k]) :
    total t rows.length i = (rows.map f).sum := by
  induction rows generalizing i with
  | nil => rfl
  | cons row rows ih =>
    have hfirst := h 0 (Nat.succ_pos _)
    have hrest : ∀ (k : Nat) (hk : k < rows.length), t (i + 1 + k) = f rows[k] := by
      intro k hk
      have hnext := h (k + 1) (Nat.succ_lt_succ hk)
      push_cast at hnext
      rwa [← Int.add_assoc, Int.add_right_comm] at hnext
    rw [Int.natCast_zero, Int.add_zero] at hfirst
    rw [List.length_cons, total, ih hrest, hfirst]
    rfl

def rowDays (months : Nat) : Int :=
  total (fun m => if months &&& 1 <<< (11 - m).toNat = 0 then 29 else 30) 12 0

theorem yearDays_row {k : Nat} (hk : k < umalquraMonthLength.length) :
    yearDays (1300 + k) = rowDays umalquraMonthLength[k] := by
  have hyear : k < 301 := by rwa [length_umalquraMonthLength] at hk
  have htable : ¬ (isCivilYear .umalqura (1300 + k) = true) := by
    rw [isCivilYear_umalqura]
    omega
  rw [yearDays, if_neg htable]
  refine total_congr fun m hm => ?_
  rw [monthDays, if_neg htable, umalquraYearStart, add_sub_cancel_left, getUmalquraMonthLength,
    if_pos ⟨by omega, by omega, by omega⟩, Int.toNat_natCast, List.getElem?_eq_getElem hk]
  rfl

theorem total_table : total yearDays 301 umalquraYearStart = civilStart 1601 - civilStart 1300 := by
  have hsum := @total_eq_sum yearDays rowDays umalquraMonthLength 1300 fun _ hk => yearDays_row hk
  rw [length_umalquraMonthLength] at hsum
  rw [umalquraYearStart, hsum]
  set_option maxRecDepth 2000 in decide

theorem startDays_table (hlow : 1300 ≤ year) (hhigh : year ≤ 1601) :
    startDays year = civilStart 1300 + total yearDays (year - 1300).toNat 1300 := by
  unfold startDays
  by_cases hlast : year = 1601
  · have htotal := total_table
    subst hlast
    unfold umalquraYearStart at htotal
    rw [if_pos (by decide), show ((1601 : Int) - 1300).toNat = 301 by decide, htotal]
    omega
  · have htable : ¬ (isCivilYear .umalqura year = true) := by
      rw [isCivilYear_umalqura]
      omega
    rw [if_neg htable]
    rfl

theorem startDays_succ (year : Int) : startDays (year + 1) = startDays year + yearDays year := by
  by_cases hcivil : isCivilYear .umalqura year = true
  · have hyear := isCivilYear_umalqura.mp hcivil
    have hstart : startDays year = civilStart year := by rw [startDays, if_pos hcivil]
    have hlength : yearDays year = civilLength year := by rw [yearDays, if_pos hcivil]
    rw [hstart, hlength, ← civilStart_succ]
    by_cases hfirst : year = 1299
    · subst hfirst
      decide
    · rw [startDays, if_pos (isCivilYear_umalqura.mpr (by omega))]
  · have hyear : ¬ (year < 1300 ∨ 1600 < year) := fun h => hcivil (isCivilYear_umalqura.mpr h)
    have hcount : (year + 1 - 1300).toNat = (year - 1300).toNat + 1 := by omega
    have hindex : (1300 : Int) + (year - 1300).toNat = year := by omega
    rw [startDays_table (by omega) (by omega), startDays_table (by omega) (by omega), hcount,
      total_succ, hindex, Int.add_assoc]

theorem startDays_mono {first last : Int} (hlow : 1 ≤ first) (hle : first ≤ last)
    (hhigh : last ≤ 6060100) : startDays first + 348 * (last - first) ≤ startDays last := by
  obtain ⟨years, rfl⟩ := Int.le.dest hle
  induction years with
  | zero => simp
  | succ years ih =>
    have hstep := startDays_succ (first + years)
    have hbounds := (@yearDays_bounds (first + years) (by omega) (by omega)).1
    have hinit := ih (by omega) (by omega)
    push_cast
    rw [← Int.add_assoc, hstep]
    omega

theorem startDays_one : startDays 1 = 0 := by decide

theorem civilStart_startDays (year : Int) : startDays year ≤ 0x7fffffff ↔
    civilStart year ≤ 0x7fffffff := by
  by_cases hcivil : isCivilYear .umalqura year = true
  · rw [startDays, if_pos hcivil]
  have hyear : ¬ (year < 1300 ∨ 1600 < year) := fun h => hcivil (isCivilYear_umalqura.mpr h)
  have hmono := @startDays_mono year 1601 (by omega) (by omega) (by decide)
  have hlast : startDays 1601 = 566987 := by decide
  unfold civilStart
  omega

theorem yearStart_eq (hlow : 1 ≤ year) (hstart : startDays year ≤ 0x7fffffff) :
    yearStart .umalqura year = some (startDays year) := by
  have hcivilStart := (civilStart_startDays year).mp hstart
  by_cases hcivil : isCivilYear .umalqura year = true
  · rw [yearStart, startDays, if_pos hcivil, if_pos hcivil, civilYearStart_eq hlow hcivilStart]
  have hyear : ¬ (year < 1300 ∨ 1600 < year) := fun h => hcivil (isCivilYear_umalqura.mpr h)
  have htotal := startDays_table (show 1300 ≤ year by omega) (by omega)
  have hfirst : civilStart 1300 = 460322 := by decide
  have hbefore : civilYearStart 1299 = some 459968 := by decide
  have hlength : handleGetYearLength .umalqura 1299 = some 354 := by decide
  have hsum := @addTerms_eq (handleGetYearLength .umalqura) yearDays (year - 1300).toNat 1300
    (civilStart 1300) (fun k hk => by
      have := yearDays_bounds (show 1 ≤ (1300 : Int) + k by omega) (by omega)
      exact ⟨yearLength_eq (by omega) (by omega), by omega⟩) (by omega) (by omega)
  rw [yearStart, if_neg hcivil]
  unfold umalquraYearStart
  simp only [show (1300 : Int) - 1 = 1299 by rfl, hbefore, hlength, Option.bind_eq_bind,
    Option.bind_some, checked32_eq (show -0x80000000 ≤ (459968 : Int) + 354 by decide) (by decide)]
  rw [htotal, ← hsum, hfirst]
  rfl

theorem yearStart_succ_iff (hlow : 1 ≤ year) :
    (∃ start next length, yearStart .umalqura year = some start ∧
      yearStart .umalqura (year + 1) = some next ∧
      handleGetYearLength .umalqura year = some length ∧ next - start = length) ↔
    civilStart (year + 1) ≤ 0x7fffffff := by
  rw [← civilStart_startDays]
  constructor
  · rintro ⟨start, next, length, -, hnext, -⟩
    by_contra hover
    have hcivilStart : ¬ civilStart (year + 1) ≤ 0x7fffffff := by
      rwa [civilStart_startDays] at hover
    have hcivil : isCivilYear .umalqura (year + 1) = true := by
      rw [isCivilYear_umalqura]
      unfold civilStart at hcivilStart
      omega
    rw [yearStart, if_pos hcivil] at hnext
    exact hcivilStart (civilYearStart_le hnext).2
  · intro hfits
    have hsucc := startDays_succ year
    have hyear := civilStart_pos_bound ((civilStart_startDays _).mp hfits)
    have hbounds := yearDays_bounds hlow (show year ≤ 6060100 by omega)
    exact ⟨_, _, _, yearStart_eq hlow (by omega), yearStart_eq (by omega) hfits,
      yearLength_eq hlow (by omega), by omega⟩

/-! ## The fields -/

theorem monthStart_eq {year : Int} {month : Nat} (hlow : 1 ≤ year) (hmonth : month ≤ 12)
    (hstart : startDays year ≤ 0x7fffff00 - 360) (hpos : 0 ≤ startDays year) :
    monthStart .umalqura year month =
      some (startDays year + total (monthDays year) month 0) := by
  have hyear := civilStart_pos_bound ((civilStart_startDays year).mp (by omega))
  have hbounds := @total_bounds (monthDays year) 29 30 month 0 fun k hk =>
    (monthLength_eq hlow hyear (by omega) (by omega)).2
  unfold monthStart
  rw [if_neg (by decide), yearStart_eq hlow (by omega), Int.toNat_natCast]
  refine addTerms_eq (fun k hk => ?_) hpos (by omega)
  have := monthLength_eq hlow hyear (show (0 : Int) ≤ 0 + k by omega) (by omega)
  exact ⟨this.1, by omega⟩

theorem searchMonth_eq (hlow : 1 ≤ year) (hhigh : year ≤ 6060100) (fuel month : Nat)
    {d : Int} (hfuel : month + fuel = 13) (hd : 0 < d)
    (hd' : d ≤ total (monthDays year) (12 - month) month) :
    ∃ count : Nat, searchMonth year fuel d month = some ((month + count : Nat) : Int) ∧
      month + count ≤ 11 ∧ total (monthDays year) count month < d ∧
      d ≤ total (monthDays year) (count + 1) month := by
  induction fuel generalizing month d with
  | zero =>
    rw [show 12 - month = 0 by omega] at hd'
    exact absurd hd' (by simp only [total]; omega)
  | succ fuel ih =>
    by_cases hmonth : month = 12
    · rw [hmonth] at hd'
      exact absurd hd' (by simp only [Nat.sub_self, total]; omega)
    obtain ⟨hlength, hbounds⟩ :=
      monthLength_eq hlow hhigh (show (0 : Int) ≤ month by omega) (by omega)
    rw [show 12 - month = (11 - month) + 1 by omega, total] at hd'
    simp only [searchMonth, hlength, Option.bind_eq_bind, Option.bind_some]
    by_cases hlater : monthDays year month < d
    · obtain ⟨count, hfound, hrange, hbefore, hafter⟩ :=
        ih (month + 1) (by omega) (show 0 < d - monthDays year month by omega)
          (by rw [show 12 - (month + 1) = 11 - month by omega]; push_cast; omega)
      push_cast at hfound hbefore hafter
      refine ⟨count + 1, ?_, by omega, ?_, ?_⟩
      · rw [if_pos hlater, hfound, Option.some.injEq]
        push_cast
        omega
      · rw [total]
        omega
      · rw [total]
        omega
    · rw [if_neg hlater]
      exact ⟨0, rfl, by omega, hd, by simp only [total]; omega⟩

theorem searchYear_eq (hstart : startDays year ≤ days)
    (hend : days < startDays (year + 1)) (hdays : days ≤ maxJulian) (hhigh : year ≤ 6060099)
    (fuel gap : Nat) (hgap : gap < fuel) (hfirst : 1300 ≤ year - gap) :
    ∃ month : Nat, searchYear days fuel (year - gap) = some (year, (month : Int)) ∧ month ≤ 11 ∧
      startDays year + total (monthDays year) month 0 ≤ days ∧
      days < startDays year + total (monthDays year) month 0 + monthDays year month := by
  unfold maxJulian at hdays
  induction fuel generalizing gap with
  | zero => omega
  | succ fuel ih =>
    have hone := startDays_one
    have hmono := startDays_mono (Int.le_refl 1) (show 1 ≤ year - gap by omega) (by omega)
    have hmono' := startDays_mono (show 1 ≤ year - gap by omega) (show year - gap ≤ year by omega)
      (by omega)
    have hlength := yearLength_eq (show 1 ≤ year - gap by omega) (by omega)
    simp only [searchYear, yearStart_eq (show 1 ≤ year - gap by omega) (by omega), hlength,
      Option.bind_eq_bind, Option.bind_some,
      checked32_eq (show -0x80000000 ≤ days - startDays (year - gap) by omega) (by omega),
      checked32_eq (show -0x80000000 ≤ days - startDays (year - gap) + 1 by omega) (by omega)]
    cases gap with
    | zero =>
      simp only [Int.natCast_zero, Int.sub_zero] at *
      have hsucc := startDays_succ year
      by_cases hlast : days - startDays year + 1 = yearDays year
      · -- the last day of the year
        have htotal := total_monthDays year
        rw [total_succ, show (0 : Int) + (11 : Nat) = 11 by rfl] at htotal
        have hmonth := (@monthLength_eq year 11 (by omega) (by omega) (by decide) (by decide)).2
        refine ⟨11, ?_, Nat.le_refl 11, ?_, ?_⟩
        · rw [if_pos hlast]
          rfl
        · omega
        · rw [show ((11 : Nat) : Int) = 11 by rfl]
          omega
      · obtain ⟨count, hfound, hrange, hbefore, hafter⟩ := searchMonth_eq
          (show 1 ≤ year by omega) (by omega) 13 0 rfl
          (show 0 < days - startDays year + 1 by omega)
          (by rw [Int.natCast_zero, Nat.sub_zero, total_monthDays]; omega)
        simp only [Int.natCast_zero, Nat.zero_add] at hfound hrange hbefore hafter
        rw [total_succ, Int.zero_add] at hafter
        refine ⟨count, ?_, hrange, by omega, by omega⟩
        rw [if_neg hlast, if_pos (by omega), hfound]
        rfl
    | succ gap =>
      have hsucc := startDays_succ (year - (gap + 1 : Nat))
      have hnext : year - ((gap + 1 : Nat) : Int) + 1 = year - gap := by
        push_cast
        omega
      have hlater := startDays_mono (show 1 ≤ year - (gap : Int) by omega)
        (show year - (gap : Int) ≤ year by omega) (by omega)
      have hbounds := yearDays_bounds (show 1 ≤ year - ((gap + 1 : Nat) : Int) by omega)
        (by omega)
      rw [hnext] at hsucc
      rw [if_neg (by omega), if_neg (by omega), if_pos (by omega), hnext]
      exact ih gap (by omega) (by omega)

theorem exists_year {first : Int} (hlow : startDays first ≤ days)
    (years : Nat) (hhigh : days < startDays (first + years)) :
    ∃ count : Nat, count < years ∧ startDays (first + count) ≤ days ∧
      days < startDays (first + count + 1) := by
  induction years with
  | zero =>
    rw [Int.natCast_zero, Int.add_zero] at hhigh
    omega
  | succ years ih =>
    by_cases hearlier : days < startDays (first + years)
    · obtain ⟨count, hcount, hbounds⟩ := ih hearlier
      exact ⟨count, by omega, hbounds⟩
    refine ⟨years, Nat.lt_succ_self years, by omega, ?_⟩
    rw [Int.add_assoc]
    exact_mod_cast hhigh

theorem civilYearMonth_umalqura (hdays : 0 ≤ days) (hlast : days < startDays 1300) :
    ∃ year : Int, ∃ month : Nat, civilYearMonth .umalqura days = some (year, (month : Int)) ∧
      1 ≤ year ∧ year < 1300 ∧ month ≤ 11 ∧
      startDays year + total (monthDays year) month 0 ≤ days ∧
      days < startDays year + total (monthDays year) month 0 + monthDays year month := by
  have htable : startDays 1300 = 460322 := by decide
  obtain ⟨hyear, hstart, hend⟩ := yearOf_spec hdays
  have hbefore : yearOf days < 1300 := by
    unfold yearOf
    omega
  have hcivil := isCivilYear_umalqura.mpr (Or.inl hbefore)
  rw [civilStart_succ] at hend
  obtain ⟨hmonth, hmonth', hday, hday'⟩ := monthOf_spec
    (show 0 ≤ days - civilStart (yearOf days) by omega)
    (show days - civilStart (yearOf days) < civilLength (yearOf days) by omega)
  refine ⟨yearOf days, (monthOf (days - civilStart (yearOf days))).toNat, ?_, hyear, hbefore,
    by omega, ?_⟩
  · rw [civilYearMonth_eq hdays (by omega) hcivil, Int.toNat_of_nonneg hmonth]
  generalize hm : monthOf (days - civilStart (yearOf days)) = month at *
  obtain ⟨m, rfl⟩ := Int.eq_ofNat_of_zero_le hmonth
  have htotal : total (monthDays (yearOf days)) m 0 = civilMonthStart m := by
    have hrange : m ≤ 11 := by omega
    have hdays : monthDays (yearOf days) = civilMonthLength (yearOf days) := by
      funext i
      rw [monthDays, if_pos hcivil]
    rw [hdays]
    interval_cases m <;> rfl
  rw [Int.toNat_natCast, htotal, startDays, if_pos hcivil, monthDays, if_pos hcivil]
  omega

theorem fieldsRight_umalqura {julianDay : Int} (hfirst : civilEpoc ≤ julianDay)
    (hlast : julianDay ≤ maxJulian) : FieldsRight .umalqura julianDay := by
  have hepoc : epoc .umalqura = 1948440 := rfl
  have hone := startDays_one
  have htable : startDays 1300 = 460322 := by decide
  have hlate : startDays (1300 + 6020000) = 2133747656 := by decide
  unfold civilEpoc at hfirst
  unfold maxJulian at hlast
  -- the year and the month that either way of the code finds
  have hfound : ∃ year : Int, ∃ month : Nat,
      yearMonth .umalqura (julianDay - 1948440) = some (year, (month : Int)) ∧
      1 ≤ year ∧ year ≤ 6021300 ∧ month ≤ 11 ∧
      startDays year + total (monthDays year) month 0 ≤ julianDay - 1948440 ∧
      julianDay - 1948440 <
        startDays year + total (monthDays year) month 0 + monthDays year month := by
    have hstart : yearStart .umalqura umalquraYearStart = some 460322 := by
      rw [umalquraYearStart, yearStart_eq (by decide) (by decide), htable]
    simp only [yearMonth, hstart, Option.bind_eq_bind, Option.bind_some]
    by_cases hbefore : julianDay - 1948440 < 460322
    · obtain ⟨year, month, hcivil, hyear, hyear', hrest⟩ :=
        civilYearMonth_umalqura (show 0 ≤ julianDay - 1948440 by omega) (by omega)
      exact ⟨year, month, by rw [if_pos hbefore, hcivil], hyear, by omega, hrest⟩
    obtain ⟨count, hcount, hyear, hyear'⟩ := exists_year
      (show startDays 1300 ≤ julianDay - 1948440 by omega) 6020000 (by
        rw [show ((6020000 : Nat) : Int) = 6020000 by rfl, hlate]
        omega)
    have hgrow := @startDays_mono 1300 (1300 + count) (by decide) (by omega) (by omega)
    obtain ⟨month, hsearch, hrest⟩ := searchYear_eq hyear hyear'
      (by unfold maxJulian; omega) (by omega) ((julianDay - 1948440).toNat + 1) count (by omega)
      (by omega)
    refine ⟨1300 + count, month, ?_, by omega, by omega, hrest⟩
    rw [if_neg hbefore, ← hsearch, umalquraYearStart, Int.add_sub_cancel]
  obtain ⟨year, month, hyearMonth, hyear, hyear', hmonth, hday, hday'⟩ := hfound
  have hpos := startDays_mono (Int.le_refl 1) hyear (by omega)
  have hbounds := @total_bounds (monthDays year) 29 30 month 0 fun k hk =>
    (monthLength_eq hyear (by omega) (by omega) (by omega)).2
  obtain ⟨hlength, -⟩ :=
    monthLength_eq hyear (show year ≤ 6060100 by omega) (show (0 : Int) ≤ month by omega) (by omega)
  have hstart := monthStart_eq hyear (show month ≤ 12 by omega) (by omega) (by omega)
  have hyearStart := monthStart_eq hyear (Nat.zero_le 12) (by omega) (by omega)
  have hend : total (monthDays year) (month + 1) 0 ≤ yearDays year := by
    have hgrow := @total_le_total (monthDays year) 0 (month + 1) (11 - month) fun k hk => by
      have := (@monthLength_eq year (0 + k) hyear (by omega) (by omega) (by omega)).2.1
      omega
    rwa [show month + 1 + (11 - month) = 12 by omega, total_monthDays] at hgrow
  rw [total_succ, Int.zero_add] at hend
  have hzero : total (monthDays year) 0 0 = 0 := rfl
  rw [hzero, Int.natCast_zero] at hyearStart
  exact fieldsRight_of_bounds hlast (by rw [hepoc, hyearMonth]) hyearStart hstart hlength
    (yearLength_eq hyear (by omega)) hyear (by omega) (by omega) (by omega) (by omega) (by omega)
    (by omega) (by omega) (by omega)

/-- All days up to `MAX_JULIAN` have right fields, and the years follow each other without a gap as
long as the start of the next one is an `int32_t`. -/
theorem umalqura_continuous (julianDay year : Int) :
    (civilEpoc ≤ julianDay → julianDay ≤ maxJulian → FieldsRight .umalqura julianDay) ∧ (1 ≤ year →
      ((∃ start next length, yearStart .umalqura year = some start ∧
        yearStart .umalqura (year + 1) = some next ∧
        handleGetYearLength .umalqura year = some length ∧ next - start = length) ↔
      civilStart (year + 1) ≤ 0x7fffffff)) :=
  ⟨fieldsRight_umalqura, yearStart_succ_iff⟩

/-- The last year of the table, and a day of it. -/
theorem umalqura_continuous_border : FieldsRight .umalqura (1948440 + 566986) ∧
    ∃ start next length, yearStart .umalqura 1600 = some start ∧
      yearStart .umalqura (1600 + 1) = some next ∧
      handleGetYearLength .umalqura 1600 = some length ∧ next - start = length :=
  ⟨(umalqura_continuous (1948440 + 566986) 1600).1 (by decide) (by decide),
    ((umalqura_continuous (1948440 + 566986) 1600).2 (by decide)).mpr (by decide)⟩

/-- The start of the year 10000001 is no `int32_t`. -/
theorem yearStart_overflow : ¬ ∀ year, 1 ≤ year → ∃ start next length,
    yearStart .umalqura year = some start ∧ yearStart .umalqura (year + 1) = some next ∧
    handleGetYearLength .umalqura year = some length ∧ next - start = length := by
  intro h
  have hfits := (yearStart_succ_iff (by decide)).mp (h 10000000 (by decide))
  exact absurd hfits (by decide)

end Icu.Calendar.Islamic
