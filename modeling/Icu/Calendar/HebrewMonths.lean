import Icu.Calendar.Hebrew
import Icu.Lib.NextMember
import Mathlib.Data.Int.ConditionallyCompleteOrder
import Mathlib.Data.Int.Interval
import Mathlib.Tactic.IntervalCases

/-!
# The sequence of the Hebrew months

The existing months are numbered 0 to 12, without `ADAR_1` in a common year.  `next` and `prev` are
the steps between them.  The leap rule is a parameter: the code's `isLeapYear` overflows for the
largest years and then denies some of the leap years of `leapRule`.
-/

namespace Icu.Calendar.Hebrew

open Lib

/-- The rule of the comment at `isLeapYear`. -/
def leapRule (year : Int) : Bool :=
  decide (year % 19 ∈ [(0 : Int), 3, 6, 8, 11, 14, 17])

theorem isLeapYear_eq_leapRule {year : Int} (hlow : -178956970 ≤ year) (hhigh : year ≤ 178956969) :
    isLeapYear year = leapRule year := by
  obtain ⟨cycle, place, rfl, hplace, hplace'⟩ :
      ∃ cycle place : Int, year = 19 * cycle + place ∧ 0 ≤ place ∧ place < 19 :=
    ⟨year / 19, year % 19, by omega, by omega, by omega⟩
  rw [isLeapYear_eq_emod hlow hhigh, leapRule, decide_eq_decide, Int.mul_add_emod_self_left,
    Int.emod_eq_of_lt hplace hplace',
    show 12 * (19 * cycle + place) + 17 = 19 * (12 * cycle) + (12 * place + 17) by omega,
    Int.mul_add_emod_self_left]
  interval_cases place <;> decide

variable {leap : Int → Bool} {d e : Int × Int} {s year amount : Int} {n : Nat}

def MonthExists (leap : Int → Bool) (d : Int × Int) : Prop :=
  0 ≤ d.2 ∧ d.2 ≤ elul ∧ (d.2 = adar1 → leap d.1 = true)

def next (leap : Int → Bool) (d : Int × Int) : Int × Int :=
  if d.2 = elul then (d.1 + 1, 0)
  else if d.2 = adar1 - 1 ∧ leap d.1 = false then (d.1, adar1 + 1)
  else (d.1, d.2 + 1)

def prev (leap : Int → Bool) (d : Int × Int) : Int × Int :=
  if d.2 = 0 then (d.1 - 1, elul)
  else if d.2 = adar1 + 1 ∧ leap d.1 = false then (d.1, adar1 - 1)
  else (d.1, d.2 - 1)

/-- The existing month that is `amount` months after. -/
def move (leap : Int → Bool) (amount : Int) (d : Int × Int) : Int × Int :=
  if 0 ≤ amount then (next leap)^[amount.toNat] d else (prev leap)^[(-amount).toNat] d

/-- What one step undoes on the existing months, as many steps undo. -/
theorem iterate_cancel {f g : Int × Int → Int × Int}
    (hexists : ∀ {d}, MonthExists leap d → MonthExists leap (f d))
    (hcancel : ∀ {d}, MonthExists leap d → g (f d) = d) (h : MonthExists leap d) (n : Nat) :
    g^[n] (f^[n] d) = d := by
  induction n generalizing d with
  | zero => rfl
  | succ n ih =>
    rw [Function.iterate_succ_apply f, Function.iterate_succ_apply' g, ih (hexists h), hcancel h]

section

variable (h : MonthExists leap d)
include h

theorem exists_next : MonthExists leap (next leap d) := by
  obtain ⟨year, month⟩ := d
  obtain ⟨hlow, hhigh, hadar⟩ := h
  dsimp only [elul] at *
  interval_cases month <;> cases hleap : leap year <;>
    simp_all [MonthExists, next, elul, adar1]

theorem exists_prev : MonthExists leap (prev leap d) := by
  obtain ⟨year, month⟩ := d
  obtain ⟨hlow, hhigh, hadar⟩ := h
  dsimp only [elul] at *
  interval_cases month <;> cases hleap : leap year <;>
    simp_all [MonthExists, prev, elul, adar1]

theorem prev_next : prev leap (next leap d) = d := by
  obtain ⟨year, month⟩ := d
  obtain ⟨hlow, hhigh, hadar⟩ := h
  dsimp only [elul] at *
  interval_cases month <;> cases hleap : leap year <;>
    simp_all [next, prev, elul, adar1]

theorem next_prev : next leap (prev leap d) = d := by
  obtain ⟨year, month⟩ := d
  obtain ⟨hlow, hhigh, hadar⟩ := h
  dsimp only [elul] at *
  interval_cases month <;> cases hleap : leap year <;>
    simp_all [next, prev, elul, adar1]

theorem exists_move (amount : Int) : MonthExists leap (move leap amount d) := by
  unfold move
  split
  · exact Function.Iterate.rec (MonthExists leap) h (fun _ => exists_next) _
  · exact Function.Iterate.rec (MonthExists leap) h (fun _ => exists_prev) _

theorem move_neg_move (amount : Int) : move leap (-amount) (move leap amount d) = d := by
  unfold move
  by_cases hpos : 0 ≤ amount
  · rcases Int.lt_or_eq_of_le hpos with hlt | rfl
    · rw [if_pos hpos, if_neg (by omega), Int.neg_neg]
      exact iterate_cancel exists_next prev_next h _
    · rfl
  · rw [if_neg hpos, if_pos (by omega)]
    exact iterate_cancel exists_prev next_prev h _

end

theorem next_year (leap : Int → Bool) (d : Int × Int) :
    d.1 ≤ (next leap d).1 ∧ (next leap d).1 ≤ d.1 + 1 := by
  unfold next
  split_ifs <;> dsimp only <;> omega

theorem prev_year (leap : Int → Bool) (d : Int × Int) :
    d.1 - 1 ≤ (prev leap d).1 ∧ (prev leap d).1 ≤ d.1 := by
  unfold prev
  split_ifs <;> dsimp only <;> omega

theorem iterate_next_bounds (leap : Int → Bool) (d : Int × Int) (n : Nat) :
    d.1 ≤ ((next leap)^[n] d).1 ∧ ((next leap)^[n] d).1 ≤ d.1 + n := by
  induction n with
  | zero => exact ⟨Int.le_refl _, by simp⟩
  | succ n ih =>
    rw [Function.iterate_succ_apply']
    have := next_year leap ((next leap)^[n] d)
    omega

theorem iterate_prev_bounds (leap : Int → Bool) (d : Int × Int) (n : Nat) :
    d.1 - n ≤ ((prev leap)^[n] d).1 ∧ ((prev leap)^[n] d).1 ≤ d.1 := by
  induction n with
  | zero => exact ⟨by simp, Int.le_refl _⟩
  | succ n ih =>
    rw [Function.iterate_succ_apply']
    have := prev_year leap ((prev leap)^[n] d)
    omega

/-! ## Places

Every year has 13 places, of which the one of `ADAR_1` is empty in a common year. -/

def slot (d : Int × Int) : Int := 13 * d.1 + d.2

def ofSlot (s : Int) : Int × Int := (s / 13, s % 13)

theorem slot_ofSlot (s : Int) : slot (ofSlot s) = s := by
  unfold slot ofSlot
  omega

theorem ofSlot_slot (hlow : 0 ≤ d.2) (hhigh : d.2 ≤ elul) : ofSlot (slot d) = d := by
  unfold elul at hhigh
  unfold slot ofSlot
  ext <;> dsimp only <;> omega

theorem ofSlot_inj {t : Int} : ofSlot s = ofSlot t ↔ s = t := by
  refine ⟨fun heq => ?_, fun heq => by rw [heq]⟩
  rw [← slot_ofSlot s, heq, slot_ofSlot]

def IsMonth (leap : Int → Bool) (s : Int) : Prop :=
  s % 13 = adar1 → leap (s / 13) = true

instance (leap : Int → Bool) : DecidablePred (IsMonth leap) :=
  fun s => inferInstanceAs (Decidable (s % 13 = adar1 → leap (s / 13) = true))

theorem exists_ofSlot : MonthExists leap (ofSlot s) ↔ IsMonth leap s := by
  unfold MonthExists IsMonth ofSlot elul
  dsimp only
  exact ⟨fun h => h.2.2, fun h => ⟨by omega, by omega, h⟩⟩

theorem isMonth_slot (hlow : 0 ≤ d.2) (hhigh : d.2 ≤ elul) :
    IsMonth leap (slot d) ↔ MonthExists leap d := by
  rw [← exists_ofSlot, ofSlot_slot hlow hhigh]

def nextSlot (leap : Int → Bool) (s : Int) : Int :=
  if s % 13 = adar1 - 1 ∧ leap (s / 13) = false then s + 2 else s + 1

def prevSlot (leap : Int → Bool) (s : Int) : Int :=
  if s % 13 = adar1 + 1 ∧ leap (s / 13) = false then s - 2 else s - 1

theorem isMonth_of_ne (h : s % 13 ≠ adar1) : IsMonth leap s := fun heq => absurd heq h

theorem isNext_nextSlot (leap : Int → Bool) : IsNext (IsMonth leap) (nextSlot leap) where
  lt s := by
    unfold nextSlot
    split <;> omega
  mem s := by
    unfold nextSlot
    split_ifs with hskip
    · exact isMonth_of_ne (by unfold adar1 at *; omega)
    · intro heq
      unfold adar1 at heq hskip
      rw [show (s + 1) / 13 = s / 13 by omega, ← Bool.not_eq_false]
      exact fun hleap => hskip ⟨by omega, hleap⟩
  not_between {s t} hlt hlt' hmonth := by
    unfold nextSlot at hlt'
    split_ifs at hlt' with hskip
    · obtain ⟨hadar, hleap⟩ := hskip
      unfold IsMonth adar1 at *
      have htrue := hmonth (by omega)
      rw [show t / 13 = s / 13 by omega, hleap] at htrue
      cases htrue
    · omega

theorem isPrev_prevSlot (leap : Int → Bool) : IsPrev (IsMonth leap) (prevSlot leap) where
  lt s := by
    unfold prevSlot
    split <;> omega
  mem s := by
    unfold prevSlot
    split_ifs with hskip
    · exact isMonth_of_ne (by unfold adar1 at *; omega)
    · intro heq
      unfold adar1 at heq hskip
      rw [show (s - 1) / 13 = s / 13 by omega, ← Bool.not_eq_false]
      exact fun hleap => hskip ⟨by omega, hleap⟩
  not_between {s t} hlt hlt' hmonth := by
    unfold prevSlot at hlt'
    split_ifs at hlt' with hskip
    · obtain ⟨hadar, hleap⟩ := hskip
      unfold IsMonth adar1 at *
      have htrue := hmonth (by omega)
      rw [show t / 13 = s / 13 by omega, hleap] at htrue
      cases htrue
    · omega

theorem ofSlot_nextSlot (leap : Int → Bool) :
    Function.Semiconj ofSlot (nextSlot leap) (next leap) := by
  intro s
  unfold nextSlot next ofSlot elul adar1
  dsimp only
  split_ifs <;> ext <;> dsimp only <;> omega

theorem ofSlot_prevSlot (leap : Int → Bool) :
    Function.Semiconj ofSlot (prevSlot leap) (prev leap) := by
  intro s
  unfold prevSlot prev ofSlot elul adar1
  dsimp only
  split_ifs <;> ext <;> dsimp only <;> omega

/-! ## Counting the common years -/

/-- The common years whose missing `ADAR_1` is between two months. -/
def commonYears (leap : Int → Bool) (d e : Int × Int) : Finset Int :=
  (Finset.uIcc d.1 e.1).filter fun year => leap year = false ∧
    min (slot d) (slot e) < slot (year, adar1) ∧ slot (year, adar1) < max (slot d) (slot e)

section

variable (hd : 0 ≤ d.2) (hd' : d.2 ≤ elul) (he : 0 ≤ e.2) (he' : e.2 ≤ elul)
include hd hd' he he'

theorem card_commonYears : (commonYears leap d e).card =
    ((Finset.Ioo (min (slot d) (slot e)) (max (slot d) (slot e))).filter
      fun s => ¬ IsMonth leap s).card := by
  unfold elul at hd' he'
  unfold commonYears
  refine Finset.card_nbij' (fun year => slot (year, adar1)) (fun s => s / 13) ?_ ?_ ?_ ?_
  · intro year hyear
    obtain ⟨-, hcommon, hbetween⟩ := Finset.mem_filter.mp hyear
    refine Finset.mem_filter.mpr ⟨Finset.mem_Ioo.mpr hbetween, fun hmonth => ?_⟩
    unfold IsMonth slot adar1 at hmonth
    dsimp only at hmonth
    rw [show (13 * year + 5) / 13 = year by omega, hcommon] at hmonth
    cases hmonth (by omega)
  · intro s hs
    obtain ⟨hbetween, hmonth⟩ := Finset.mem_filter.mp hs
    have hbetween := Finset.mem_Ioo.mp hbetween
    obtain ⟨hadar, hcommon⟩ := Classical.not_imp.mp hmonth
    have hslot : slot (s / 13, adar1) = s := by
      rw [← hadar]
      exact slot_ofSlot s
    refine Finset.mem_filter.mpr ⟨?_, Bool.not_eq_true _ ▸ hcommon, ?_⟩
    · rw [Finset.mem_uIcc]
      dsimp only
      unfold slot at hbetween
      omega
    · dsimp only
      rwa [hslot]
  · intro year _
    dsimp only
    unfold slot adar1
    dsimp only
    omega
  · intro s hs
    have hadar := (Classical.not_imp.mp (Finset.mem_filter.mp hs).2).1
    dsimp only
    rw [← hadar]
    exact slot_ofSlot s

/-- The places of an interval that ends at an existing month are months or common years. -/
theorem card_months (places : Finset Int) (hexists : MonthExists leap e)
    (hplaces : ∀ s, s ≠ slot e →
      (s ∈ places ↔ min (slot d) (slot e) < s ∧ s < max (slot d) (slot e))) :
    ((places.filter (IsMonth leap)).card : Int) + (commonYears leap d e).card = places.card := by
  have hgaps : places.filter (fun s => ¬ IsMonth leap s) =
      (Finset.Ioo (min (slot d) (slot e)) (max (slot d) (slot e))).filter
        fun s => ¬ IsMonth leap s := by
    ext s
    simp only [Finset.mem_filter, Finset.mem_Ioo]
    refine and_congr_left fun hs => hplaces s ?_
    rintro rfl
    exact hs ((isMonth_slot he he').mpr hexists)
  have hsum := places.card_filter_add_card_filter_not (IsMonth leap)
  rw [hgaps, ← card_commonYears hd hd' he he'] at hsum
  omega

theorem iterate_next_eq_iff (hle : slot d ≤ slot e) (hexists : MonthExists leap e) (n : Nat) :
    (next leap)^[n] d = e ↔ (n : Int) + (commonYears leap d e).card = slot e - slot d := by
  have hcard := card_months hd hd' he he' (Finset.Ioc (slot d) (slot e)) hexists
    fun s hs => by rw [Finset.mem_Ioc, min_eq_left hle, max_eq_right hle]; omega
  rw [Int.card_Ioc] at hcard
  have hiff := (isNext_nextSlot leap).iterate_eq_iff hle ((isMonth_slot he he').mpr hexists) n
  rw [← ofSlot_inj, ((ofSlot_nextSlot leap).iterate_right n).eq, ofSlot_slot hd hd',
    ofSlot_slot he he'] at hiff
  rw [hiff]
  omega

theorem iterate_prev_eq_iff (hle : slot e ≤ slot d) (hexists : MonthExists leap e) (n : Nat) :
    (prev leap)^[n] d = e ↔ (n : Int) + (commonYears leap d e).card = slot d - slot e := by
  have hcard := card_months hd hd' he he' (Finset.Ico (slot e) (slot d)) hexists
    fun s hs => by rw [Finset.mem_Ico, min_eq_right hle, max_eq_left hle]; omega
  rw [Int.card_Ico] at hcard
  have hiff := (isPrev_prevSlot leap).iterate_eq_iff hle ((isMonth_slot he he').mpr hexists) n
  rw [← ofSlot_inj, ((ofSlot_prevSlot leap).iterate_right n).eq, ofSlot_slot hd hd',
    ofSlot_slot he he'] at hiff
  rw [hiff]
  omega

end

section

variable (hd : 0 ≤ d.2) (hd' : d.2 ≤ elul)
include hd hd'

theorem slot_lt_iterate_next (leap : Int → Bool) (n : Nat) :
    MonthExists leap ((next leap)^[n + 1] d) ∧ slot d < slot ((next leap)^[n + 1] d) := by
  have hsemi := ((ofSlot_nextSlot leap).iterate_right (n + 1)).eq (slot d)
  rw [ofSlot_slot hd hd'] at hsemi
  rw [← hsemi, slot_ofSlot, exists_ofSlot]
  refine ⟨?_, (isNext_nextSlot leap).lt_iterate_succ _ _⟩
  rw [Function.iterate_succ_apply']
  exact (isNext_nextSlot leap).mem _

theorem iterate_prev_lt_slot (leap : Int → Bool) (n : Nat) :
    MonthExists leap ((prev leap)^[n + 1] d) ∧ slot ((prev leap)^[n + 1] d) < slot d := by
  have hsemi := ((ofSlot_prevSlot leap).iterate_right (n + 1)).eq (slot d)
  rw [ofSlot_slot hd hd'] at hsemi
  rw [← hsemi, slot_ofSlot, exists_ofSlot]
  refine ⟨?_, (isPrev_prevSlot leap).isNext_toDual.lt_iterate_succ _ _⟩
  rw [Function.iterate_succ_apply']
  exact (isPrev_prevSlot leap).mem _

/-- A month lies the amount away if and only if it exists and the places between are the amount and
those of the common years. -/
theorem move_eq_iff (hamount : amount ≠ 0) : move leap amount d = e ↔ MonthExists leap e ∧
    (amount.natAbs : Int) + (commonYears leap d e).card =
      if 0 < amount then slot e - slot d else slot d - slot e := by
  unfold move
  by_cases hpos : 0 < amount
  · rw [if_pos (Int.le_of_lt hpos), if_pos hpos, show amount.natAbs = amount.toNat by omega]
    obtain ⟨n, hn⟩ := Nat.exists_eq_add_of_lt (show 0 < amount.toNat by omega)
    constructor
    · rintro rfl
      have hnext := slot_lt_iterate_next hd hd' leap n
      rw [show amount.toNat = n + 1 by omega]
      obtain ⟨hexists, hlt⟩ := hnext
      exact ⟨hexists, (iterate_next_eq_iff hd hd' hexists.1 hexists.2.1 (Int.le_of_lt hlt) hexists
        _).mp rfl⟩
    · rintro ⟨hexists, hcard⟩
      exact (iterate_next_eq_iff hd hd' hexists.1 hexists.2.1 (by omega) hexists _).mpr hcard
  · rw [if_neg (by omega), if_neg hpos, show amount.natAbs = (-amount).toNat by omega]
    obtain ⟨n, hn⟩ := Nat.exists_eq_add_of_lt (show 0 < (-amount).toNat by omega)
    constructor
    · rintro rfl
      have hprev := iterate_prev_lt_slot hd hd' leap n
      rw [show (-amount).toNat = n + 1 by omega]
      obtain ⟨hexists, hlt⟩ := hprev
      exact ⟨hexists, (iterate_prev_eq_iff hd hd' hexists.1 hexists.2.1 (Int.le_of_lt hlt) hexists
        _).mp rfl⟩
    · rintro ⟨hexists, hcard⟩
      exact (iterate_prev_eq_iff hd hd' hexists.1 hexists.2.1 (by omega) hexists _).mpr hcard

/-- Two leap rules lead to the same month if and only if it exists by both and they count as many
common years before it. -/
theorem move_eq_move_iff {leap' : Int → Bool} (hamount : amount ≠ 0)
    (he : move leap' amount d = e) :
    move leap amount d = e ↔
      MonthExists leap e ∧ (commonYears leap d e).card = (commonYears leap' d e).card := by
  obtain ⟨-, hcard⟩ := (move_eq_iff hd hd' hamount).mp he
  rw [move_eq_iff hd hd' hamount]
  refine and_congr_right fun _ => ?_
  omega

end

end Icu.Calendar.Hebrew
