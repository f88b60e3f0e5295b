import Mathlib.Tactic.Ring
import Icu.Punycode.Model

/-! # Generalized variable-length integers

What `writeDelta` writes is read by `readDelta`, and what `readDelta` reads is the only way
to write its value, up to the case of letters.
-/

namespace Icu.Punycode

variable {x digit w q i fuel i' : Nat} {src rest : List UInt16} {b : UInt16}

/-- A bound for the deltas of the encoder: every code point at every place. -/
def maxDelta : Nat := 0x110000 * (maxCpCount + 1)

def toLower (u : UInt16) : UInt16 :=
  if 0x41 ≤ u.toNat ∧ u.toNat ≤ 0x5a then UInt16.ofNat (u.toNat + 0x20) else u

theorem base_eq : base = 36 := by decide

theorem maxDelta_eq : maxDelta = 223936512 := by decide

theorem int32Max_eq : int32Max = 2147483647 := by decide

theorem checked_of_le (h : x ≤ int32Max) : checked x = .ok x := if_pos h

theorem checked_eq_ok {y : Nat} (h : checked x = .ok y) : y = x ∧ x ≤ int32Max := by
  unfold checked at h
  split at h
  · next hle => exact ⟨(Except.ok.inj h).symm, hle⟩
  · cases h

theorem digitToBasic_lt (h : digit < 36) : (digitToBasic digit).toNat < 0x80 := by
  revert digit
  decide

theorem basicToDigit_digitToBasic (h : digit < 36) :
    basicToDigit.getD ((digitToBasic digit).toNat % 0x100) (-1) = digit := by
  revert digit
  decide

theorem digitToBasic_ne_delimiter (h : digit < 36) : digitToBasic digit ≠ delimiter := by
  revert digit
  decide

theorem basicToDigit_lt (b : Nat) : basicToDigit.getD b (-1) < 36 := by
  have hall : ∀ x ∈ basicToDigit, x < 36 := by set_option maxRecDepth 2000 in decide
  rw [List.getD_eq_getElem?_getD]
  cases h : basicToDigit[b]? with
  | none => decide
  | some x => exact hall x (List.mem_of_getElem? h)

theorem digit_of_byte {b : Nat} : ¬ basicToDigit.getD b (-1) < 0 → b < 0x80 ∧
      digitToBasic (basicToDigit.getD b (-1)).toNat = toLower (UInt16.ofNat b) := by
  have hrows : ∀ row ∈ basicToDigit.zipIdx, ¬ row.1 < 0 → row.2 < 0x80 ∧
      digitToBasic row.1.toNat = toLower (UInt16.ofNat row.2) := by
        set_option maxRecDepth 2000 in decide
  rw [List.getD_eq_getElem?_getD]
  cases hdigit : basicToDigit[b]? with
  | none => exact fun h => absurd (by decide) h
  | some digit => exact hrows (digit, b) (List.mem_zipIdx_iff_getElem?.mpr hdigit)

section Threshold

variable (k bias : Nat)

theorem threshold_eq :
    threshold k bias = if k ≤ bias then 1 else if bias + 26 ≤ k then 26 else k - bias := by
  have htMin : tMin = 1 := by decide
  have htMax : tMax = 26 := by decide
  simp only [threshold, htMin, htMax]
  by_cases hlow : k ≤ bias
  · rw [if_pos (by omega), if_pos hlow]
  rw [if_neg (by omega), if_neg hlow]
  by_cases hhigh : bias + 26 ≤ k
  · rw [if_pos hhigh, if_pos hhigh]
  rw [if_neg hhigh, if_neg hhigh]
  omega

theorem one_le_threshold : 1 ≤ threshold k bias := by
  rw [threshold_eq]
  split
  · decide
  split
  · decide
  · omega

theorem threshold_le : threshold k bias ≤ 26 := by
  rw [threshold_eq]
  split
  · decide
  split
  · decide
  · omega

variable {k bias}

theorem threshold_of_le (h : k ≤ bias) : threshold k bias = 1 := by
  rw [threshold_eq, if_pos h]

theorem le_of_threshold_le_three (h : threshold k bias ≤ 3) : k ≤ bias + 3 := by
  by_contra hlt
  rw [threshold_eq, if_neg (by omega)] at h
  split at h
  · omega
  · omega

end Threshold

/-! ## Reading -/

/-- Each round with a threshold below 4 comes after rounds with threshold 1. -/
def Weight (bias k w : Nat) : Prop := 0 < w ∧ (k ≤ bias + 3 → ∃ j, w = 35 ^ j)

theorem weight_one (bias k : Nat) : Weight bias k 1 := ⟨by decide, fun _ => ⟨0, rfl⟩⟩

theorem Weight.next {bias k : Nat} (h : Weight bias k w) :
    Weight bias (k + base) (w * (base - threshold k bias)) := by
  have ht := threshold_le k bias
  rw [base_eq]
  refine ⟨Nat.mul_pos h.1 (by omega), fun hk => ?_⟩
  obtain ⟨j, hj⟩ := h.2 (by omega)
  refine ⟨j + 1, ?_⟩
  rw [threshold_of_le (by omega), hj, Nat.pow_succ]

/-- The next weight of a number that is not too large fits. -/
theorem Weight.next_le {bias k : Nat} (h : Weight bias k w) (hq : threshold k bias ≤ q)
    (hle : q * w ≤ maxDelta) : w * (base - threshold k bias) ≤ int32Max := by
  have ht := threshold_le k bias
  have hone := one_le_threshold k bias
  rw [maxDelta_eq] at hle
  rw [base_eq, int32Max_eq]
  by_cases hsmall : threshold k bias ≤ 3
  · obtain ⟨j, rfl⟩ := h.2 (le_of_threshold_le_three hsmall)
    have hpow : 35 ^ j ≤ 223936512 := Nat.le_trans (Nat.le_mul_of_pos_left _ (by omega)) hle
    have hj : j ≤ 5 := by
      by_contra hlt
      have : 35 ^ 6 ≤ 35 ^ j := Nat.pow_le_pow_right (by decide) (by omega)
      omega
    calc
      35 ^ j * (36 - threshold k bias) ≤ 35 ^ 5 * 35 :=
        Nat.mul_le_mul (Nat.pow_le_pow_right (by decide) hj) (by omega)
      _ ≤ 2147483647 := by decide
  · have hfour : 4 * w ≤ 223936512 := Nat.le_trans (Nat.mul_le_mul_right _ (by omega)) hle
    calc
      w * (36 - threshold k bias) ≤ w * 32 := Nat.mul_le_mul_left _ (by omega)
      _ ≤ 2147483647 := by omega

theorem readDelta_digit {bias : Nat} {k : Nat}
    (hw : 0 < w) (hb : basicToDigit.getD (b.toNat % 0x100) (-1) = digit)
    (hle : i + digit * w ≤ int32Max) : readDelta bias (b :: src) i w k =
      if digit < threshold k bias then .ok (i + digit * w, src)
      else if w * (base - threshold k bias) ≤ int32Max then
        readDelta bias src (i + digit * w) (w * (base - threshold k bias)) (k + base)
      else .error (.error .illegalCharFound) := by
  have ht := threshold_le k bias
  have hroom : ¬ digit > (int32Max - i) / w := by
    rw [gt_iff_lt, Nat.not_lt, Nat.le_div_iff_mul_le hw]
    omega
  have hguard : w > int32Max / (base - threshold k bias) ↔
      ¬ w * (base - threshold k bias) ≤ int32Max := by
    rw [gt_iff_lt, Nat.div_lt_iff_lt_mul (by rw [base_eq]; omega), Nat.not_le]
  rw [readDelta, hb]
  simp only [Int.toNat_natCast, if_neg hroom, checked_of_le hle, hguard, ite_not]
  rw [if_neg (by omega)]
  split
  · rfl
  split
  · next hnext => rw [checked_of_le hnext]
  · rfl

theorem digit_add_rest {t : Nat} (hq : t ≤ q) (w : Nat) :
    (t + (q - t) % (base - t)) * w + (q - t) / (base - t) * (w * (base - t)) = q * w := by
  have hdiv := Nat.div_add_mod (q - t) (base - t)
  calc
    (t + (q - t) % (base - t)) * w + (q - t) / (base - t) * (w * (base - t))
        = (t + ((base - t) * ((q - t) / (base - t)) + (q - t) % (base - t))) * w := by ring
    _ = q * w := by rw [hdiv, Nat.add_sub_cancel' hq]

theorem readDelta_writeDelta {bias : Nat} (rest : List UInt16) {k : Nat} (hfuel : q < fuel)
    (hw : Weight bias k w) (hle : q * w ≤ maxDelta) (hi : i + q * w ≤ int32Max) :
    readDelta bias (writeDelta bias fuel q k ++ rest) i w k = .ok (i + q * w, rest) := by
  induction fuel generalizing q i w k with
  | zero => omega
  | succ fuel ih =>
    have ht := threshold_le k bias
    have hone := one_le_threshold k bias
    rw [writeDelta]
    by_cases hq : q < threshold k bias
    · rw [if_pos hq, List.singleton_append,
        readDelta_digit hw.1 (basicToDigit_digitToBasic (by omega)) hi, if_pos hq]
    have hnext := hw.next_le (Nat.le_of_not_lt hq) hle
    have hw' := hw.next
    have hsum := digit_add_rest (Nat.le_of_not_lt hq) w
    have hbase := base_eq
    rw [if_neg hq]
    generalize htk : threshold k bias = t at *
    have hmod : (q - t) % (base - t) < base - t := Nat.mod_lt _ (by omega)
    have hdiv : (q - t) / (base - t) ≤ q - t := Nat.div_le_self _ _
    generalize (q - t) % (base - t) = r at *
    generalize (q - t) / (base - t) = q' at *
    rw [List.cons_append,
      readDelta_digit hw.1 (basicToDigit_digitToBasic (by omega)) (by omega), htk,
      if_neg (by omega), if_pos hnext, ih (by omega) hw' (by omega) (by omega)]
    rw [← hsum, Nat.add_assoc]

theorem readDelta_cons_eq_ok {bias : Nat} {k : Nat}
    (hw : 0 < w) (h : readDelta bias (b :: src) i w k = .ok (i', rest)) :
    ∃ digit : Nat, basicToDigit.getD (b.toNat % 0x100) (-1) = digit ∧ digit < 36 ∧
      ((digit < threshold k bias ∧ i' = i + digit * w ∧ rest = src) ∨
        (threshold k bias ≤ digit ∧
          readDelta bias src (i + digit * w) (w * (base - threshold k bias)) (k + base) =
            .ok (i', rest))) := by
  have hlt := basicToDigit_lt (b.toNat % 0x100)
  have hnonneg : ¬ basicToDigit.getD (b.toNat % 0x100) (-1) < 0 := by
    intro hneg
    rw [readDelta] at h
    simp only [if_pos hneg] at h
    cases h
  obtain ⟨digit, hdigit⟩ := Int.eq_ofNat_of_zero_le (Int.not_lt.mp hnonneg)
  have hle : i + digit * w ≤ int32Max := by
    rw [readDelta, hdigit] at h
    simp only [Int.toNat_natCast] at h
    rw [if_neg (by omega)] at h
    split at h
    · cases h
    split at h
    · cases h
    · next hok => exact (checked_eq_ok hok).2
  refine ⟨digit, hdigit, by omega, ?_⟩
  rw [readDelta_digit hw hdigit hle] at h
  split at h
  · next hdone =>
    rw [Except.ok.injEq, Prod.mk.injEq] at h
    exact Or.inl ⟨hdone, h.1.symm, h.2.symm⟩
  split at h
  · next hgo _ => exact Or.inr ⟨Nat.le_of_not_lt hgo, h⟩
  · cases h

theorem digitToBasic_of_unit (hb : b.toNat < 0x100)
    (hdigit : basicToDigit.getD (b.toNat % 0x100) (-1) = digit) :
    digitToBasic digit = toLower b := by
  rw [Nat.mod_eq_of_lt hb] at hdigit
  have := (@digit_of_byte b.toNat (by omega)).2
  rw [hdigit, Int.toNat_natCast, UInt16.ofNat_toNat] at this
  exact this

theorem digit_of_sum {t digit q : Nat} (ht : t ≤ digit) (hdigit : digit < base) :
    (digit + q * (base - t) - t) % (base - t) = digit - t ∧
      (digit + q * (base - t) - t) / (base - t) = q := by
  have hsub : digit + q * (base - t) - t = digit - t + q * (base - t) := by omega
  rw [hsub, Nat.add_mul_mod_self_right, Nat.mod_eq_of_lt (by omega),
    Nat.add_mul_div_right _ _ (by omega), Nat.div_eq_of_lt (by omega), Nat.zero_add]
  exact ⟨rfl, rfl⟩

/-- What is read is the only way to write its value. -/
theorem writeDelta_readDelta {bias : Nat} {k : Nat} (hw : 0 < w)
    (h : readDelta bias src i w k = .ok (i', rest)) :
    ∃ used q, src = used ++ rest ∧ used ≠ [] ∧ i' = i + q * w ∧
      ((∀ u ∈ used, u.toNat < 0x100) → ∀ fuel, q < fuel →
        writeDelta bias fuel q k = used.map toLower) := by
  induction src generalizing i w k with
  | nil => cases h
  | cons b src ih =>
    have hone := one_le_threshold k bias
    have ht := threshold_le k bias
    obtain ⟨digit, hdigit, hlt, hdone | hgo⟩ := readDelta_cons_eq_ok hw h
    · refine ⟨[b], digit, by rw [hdone.2.2]; rfl, List.cons_ne_nil _ _, hdone.2.1, ?_⟩
      intro hused fuel hfuel
      have hb := hused b List.mem_cons_self
      obtain ⟨fuel, rfl⟩ : ∃ n, fuel = n + 1 := ⟨fuel - 1, by omega⟩
      rw [writeDelta, if_pos hdone.1, digitToBasic_of_unit hb hdigit]
      rfl
    have hpos : 0 < base - threshold k bias := by rw [base_eq]; omega
    obtain ⟨used, q, hsrc, -, hi, hwrite⟩ := ih (Nat.mul_pos hw hpos) hgo.2
    refine ⟨b :: used, digit + q * (base - threshold k bias), by rw [hsrc]; rfl,
      List.cons_ne_nil _ _, ?_, ?_⟩
    · rw [hi]
      ring
    intro hused fuel hfuel
    obtain ⟨hb, hused⟩ := List.forall_mem_cons.mp hused
    obtain ⟨fuel, rfl⟩ : ∃ n, fuel = n + 1 := ⟨fuel - 1, by omega⟩
    have hq : q ≤ q * (base - threshold k bias) := Nat.le_mul_of_pos_right _ hpos
    obtain ⟨hmod, hdiv⟩ := @digit_of_sum (threshold k bias) digit q hgo.1 (by rw [base_eq]; omega)
    rw [writeDelta, if_neg (by omega), hmod, hdiv, Nat.add_sub_cancel' hgo.1,
      hwrite hused fuel (by omega), digitToBasic_of_unit hb hdigit]
    rfl

theorem mem_writeDelta {bias k : Nat} {u : UInt16} (hu : u ∈ writeDelta bias fuel q k) :
    ∃ digit < 36, u = digitToBasic digit := by
  induction fuel generalizing q k with
  | zero => cases hu
  | succ fuel ih =>
    have ht := threshold_le k bias
    rw [writeDelta] at hu
    split at hu
    · exact ⟨q, by omega, List.mem_singleton.mp hu⟩
    rcases List.mem_cons.mp hu with hu | hu
    · have hbase := base_eq
      have hmod : (q - threshold k bias) % (base - threshold k bias) < base - threshold k bias :=
        Nat.mod_lt _ (by omega)
      exact ⟨_, by omega, hu⟩
    · exact ih hu

end Icu.Punycode
