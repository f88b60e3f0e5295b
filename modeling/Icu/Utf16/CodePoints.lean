import Icu.Utf16

/-! # Code points of UTF-16 strings -/

namespace Icu.Utf16

open Lib

variable {c : Nat} {u : UInt16}

def unitsOf (c : Nat) : List UInt16 :=
  if c ≤ 0xffff then [UInt16.ofNat c] else [u16Lead c, u16Trail c]

def utf16 (cps : List Nat) : List UInt16 := cps.flatMap unitsOf

/-- The code points of a string, with unpaired surrogates for themselves. -/
def codePoints : List UInt16 → List Nat
  | [] => []
  | [u] => [u.toNat]
  | u :: u2 :: s =>
    if u16IsLead u.toNat && u16IsTrail u2.toNat then
      u16GetSupplementary u.toNat u2.toNat :: codePoints s
    else u.toNat :: codePoints (u2 :: s)

structure IsScalar (c : Nat) : Prop where
  le : c ≤ 0x10ffff
  not_surrogate : uIsSurrogate c = false

instance isScalarDecidable (c : Nat) : Decidable (IsScalar c) :=
  decidable_of_iff (c ≤ 0x10ffff ∧ uIsSurrogate c = false) ⟨fun h => ⟨h.1, h.2⟩, fun h =>
    ⟨h.1, h.2⟩⟩

def WellFormed (s : List UInt16) : Prop := ∀ c ∈ codePoints s, IsScalar c

theorem IsScalar.not_range (h : IsScalar c) : ¬ (0xd800 ≤ c ∧ c ≤ 0xdfff) := by
  rw [← uIsSurrogate_iff (by have := h.le; omega), h.not_surrogate]
  exact Bool.false_ne_true

@[simp] theorem utf16_nil : utf16 [] = [] := rfl

@[simp] theorem utf16_cons (c : Nat) (cps : List Nat) :
    utf16 (c :: cps) = unitsOf c ++ utf16 cps := List.flatMap_cons

@[simp] theorem utf16_append (cps cps' : List Nat) :
    utf16 (cps ++ cps') = utf16 cps ++ utf16 cps' :=
  List.flatMap_append

theorem length_unitsOf (c : Nat) : (unitsOf c).length = u16Length c := by
  unfold unitsOf u16Length
  split <;> rfl

theorem unitsOf_bmp (h : c ≤ 0xffff) : unitsOf c = [UInt16.ofNat c] := if_pos h

theorem unitsOf_supplementary (h : 0xffff < c) : unitsOf c = [u16Lead c, u16Trail c] :=
  if_neg (by omega)

theorem toNat_ofNat_bmp (h : c ≤ 0xffff) : (UInt16.ofNat c).toNat = c :=
  UInt16.toNat_ofNat_of_lt' (Nat.lt_succ_of_le h)

theorem toNat_u16Lead (h : 0xffff < c) (hle : c ≤ 0x10ffff) :
    (u16Lead c).toNat = c / 0x400 + 0xd7c0 := by
  rw [u16Lead, Nat.shiftRight_eq_div_pow]
  exact toNat_ofNat_bmp (by omega)

theorem toNat_u16Trail (c : Nat) : (u16Trail c).toNat = c % 0x400 + 0xdc00 := by
  have hor : c % 0x400 ||| 0xdc00 = c % 0x400 + 0xdc00 := by
    rw [Nat.or_comm, Nat.add_comm]
    exact Bits.or_mul (x := 55) (k := 10) (Nat.mod_lt _ (by decide))
  rw [u16Trail, Bits.and_low c 10 0x3ff (by decide)]
  change (UInt16.ofNat (c % 0x400 ||| 0xdc00)).toNat = _
  rw [hor]
  exact toNat_ofNat_bmp (by omega)

theorem u16GetSupplementary_u16Lead_u16Trail (h : 0xffff < c) (hle : c ≤ 0x10ffff) :
    u16GetSupplementary (u16Lead c).toNat (u16Trail c).toNat = c := by
  rw [u16GetSupplementary_eq, toNat_u16Lead h hle, toNat_u16Trail]
  omega

theorem u16IsLead_u16Lead {c : Nat} (h : 0xffff < c) (hle : c ≤ 0x10ffff) :
    u16IsLead (u16Lead c).toNat = true := by
  have := toNat_u16Lead h hle
  rw [u16IsLead_iff (by omega)]
  omega

theorem u16IsTrail_u16Trail (c : Nat) : u16IsTrail (u16Trail c).toNat = true := by
  have := toNat_u16Trail c
  rw [u16IsTrail_iff (by omega)]
  omega

theorem unitsOf_pair {lead trail : UInt16} (hl : u16IsLead lead.toNat = true)
    (ht : u16IsTrail trail.toNat = true) :
    unitsOf (u16GetSupplementary lead.toNat trail.toNat) = [lead, trail] := by
  rw [u16IsLead_iff (by have := lead.toNat_lt; omega)] at hl
  rw [u16IsTrail_iff (by have := trail.toNat_lt; omega)] at ht
  have hbounds := u16GetSupplementary_bounds hl ht
  have heq := @u16GetSupplementary_eq lead.toNat trail.toNat
  generalize u16GetSupplementary lead.toNat trail.toNat = c at hbounds heq
  have hlead : u16Lead c = lead := by
    apply UInt16.toNat.inj
    rw [toNat_u16Lead (by omega) hbounds.2]
    omega
  have htrail : u16Trail c = trail := by
    apply UInt16.toNat.inj
    rw [toNat_u16Trail]
    omega
  rw [unitsOf_supplementary (by omega), hlead, htrail]

theorem unitsOf_toNat (u : UInt16) : unitsOf u.toNat = [u] := by
  rw [unitsOf_bmp (by have := u.toNat_lt; omega), UInt16.ofNat_toNat]

theorem utf16_codePoints (s : List UInt16) : utf16 (codePoints s) = s := by
  induction s using codePoints.induct with
  | case1 => rfl
  | case2 u => rw [codePoints, utf16_cons, unitsOf_toNat, utf16_nil, List.append_nil]
  | case3 u u2 s hpair ih =>
    rw [codePoints, if_pos hpair, utf16_cons, ih]
    rw [Bool.and_eq_true] at hpair
    rw [unitsOf_pair hpair.1 hpair.2]
    rfl
  | case4 u u2 s hpair ih =>
    rw [codePoints, if_neg hpair, utf16_cons, ih, unitsOf_toNat]
    rfl

theorem codePoints_cons_of_not_lead (h : u16IsLead u.toNat = false)
    (s : List UInt16) : codePoints (u :: s) = u.toNat :: codePoints s := by
  cases s with
  | nil => rfl
  | cons u2 s => rw [codePoints, h, Bool.false_and, if_neg Bool.false_ne_true]

theorem codePoints_utf16 {cps : List Nat} (h : ∀ c ∈ cps, IsScalar c) :
    codePoints (utf16 cps) = cps := by
  induction cps with
  | nil => rfl
  | cons c cps ih =>
    obtain ⟨hc, htail⟩ := List.forall_mem_cons.mp h
    have hnot := hc.not_range
    have hle := hc.le
    rw [utf16_cons]
    by_cases hbmp : c ≤ 0xffff
    · have hlead : u16IsLead (UInt16.ofNat c).toNat = false := by
        rw [toNat_ofNat_bmp hbmp, ← Bool.not_eq_true, u16IsLead_iff (by omega)]
        omega
      rw [unitsOf_bmp hbmp, List.singleton_append, codePoints_cons_of_not_lead hlead,
        toNat_ofNat_bmp hbmp, ih htail]
    · have hsup : 0xffff < c := by omega
      rw [unitsOf_supplementary hsup]
      change codePoints (u16Lead c :: u16Trail c :: utf16 cps) = _
      rw [codePoints, u16IsLead_u16Lead hsup hle, u16IsTrail_u16Trail, Bool.and_true, if_pos rfl,
        u16GetSupplementary_u16Lead_u16Trail hsup hle, ih htail]

instance wellFormedDecidable (s : List UInt16) : Decidable (WellFormed s) :=
  inferInstanceAs (Decidable (∀ c ∈ codePoints s, IsScalar c))

/-- A well-formed string begins with a unit that is not a surrogate, or with a pair. -/
theorem WellFormed.cons_cases {s : List UInt16} (h : WellFormed (u :: s)) :
    (¬ (0xd800 ≤ u.toNat ∧ u.toNat ≤ 0xdfff) ∧ WellFormed s) ∨
      ((0xd800 ≤ u.toNat ∧ u.toNat ≤ 0xdbff) ∧ ∃ trail s', s = trail :: s' ∧
        (0xdc00 ≤ trail.toNat ∧ trail.toNat ≤ 0xdfff) ∧ WellFormed s') := by
  cases s with
  | nil =>
    refine Or.inl ⟨(h _ (List.mem_singleton.mpr rfl)).not_range, fun c hc => ?_⟩
    cases hc
  | cons trail s =>
    rw [WellFormed, codePoints] at h
    split at h
    · next hpair =>
      rw [Bool.and_eq_true, u16IsLead_iff (by have := u.toNat_lt; omega),
        u16IsTrail_iff (by have := trail.toNat_lt; omega)] at hpair
      exact Or.inr ⟨hpair.1, trail, s, rfl, hpair.2, (List.forall_mem_cons.mp h).2⟩
    · obtain ⟨hu, hs⟩ := List.forall_mem_cons.mp h
      exact Or.inl ⟨hu.not_range, hs⟩

end Icu.Utf16
