import Icu.Utf16.CodePoints
import Mathlib.Data.List.Chain

/-! # Lists of code points with unpaired surrogates

The units of two unpaired surrogates can be those of one supplementary code point. A list of
code points is read back from its units if no two of its surrogates are joined.
-/

namespace Icu.Utf16

open Lib

variable {c : Nat} {s : List UInt16} {u v : UInt16} {cps : List Nat}

def Apart (c d : Nat) : Prop := ¬ (u16IsLead c = true ∧ u16IsTrail d = true)

/-- The values of code points, with unpaired surrogates that stay unpaired. -/
structure Unjoined (cps : List Nat) : Prop where
  le : ∀ c ∈ cps, c ≤ 0x10ffff
  apart : cps.IsChain Apart

theorem uIsSurrogate_iff_lead_or_trail {c : Nat} (hc : c ≤ 0x10ffff) :
    uIsSurrogate c = true ↔ u16IsLead c = true ∨ u16IsTrail c = true := by
  rw [uIsSurrogate_iff (by omega), u16IsLead_iff (by omega), u16IsTrail_iff (by omega)]
  omega

theorem uIsSurrogate_of_lead (h : u16IsLead c = true) : uIsSurrogate c = true := by
  rw [u16IsLead, beq_iff_eq] at h
  rw [uIsSurrogate, beq_iff_eq, show 0xfffff800 = 0xfffffc00 &&& 0xfffff800 by decide,
    ← Nat.land_assoc, h]
  decide

theorem uIsSurrogate_of_trail (h : u16IsTrail c = true) : uIsSurrogate c = true := by
  rw [u16IsTrail, beq_iff_eq] at h
  rw [uIsSurrogate, beq_iff_eq, show 0xfffff800 = 0xfffffc00 &&& 0xfffff800 by decide,
    ← Nat.land_assoc, h]
  decide

theorem not_lead_of_supplementary (h : 0xffff < c) (hc : c ≤ 0x10ffff) : u16IsLead c = false := by
  rw [← Bool.not_eq_true, u16IsLead_iff (by omega)]
  omega

theorem not_trail_of_supplementary (h : 0xffff < c) (hc : c ≤ 0x10ffff) : u16IsTrail c = false := by
  rw [← Bool.not_eq_true, u16IsTrail_iff (by omega)]
  omega

theorem length_unitsOf_pos (c : Nat) : 0 < (unitsOf c).length := by
  rw [length_unitsOf, u16Length]
  split <;> omega

theorem codePoints_unit
    (h : u16IsLead u.toNat = true → ∀ v, s.head? = some v → u16IsTrail v.toNat = false) :
    codePoints (u :: s) = u.toNat :: codePoints s := by
  cases s with
  | nil => rfl
  | cons v s =>
    rw [codePoints, if_neg]
    intro hcon
    obtain ⟨h1, h2⟩ := (Bool.and_eq_true _ _).mp hcon
    rw [h h1 v rfl] at h2
    cases h2

theorem codePoints_pair (hu : u16IsLead u.toNat = true) (hv : u16IsTrail v.toNat = true) :
    codePoints (u :: v :: s) = u16GetSupplementary u.toNat v.toNat :: codePoints s := by
  rw [codePoints, if_pos (by rw [hu, hv]; rfl)]

theorem codePoints_supplementary (h : 0xffff < c) (hc : c ≤ 0x10ffff) (s : List UInt16) :
    codePoints (unitsOf c ++ s) = c :: codePoints s := by
  rw [unitsOf_supplementary h, List.cons_append, List.cons_append, List.nil_append,
    codePoints_pair (u16IsLead_u16Lead h hc) (u16IsTrail_u16Trail c),
    u16GetSupplementary_u16Lead_u16Trail h hc]

theorem head_unitsOf (hc : c ≤ 0x10ffff) (s : List UInt16)
    (hv : (unitsOf c ++ s).head? = some v) (htrail : u16IsTrail v.toNat = true) :
    u16IsTrail c = true := by
  by_cases hbmp : c ≤ 0xffff
  · rw [unitsOf_bmp hbmp] at hv
    obtain rfl : UInt16.ofNat c = v := by simpa using hv
    rwa [toNat_ofNat_bmp hbmp] at htrail
  rw [unitsOf_supplementary (by omega)] at hv
  obtain rfl : u16Lead c = v := by simpa using hv
  rw [toNat_u16Lead (by omega) hc, u16IsTrail_iff (by omega)] at htrail
  omega

theorem Unjoined.codePoints_utf16 : ∀ {cps : List Nat}, Unjoined cps → codePoints (utf16 cps) = cps
  | [], _ => rfl
  | c :: cps, h => by
    have hc := h.le c List.mem_cons_self
    obtain ⟨hhead, htail⟩ := List.isChain_cons.mp h.apart
    have ih := @Unjoined.codePoints_utf16 cps
      ⟨fun d hd => h.le d (List.mem_cons_of_mem c hd), htail⟩
    rw [utf16_cons]
    by_cases hbmp : c ≤ 0xffff
    · rw [unitsOf_bmp hbmp, List.cons_append, List.nil_append, codePoints_unit ?_, ih,
        toNat_ofNat_bmp hbmp]
      rw [toNat_ofNat_bmp hbmp]
      intro hlead v hv
      rw [← Bool.not_eq_true]
      intro htrail
      cases cps with
      | nil => simp at hv
      | cons d cps =>
        rw [utf16_cons] at hv
        exact hhead d rfl ⟨hlead,
          head_unitsOf (h.le d (List.mem_cons_of_mem c List.mem_cons_self)) _ hv htrail⟩
    · rw [codePoints_supplementary (by omega) hc, ih]

theorem supplementary_bounds (hu : u16IsLead u.toNat = true) (hv : u16IsTrail v.toNat = true) :
    0xffff < u16GetSupplementary u.toNat v.toNat ∧
      u16GetSupplementary u.toNat v.toNat ≤ 0x10ffff := by
  have hlt := u.toNat_lt
  have hlt' := v.toNat_lt
  rw [u16IsLead_iff (by omega)] at hu
  rw [u16IsTrail_iff (by omega)] at hv
  exact u16GetSupplementary_bounds hu hv

theorem codePoints_le (s : List UInt16) : ∀ c ∈ codePoints s, c ≤ 0x10ffff := by
  induction s using codePoints.induct with
  | case1 => simp [codePoints]
  | case2 u =>
    intro c hc
    obtain rfl : c = u.toNat := by simpa [codePoints] using hc
    have := u.toNat_lt
    omega
  | case3 u u2 s hpair ih =>
    intro c hc
    rw [codePoints, if_pos hpair] at hc
    rcases List.mem_cons.mp hc with heq | hc
    · obtain ⟨h1, h2⟩ := (Bool.and_eq_true _ _).mp hpair
      rw [heq]
      exact (supplementary_bounds h1 h2).2
    · exact ih c hc
  | case4 u u2 s hpair ih =>
    intro c hc
    rw [codePoints, if_neg hpair] at hc
    rcases List.mem_cons.mp hc with rfl | hc
    · have := u.toNat_lt
      omega
    · exact ih c hc

/-- The first code point of a string is a trail surrogate only if its first unit is one. -/
theorem head_codePoints (hc : (codePoints (u :: s)).head? = some c) (htrail : u16IsTrail c = true) :
    u16IsTrail u.toNat = true := by
  cases s with
  | nil =>
    obtain rfl : u.toNat = c := by simpa [codePoints] using hc
    exact htrail
  | cons v s =>
    rw [codePoints] at hc
    split at hc
    · next hpair =>
      obtain ⟨h1, h2⟩ := (Bool.and_eq_true _ _).mp hpair
      have hb := supplementary_bounds h1 h2
      rw [List.head?_cons, Option.some.injEq] at hc
      rw [hc] at hb
      rw [not_trail_of_supplementary hb.1 hb.2] at htrail
      cases htrail
    · obtain rfl : u.toNat = c := by simpa using hc
      exact htrail

theorem apart_codePoints (s : List UInt16) : (codePoints s).IsChain Apart := by
  induction s using codePoints.induct with
  | case1 => exact List.isChain_nil
  | case2 u => exact List.isChain_singleton _
  | case3 u u2 s hpair ih =>
    obtain ⟨h1, h2⟩ := (Bool.and_eq_true _ _).mp hpair
    have hb := supplementary_bounds h1 h2
    rw [codePoints_pair h1 h2, List.isChain_cons]
    refine ⟨fun d _ hcon => ?_, ih⟩
    rw [not_lead_of_supplementary hb.1 hb.2] at hcon
    exact Bool.false_ne_true hcon.1
  | case4 u u2 s hpair ih =>
    rw [codePoints, if_neg hpair, List.isChain_cons]
    refine ⟨fun d hd hcon => hpair ?_, ih⟩
    rw [hcon.1, head_codePoints hd hcon.2]
    rfl

theorem unjoined_codePoints (s : List UInt16) : Unjoined (codePoints s) :=
  ⟨codePoints_le s, apart_codePoints s⟩

theorem Unjoined.of_append {cps' : List Nat} (h : Unjoined (cps ++ cps')) :
    Unjoined cps ∧ Unjoined cps' := by
  obtain ⟨h1, h2, -⟩ := List.isChain_append.mp h.apart
  exact ⟨⟨fun c hc => h.le c (List.mem_append_left _ hc), h1⟩,
    ⟨fun c hc => h.le c (List.mem_append_right _ hc), h2⟩⟩

theorem unjoined_of_isScalar (h : ∀ c ∈ cps, IsScalar c) : Unjoined cps := by
  refine ⟨fun c hc => (h c hc).le, ?_⟩
  induction cps with
  | nil => exact List.isChain_nil
  | cons c cps ih =>
    rw [List.isChain_cons]
    refine ⟨fun d _ hcon => ?_, ih fun d hd => h d (List.mem_cons_of_mem c hd)⟩
    have hc := h c List.mem_cons_self
    have := (uIsSurrogate_iff_lead_or_trail hc.le).mpr (.inl hcon.1)
    rw [hc.not_surrogate] at this
    cases this

/-- Reading code points back can only take unpaired surrogates away. -/
theorem countP_codePoints : ∀ (cps : List Nat), (∀ c ∈ cps, c ≤ 0x10ffff) →
    (codePoints (utf16 cps)).countP uIsSurrogate ≤ cps.countP uIsSurrogate ∧
      ((codePoints (utf16 cps)).countP uIsSurrogate = cps.countP uIsSurrogate → cps.IsChain Apart)
  | [], _ => ⟨le_refl _, fun _ => List.isChain_nil⟩
  | c :: cps, hle => by
    have hc := hle c List.mem_cons_self
    have hrest : ∀ d ∈ cps, d ≤ 0x10ffff := fun d hd => hle d (List.mem_cons_of_mem c hd)
    obtain ⟨ih1, ih2⟩ := countP_codePoints cps hrest
    have hsplit : codePoints (utf16 (c :: cps)) = c :: codePoints (utf16 cps) →
        (∀ d, cps.head? = some d → Apart c d) →
        (codePoints (utf16 (c :: cps))).countP uIsSurrogate ≤ (c :: cps).countP uIsSurrogate ∧
          ((codePoints (utf16 (c :: cps))).countP uIsSurrogate = (c :: cps).countP uIsSurrogate →
            (c :: cps).IsChain Apart) := by
      intro heq hapart
      rw [heq, List.countP_cons, List.countP_cons]
      refine ⟨by omega, fun hcount => ?_⟩
      rw [List.isChain_cons]
      exact ⟨hapart, ih2 (by omega)⟩
    by_cases hbmp : c ≤ 0xffff
    · by_cases hjoin : u16IsLead c = true ∧ ∃ d, cps.head? = some d ∧ u16IsTrail d = true
      · -- a lead and a trail surrogate become one code point
        obtain ⟨hlead, d, hd, htrail⟩ := hjoin
        obtain ⟨cps', rfl⟩ : ∃ cps', cps = d :: cps' := by
          cases cps with
          | nil => simp at hd
          | cons e cps' => exact ⟨cps', by rw [show e = d by simpa using hd]⟩
        have hdle := hrest d List.mem_cons_self
        have hdbmp : d ≤ 0xffff := by
          rw [u16IsTrail_iff (by omega)] at htrail
          omega
        obtain ⟨ih1', -⟩ := countP_codePoints cps' fun e he => hrest e (List.mem_cons_of_mem d he)
        have hlead' : u16IsLead (UInt16.ofNat c).toNat = true := by rwa [toNat_ofNat_bmp hbmp]
        have htrail' : u16IsTrail (UInt16.ofNat d).toNat = true := by rwa [toNat_ofNat_bmp hdbmp]
        have hb := supplementary_bounds hlead' htrail'
        have hnot : uIsSurrogate (u16GetSupplementary (UInt16.ofNat c).toNat
            (UInt16.ofNat d).toNat) = false := by
          rw [← Bool.not_eq_true, uIsSurrogate_iff (by omega)]
          omega
        have hsc : uIsSurrogate c = true := (uIsSurrogate_iff_lead_or_trail hc).mpr (.inl hlead)
        have hsd : uIsSurrogate d = true :=
          (uIsSurrogate_iff_lead_or_trail hdle).mpr (.inr htrail)
        have heq : codePoints (utf16 (c :: d :: cps')) =
            u16GetSupplementary (UInt16.ofNat c).toNat (UInt16.ofNat d).toNat ::
              codePoints (utf16 cps') := by
          rw [utf16_cons, utf16_cons, unitsOf_bmp hbmp, unitsOf_bmp hdbmp]
          exact codePoints_pair hlead' htrail'
        rw [heq, List.countP_cons, List.countP_cons, List.countP_cons, hnot, hsc, hsd]
        simp only [Bool.false_eq_true, if_false, if_true]
        exact ⟨by omega, fun hcount => by omega⟩
      · apply hsplit
        · rw [utf16_cons, unitsOf_bmp hbmp, List.cons_append, List.nil_append,
            codePoints_unit ?_, toNat_ofNat_bmp hbmp]
          rw [toNat_ofNat_bmp hbmp]
          intro hlead v hv
          rw [← Bool.not_eq_true]
          intro htrail
          cases cps with
          | nil => simp at hv
          | cons d cps =>
            rw [utf16_cons] at hv
            exact hjoin ⟨hlead, d, rfl, head_unitsOf (hrest d List.mem_cons_self) _ hv htrail⟩
        · exact fun d hd hcon => hjoin ⟨hcon.1, d, hd, hcon.2⟩
    · apply hsplit
      · rw [utf16_cons, codePoints_supplementary (by omega) hc]
      intro d _ hcon
      rw [not_lead_of_supplementary (by omega) hc] at hcon
      exact Bool.false_ne_true hcon.1

theorem u16Next_codePoints {i : Nat} (hi : i < s.length) :
    ∃ c j, u16Next s i s.length = some (c, j) ∧ i < j ∧ j ≤ s.length ∧
      codePoints (s.drop i) = c :: codePoints (s.drop j) := by
  obtain ⟨u, hu⟩ : ∃ u, s[i]? = some u := ⟨s[i], List.getElem?_eq_getElem hi⟩
  have hdrop : s.drop i = u :: s.drop (i + 1) := by
    rw [List.drop_eq_getElem_cons hi]
    rw [List.getElem?_eq_getElem hi, Option.some.injEq] at hu
    rw [hu]
  have hunit : unitAt s i = some u.toNat := by
    rw [unitAt, hu]
    rfl
  have hlt := u.toNat_lt
  have hlead := @u16IsLead_iff u.toNat (by omega)
  by_cases hlast : i + 1 = s.length
  · refine ⟨u.toNat, i + 1, u16Next_unit hunit (fun _ h => absurd hlast h), by omega, by omega, ?_⟩
    rw [hdrop, hlast, List.drop_length]
    rfl
  have hi' : i + 1 < s.length := by omega
  obtain ⟨v, hv⟩ : ∃ v, s[i + 1]? = some v := ⟨s[i + 1], List.getElem?_eq_getElem hi'⟩
  have hdrop' : s.drop (i + 1) = v :: s.drop (i + 2) := by
    rw [List.drop_eq_getElem_cons hi']
    rw [List.getElem?_eq_getElem hi', Option.some.injEq] at hv
    rw [hv]
  have hunit' : unitAt s (i + 1) = some v.toNat := by
    rw [unitAt, hv]
    rfl
  have hlt' := v.toNat_lt
  have htrail := @u16IsTrail_iff v.toNat (by omega)
  by_cases hpair : u16IsLead u.toNat = true ∧ u16IsTrail v.toNat = true
  · refine ⟨_, i + 2, u16Next_pair hunit (hlead.mp hpair.1) hlast hunit' (htrail.mp hpair.2),
      by omega, by omega, ?_⟩
    rw [hdrop, hdrop', codePoints_pair hpair.1 hpair.2]
  refine ⟨u.toNat, i + 1, u16Next_unit hunit (fun h _ => ⟨v.toNat, hunit', fun h' =>
    hpair ⟨hlead.mpr h, htrail.mpr h'⟩⟩), by omega, by omega, ?_⟩
  rw [hdrop, codePoints_unit]
  intro h w hw
  rw [hdrop', List.head?_cons, Option.some.injEq] at hw
  rw [← hw, ← Bool.not_eq_true]
  exact fun h' => hpair ⟨h, h'⟩

end Icu.Utf16
