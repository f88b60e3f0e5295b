import Icu.Normalizer.Data

/-! # The inner loop of `decompose()`

It counts code units that are copied, and stops at the first code point that may change or be
reordered. The units of a supplementary code point are read from either side.
-/

namespace Icu.Normalizer

open Utf16

namespace Normalizer2Impl

variable {impl : Normalizer2Impl} {s : List UInt16} {c prevSrc src : Nat} {src' c' : Nat}

/-! ## Reading the source -/

structure CodePointAt (s : List UInt16) (src c : Nat) : Prop where
  drop_eq : s.drop src = unitsOf c ++ s.drop (src + u16Length c)
  codePoints_eq : codePoints (s.drop src) = c :: codePoints (s.drop (src + u16Length c))

theorem CodePointAt.le_length (h : CodePointAt s src c) : src + u16Length c ≤ s.length := by
  have := congrArg List.length h.drop_eq
  rw [List.length_append, length_unitsOf, List.length_drop, List.length_drop] at this
  have hpos : 0 < u16Length c := by
    rw [← length_unitsOf]
    exact length_unitsOf_pos c
  omega

theorem CodePointAt.le (h : CodePointAt s src c) : c ≤ 0x10ffff := by
  apply codePoints_le (s.drop src)
  rw [h.codePoints_eq]
  exact List.mem_cons_self

theorem drop_eq_cons (h : src < s.length) : ∃ u, s.drop src = u :: s.drop (src + 1) ∧
    srcAt s src = u.toNat := by
  refine ⟨s[src], List.drop_eq_getElem_cons h, ?_⟩
  rw [srcAt, List.getD_eq_getElem s 0 h]

theorem codePointAt_pair (h : src + 1 < s.length) (hlead : u16IsLead (srcAt s src) = true)
    (htrail : u16IsTrail (srcAt s (src + 1)) = true) :
    CodePointAt s src (u16GetSupplementary (srcAt s src) (srcAt s (src + 1))) ∧
      u16Length (u16GetSupplementary (srcAt s src) (srcAt s (src + 1))) = 2 := by
  obtain ⟨u, hu, hu'⟩ := drop_eq_cons (show src < s.length by omega)
  obtain ⟨v, hv, hv'⟩ := drop_eq_cons h
  rw [hu'] at hlead
  rw [hv'] at htrail
  rw [hu', hv']
  have hlen : u16Length (u16GetSupplementary u.toNat v.toNat) = 2 := by
    have := supplementary_bounds hlead htrail
    rw [u16Length, if_neg (by omega)]
  refine ⟨⟨?_, ?_⟩, hlen⟩
  · rw [hlen, hu, hv, unitsOf_pair hlead htrail]
    rfl
  · rw [hlen, hu, hv, codePoints_pair hlead htrail]

theorem codePointAt_unit (h : src < s.length) (hpair : u16IsLead (srcAt s src) = true →
      ¬ (src + 1 ≠ s.length ∧ u16IsTrail (srcAt s (src + 1)) = true)) :
    CodePointAt s src (srcAt s src) ∧ u16Length (srcAt s src) = 1 := by
  obtain ⟨u, hu, hu'⟩ := drop_eq_cons h
  rw [hu'] at hpair ⊢
  have hlen : u16Length u.toNat = 1 := by
    have := u.toNat_lt
    rw [u16Length, if_pos (by omega)]
  refine ⟨⟨?_, ?_⟩, hlen⟩
  · rw [hlen, hu, unitsOf_toNat]
    rfl
  rw [hlen, hu, codePoints_unit]
  intro hlead v hv
  rw [← Bool.not_eq_true]
  intro htrail
  by_cases hend : src + 1 = s.length
  · rw [hend, List.drop_length] at hv
    simp at hv
  obtain ⟨w, hw, hw'⟩ := drop_eq_cons (show src + 1 < s.length by omega)
  rw [hw] at hv
  obtain rfl : w = v := by simpa using hv
  exact hpair hlead ⟨hend, hw' ▸ htrail⟩

structure Reads (s : List UInt16) (prevSrc src : Nat) (C : List Nat) : Prop where
  length_eq : prevSrc + (utf16 C).length = src
  drop_eq : s.drop prevSrc = utf16 C ++ s.drop src
  codePoints_eq : codePoints (s.drop prevSrc) = C ++ codePoints (s.drop src)

theorem srcAt_drop (i : Nat) : srcAt s (prevSrc + i) = ((s.drop prevSrc).getD i 0).toNat := by
  rw [srcAt, List.getD_eq_getElem?_getD, List.getD_eq_getElem?_getD, List.getElem?_drop]

theorem not_lead_of_trail {c : Nat} (hc : c ≤ 0x10ffff) (h : u16IsTrail c = true) :
    u16IsLead c = false := by
  rw [← Bool.not_eq_true, u16IsLead_iff (by omega)]
  rw [u16IsTrail_iff (by omega)] at h
  omega

/-- A trail surrogate behind code points is not part of a pair. -/
theorem Reads.not_lead {C : List Nat} (h : Reads s prevSrc src C) (hlt : src < s.length)
    (htrail : u16IsTrail (srcAt s src) = true) (hstart : prevSrc < src) :
    u16IsLead (srcAt s (src - 1)) = false := by
  obtain ⟨hlen, hdrop, hcps⟩ := h
  rcases List.eq_nil_or_concat C with rfl | ⟨C, d, rfl⟩
  · simp at hlen
    omega
  rw [List.concat_eq_append] at hlen hdrop hcps
  have hd : d ≤ 0x10ffff := by
    apply codePoints_le (s.drop prevSrc)
    rw [hcps]
    simp
  rw [utf16_append, List.length_append] at hlen
  by_cases hbmp : d ≤ 0xffff
  · have hunits : utf16 [d] = [UInt16.ofNat d] := by simp [unitsOf_bmp hbmp]
    rw [hunits, List.length_singleton] at hlen
    have hunit : srcAt s (src - 1) = d := by
      rw [show src - 1 = prevSrc + (utf16 C).length by omega, srcAt_drop, hdrop, utf16_append,
        hunits]
      simp [toNat_ofNat_bmp hbmp]
    -- the two surrogates would be joined
    rw [hunit, ← Bool.not_eq_true]
    intro hlead
    have hle : srcAt s src ≤ 0x10ffff := by
      obtain ⟨u, -, hu⟩ := drop_eq_cons hlt
      have := u.toNat_lt
      omega
    obtain ⟨hat, -⟩ := codePointAt_unit hlt fun hcon => by
      rw [not_lead_of_trail hle htrail] at hcon
      cases hcon
    have hchain := apart_codePoints (s.drop prevSrc)
    rw [hcps, hat.codePoints_eq] at hchain
    obtain ⟨-, -, hapart⟩ := List.isChain_append.mp hchain
    exact hapart d (by simp) (srcAt s src) (by simp) ⟨hlead, htrail⟩
  · have hunits : utf16 [d] = [u16Lead d, u16Trail d] := by
      simp [unitsOf_supplementary (show 0xffff < d by omega)]
    rw [hunits, List.length_cons, List.length_singleton] at hlen
    have hunit : srcAt s (src - 1) = (u16Trail d).toNat := by
      rw [show src - 1 = prevSrc + ((utf16 C).length + 1) by omega, srcAt_drop, hdrop,
        utf16_append, hunits, List.append_assoc, List.getD_append_right _ _ _ _ (by omega)]
      simp
    have := (u16Trail d).toNat_lt
    rw [hunit]
    exact not_lead_of_trail (by omega) (u16IsTrail_u16Trail d)

def Copied (impl : Normalizer2Impl) (s : List UInt16) (prevSrc src : Nat) : Prop :=
  ∃ C, (∀ c ∈ C, impl.Inert c) ∧ prevSrc + (utf16 C).length = src ∧
    s.drop prevSrc = utf16 C ++ s.drop src ∧ codePoints (s.drop prevSrc) =
      C ++ codePoints (s.drop src)

structure Inside (impl : Normalizer2Impl) (s : List UInt16) (prevSrc src : Nat) : Prop where
  start_lt : prevSrc < src
  lt_length : src < s.length
  lead : u16IsLead (srcAt s (src - 1)) = true
  trail : u16IsTrail (srcAt s src) = true
  copied : Copied impl s prevSrc (src - 1)
  inert : impl.Inert (u16GetSupplementary (srcAt s (src - 1)) (srcAt s src))

theorem copied_refl : Copied impl s prevSrc prevSrc := ⟨[], by simp, by simp, by simp, by simp⟩

theorem Copied.start_le (h : Copied impl s prevSrc src) : prevSrc ≤ src := by
  obtain ⟨C, -, hlen, -, -⟩ := h
  omega

theorem Copied.step (h : Copied impl s prevSrc src) (hat : CodePointAt s src c)
    (hinert : impl.Inert c) : Copied impl s prevSrc (src + u16Length c) := by
  obtain ⟨C, hC, hlen, hdrop, hcps⟩ := h
  refine ⟨C ++ [c], ?_, ?_, ?_, ?_⟩
  · intro d hd
    rcases List.mem_append.mp hd with hd | hd
    · exact hC d hd
    rw [List.mem_singleton.mp hd]
    exact hinert
  · rw [utf16_append, List.length_append, ← hlen, ← length_unitsOf]
    simp
    omega
  · rw [hdrop, hat.drop_eq]
    simp
  · rw [hcps, hat.codePoints_eq]
    simp

theorem Copied.not_lead (h : Copied impl s prevSrc src) (hlt : src < s.length)
    (htrail : u16IsTrail (srcAt s src) = true) (hstart : prevSrc < src) :
    u16IsLead (srcAt s (src - 1)) = false := by
  obtain ⟨C, -, hlen, hdrop, hcps⟩ := h
  exact Reads.not_lead ⟨hlen, hdrop, hcps⟩ hlt htrail hstart

variable {fuel norm16 : Nat}

theorem quickCheck_copy (h : src < s.length) (hcopy : srcAt s src < impl.minDecompNoCP ∨
      impl.isMostDecompYesAndZeroCC (impl.singleLead (srcAt s src)) = true) :
    ∃ norm16', impl.quickCheck s prevSrc (fuel + 1) src c norm16 =
      impl.quickCheck s prevSrc fuel (src + 1) (srcAt s src) norm16' := by
  rw [quickCheck, if_pos (by omega)]
  by_cases hlow : srcAt s src < impl.minDecompNoCP
  · exact ⟨norm16, by simp only [if_pos hlow]⟩
  have hmost := hcopy.resolve_left hlow
  exact ⟨impl.singleLead (srcAt s src), by simp only [if_neg hlow, if_pos hmost]⟩

theorem quickCheck_bmp (h : src < s.length) (hcopy : ¬ (srcAt s src < impl.minDecompNoCP ∨
      impl.isMostDecompYesAndZeroCC (impl.singleLead (srcAt s src)) = true))
    (hsurrogate : ¬ uIsSurrogate (srcAt s src) = true) :
    impl.quickCheck s prevSrc (fuel + 1) src c norm16 =
      some (src, srcAt s src, impl.singleLead (srcAt s src)) := by
  rw [not_or] at hcopy
  rw [quickCheck, if_pos (by omega)]
  simp only [if_neg hcopy.1, if_neg hcopy.2, if_pos hsurrogate]

/-- The code point that a surrogate code unit belongs to, and where it starts. -/
def surrogatePair (s : List UInt16) (prevSrc src : Nat) : Nat × Nat :=
  if u16IsLead (srcAt s src) then
    if src + 1 ≠ s.length ∧ u16IsTrail (srcAt s (src + 1)) then
      (src, u16GetSupplementary (srcAt s src) (srcAt s (src + 1)))
    else (src, srcAt s src)
  else
    if prevSrc < src ∧ u16IsLead (srcAt s (src - 1)) then
      (src - 1, u16GetSupplementary (srcAt s (src - 1)) (srcAt s src))
    else (src, srcAt s src)

theorem quickCheck_surrogate (h : src < s.length) (hcopy : ¬ (srcAt s src < impl.minDecompNoCP ∨
      impl.isMostDecompYesAndZeroCC (impl.singleLead (srcAt s src)) = true))
    (hsurrogate : uIsSurrogate (srcAt s src) = true)
    (hpair : surrogatePair s prevSrc src = (src', c')) :
    impl.quickCheck s prevSrc (fuel + 1) src c norm16 =
      if impl.isMostDecompYesAndZeroCC (impl.getNorm16 c') then
        impl.quickCheck s prevSrc fuel (src' + u16Length c') c' (impl.getNorm16 c')
      else some (src', c', impl.getNorm16 c') := by
  rw [not_or] at hcopy
  rw [surrogatePair] at hpair
  rw [quickCheck, if_pos (by omega)]
  simp only [if_neg hcopy.1, if_neg hcopy.2, hsurrogate, not_true, if_false]
  rw [hpair]

/-! ### The whole loop -/

/-- The loop stops at the end or at a code point that is not simply copied. -/
structure Stops (impl : Normalizer2Impl) (s : List UInt16) (prevSrc src c norm16 : Nat) : Prop where
  copied : Copied impl s prevSrc src
  le_length : src ≤ s.length
  stop : src ≠ s.length → CodePointAt s src c ∧ norm16 = impl.getNorm16 c

theorem singleLead_of_not_lead (h : u16IsLead c = false) :
    impl.singleLead c = impl.getNorm16 c := by
  rw [singleLead, if_neg (by rw [h]; exact Bool.false_ne_true)]

theorem WellFormed.inert_of_most (hwf : impl.WellFormed)
    (h : impl.isMostDecompYesAndZeroCC (impl.getNorm16 c) = true) : impl.Inert c :=
  ⟨(hwf.most h).1, (hwf.most h).2⟩

def StopsFrom (impl : Normalizer2Impl) (s : List UInt16) (prevSrc fuel src : Nat) : Prop :=
  ∀ c norm16, ∃ src' c' norm16', impl.quickCheck s prevSrc fuel src c norm16 =
    some (src', c', norm16') ∧ Stops impl s prevSrc src' c' norm16'

theorem stopsFrom_found (hwf : impl.WellFormed) (hcopied : Copied impl s prevSrc src')
    (hat : CodePointAt s src' c') (hrest : Copied impl s prevSrc (src' + u16Length c') →
      StopsFrom impl s prevSrc fuel (src' + u16Length c'))
    (hstep : ∀ c norm16, impl.quickCheck s prevSrc (fuel + 1) src c norm16 =
      if impl.isMostDecompYesAndZeroCC (impl.getNorm16 c') then
        impl.quickCheck s prevSrc fuel (src' + u16Length c') c' (impl.getNorm16 c')
      else some (src', c', impl.getNorm16 c')) :
    StopsFrom impl s prevSrc (fuel + 1) src := by
  intro c norm16
  rw [hstep]
  by_cases hmost : impl.isMostDecompYesAndZeroCC (impl.getNorm16 c') = true
  · rw [if_pos hmost]
    exact hrest (hcopied.step hat (hwf.inert_of_most hmost)) c' _
  rw [if_neg hmost]
  have hle := hat.le_length
  exact ⟨src', c', _, rfl, hcopied, by omega, fun _ => ⟨hat, rfl⟩⟩

theorem quickCheck_stops (hwf : impl.WellFormed) : ∀ (fuel src : Nat), src ≤ s.length →
    s.length - src < fuel → (Copied impl s prevSrc src ∨ Inside impl s prevSrc src) →
    StopsFrom impl s prevSrc fuel src
  | 0, src, _, hfuel, _ => by omega
  | fuel + 1, src, hle, hfuel, hstate => by
    by_cases hend : src = s.length
    · intro c norm16
      have hcopied : Copied impl s prevSrc src := by
        rcases hstate with hcopied | hinside
        · exact hcopied
        have := hinside.lt_length
        omega
      refine ⟨src, c, norm16, ?_, hcopied, hle, fun hne => absurd hend hne⟩
      rw [quickCheck, if_neg (by omega)]
    have hlt : src < s.length := by omega
    obtain ⟨u, -, hu⟩ := drop_eq_cons hlt
    have hunit : srcAt s src ≤ 0xffff := by
      have := u.toNat_lt
      omega
    -- the unit is counted
    have hcopy : srcAt s src < impl.minDecompNoCP ∨
        impl.isMostDecompYesAndZeroCC (impl.singleLead (srcAt s src)) = true →
        (Copied impl s prevSrc (src + 1) ∨ Inside impl s prevSrc (src + 1)) →
        StopsFrom impl s prevSrc (fuel + 1) src := by
      intro hcopy hnext c norm16
      obtain ⟨norm16', hstep⟩ := @quickCheck_copy impl s c prevSrc src fuel norm16 hlt hcopy
      rw [hstep]
      exact quickCheck_stops hwf fuel (src + 1) (by omega) (by omega) hnext _ _
    have hrest : ∀ {src' c'}, CodePointAt s src' c' → src < src' + u16Length c' →
        Copied impl s prevSrc (src' + u16Length c') →
        StopsFrom impl s prevSrc fuel (src' + u16Length c') := by
      intro src' c' hat hlt' hcopied
      exact quickCheck_stops hwf fuel _ hat.le_length (by omega) (.inl hcopied)
    rcases hstate with hcopied | hinside
    · by_cases hlead : u16IsLead (srcAt s src) = true
      · have hsurrogate := (uIsSurrogate_iff_lead_or_trail (by omega)).mpr (.inl hlead)
        by_cases hpair : src + 1 ≠ s.length ∧ u16IsTrail (srcAt s (src + 1)) = true
        · obtain ⟨hat, hlen⟩ := codePointAt_pair (by omega) hlead hpair.2
          by_cases hlow : srcAt s src < impl.minDecompNoCP ∨
              impl.isMostDecompYesAndZeroCC (impl.singleLead (srcAt s src)) = true
          · -- the value of the lead surrogate is for the pair
            refine hcopy hlow (.inr ⟨?_, by omega, hlead, hpair.2, hcopied, ?_⟩)
            · have := hcopied.start_le
              omega
            obtain ⟨v, -, hv⟩ := drop_eq_cons (show src + 1 < s.length by omega)
            rw [singleLead, if_pos hlead] at hlow
            rw [Nat.add_sub_cancel, hu, hv]
            rw [hu] at hlead hlow
            rw [hv] at hpair
            exact hwf.lead u v hlead hpair.2 hlow
          · refine stopsFrom_found hwf hcopied hat (hrest hat (by omega)) fun c norm16 => ?_
            apply quickCheck_surrogate hlt hlow hsurrogate
            rw [surrogatePair, if_pos hlead, if_pos hpair]
        · obtain ⟨hat, hlen⟩ := codePointAt_unit hlt fun _ => hpair
          by_cases hlow : srcAt s src < impl.minDecompNoCP ∨
              impl.isMostDecompYesAndZeroCC (impl.singleLead (srcAt s src)) = true
          · have hstep := hcopied.step hat (hwf.surrogate _ hsurrogate)
            rw [hlen] at hstep
            exact hcopy hlow (.inl hstep)
          · refine stopsFrom_found hwf hcopied hat (hrest hat (by omega)) fun c norm16 => ?_
            apply quickCheck_surrogate hlt hlow hsurrogate
            rw [surrogatePair, if_pos hlead, if_neg hpair]
      · obtain ⟨hat, hlen⟩ := codePointAt_unit hlt fun hcon => absurd hcon hlead
        have hsingle := @singleLead_of_not_lead impl _ (Bool.eq_false_iff.mpr hlead)
        by_cases hlow : srcAt s src < impl.minDecompNoCP ∨
            impl.isMostDecompYesAndZeroCC (impl.singleLead (srcAt s src)) = true
        · have hinert : impl.Inert (srcAt s src) := by
            rcases hlow with hlow | hmost
            · exact hwf.low _ (by omega) hlow (Bool.eq_false_iff.mpr hlead)
            · exact hwf.inert_of_most (hsingle ▸ hmost)
          have hstep := hcopied.step hat hinert
          rw [hlen] at hstep
          exact hcopy hlow (.inl hstep)
        by_cases hsurrogate : uIsSurrogate (srcAt s src) = true
        · have htrail := ((uIsSurrogate_iff_lead_or_trail (by omega)).mp hsurrogate).resolve_left
            hlead
          refine stopsFrom_found hwf hcopied hat (hrest hat (by omega)) fun c norm16 => ?_
          apply quickCheck_surrogate hlt hlow hsurrogate
          rw [surrogatePair, if_neg hlead, if_neg]
          rintro ⟨hstart, hbefore⟩
          rw [hcopied.not_lead hlt htrail hstart] at hbefore
          cases hbefore
        · intro c norm16
          refine ⟨_, _, _, quickCheck_bmp hlt hlow hsurrogate, hcopied, hle, fun _ => ⟨hat, ?_⟩⟩
          exact hsingle
    · -- the trail surrogate of a pair
      obtain ⟨hstart, -, hlead, htrail, hcopied, hinert⟩ := hinside
      have hsub : src - 1 + 1 = src := by omega
      have hnotLead := not_lead_of_trail (show srcAt s src ≤ 0x10ffff by omega) htrail
      obtain ⟨hat, hlen⟩ := @codePointAt_pair s (src - 1) (by omega) hlead (hsub.symm ▸ htrail)
      rw [hsub] at hat hlen
      by_cases hlow : srcAt s src < impl.minDecompNoCP ∨
          impl.isMostDecompYesAndZeroCC (impl.singleLead (srcAt s src)) = true
      · have hstep := hcopied.step hat hinert
        rw [hlen, show src - 1 + 2 = src + 1 by omega] at hstep
        exact hcopy hlow (.inl hstep)
      refine stopsFrom_found hwf hcopied hat (hrest hat (by omega)) fun c norm16 => ?_
      apply quickCheck_surrogate hlt hlow
      · exact (uIsSurrogate_iff_lead_or_trail (by omega)).mpr (.inr htrail)
      rw [surrogatePair, if_neg (by rw [hnotLead]; exact Bool.false_ne_true),
        if_pos ⟨hstart, hlead⟩]

end Normalizer2Impl

end Icu.Normalizer
