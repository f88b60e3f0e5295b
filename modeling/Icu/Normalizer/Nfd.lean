import Icu.Normalizer.Data

/-! # Canonical decompositions

Which strings are their own decompositions, where a decomposition can be split, and when
decomposing twice is the same as decomposing once.
-/

namespace Icu.Normalizer

open Utf16 Lib.CanonicalOrder

namespace Normalizer2Impl

variable {impl : Normalizer2Impl} {s : List UInt16} {cps cps' : List Nat} {c : Nat}
  {us : List UInt16}

def decomposed (impl : Normalizer2Impl) (cps : List Nat) : List Nat :=
  canonicalOrder impl.ccc (cps.flatMap impl.mapping)

structure Stable (impl : Normalizer2Impl) (cps : List Nat) : Prop where
  yes : ∀ c ∈ cps, impl.isDecompYes (impl.getNorm16 c) = true
  ordered : IsOrdered impl.ccc cps

theorem nfd_eq (s : List UInt16) : impl.nfd s = utf16 (impl.decomposed (codePoints s)) := rfl

theorem nfd_utf16 (h : Unjoined cps) : impl.nfd (utf16 cps) = utf16 (impl.decomposed cps) := by
  rw [nfd_eq, h.codePoints_utf16]

theorem flatMap_mapping_of_yes (h : ∀ c ∈ cps, impl.isDecompYes (impl.getNorm16 c) = true) :
    cps.flatMap impl.mapping = cps := by
  induction cps with
  | nil => rfl
  | cons c cps ih =>
    rw [List.flatMap_cons, mapping_of_yes (h c List.mem_cons_self),
      ih fun d hd => h d (List.mem_cons_of_mem c hd)]
    rfl

theorem Stable.decomposed_eq (h : Stable impl cps) : impl.decomposed cps = cps := by
  rw [decomposed, flatMap_mapping_of_yes h.yes, canonicalOrder_eq_self h.ordered]

theorem mem_decomposed {d : Nat} : d ∈ impl.decomposed cps ↔ ∃ c ∈ cps, d ∈ impl.mapping c := by
  rw [decomposed, (perm_canonicalOrder _).mem_iff, List.mem_flatMap]

theorem WellFormed.decomposed_stable (hwf : impl.WellFormed) (h : ∀ c ∈ cps, c ≤ 0x10ffff) :
    Stable impl (impl.decomposed cps) := by
  refine ⟨fun d hd => ?_, isOrdered_canonicalOrder _⟩
  obtain ⟨c, hc, hd⟩ := mem_decomposed.mp hd
  exact (hwf.mapping_yes (h c hc) hd).1

theorem WellFormed.decomposed_le (hwf : impl.WellFormed) (h : ∀ c ∈ cps, c ≤ 0x10ffff) :
    ∀ d ∈ impl.decomposed cps, d ≤ 0x10ffff := by
  intro d hd
  obtain ⟨c, hc, hd⟩ := mem_decomposed.mp hd
  exact (hwf.mapping_yes (h c hc) hd).2

theorem decomposed_boundary (h : Stable impl cps)
    (hlast : ∀ c, cps.getLast? = some c → impl.ccc c ≤ 1) (cps' : List Nat) :
    impl.decomposed (cps ++ cps') = cps ++ impl.decomposed cps' := by
  rw [decomposed, List.flatMap_append, flatMap_mapping_of_yes h.yes,
    canonicalOrder_boundary h.ordered hlast]
  rfl

theorem stable_of_inert (h : ∀ c ∈ cps, impl.Inert c) : Stable impl cps := by
  refine ⟨fun c hc => (h c hc).yes, ?_⟩
  induction cps with
  | nil => exact List.isChain_nil
  | cons c cps ih =>
    rw [IsOrdered, List.isChain_cons]
    refine ⟨fun d hd => .inl ?_, ih fun d hd => h d (List.mem_cons_of_mem c hd)⟩
    exact (h d (List.mem_cons_of_mem c (List.mem_of_head? hd))).zero

theorem decomposed_inert (h : impl.Inert c) (cps : List Nat) :
    impl.decomposed (c :: cps) = c :: impl.decomposed cps := by
  have hinert : ∀ d ∈ [c], impl.Inert d := fun d hd => List.mem_singleton.mp hd ▸ h
  exact decomposed_boundary (stable_of_inert hinert)
    (fun d hd => by rw [(hinert d (List.mem_of_getLast? hd)).zero]; exact Nat.zero_le 1) cps

section

variable (hwf : impl.WellFormed)
include hwf

/-- Code units below the minimum are copied, also when they are only one half of a pair. -/
theorem WellFormed.nfd_low {u : UInt16} (h : u.toNat < impl.minDecompNoCP)
    (s : List UInt16) : impl.nfd (u :: s) = u :: impl.nfd s := by
  have hu := u.toNat_lt
  have hsingle : ∀ (v : UInt16) (t : List UInt16), impl.Inert v.toNat →
      codePoints (v :: t) = v.toNat :: codePoints t → impl.nfd (v :: t) = v :: impl.nfd t := by
    intro v t hinert heq
    rw [nfd_eq, heq, decomposed_inert hinert, utf16_cons, unitsOf_toNat]
    rfl
  by_cases hlead : u16IsLead u.toNat = true
  · by_cases hpair : ∃ v t, s = v :: t ∧ u16IsTrail v.toNat = true
    · obtain ⟨v, t, rfl, htrail⟩ := hpair
      have hv := v.toNat_lt
      have hsurrogate := (@uIsSurrogate_iff_lead_or_trail v.toNat (by omega)).mpr (.inr htrail)
      have hnotLead : u16IsLead v.toNat = false := by
        rw [← Bool.not_eq_true, u16IsLead_iff (by omega)]
        rw [u16IsTrail_iff (by omega)] at htrail
        omega
      rw [hsingle v t (hwf.surrogate _ hsurrogate) (codePoints_cons_of_not_lead hnotLead t),
        nfd_eq, codePoints_pair hlead htrail, decomposed_inert (hwf.lead u v hlead htrail (.inl h)),
        utf16_cons, unitsOf_pair hlead htrail]
      rfl
    · apply hsingle
      · exact hwf.surrogate _ ((uIsSurrogate_iff_lead_or_trail (by omega)).mpr (.inl hlead))
      apply codePoints_unit
      intro _ v hv
      rw [← Bool.not_eq_true]
      intro htrail
      cases s with
      | nil => simp at hv
      | cons w t =>
        obtain rfl : w = v := by simpa using hv
        exact hpair ⟨w, t, rfl, htrail⟩
  · rw [Bool.not_eq_true] at hlead
    exact hsingle u s (hwf.low _ hu h hlead) (codePoints_cons_of_not_lead hlead s)

theorem WellFormed.nfd_lows (h : ∀ u ∈ us, u.toNat < impl.minDecompNoCP) (s : List UInt16) :
    impl.nfd (us ++ s) = us ++ impl.nfd s := by
  induction us with
  | nil => rfl
  | cons u us ih =>
    rw [List.cons_append, hwf.nfd_low (h u List.mem_cons_self),
      ih fun v hv => h v (List.mem_cons_of_mem u hv)]
    rfl

theorem WellFormed.countP_mapping (hc : c ≤ 0x10ffff) :
    (impl.mapping c).countP uIsSurrogate = [c].countP uIsSurrogate := by
  obtain ⟨h1, h2⟩ := hwf.mapping_surrogate hc
  by_cases hs : uIsSurrogate c = true
  · rw [h1 hs]
  rw [Bool.not_eq_true] at hs
  rw [List.countP_eq_zero.mpr fun d hd => by
    rw [(h2 hs d hd).not_surrogate]
    exact Bool.false_ne_true]
  simp [hs]

theorem WellFormed.countP_decomposed (h : ∀ c ∈ cps, c ≤ 0x10ffff) :
    (impl.decomposed cps).countP uIsSurrogate = cps.countP uIsSurrogate := by
  rw [decomposed, (perm_canonicalOrder _).countP_eq]
  induction cps with
  | nil => rfl
  | cons c cps ih =>
    rw [List.flatMap_cons, List.countP_append, hwf.countP_mapping (h c List.mem_cons_self),
      ih fun d hd => h d (List.mem_cons_of_mem c hd), ← List.countP_append]
    rfl

/-- A string does not change exactly if its code points are stable. Surrogates cannot be joined
then, because there would be fewer of them. -/
theorem WellFormed.nfd_eq_self_iff (s : List UInt16) :
    impl.nfd s = s ↔ Stable impl (codePoints s) := by
  constructor
  · intro h
    have hle := codePoints_le s
    have hle' := hwf.decomposed_le hle
    have hcount := (countP_codePoints _ hle').2
    have hcps : codePoints (utf16 (impl.decomposed (codePoints s))) = codePoints s :=
      congrArg codePoints h
    have happart := hcount (by rw [hcps, hwf.countP_decomposed hle])
    rw [Unjoined.codePoints_utf16 ⟨hle', happart⟩] at hcps
    have hstable := hwf.decomposed_stable hle
    rwa [hcps] at hstable
  · intro h
    rw [nfd_eq, h.decomposed_eq, utf16_codePoints]

end

/-- A prefix that is not changed, and that is all of the string if nothing is changed. -/
structure IsSpan (impl : Normalizer2Impl) (s : List UInt16) (p : Nat) : Prop where
  le_length : p ≤ s.length
  end_iff : p = s.length ↔ impl.nfd s = s
  unchanged : impl.nfd (s.take p) = s.take p
  split : impl.nfd s = s.take p ++ impl.nfd (s.drop p)

theorem isSpan_end (h : impl.nfd s = s) : IsSpan impl s s.length := by
  refine ⟨le_refl _, ⟨fun _ => h, fun _ => rfl⟩, ?_, ?_⟩
  · rw [List.take_length, h]
  rw [List.take_length, List.drop_length, h]
  exact (List.append_nil s).symm

theorem isSpan_of_boundary (hcps : codePoints s = cps ++ cps') (hstable : Stable impl cps)
    (hlast : ∀ c, cps.getLast? = some c → impl.ccc c ≤ 1) (hlt : (utf16 cps).length < s.length)
    (hne : impl.nfd s ≠ s) : IsSpan impl s (utf16 cps).length := by
  have hs : s = utf16 cps ++ utf16 cps' := by
    rw [← utf16_append, ← hcps, utf16_codePoints]
  have hunjoined := unjoined_codePoints s
  rw [hcps] at hunjoined
  obtain ⟨h1, h2⟩ := hunjoined.of_append
  have htake : s.take (utf16 cps).length = utf16 cps := by
    rw [hs, List.take_left]
  have hdrop : s.drop (utf16 cps).length = utf16 cps' := by
    rw [hs, List.drop_left]
  refine ⟨hlt.le, ⟨fun hend => absurd hend (by omega), fun heq => absurd heq hne⟩, ?_, ?_⟩
  · rw [htake, nfd_utf16 h1, hstable.decomposed_eq]
  · rw [htake, hdrop, nfd_utf16 h2, nfd_eq, hcps, decomposed_boundary hstable hlast, utf16_append]

theorem IsSpan.lows (hwf : impl.WellFormed) {p : Nat}
    (hus : ∀ u ∈ us, u.toNat < impl.minDecompNoCP) (h : IsSpan impl s p) :
    IsSpan impl (us ++ s) (us.length + p) := by
  have htake : (us ++ s).take (us.length + p) = us ++ s.take p := by
    rw [List.take_append, List.take_of_length_le (by omega), Nat.add_sub_cancel_left]
  have hdrop : (us ++ s).drop (us.length + p) = s.drop p := by
    rw [List.drop_append, List.drop_of_length_le (by omega), Nat.add_sub_cancel_left,
      List.nil_append]
  refine ⟨?_, ?_, ?_, ?_⟩
  · rw [List.length_append]
    exact Nat.add_le_add_left h.le_length _
  · rw [List.length_append, Nat.add_left_cancel_iff, hwf.nfd_lows hus, List.append_cancel_left_eq]
    exact h.end_iff
  · rw [htake, hwf.nfd_lows hus, h.unchanged]
  · rw [htake, hdrop, hwf.nfd_lows hus, h.split, List.append_assoc]

/-- No unpaired surrogates are joined where code points have empty mappings. -/
def KeepsApart (impl : Normalizer2Impl) (cps : List Nat) : Prop :=
  (cps.filter fun c => impl.mapping c ≠ []).IsChain Apart

theorem WellFormed.apart_mapping (hwf : impl.WellFormed) (hle : ∀ c ∈ cps, c ≤ 0x10ffff)
    (h : KeepsApart impl cps) : (cps.flatMap impl.mapping).IsChain Apart := by
  have hfilter : cps.flatMap impl.mapping =
      (cps.filter fun c => impl.mapping c ≠ []).flatMap impl.mapping := by
    clear hle h
    induction cps with
    | nil => rfl
    | cons c cps ih =>
      rw [List.flatMap_cons, ih]
      by_cases hc : impl.mapping c = []
      · rw [List.filter_cons_of_neg (by simpa using hc), hc]
        rfl
      · rw [List.filter_cons_of_pos (by simpa using hc), List.flatMap_cons]
  rw [hfilter]
  rw [KeepsApart] at h
  have hle' : ∀ c ∈ cps.filter fun c => impl.mapping c ≠ [], c ≤ 0x10ffff ∧
    impl.mapping c ≠ [] := by
    intro c hc
    obtain ⟨h1, h2⟩ := List.mem_filter.mp hc
    exact ⟨hle c h1, of_decide_eq_true h2⟩
  generalize cps.filter (fun c => impl.mapping c ≠ []) = ds at h hle'
  clear hfilter hle
  -- the surrogates at the ends of a mapping are those of the code point
  have hsame : ∀ {c d}, c ≤ 0x10ffff → d ∈ impl.mapping c → uIsSurrogate d = true → d = c := by
    intro c d hc hd hs
    obtain ⟨h1, h2⟩ := hwf.mapping_surrogate hc
    by_cases hsc : uIsSurrogate c = true
    · rw [h1 hsc] at hd
      exact List.mem_singleton.mp hd
    have := (h2 (Bool.eq_false_iff.mpr hsc) d hd).not_surrogate
    rw [hs] at this
    cases this
  have hown : ∀ c ≤ 0x10ffff, (impl.mapping c).IsChain Apart := by
    intro c hc
    obtain ⟨h1, h2⟩ := hwf.mapping_surrogate hc
    by_cases hsc : uIsSurrogate c = true
    · rw [h1 hsc]
      exact List.isChain_singleton c
    · exact (unjoined_of_isScalar (h2 (Bool.eq_false_iff.mpr hsc))).apart
  induction ds with
  | nil => exact List.isChain_nil
  | cons c ds ih =>
    obtain ⟨hhead, htail⟩ := List.isChain_cons.mp h
    obtain ⟨hc, -⟩ := hle' c List.mem_cons_self
    rw [List.flatMap_cons, List.isChain_append]
    refine ⟨hown c hc, ih htail fun d hd => hle' d (List.mem_cons_of_mem c hd), ?_⟩
    rintro x hx y hy ⟨hlead, htrail⟩
    cases ds with
    | nil => simp at hy
    | cons d ds =>
      obtain ⟨hd, hne⟩ := hle' d (by simp)
      rw [List.flatMap_cons, List.head?_append_of_ne_nil _ hne] at hy
      have hxm := List.mem_of_getLast? hx
      have hym := List.mem_of_head? hy
      have hxle := (hwf.mapping_yes hc hxm).2
      have hyle := (hwf.mapping_yes hd hym).2
      obtain rfl := hsame hc hxm ((uIsSurrogate_iff_lead_or_trail hxle).mpr (.inl hlead))
      obtain rfl := hsame hd hym ((uIsSurrogate_iff_lead_or_trail hyle).mpr (.inr htrail))
      exact hhead y rfl ⟨hlead, htrail⟩

theorem WellFormed.decomposed_unjoined (hwf : impl.WellFormed) (hle : ∀ c ∈ cps, c ≤ 0x10ffff)
    (h : KeepsApart impl cps) : Unjoined (impl.decomposed cps) := by
  refine ⟨hwf.decomposed_le hle, (isChain_canonicalOrder ?_ (hwf.apart_mapping hle h)).1⟩
  rintro x y hstarters ⟨hlead, htrail⟩
  exact hstarters ⟨(hwf.surrogate x (uIsSurrogate_of_lead hlead)).zero,
    (hwf.surrogate y (uIsSurrogate_of_trail htrail)).zero⟩

/-- Decomposing twice is the same as decomposing once, unless surrogates are joined. -/
theorem WellFormed.nfd_nfd (hwf : impl.WellFormed) (h : KeepsApart impl (codePoints s)) :
    impl.nfd (impl.nfd s) = impl.nfd s := by
  have hle := codePoints_le s
  rw [nfd_eq s, nfd_utf16 (hwf.decomposed_unjoined hle h),
    (hwf.decomposed_stable hle).decomposed_eq]

end Normalizer2Impl

end Icu.Normalizer
