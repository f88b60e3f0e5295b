import Icu.Normalizer.Data

/-! # `ReorderingBuffer` keeps the canonical order

A buffer holds the units of a list of code points. Each function that adds to it inserts the
new code points in canonical order, although it only looks at the end of the text.
-/

namespace Icu.Normalizer

open Utf16 Lib.CanonicalOrder

namespace ReorderingBuffer

variable {impl : Normalizer2Impl} {b : ReorderingBuffer} {cps cps' : List Nat} {c cc : Nat}
  {us vs : List UInt16} {as : List Nat}

def lastClass (impl : Normalizer2Impl) (cps : List Nat) : Nat := (cps.getLast?.map impl.ccc).getD 0

/-- `reorderStart` is not before the last code point of `as`, whose combining class is at most 1,
so that no code point is inserted before it. -/
structure Reorderable (impl : Normalizer2Impl) (reorderStart : Nat) (as bs : List Nat) : Prop where
  scalar : ∀ c ∈ bs, IsScalar c
  low : ∀ a, as.getLast? = some a → impl.ccc a ≤ 1
  start_le : reorderStart ≤ (utf16 as).length
  inside : reorderStart < (utf16 as).length → ∀ a, as.getLast? = some a → IsScalar a

structure Holds (impl : Normalizer2Impl) (b : ReorderingBuffer) (cps : List Nat) : Prop where
  text : b.text = utf16 cps
  lastCC : b.lastCC = lastClass impl cps
  reorderable : ∃ as bs, cps = as ++ bs ∧ Reorderable impl b.reorderStart as bs

theorem holds_empty : Holds impl empty [] :=
  ⟨rfl, rfl, [], [], rfl, by simp, by simp, le_refl _, by simp⟩

theorem lastClass_concat (cps : List Nat) (c : Nat) : lastClass impl (cps ++ [c]) = impl.ccc c := by
  simp [lastClass]

/-! ## Backward iteration -/

theorem unitAt_append {us vs : List UInt16} (h : b.text = us ++ vs) (i : Nat) :
    b.unitAt (us.length + i) = (vs.getD i 0).toNat := by
  rw [unitAt, h, List.getD_append_right _ _ _ _ (by omega), Nat.add_sub_cancel_left]

theorem unitAt_last (h : b.text = us ++ (unitsOf c ++ vs)) (hc : IsScalar c) :
    (c ≤ 0xffff → b.unitAt us.length = c ∧ u16IsTrail c = false) ∧
      (0xffff < c → u16IsTrail (b.unitAt (us.length + 1)) = true ∧
        u16IsLead (b.unitAt us.length) = true ∧
        minCccLcccCP ≤ b.unitAt (us.length + 1) ∧
        u16GetSupplementary (b.unitAt us.length) (b.unitAt (us.length + 1)) = c) := by
  have h0 := unitAt_append h 0
  have h1 := unitAt_append h 1
  rw [Nat.add_zero] at h0
  refine ⟨fun hbmp => ?_, fun hsup => ?_⟩
  · rw [unitsOf_bmp hbmp, List.cons_append, List.getD_cons_zero, toNat_ofNat_bmp hbmp] at h0
    refine ⟨h0, ?_⟩
    rw [← Bool.not_eq_true, u16IsTrail_iff (by omega)]
    have := hc.not_range
    omega
  rw [unitsOf_supplementary hsup, List.cons_append, List.getD_cons_zero] at h0
  rw [unitsOf_supplementary hsup, List.cons_append, List.getD_cons_succ, List.cons_append,
    List.getD_cons_zero] at h1
  rw [h0, h1]
  refine ⟨u16IsTrail_u16Trail c, u16IsLead_u16Lead hsup hc.le, ?_,
    u16GetSupplementary_u16Lead_u16Trail hsup hc.le⟩
  rw [toNat_u16Trail, minCccLcccCP]
  omega

theorem skipPrevious_eq (h : b.text = us ++ (unitsOf c ++ vs))
    (hc : IsScalar c) : b.skipPrevious (us.length + (unitsOf c).length) = us.length := by
  obtain ⟨hbmp, hsup⟩ := unitAt_last h hc
  rw [skipPrevious]
  by_cases hle : c ≤ 0xffff
  · obtain ⟨hunit, htrail⟩ := hbmp hle
    rw [unitsOf_bmp hle, List.length_singleton, Nat.add_sub_cancel]
    simp [hunit, htrail]
  obtain ⟨htrail, hlead, -, -⟩ := hsup (by omega)
  rw [unitsOf_supplementary (by omega)]
  simp only [List.length_cons, List.length_nil, Nat.zero_add,
    show us.length + (1 + 1) - 1 = us.length + 1 by omega, Nat.add_sub_cancel]
  rw [if_pos ⟨htrail, by omega, hlead⟩]

theorem previousCC_eq (hwf : impl.WellFormed)
    (h : b.text = us ++ (unitsOf c ++ vs)) (hc : IsScalar c)
    (hstart : b.reorderStart < us.length + (unitsOf c).length) :
    b.previousCC impl (us.length + (unitsOf c).length) = (impl.ccc c, us.length) := by
  obtain ⟨hbmp, hsup⟩ := unitAt_last h hc
  rw [previousCC, if_neg (by omega)]
  by_cases hle : c ≤ 0xffff
  · obtain ⟨hunit, htrail⟩ := hbmp hle
    rw [unitsOf_bmp hle, List.length_singleton, Nat.add_sub_cancel]
    simp only [hunit, htrail, Bool.false_eq_true, false_and, if_false]
    split
    · next hlow => rw [hwf.lowCC c hlow]
    · rfl
  · obtain ⟨htrail, hlead, hlow, hvalue⟩ := hsup (by omega)
    rw [unitsOf_supplementary (by omega)]
    simp only [List.length_cons, List.length_nil, Nat.zero_add,
      show us.length + (1 + 1) - 1 = us.length + 1 by omega, Nat.add_sub_cancel]
    rw [if_neg (by omega), if_pos ⟨htrail, by omega, hlead⟩, hvalue]
    rfl

/-- Nothing behind `as` is skipped if its class is not larger. -/
theorem previousCC_stop (hwf : impl.WellFormed) {bs rest : List Nat} (hcc : 0 < cc)
    (htext : b.text = utf16 (as ++ bs ++ rest)) (hre : Reorderable impl b.reorderStart as bs)
    (hbs : ∀ c, bs.getLast? = some c → impl.ccc c ≤ cc) :
    (b.previousCC impl (utf16 (as ++ bs)).length).1 ≤ cc := by
  have hstart := hre.start_le
  rcases List.eq_nil_or_concat bs with rfl | ⟨bs', y, rfl⟩
  · rw [List.append_nil] at htext ⊢
    by_cases hlt : b.reorderStart < (utf16 as).length
    · rcases List.eq_nil_or_concat as with rfl | ⟨as', a, rfl⟩
      · simp at hlt
      rw [List.concat_eq_append] at htext hlt hre ⊢
      have hle := hre.low a (by simp)
      have hscalar := hre.inside hlt a (by simp)
      have htext' : b.text = utf16 as' ++ (unitsOf a ++ utf16 rest) := by
        rw [htext]
        simp
      have hlen : (utf16 (as' ++ [a])).length = (utf16 as').length + (unitsOf a).length := by
        simp
      rw [hlen] at hlt ⊢
      rw [previousCC_eq hwf htext' hscalar hlt]
      simp only
      omega
    · rw [previousCC, if_pos (by omega)]
      exact Nat.zero_le _
  · rw [List.concat_eq_append] at htext hre hbs ⊢
    have hle := hbs y (by simp)
    have hscalar := hre.scalar y (by simp)
    have htext' : b.text = utf16 (as ++ bs') ++ (unitsOf y ++ utf16 rest) := by
      rw [htext]
      simp
    have hlen : (utf16 (as ++ (bs' ++ [y]))).length =
        (utf16 (as ++ bs')).length + (unitsOf y).length := by
      simp
      omega
    have hpos := length_unitsOf_pos y
    rw [hlen, previousCC_eq hwf htext' hscalar (by
      rw [utf16_append, List.length_append]
      omega)]
    exact hle

/-- The place for a mark: behind `as ++ bs₁`, before code points with larger classes. -/
theorem findPrevious_eq (hwf : impl.WellFormed) {bs₁ : List Nat} (hcc : 0 < cc)
    (hbs₁ : ∀ c, bs₁.getLast? = some c → impl.ccc c ≤ cc) : ∀ (fuel : Nat) (bs₂ rest : List Nat),
    b.text = utf16 (as ++ bs₁ ++ bs₂ ++ rest) → Reorderable impl b.reorderStart as (bs₁ ++ bs₂) →
    (∀ c ∈ bs₂, cc < impl.ccc c) → bs₂.length < fuel →
    b.findPrevious impl cc fuel (utf16 (as ++ bs₁ ++ bs₂)).length = (utf16 (as ++ bs₁)).length := by
  intro fuel
  induction fuel with
  | zero => intro bs₂ rest _ _ _ hfuel; omega
  | succ fuel ih =>
    intro bs₂ rest htext hre hbs₂ hfuel
    rw [findPrevious]
    rcases List.eq_nil_or_concat bs₂ with rfl | ⟨bs', x, rfl⟩
    · -- the loop stops here
      rw [List.append_nil] at htext hre ⊢
      have hstop := previousCC_stop hwf hcc htext hre hbs₁
      generalize b.previousCC impl (utf16 (as ++ bs₁)).length = r at hstop
      obtain ⟨previous, start⟩ := r
      simp only at hstop ⊢
      rw [if_neg (by omega)]
    -- one code point further
    rw [List.concat_eq_append] at htext hre hbs₂ hfuel ⊢
    have hscalar := hre.scalar x (by simp)
    have htext' : b.text = utf16 (as ++ bs₁ ++ bs') ++ (unitsOf x ++ utf16 rest) := by
      rw [htext]
      simp
    have hlen : (utf16 (as ++ bs₁ ++ (bs' ++ [x]))).length =
        (utf16 (as ++ bs₁ ++ bs')).length + (unitsOf x).length := by
      simp
      omega
    have hstart := hre.start_le
    have hpos := length_unitsOf_pos x
    rw [hlen, previousCC_eq hwf htext' hscalar (by
      rw [utf16_append, utf16_append, List.length_append, List.length_append]
      omega)]
    have hgt := hbs₂ x (by simp)
    simp only
    rw [if_pos hgt]
    apply ih bs' (x :: rest)
    · rw [htext]
      simp
    · refine ⟨fun c hc => hre.scalar c ?_, hre.low, hre.start_le, hre.inside⟩
      rw [← List.append_assoc]
      exact List.mem_append_left _ hc
    · exact fun c hc => hbs₂ c (List.mem_append_left _ hc)
    · rw [List.length_append] at hfuel
      simp at hfuel
      omega

/-! ## Adding code points -/

theorem length_le_utf16 : ∀ cps : List Nat, cps.length ≤ (utf16 cps).length
  | [] => le_refl _
  | c :: cps => by
    have := length_le_utf16 cps
    have := length_unitsOf_pos c
    rw [utf16_cons, List.length_append, List.length_cons]
    omega

theorem Holds.insert (hwf : impl.WellFormed) (h : Holds impl b cps) (hc : IsScalar c)
    (hcc : impl.ccc c = cc) (hpos : 0 < cc) (hlt : cc < b.lastCC) :
    Holds impl (b.insert impl c cc) (insertMark impl.ccc c cps) := by
  obtain ⟨as, bs, rfl, hre⟩ := h.reorderable
  have htext := h.text
  have hlast := h.lastCC
  -- the last code point is a mark behind `as`
  obtain ⟨bs', x, rfl⟩ : ∃ bs' x, bs = bs' ++ [x] := by
    rcases List.eq_nil_or_concat bs with rfl | ⟨bs', x, rfl⟩
    · rw [List.append_nil, lastClass] at hlast
      cases ha : as.getLast? with
      | none =>
        rw [ha] at hlast
        simp only [Option.map_none, Option.getD_none] at hlast
        omega
      | some a =>
        have := hre.low a ha
        rw [ha] at hlast
        simp only [Option.map_some, Option.getD_some] at hlast
        omega
    · exact ⟨bs', x, List.concat_eq_append⟩
  rw [← List.append_assoc, lastClass_concat] at hlast
  obtain ⟨bs₁, bs₂, rfl, hbs₁, hbs₂⟩ := @exists_split _ impl.ccc (impl.ccc c) bs'
  rw [hcc] at hbs₁ hbs₂
  have hskip : b.skipPrevious b.text.length = (utf16 (as ++ bs₁ ++ bs₂)).length := by
    have htext' : b.text = utf16 (as ++ bs₁ ++ bs₂) ++ (unitsOf x ++ []) := by
      rw [htext]
      simp
    rw [← skipPrevious_eq htext' (hre.scalar x (by simp)), htext', List.append_nil,
      List.length_append]
  have hfind : b.findPrevious impl cc b.text.length (utf16 (as ++ bs₁ ++ bs₂)).length =
      (utf16 (as ++ bs₁)).length := by
    apply findPrevious_eq hwf hpos hbs₁ _ bs₂ [x]
    · rw [htext]
      simp
    · refine ⟨fun d hd => hre.scalar d (List.mem_append_left _ hd), hre.low, hre.start_le,
        hre.inside⟩
    · exact hbs₂
    · have h1 := length_le_utf16 (as ++ (bs₁ ++ bs₂ ++ [x]))
      rw [← htext] at h1
      simp only [List.length_append, List.length_singleton] at h1
      omega
  have hsplit : insertMark impl.ccc c (as ++ (bs₁ ++ bs₂ ++ [x])) =
      as ++ bs₁ ++ c :: (bs₂ ++ [x]) := by
    rw [show as ++ (bs₁ ++ bs₂ ++ [x]) = (as ++ bs₁) ++ (bs₂ ++ [x]) by simp]
    apply insertMark_split
    · omega
    · intro y hy
      rw [List.getLast?_append] at hy
      cases hlast₁ : bs₁.getLast? with
      | none =>
        rw [hlast₁, Option.none_or] at hy
        have := hre.low y hy
        omega
      | some z =>
        rw [hlast₁, Option.some_or, Option.some.injEq] at hy
        rw [← hy, hcc]
        exact hbs₁ z hlast₁
    · intro y hy
      rw [hcc]
      rcases List.mem_append.mp hy with hy | hy
      · exact hbs₂ y hy
      rw [List.mem_singleton.mp hy]
      omega
  have htake : b.text = utf16 (as ++ bs₁) ++ utf16 (bs₂ ++ [x]) := by
    rw [htext]
    simp
  rw [hsplit]
  refine ⟨?_, ?_, ?_⟩
  · simp only [ReorderingBuffer.insert]
    rw [hskip, hfind, htake, List.take_left, List.drop_left]
    simp
  · simp only [ReorderingBuffer.insert]
    rw [← List.cons_append, ← List.append_assoc, lastClass_concat]
    exact hlast
  · simp only [ReorderingBuffer.insert]
    rw [hskip, hfind]
    by_cases hone : cc ≤ 1
    · refine ⟨as ++ bs₁ ++ [c], bs₂ ++ [x], by simp, ?_, ?_, ?_, ?_⟩
      · intro d hd
        apply hre.scalar
        rw [List.append_assoc]
        exact List.mem_append_right _ hd
      · intro a ha
        obtain rfl : c = a := by simpa using ha
        omega
      · rw [if_pos hone, utf16_append (as ++ bs₁), List.length_append, ← length_unitsOf]
        simp
      · intro hinside
        rw [if_pos hone, utf16_append (as ++ bs₁), List.length_append, ← length_unitsOf] at hinside
        simp at hinside
    · refine ⟨as, bs₁ ++ c :: (bs₂ ++ [x]), by simp, ?_, hre.low, ?_, ?_⟩
      · intro d hd
        rcases List.mem_append.mp hd with hd | hd
        · exact hre.scalar d (by simp [hd])
        rcases List.mem_cons.mp hd with rfl | hd
        · exact hc
        apply hre.scalar
        rw [List.append_assoc]
        exact List.mem_append_right _ hd
      · rw [if_neg hone]
        exact hre.start_le
      · rw [if_neg hone]
        exact hre.inside

/-- A text whose last class is at most 1 is not reordered. -/
theorem holds_of_low {text : List UInt16} {reorderStart : Nat} (htext : text = utf16 cps)
    (hstart : reorderStart = text.length) (hcc : cc = lastClass impl cps) (hlow : cc ≤ 1) :
    Holds impl ⟨text, reorderStart, cc⟩ cps := by
  refine ⟨htext, hcc, cps, [], (List.append_nil cps).symm, by simp, fun a ha => ?_, ?_, ?_⟩
  · rw [lastClass, ha] at hcc
    simp only [Option.map_some, Option.getD_some] at hcc
    omega
  · rw [hstart, htext]
  · intro hlt
    simp only [hstart, htext] at hlt
    omega

theorem Holds.more (h : Holds impl b cps) (hscalar : ∀ c ∈ cps', IsScalar c)
    (hcc : cc = lastClass impl (cps ++ cps')) :
    Holds impl ⟨b.text ++ utf16 cps', b.reorderStart, cc⟩ (cps ++ cps') := by
  obtain ⟨as, bs, rfl, hre⟩ := h.reorderable
  refine ⟨?_, hcc, as, bs ++ cps', by simp, fun c hc => ?_, hre.low, hre.start_le, hre.inside⟩
  · rw [h.text, utf16_append (as ++ bs)]
  rcases List.mem_append.mp hc with hc | hc
  · exact hre.scalar c hc
  · exact hscalar c hc

theorem Holds.append (hwf : impl.WellFormed) (h : Holds impl b cps) (hcc : impl.ccc c = cc)
    (hscalar : cc ≠ 0 → IsScalar c) :
    Holds impl (b.append impl c cc) (insertMark impl.ccc c cps) := by
  rw [ReorderingBuffer.append]
  by_cases happend : b.lastCC ≤ cc ∨ cc = 0
  · have hmark : insertMark impl.ccc c cps = cps ++ [c] := by
      apply insertMark_append
      intro y hy
      rw [Follows, hcc]
      rcases happend with hle | hzero
      · right
        rw [h.lastCC, lastClass, hy] at hle
        exact hle
      · exact .inl hzero
    rw [if_pos happend, hmark]
    by_cases hone : cc ≤ 1
    · rw [if_pos hone]
      apply holds_of_low
      · rw [h.text]
        simp
      · rw [List.length_append, length_unitsOf]
      · rw [lastClass_concat, hcc]
      · exact hone
    · rw [if_neg hone, show unitsOf c = utf16 [c] by simp]
      apply h.more
      · intro d hd
        rw [List.mem_singleton.mp hd]
        exact hscalar (by omega)
      · rw [lastClass_concat, hcc]
  · rw [if_neg happend]
    push Not at happend
    exact h.insert hwf (hscalar happend.2) hcc (by omega) happend.1

theorem Holds.appendZeroCC (h : Holds impl b cps) (hzero : ∀ c ∈ cps', impl.ccc c = 0) :
    Holds impl (b.appendZeroCC (utf16 cps')) (cps ++ cps') := by
  rw [ReorderingBuffer.appendZeroCC]
  rcases List.eq_nil_or_concat cps' with rfl | ⟨ds, d, rfl⟩
  · rw [if_pos (by simp), List.append_nil]
    exact h
  rw [List.concat_eq_append] at hzero ⊢
  have hlen := length_le_utf16 (ds ++ [d])
  rw [List.length_append, List.length_singleton] at hlen
  rw [if_neg (by omega)]
  apply holds_of_low
  · rw [h.text, utf16_append cps]
  · rw [List.length_append]
  · rw [← List.append_assoc, lastClass_concat, hzero d (by simp)]
  · exact Nat.zero_le 1

theorem Holds.appendRest (hwf : impl.WellFormed) {trailCC : Nat} : ∀ {cs : List Nat}
    {b : ReorderingBuffer} {cps : List Nat}, Holds impl b cps → (∀ c ∈ cs, IsScalar c) →
    (∀ c, cs.getLast? = some c → trailCC = impl.ccc c) →
    Holds impl (ReorderingBuffer.appendRest impl trailCC cs b)
      (cs.foldl (fun acc x => insertMark impl.ccc x acc) cps)
  | [], _, _, h, _, _ => h
  | [c], _, _, h, hscalar, htrail => by
    have hcc := htrail c rfl
    exact h.append hwf hcc.symm fun _ => hscalar c (by simp)
  | c :: d :: cs, _, _, h, hscalar, htrail => by
    rw [ReorderingBuffer.appendRest, List.foldl_cons]
    · apply Holds.appendRest hwf
      · exact h.append hwf rfl fun _ => hscalar c (by simp)
      · exact fun e he => hscalar e (List.mem_cons_of_mem c he)
      · intro e he
        apply htrail
        rw [List.getLast?_cons_cons]
        exact he
    · simp

theorem Holds.appendText (hwf : impl.WellFormed) (h : Holds impl b cps) {s : List UInt16}
    {leadCC trailCC : Nat} (hscalar : ∀ c ∈ codePoints s, IsScalar c)
    (hordered : IsOrdered impl.ccc (codePoints s))
    (hlead : ∀ c, (codePoints s).head? = some c → leadCC = impl.ccc c)
    (htrail : ∀ c, (codePoints s).getLast? = some c → trailCC = impl.ccc c) :
    Holds impl (b.appendText impl s leadCC trailCC)
      ((codePoints s).foldl (fun acc x => insertMark impl.ccc x acc) cps) := by
  have hs := utf16_codePoints s
  generalize hds : codePoints s = ds at *
  rw [ReorderingBuffer.appendText, hds]
  cases ds with
  | nil =>
    rw [utf16_nil] at hs
    rw [if_pos (by rw [← hs]; rfl)]
    exact h
  | cons d ds =>
    have hlead := hlead d rfl
    have hlen : s.length ≠ 0 := by
      have := length_le_utf16 (d :: ds)
      rw [hs, List.length_cons] at this
      omega
    rw [if_neg hlen]
    by_cases happend : b.lastCC ≤ leadCC ∨ leadCC = 0
    · have hfold : (d :: ds).foldl (fun acc x => insertMark impl.ccc x acc) cps =
          cps ++ d :: ds := by
        apply foldl_insertMark_isOrdered hordered
        intro x y hx hy
        obtain rfl : d = y := by simpa using hy
        rw [Follows, ← hlead]
        rcases happend with hle | hzero
        · right
          rw [h.lastCC, lastClass, hx] at hle
          exact hle
        · exact .inl hzero
      have hlast : trailCC = lastClass impl (cps ++ d :: ds) := by
        rw [lastClass, List.getLast?_append_of_ne_nil _ (List.cons_ne_nil d ds)]
        cases hx : (d :: ds).getLast? with
        | none => simp at hx
        | some x => rw [htrail x hx]; rfl
      rw [if_pos happend, hfold]
      by_cases htrailLow : trailCC ≤ 1
      · rw [if_pos htrailLow]
        apply holds_of_low
        · rw [h.text, utf16_append cps, hs]
        · rw [List.length_append]
        · exact hlast
        · exact htrailLow
      rw [if_neg htrailLow, ← hs]
      by_cases hleadLow : leadCC ≤ 1
      · -- `reorderStart` can be inside the first code point
        rw [if_pos hleadLow]
        have hpos := length_unitsOf_pos d
        refine ⟨?_, hlast, cps ++ [d], ds, by simp, ?_, ?_, ?_, ?_⟩
        · rw [h.text, utf16_append cps]
        · exact fun c hc => hscalar c (List.mem_cons_of_mem d hc)
        · intro a ha
          obtain rfl : d = a := by simpa using ha
          omega
        · have hunits : utf16 [d] = unitsOf d := by simp
          simp only
          rw [h.text, utf16_append cps, List.length_append, hunits]
          omega
        · intro _ a ha
          obtain rfl : d = a := by simpa using ha
          exact hscalar d List.mem_cons_self
      · rw [if_neg hleadLow]
        exact h.more hscalar hlast
    · rw [if_neg happend]
      push Not at happend
      have hinsert := h.insert hwf (hscalar d List.mem_cons_self) hlead.symm
        (Nat.pos_of_ne_zero happend.2) happend.1
      apply Holds.appendRest hwf hinsert
      · exact fun c hc => hscalar c (List.mem_cons_of_mem d hc)
      intro c hc
      apply htrail
      rw [List.getLast?_cons, hc]
      rfl

end ReorderingBuffer

end Icu.Normalizer
