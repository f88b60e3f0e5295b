import Icu.Lib.InsertionCode
import Icu.Utf16.CodePoints
import Icu.Punycode.Digits

/-! # The decoder as a sequence of insertions

The main decoding loop reads one delta after another. Its state follows a cursor that is
advanced by these deltas, and the buffer holds the string of the cursor's list.
-/

namespace Icu.Punycode

open Lib.InsertionCode Utf16

def writeDeltas (bias count : Nat) (firstTime : Bool) : List Nat → List UInt16
  | [] => []
  | delta :: deltas =>
    writeDelta bias (delta + 1) delta base ++
      writeDeltas (adaptBias delta (count + 1) firstTime) (count + 1) false deltas

theorem u16Fwd1_unitsOf {pre rest : List UInt16} {c : Nat} (hc : IsScalar c) :
    u16Fwd1 (pre ++ (unitsOf c ++ rest)) pre.length (pre ++ (unitsOf c ++ rest)).length =
      pre.length + (unitsOf c).length := by
  have hnot := hc.not_range
  have hle := hc.le
  by_cases hbmp : c ≤ 0xffff
  · have hlead : u16IsLead (UInt16.ofNat c).toNat = false := by
      rw [toNat_ofNat_bmp hbmp, ← Bool.not_eq_true, u16IsLead_iff (by omega)]
      omega
    rw [unitsOf_bmp hbmp, u16Fwd1, List.getElem?_append_right (Nat.le_refl _), Nat.sub_self]
    split
    · next u _ hu _ =>
      rw [← Option.some.inj hu, hlead, Bool.false_and, Bool.false_and, if_neg Bool.false_ne_true]
      rfl
    · rfl
  have hsup : 0xffff < c := by omega
  rw [unitsOf_supplementary hsup, u16Fwd1, List.getElem?_append_right (Nat.le_refl _),
    List.getElem?_append_right (Nat.le_add_right _ 1), Nat.sub_self, Nat.add_sub_cancel_left]
  have hend : (pre.length + 1 != (pre ++ ([u16Lead c, u16Trail c] ++ rest)).length) = true := by
    rw [bne_iff_ne]
    simp only [List.length_append, List.length_cons]
    omega
  change (if _ then _ else _) = _
  rw [u16IsLead_u16Lead hsup hle, u16IsTrail_u16Trail, hend]
  rfl

theorem u16FwdN_utf16 {mid : List Nat} (hmid : ∀ c ∈ mid, IsScalar c) (pre rest : List Nat) :
    u16FwdN (utf16 (pre ++ (mid ++ rest))) (utf16 (pre ++ (mid ++ rest))).length
      (utf16 pre).length mid.length = (utf16 (pre ++ mid)).length := by
  induction mid generalizing pre with
  | nil => rw [List.append_nil, List.length_nil, u16FwdN]
  | cons c mid ih =>
    obtain ⟨hc, htail⟩ := List.forall_mem_cons.mp hmid
    have hpos : 0 < (unitsOf c).length := by
      rw [length_unitsOf, u16Length]
      split <;> decide
    have hlt : (utf16 pre).length < (utf16 (pre ++ (c :: mid ++ rest))).length := by
      simp only [utf16_append, List.cons_append, utf16_cons, List.length_append]
      omega
    have hstep := @u16Fwd1_unitsOf (utf16 pre) (utf16 (mid ++ rest)) c hc
    have hnext := ih htail (pre ++ [c])
    rw [List.append_assoc, List.singleton_append] at hnext
    rw [List.length_cons, u16FwdN, if_pos hlt, utf16_append, List.cons_append, utf16_cons, hstep,
      ← utf16_cons, ← List.cons_append, ← utf16_append]
    rw [utf16_append pre [c], utf16_cons, utf16_nil, List.append_nil, List.length_append] at hnext
    rw [← List.cons_append] at hnext
    rw [hnext, List.append_assoc, List.singleton_append]

theorem length_utf16_of_bmp {cps : List Nat} (h : ∀ x ∈ cps, x ≤ 0xffff) :
    (utf16 cps).length = cps.length := by
  induction cps with
  | nil => rfl
  | cons c cps ih =>
    obtain ⟨hc, htail⟩ := List.forall_mem_cons.mp h
    rw [utf16_cons, List.length_append, ih htail, unitsOf_bmp hc, List.length_singleton,
      List.length_cons, Nat.add_comm]

/-- There are only BMP code points before an index. -/
def BmpBefore (index : Nat) (cps : List Nat) : Prop := ∀ x ∈ cps.take index, x ≤ 0xffff

structure Follows (destCapacity : Nat) (s : FromState) (c : Cursor) : Prop where
  n : s.n = c.n
  i : s.i = c.i
  count : s.destCPCount = c.list.length
  length : s.destLength = (utf16 c.list).length
  scalar : ∀ x ∈ c.list, IsScalar x
  dest : s.destLength ≤ destCapacity →
    s.dest = utf16 c.list ∧ BmpBefore s.firstSupplementaryIndex c.list

section CodeUnitIndex

variable {s : FromState} {cps : List Nat} (hbmp : BmpBefore s.firstSupplementaryIndex cps)
  (hi : s.i ≤ cps.length)

include hbmp hi

theorem codeUnitIndex_fst (hdest : s.dest = utf16 cps) (hlength : s.destLength = (utf16 cps).length)
    (hscalar : ∀ x ∈ cps, IsScalar x) (cpLength : Nat) :
    (codeUnitIndex s cpLength).1 = (utf16 (cps.take s.i)).length := by
  have htake : (cps.take s.i).length = s.i := by rw [List.length_take, Nat.min_eq_left hi]
  unfold codeUnitIndex
  by_cases hle : s.i ≤ s.firstSupplementaryIndex
  · have hsub := List.take_subset_take_left cps hle
    rw [if_pos hle, length_utf16_of_bmp (fun x hx => hbmp x (hsub hx)), htake]
  rw [if_neg hle]
  -- `cps` in three parts: up to the first index, up to i, and the rest.
  have hmid : ∀ x ∈ (cps.take s.i).drop s.firstSupplementaryIndex, IsScalar x :=
    fun x hx => hscalar x (List.mem_of_mem_take (List.mem_of_mem_drop hx))
  have hpre : (cps.take s.i).take s.firstSupplementaryIndex =
    cps.take s.firstSupplementaryIndex := by
    rw [List.take_take, Nat.min_eq_left (by omega)]
  have hfwd := u16FwdN_utf16 hmid ((cps.take s.i).take s.firstSupplementaryIndex) (cps.drop s.i)
  rw [← List.append_assoc, List.take_append_drop, List.take_append_drop, List.length_drop, htake,
    hpre, length_utf16_of_bmp hbmp, List.length_take, Nat.min_eq_left (by omega)] at hfwd
  rw [hdest, hlength, hfwd]

theorem bmpBefore_codeUnitIndex :
    BmpBefore (codeUnitIndex s (u16Length s.n)).2 (insertAt s.i s.n cps) := by
  have htake : (cps.take s.i).length = s.i := by rw [List.length_take, Nat.min_eq_left hi]
  intro x hx
  unfold codeUnitIndex at hx
  by_cases hle : s.i ≤ s.firstSupplementaryIndex
  · rw [if_pos hle] at hx
    by_cases hn : s.n ≤ 0xffff
    · rw [u16Length, if_pos hn, if_neg (by decide), insertAt, List.take_append, htake,
        Nat.succ_sub hle, List.take_succ_cons, List.mem_append, List.mem_cons] at hx
      rcases hx with hx | rfl | hx
      · exact hbmp x (List.take_subset_take_left cps hle (List.mem_of_mem_take hx))
      · exact hn
      · rw [← List.drop_take] at hx
        exact hbmp x (List.mem_of_mem_drop hx)
    · rw [u16Length, if_neg hn, if_pos (by decide), insertAt, List.take_append_of_le_length
        (by omega),
        List.take_take, Nat.min_self] at hx
      exact hbmp x (List.take_subset_take_left cps hle hx)
  · rw [if_neg hle] at hx
    rw [insertAt, List.take_append_of_le_length (by omega), List.take_take,
      Nat.min_eq_left (by omega)] at hx
    exact hbmp x hx

end CodeUnitIndex

theorem utf16_insertAt (p x : Nat) (cps : List Nat) : utf16 (insertAt p x cps) =
      (utf16 cps).take (utf16 (cps.take p)).length ++ unitsOf x ++
        (utf16 cps).drop (utf16 (cps.take p)).length := by
  have hsplit : utf16 cps = utf16 (cps.take p) ++ utf16 (cps.drop p) := by
    rw [← utf16_append, List.take_append_drop]
  rw [hsplit, List.take_left, List.drop_left, insertAt, utf16_append, utf16_cons, List.append_assoc]

/-! ## One round -/

def FromState.reached (s : FromState) (delta : Nat) : FromState :=
  { s with n := s.n + (s.i + delta) / (s.destCPCount + 1),
           i := (s.i + delta) % (s.destCPCount + 1),
           bias := adaptBias delta (s.destCPCount + 1) (s.i == 0),
           destCPCount := s.destCPCount + 1 }

section Frame

variable (destCapacity : Nat) (s : FromState)

@[simp] theorem insertCodePoint_n : (insertCodePoint destCapacity s).n = s.n := by
  simp only [insertCodePoint]
  split <;> rfl

@[simp] theorem insertCodePoint_i : (insertCodePoint destCapacity s).i = s.i + 1 := by
  simp only [insertCodePoint]
  split <;> rfl

@[simp] theorem insertCodePoint_bias : (insertCodePoint destCapacity s).bias = s.bias := by
  simp only [insertCodePoint]
  split <;> rfl

@[simp] theorem insertCodePoint_destLength :
    (insertCodePoint destCapacity s).destLength = s.destLength + u16Length s.n := by
  simp only [insertCodePoint]
  split <;> rfl

@[simp] theorem insertCodePoint_destCPCount :
    (insertCodePoint destCapacity s).destCPCount = s.destCPCount := by
  simp only [insertCodePoint]
  split <;> rfl

end Frame

theorem insertCodePoint_dest {destCapacity : Nat} {s : FromState} {cps : List Nat}
    (hdest : s.dest = utf16 cps) (hlength : s.destLength = (utf16 cps).length)
    (hscalar : ∀ x ∈ cps, IsScalar x) (hbmp : BmpBefore s.firstSupplementaryIndex cps)
    (hi : s.i ≤ cps.length) (hroom : s.destLength + u16Length s.n ≤ destCapacity) :
    (insertCodePoint destCapacity s).dest = utf16 (insertAt s.i s.n cps) ∧
      BmpBefore (insertCodePoint destCapacity s).firstSupplementaryIndex
        (insertAt s.i s.n cps) := by
  have hindex := codeUnitIndex_fst hbmp hi hdest hlength hscalar (u16Length s.n)
  have hbefore := bmpBefore_codeUnitIndex hbmp hi
  have hunits : (if u16Length s.n = 1 then [UInt16.ofNat s.n] else [u16Lead s.n, u16Trail s.n]) =
      unitsOf s.n := by
    unfold u16Length unitsOf
    split <;> rfl
  simp only [insertCodePoint, if_pos hroom, hindex, hunits]
  refine ⟨?_, hbefore⟩
  rw [hdest, utf16_insertAt]

theorem length_utf16_insertAt (p x : Nat) (cps : List Nat) :
    (utf16 (insertAt p x cps)).length = (utf16 cps).length + u16Length x := by
  rw [utf16_insertAt, List.length_append, List.length_append, length_unitsOf, Nat.add_right_comm,
    ← List.length_append, List.take_append_drop]

theorem Follows.reached_n {destCapacity : Nat} {s : FromState} {c : Cursor}
    (h : Follows destCapacity s c) (delta : Nat) : (s.reached delta).n = (c.advance delta).n := by
  simp only [FromState.reached, Cursor.advance, h.n, h.i, h.count]

theorem Follows.insertCodePoint {destCapacity : Nat} {s : FromState} {c : Cursor}
    (h : Follows destCapacity s c) (delta : Nat) (hscalar : IsScalar (c.advance delta).n) :
    Follows destCapacity (insertCodePoint destCapacity (s.reached delta)) (c.advance delta) := by
  have hn := h.reached_n delta
  have hi : (s.reached delta).i = (c.i + delta) % (c.list.length + 1) := by
    simp only [FromState.reached, h.i, h.count]
  have hlist : (c.advance delta).list =
    insertAt (s.reached delta).i (s.reached delta).n c.list := by
    rw [hn, hi]
    rfl
  have hle : (s.reached delta).i ≤ c.list.length := by
    rw [hi]
    exact c.place_le delta
  refine ⟨?_, ?_, ?_, ?_, ?_, ?_⟩
  · rw [insertCodePoint_n, hn]
  · rw [insertCodePoint_i, hi]
    rfl
  · rw [insertCodePoint_destCPCount, Cursor.length_advance, ← h.count]
    rfl
  · rw [insertCodePoint_destLength, hlist, length_utf16_insertAt, ← h.length]
    rfl
  · intro x hx
    rw [hlist, mem_insertAt] at hx
    rcases hx with rfl | hx
    · rwa [hn]
    · exact h.scalar x hx
  · intro hroom
    rw [insertCodePoint_destLength] at hroom
    obtain ⟨hdest, hbmp⟩ := h.dest (Nat.le_trans (Nat.le_add_right _ _) hroom)
    rw [hlist]
    exact @insertCodePoint_dest destCapacity (s.reached delta) c.list hdest h.length h.scalar hbmp
      hle
      hroom

theorem decodeRound_eq {destCapacity : Nat} {src rest : List UInt16} {s : FromState} {delta : Nat}
    (hread : readDelta s.bias src s.i 1 base = .ok (s.i + delta, rest))
    (hscalar : IsScalar (s.reached delta).n) : decodeRound destCapacity src s =
      .ok (insertCodePoint destCapacity (s.reached delta), rest) := by
  have hle := hscalar.le
  have hmax := int32Max_eq
  have hn : (s.reached delta).n = s.n + (s.i + delta) / (s.destCPCount + 1) := rfl
  have hnot := hscalar.not_surrogate
  rw [hn] at hle hnot
  have hguard : ¬ (s.i + delta) / (s.destCPCount + 1) > int32Max - s.n := by omega
  have hok : ¬ (decide (s.n + (s.i + delta) / (s.destCPCount + 1) > 0x10ffff) ||
      uIsSurrogate (s.n + (s.i + delta) / (s.destCPCount + 1))) = true := by
    rw [hnot, Bool.or_false, decide_eq_true_eq]
    omega
  simp only [decodeRound, hread, if_neg hguard, checked_of_le (Nat.le_trans hle (by omega)),
    if_neg hok,
    Nat.add_sub_cancel_left]
  rfl

theorem decodeRound_eq_ok {destCapacity : Nat} {src rest : List UInt16} {s s' : FromState}
    (h : decodeRound destCapacity src s = .ok (s', rest)) :
    ∃ used delta, src = used ++ rest ∧ used ≠ [] ∧
      s' = insertCodePoint destCapacity (s.reached delta) ∧ IsScalar (s.reached delta).n ∧
      ((∀ u ∈ used, u.toNat < 0x100) →
        writeDelta s.bias (delta + 1) delta base = used.map toLower) := by
  cases hread : readDelta s.bias src s.i 1 base with
  | error e =>
    rw [decodeRound, hread] at h
    cases h
  | ok r =>
    obtain ⟨i, rest'⟩ := r
    obtain ⟨used, delta, hsrc, hne, hi, hwrite⟩ := writeDelta_readDelta (by decide) hread
    rw [Nat.mul_one] at hi
    subst hi
    have hscalar : IsScalar (s.reached delta).n := by
      simp only [decodeRound, hread] at h
      split at h
      · cases h
      split at h
      · cases h
      · next n hn =>
        rw [(checked_eq_ok hn).1] at h
        split at h
        · cases h
        · next hok =>
          rw [Bool.or_eq_true, not_or, decide_eq_true_eq, Bool.not_eq_true] at hok
          exact ⟨Nat.le_of_not_lt hok.1, hok.2⟩
    rw [decodeRound_eq hread hscalar, Except.ok.injEq, Prod.mk.injEq] at h
    obtain ⟨rfl, rfl⟩ := h
    exact ⟨used, delta, hsrc, hne, rfl, hscalar, fun hused => hwrite hused _ (Nat.lt_succ_self _)⟩

theorem writeDelta_ne_nil (bias fuel q k : Nat) : writeDelta bias (fuel + 1) q k ≠ [] := by
  rw [writeDelta]
  split <;> exact List.cons_ne_nil _ _

theorem reached_i_succ_beq (destCapacity : Nat) (s : FromState) (delta : Nat) :
    ((insertCodePoint destCapacity (s.reached delta)).i == 0) = false := by
  rw [insertCodePoint_i, beq_eq_false_iff_ne]
  exact Nat.succ_ne_zero _

theorem decodeLoop_writeDeltas {destCapacity : Nat} {deltas : List Nat} {fuel : Nat} {s : FromState}
    {c : Cursor} (h : Follows destCapacity s c) (hsound : c.Sound)
    (hlen : c.list.length + deltas.length ≤ maxCpCount) (hdeltas : ∀ d ∈ deltas, d ≤ maxDelta)
    (hscalar : ∀ x ∈ (c.run deltas).list, IsScalar x)
    (hfuel : (writeDeltas s.bias s.destCPCount (s.i == 0) deltas).length ≤ fuel) :
    ∃ s', decodeLoop destCapacity fuel (writeDeltas s.bias s.destCPCount (s.i == 0) deltas) s =
      .ok s' ∧ Follows destCapacity s' (c.run deltas) := by
  induction deltas generalizing fuel s c with
  | nil =>
    refine ⟨s, ?_, h⟩
    cases fuel with
    | zero => rfl
    | succ fuel => rw [writeDeltas, decodeLoop, if_pos rfl]
  | cons d deltas ih =>
    rw [writeDeltas] at hfuel ⊢
    have hne : writeDelta s.bias (d + 1) d base ≠ [] := writeDelta_ne_nil _ _ _ _
    have hpos := List.length_pos_iff.mpr hne
    rw [List.length_append] at hfuel
    obtain ⟨fuel, rfl⟩ : ∃ n, fuel = n + 1 := ⟨fuel - 1, by omega⟩
    have hd := hdeltas d List.mem_cons_self
    have hplace := hsound.place
    have hmaxDelta := maxDelta_eq
    have hint := int32Max_eq
    have hcount : maxCpCount = 200 := by decide
    rw [List.length_cons] at hlen
    have hread := readDelta_writeDelta
      (writeDeltas (adaptBias d (s.destCPCount + 1) (s.i == 0)) (s.destCPCount + 1) false deltas)
      (Nat.lt_succ_self d) (weight_one s.bias base) (i := s.i) (by omega)
      (by rw [h.i]; omega)
    rw [Nat.mul_one] at hread
    have hmem : (c.advance d).n ∈ ((c.advance d).run deltas).list :=
      Cursor.mem_run (c.n_mem_advance d)
    have hscalar' : IsScalar (c.advance d).n := hscalar _ hmem
    have hround := @decodeRound_eq destCapacity _ _ s d hread ((h.reached_n d).symm ▸ hscalar')
    have hnext := @ih fuel _ _ (h.insertCodePoint d hscalar') (hsound.advance d)
      (by rw [Cursor.length_advance]; omega) (fun e he => hdeltas e (List.mem_cons_of_mem _ he))
      hscalar
    rw [reached_i_succ_beq, insertCodePoint_bias, insertCodePoint_destCPCount] at hnext
    rw [decodeLoop, if_neg (fun hnil => hne (List.append_eq_nil_iff.mp hnil).1), hround]
    exact hnext (show (writeDeltas (adaptBias d (s.destCPCount + 1) (s.i == 0)) (s.destCPCount + 1)
      false deltas).length ≤ fuel by omega)

/-- What is read are deltas, and each can be written in one way only. -/
theorem decodeLoop_eq_ok {destCapacity fuel : Nat} {src : List UInt16} {s s' : FromState}
    {c : Cursor}
    (h : Follows destCapacity s c) (hfuel : src.length ≤ fuel)
    (hloop : decodeLoop destCapacity fuel src s = .ok s') :
    ∃ deltas, Follows destCapacity s' (c.run deltas) ∧
      ((∀ u ∈ src, u.toNat < 0x100) →
        writeDeltas s.bias s.destCPCount (s.i == 0) deltas = src.map toLower) := by
  induction fuel generalizing src s c with
  | zero =>
    have hnil : src = [] := List.eq_nil_of_length_eq_zero (by omega)
    rw [decodeLoop, Except.ok.injEq] at hloop
    subst hloop hnil
    exact ⟨[], h, fun _ => rfl⟩
  | succ fuel ih =>
    rw [decodeLoop] at hloop
    split at hloop
    · next hnil =>
      rw [Except.ok.injEq] at hloop
      subst hloop hnil
      exact ⟨[], h, fun _ => rfl⟩
    split at hloop
    · cases hloop
    · next s₁ rest hround =>
      obtain ⟨used, d, hsrc, hne, rfl, hscalar, hwrite⟩ := decodeRound_eq_ok hround
      have hpos := List.length_pos_iff.mpr hne
      rw [hsrc, List.length_append] at hfuel
      obtain ⟨deltas, hfollows, hrest⟩ :=
        ih (h.insertCodePoint d ((h.reached_n d) ▸ hscalar)) (by omega) hloop
      refine ⟨d :: deltas, hfollows, fun hall => ?_⟩
      rw [hsrc, List.forall_mem_append] at hall
      rw [reached_i_succ_beq, insertCodePoint_bias, insertCodePoint_destCPCount] at hrest
      rw [writeDeltas, hwrite hall.1, hsrc, List.map_append, ← hrest hall.2]
      rfl

theorem findDelimiter_le (src : List UInt16) (j : Nat) : findDelimiter src j ≤ j := by
  induction j with
  | zero => exact Nat.le_refl _
  | succ j ih =>
    rw [findDelimiter]
    split
    · exact Nat.le_succ j
    · exact Nat.le_succ_of_le ih

theorem findDelimiter_of_pos {src : List UInt16} {j : Nat} (h : 0 < findDelimiter src j) :
    src[findDelimiter src j]? = some delimiter := by
  induction j with
  | zero => cases h
  | succ j ih =>
    rw [findDelimiter] at h ⊢
    split
    · next hj => exact hj
    · next hj =>
      rw [if_neg hj] at h
      exact ih h

theorem findDelimiter_append {pre ext : List UInt16} (h : delimiter ∉ ext) : ∀ m ≤ ext.length,
      findDelimiter (pre ++ ext) (pre.length + m) = findDelimiter (pre ++ ext) pre.length := by
  intro m
  induction m with
  | zero => exact fun _ => rfl
  | succ m ih =>
    intro hm
    have hne : (pre ++ ext)[pre.length + m]? ≠ some delimiter := by
      rw [List.getElem?_append_right (Nat.le_add_right _ _), Nat.add_sub_cancel_left]
      exact fun hget => h (List.mem_of_getElem? hget)
    rw [← Nat.add_assoc, findDelimiter, if_neg hne, ih (Nat.le_of_succ_le hm)]

def closeBasic (basic : List UInt16) : List UInt16 :=
  if basic.length > 0 then basic ++ [delimiter] else basic

theorem findDelimiter_closeBasic {basic ext : List UInt16} (h : delimiter ∉ ext) :
    findDelimiter (closeBasic basic ++ ext) (closeBasic basic ++ ext).length = basic.length := by
  rw [List.length_append, findDelimiter_append h _ (Nat.le_refl _), closeBasic]
  split
  · have hget : (basic ++ [delimiter] ++ ext)[basic.length]? = some delimiter := by
      rw [List.append_assoc, List.getElem?_append_right (Nat.le_refl _), Nat.sub_self]
      rfl
    rw [List.length_append, List.length_singleton, findDelimiter, if_pos hget]
  · have hzero : basic.length = 0 := by omega
    rw [hzero]
    rfl

/-- Where the extended string starts: just after the last delimiter if there are any basic code
points, at the beginning otherwise. -/
def extendedStart (src : List UInt16) : Nat :=
  if findDelimiter src src.length > 0 then findDelimiter src src.length + 1 else 0

theorem length_closeBasic (basic : List UInt16) :
    (closeBasic basic).length = if basic.length > 0 then basic.length + 1 else 0 := by
  unfold closeBasic
  split
  · rw [List.length_append, List.length_singleton]
  · omega

theorem take_closeBasic (basic ext : List UInt16) :
    (closeBasic basic ++ ext).take basic.length = basic := by
  unfold closeBasic
  split
  · rw [List.append_assoc, List.take_left]
  · rw [List.take_left]

theorem drop_closeBasic (basic ext : List UInt16) :
    (closeBasic basic ++ ext).drop (if basic.length > 0 then basic.length + 1 else 0) = ext := by
  rw [← length_closeBasic, List.drop_left]

theorem closeBasic_append_drop (src : List UInt16) :
    closeBasic (src.take (findDelimiter src src.length)) ++ src.drop (extendedStart src) = src := by
  have hle := findDelimiter_le src src.length
  have hlen : (src.take (findDelimiter src src.length)).length = findDelimiter src src.length := by
    rw [List.length_take, Nat.min_eq_left hle]
  rw [closeBasic, hlen, extendedStart]
  by_cases hpos : findDelimiter src src.length > 0
  · have hget := findDelimiter_of_pos hpos
    rw [if_pos hpos, if_pos hpos, List.append_assoc, List.singleton_append]
    obtain ⟨hlt, hval⟩ := List.getElem?_eq_some_iff.mp hget
    rw [← hval, ← List.drop_eq_getElem_cons hlt, List.take_append_drop]
  · rw [if_neg hpos, if_neg hpos, show findDelimiter src src.length = 0 by omega]
    rfl

theorem take_extendedStart (src : List UInt16) :
    src.take (extendedStart src) = closeBasic (src.take (findDelimiter src src.length)) := by
  have hlen : (closeBasic (src.take (findDelimiter src src.length))).length =
    extendedStart src := by
    rw [length_closeBasic, List.length_take, Nat.min_eq_left (findDelimiter_le src src.length)]
    rfl
  calc
    src.take (extendedStart src)
        = (closeBasic (src.take (findDelimiter src src.length)) ++
            src.drop (extendedStart src)).take (extendedStart src) := by rw [closeBasic_append_drop]
    _ = closeBasic (src.take (findDelimiter src src.length)) := List.take_left' hlen

def startCursor (basic : List UInt16) : Cursor := ⟨initialN, 0, basic.map (·.toNat)⟩

section Start

variable {basic : List UInt16} (hbasic : basic.all isBasic = true)

include hbasic

theorem lt_of_mem_basic : ∀ x ∈ basic.map (·.toNat), x < 0x80 := by
  intro x hx
  obtain ⟨u, hu, rfl⟩ := List.mem_map.mp hx
  exact of_decide_eq_true (List.all_eq_true.mp hbasic u hu)

theorem startCursor_sound : (startCursor basic).Sound := by
  have hlt := lt_of_mem_basic hbasic
  refine ⟨Nat.zero_le _, fun x hx => Nat.le_of_lt (hlt x hx), fun x hx => ?_⟩
  exact hlt x (List.mem_of_mem_drop hx)

theorem startCursor_follows (destCapacity firstSupplementaryIndex : Nat) : Follows destCapacity
      ⟨initialN, 0, initialBias, firstSupplementaryIndex, basic.take destCapacity, basic.length,
        basic.length⟩ (startCursor basic) := by
  have hlt := lt_of_mem_basic hbasic
  have hutf16 : utf16 (basic.map (·.toNat)) = basic := by
    clear hbasic hlt
    induction basic with
    | nil => rfl
    | cons u basic ih => rw [List.map_cons, utf16_cons, ih, unitsOf_toNat, List.singleton_append]
  refine ⟨rfl, rfl, (List.length_map _).symm, ?_, fun x hx => ?_, fun hle => ⟨?_, fun x hx => ?_⟩⟩
  · exact (congrArg List.length hutf16).symm
  · have := hlt x hx
    refine ⟨by omega, ?_⟩
    rw [← Bool.not_eq_true, uIsSurrogate_iff (by omega)]
    omega
  · exact (List.take_of_length_le hle).trans hutf16.symm
  · have := hlt x (List.mem_of_mem_take hx)
    omega

end Start

theorem mem_writeDeltas {bias count : Nat} {firstTime : Bool} {deltas : List Nat} {u : UInt16}
    (hu : u ∈ writeDeltas bias count firstTime deltas) : ∃ digit < 36, u = digitToBasic digit := by
  induction deltas generalizing bias count firstTime with
  | nil => cases hu
  | cons d deltas ih =>
    rw [writeDeltas, List.mem_append] at hu
    rcases hu with hu | hu
    · exact mem_writeDelta hu
    · exact ih hu

theorem delimiter_not_mem_writeDeltas (bias count : Nat) (firstTime : Bool) (deltas : List Nat) :
    delimiter ∉ writeDeltas bias count firstTime deltas := by
  intro hmem
  obtain ⟨digit, hdigit, heq⟩ := mem_writeDeltas hmem
  exact digitToBasic_ne_delimiter hdigit heq.symm

def punycode (basic : List UInt16) (deltas : List Nat) : List UInt16 :=
  closeBasic basic ++ writeDeltas initialBias basic.length true deltas

theorem uStrFromPunycode_writeDeltas {basic : List UInt16} {deltas : List Nat} {destCapacity : Nat}
    (hbasic : basic.all isBasic = true) (hlen : basic.length + deltas.length ≤ maxCpCount)
    (hdeltas : ∀ d ∈ deltas, d ≤ maxDelta)
    (hscalar : ∀ x ∈ ((startCursor basic).run deltas).list, IsScalar x)
    (hroom : (utf16 ((startCursor basic).run deltas).list).length ≤ destCapacity) :
    uStrFromPunycode (punycode basic deltas) destCapacity =
      .ok (uTerminateUChars (utf16 ((startCursor basic).run deltas).list) destCapacity
        (utf16 ((startCursor basic).run deltas).list).length) := by
  have hfind := @findDelimiter_closeBasic basic _
    (delimiter_not_mem_writeDeltas initialBias basic.length true deltas)
  have htake := take_closeBasic basic (writeDeltas initialBias basic.length true deltas)
  have hdrop := drop_closeBasic basic (writeDeltas initialBias basic.length true deltas)
  have hfuel : (writeDeltas initialBias basic.length true deltas).length ≤
      (closeBasic basic ++ writeDeltas initialBias basic.length true deltas).length := by
    rw [List.length_append]
    exact Nat.le_add_left _ _
  obtain ⟨s, hloop, hrun⟩ := decodeLoop_writeDeltas
    (startCursor_follows hbasic destCapacity 1000000000) (startCursor_sound hbasic)
    (by rw [startCursor, List.length_map]; exact hlen) hdeltas hscalar hfuel
  have hloop' : decodeLoop destCapacity
      (closeBasic basic ++ writeDeltas initialBias basic.length true deltas).length
      (writeDeltas initialBias basic.length true deltas)
      ⟨initialN, 0, initialBias, 1000000000, basic.take destCapacity, basic.length, basic.length⟩ =
        .ok s := hloop
  have hdest := (hrun.dest (by rw [hrun.length]; exact hroom)).1
  simp only [punycode, uStrFromPunycode, hfind, htake, hdrop, hbasic, Bool.not_true,
    Bool.false_eq_true,
    if_false, hloop', hrun.length, hdest]

/-- What is decoded are deltas that can be written in one way only. -/
theorem uStrFromPunycode_eq_ok {src : List UInt16} {destCapacity : Nat} {r : Converted}
    (h : uStrFromPunycode src destCapacity = .ok r) (hroom : r.destLength ≤ destCapacity) :
    ∃ basic deltas, src.take (extendedStart src) = closeBasic basic ∧
      basic.all isBasic = true ∧ r.dest = utf16 ((startCursor basic).run deltas).list ∧
      (∀ x ∈ ((startCursor basic).run deltas).list, IsScalar x) ∧
      ((∀ u ∈ src.drop (extendedStart src), u.toNat < 0x100) →
        writeDeltas initialBias basic.length true deltas =
          (src.drop (extendedStart src)).map toLower) := by
  have hle := findDelimiter_le src src.length
  have hlen : (src.take (findDelimiter src src.length)).length = findDelimiter src src.length := by
    rw [List.length_take, Nat.min_eq_left hle]
  simp only [uStrFromPunycode] at h
  split at h
  · cases h
  · next hbasic =>
    rw [Bool.not_eq_true, Bool.not_eq_false'] at hbasic
    split at h
    · cases h
    · next s hloop =>
      have hfollows := startCursor_follows hbasic destCapacity 1000000000
      rw [hlen] at hfollows
      obtain ⟨deltas, hrun, hwrite⟩ := decodeLoop_eq_ok hfollows
        (by rw [List.length_drop]; exact Nat.sub_le _ _) hloop
      rw [Except.ok.injEq] at h
      subst h
      refine ⟨_, deltas, take_extendedStart src, hbasic, (hrun.dest hroom).1, hrun.scalar,
        fun hall => ?_⟩
      rw [hlen]
      exact hwrite hall

end Icu.Punycode
