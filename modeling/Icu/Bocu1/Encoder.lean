import Icu.Bocu1.Difference

/-! # The encoder as a transducer

The encoder reads one code unit at a time and keeps `prev` and a lead surrogate that waits
for its trail unit. A call of `_Bocu1FromUnicode` follows this transducer, unless it arrives
with a lead surrogate and without room in the target.
-/

namespace Icu.Bocu1

open Utf16 Lib Lib.Transducer

variable {p' p : FromLabel × FromLocals}

structure EncoderState where
  prev : Int
  lead : Option Int
  deriving DecidableEq

def encodeCodePoint (prev c : Int) : EncoderState × List UInt8 :=
  (⟨bocu1PREV c, none⟩, diffBytes (c - prev))

def encodeFirst (prev : Int) (u : UInt16) : EncoderState × List UInt8 :=
  if (u.toNat : Int) ≤ 0x20 then
    (⟨if (u.toNat : Int) ≠ 0x20 then asciiPrev else prev, none⟩, [toByte u.toNat])
  else if u16IsLead u.toNat then (⟨prev, some u.toNat⟩, [])
  else encodeCodePoint prev u.toNat

/-- An unpaired lead surrogate is encoded when the next unit is read. -/
def encodeUnit (s : EncoderState) (u : UInt16) : Option (EncoderState × List UInt8) :=
  match s.lead with
  | none => some (encodeFirst s.prev u)
  | some lead =>
    if u16IsTrail u.toNat then
      some (encodeCodePoint s.prev (u16GetSupplementary lead.toNat u.toNat))
    else
      let next := encodeFirst (bocu1PREV lead) u
      some (next.1, diffBytes (lead - s.prev) ++ next.2)

theorem encodeFirst_length_le (prev : Int) (u : UInt16) : (encodeFirst prev u).2.length ≤ 4 := by
  unfold encodeFirst
  split_ifs
  · simp
  · simp
  · simp
  · exact diffBytes_length_le _

theorem encodeUnit_length_le {s : EncoderState} {u : UInt16} {r : EncoderState × List UInt8}
    (h : encodeUnit s u = some r) : r.2.length ≤ 8 := by
  unfold encodeUnit at h
  split at h
  · rw [← Option.some.inj h]
    exact Nat.le_trans (encodeFirst_length_le s.prev u) (by omega)
  · next lead _ =>
    split at h
    · rw [← Option.some.inj h]
      exact Nat.le_trans (diffBytes_length_le _) (by omega)
    rw [← Option.some.inj h, List.length_append]
    have hlead := diffBytes_length_le (lead - s.prev)
    have hfirst := encodeFirst_length_le (bocu1PREV lead) u
    omega

theorem transduce_unpaired {prev lead : Int} {u : UInt16} {units : List UInt16}
    (h : u16IsTrail u.toNat = false) : transduce encodeUnit ⟨prev, some lead⟩ (u :: units) =
      after (diffBytes (lead - prev))
        (transduce encodeUnit ⟨bocu1PREV lead, none⟩ (u :: units)) := by
  have hnext : encodeUnit ⟨bocu1PREV lead, none⟩ u = some ((encodeFirst (bocu1PREV lead) u).1,
      (encodeFirst (bocu1PREV lead) u).2) := rfl
  have hboth : encodeUnit ⟨prev, some lead⟩ u = some ((encodeFirst (bocu1PREV lead) u).1,
      diffBytes (lead - prev) ++ (encodeFirst (bocu1PREV lead) u).2) := by
    simp [encodeUnit, h]
  rw [transduce_cons hnext, transduce_cons hboth, after_after]

/-! ## One call -/

def Encoder.rep (cnv : Encoder) : EncoderState :=
  ⟨if cnv.fromUnicodeStatus = 0 then asciiPrev else cnv.fromUnicodeStatus,
    if cnv.fromUChar32 = 0 then none else some cnv.fromUChar32⟩

/-- `fromUChar32` is 0 or a lead surrogate. -/
structure Encoder.Valid (cnv : Encoder) : Prop where
  prev : cnv.fromUnicodeStatus = 0 ∨ IsPrev cnv.fromUnicodeStatus
  lead : cnv.fromUChar32 = 0 ∨ (0xd800 ≤ cnv.fromUChar32 ∧ cnv.fromUChar32 ≤ 0xdbff)

theorem Encoder.valid_initial : Encoder.initial.Valid := ⟨Or.inl rfl, Or.inl rfl⟩

/-- There is room in the target, or no lead surrogate waits. -/
def Encoder.Admits (cnv : Encoder) (targetCapacity : Nat) : Prop :=
  cnv.fromUChar32 = 0 ∨ 0 < targetCapacity

instance Encoder.decidableAdmits (cnv : Encoder) (targetCapacity : Nat) :
    Decidable (cnv.Admits targetCapacity) :=
  inferInstanceAs (Decidable (_ ∨ _))

section Call

variable {whole : List UInt16 → List UInt8 × Option EncoderState × List UInt16} {targetLimit : Nat}
  {l : FromLocals}

structure Running (targetLimit : Nat) (l : FromLocals) : Prop where
  prev : IsPrev l.prev
  nonneg : 0 ≤ l.c
  capacity : l.target.length + l.targetCapacity = targetLimit
  buffer : l.charErrorBuffer = []
  err : l.err = .zeroError

/-- The transducer state and the source give the rest of the whole output. -/
def FromFollows (whole : List UInt16 → List UInt8 × Option EncoderState × List UInt16)
    (l : FromLocals) (s : EncoderState) : Prop :=
  Follows encodeUnit whole (l.target ++ l.charErrorBuffer) s l.source

structure Ended (whole : List UInt16 → List UInt8 × Option EncoderState × List UInt16)
    (targetLimit : Nat) (l : FromLocals) : Prop where
  prev : IsPrev l.prev
  lead : l.c < 0 → 0xd800 ≤ -l.c ∧ -l.c ≤ 0xdbff
  follows : FromFollows whole l ⟨l.prev, if l.c < 0 then some (-l.c) else none⟩
  complete : l.err = .zeroError ∧ l.source = [] ∧ l.charErrorBuffer = [] ∨
    l.target.length = targetLimit

def FromInv (whole : List UInt16 → List UInt8 × Option EncoderState × List UInt16)
    (targetLimit : Nat) : FromLabel × FromLocals → Prop
  | (.fastSingle, l) => Running targetLimit l ∧ FromFollows whole l ⟨l.prev, none⟩
  | (.loop, l) => Running targetLimit l ∧ FromFollows whole l ⟨l.prev, none⟩
  | (.getTrail, l) =>
    Running targetLimit l ∧ 0 < l.targetCapacity ∧ (0xd800 ≤ l.c ∧ l.c ≤ 0xdbff) ∧
      FromFollows whole l ⟨l.prev, some l.c⟩
  | (.done, l) => Ended whole targetLimit l

theorem FromFollows.unit {s s' : EncoderState} {l' : FromLocals} {u : UInt16} {out : List UInt8}
    (hf : FromFollows whole l s) (hsource : l.source = u :: l'.source)
    (hunit : encodeUnit s u = some (s', out))
    (hout : l'.target ++ l'.charErrorBuffer = l.target ++ l.charErrorBuffer ++ out) :
    FromFollows whole l' s' := by
  rw [FromFollows, hsource] at hf
  rw [FromFollows, hout]
  exact hf.cons hunit

structure Fast (whole : List UInt16 → List UInt8 × Option EncoderState × List UInt16)
    (l : FromLocals) : Prop where
  prev : IsPrev l.prev
  nonneg : 0 ≤ l.c
  buffer : l.charErrorBuffer = []
  err : l.err = .zeroError
  follows : FromFollows whole l ⟨l.prev, none⟩

theorem toNat_isCodePoint (u : UInt16) : IsCodePoint (u.toNat : Int) := by
  have := u.toNat_lt
  rw [IsCodePoint]
  omega

theorem Fast.fastLoop (n : Nat) {l : FromLocals} (h : Fast whole l) :
    Fast whole (l.fastLoop n) ∧ (l.fastLoop n).target.length ≤ l.target.length + n := by
  induction n generalizing l with
  | zero => exact ⟨h, Nat.le_refl _⟩
  | succ n ih =>
    rw [FromLocals.fastLoop]
    split
    · exact ⟨h, Nat.le_add_right _ _⟩
    next u source hsource =>
    have stay : Fast whole { l with c := u.toNat } :=
      ⟨h.prev, Int.natCast_nonneg _, h.buffer, h.err, h.follows⟩
    have go : ∀ {prev : Int} {b : UInt8}, IsPrev prev →
        encodeUnit ⟨l.prev, none⟩ u = some (⟨prev, none⟩, [b]) →
        Fast whole (FromLocals.fastLoop n
          { l with source, c := u.toNat, prev, target := l.target ++ [b] }) ∧
        (FromLocals.fastLoop n
          { l with source, c := u.toNat, prev, target := l.target ++ [b] }).target.length ≤
            l.target.length + (n + 1) := by
      intro prev b hprev hunit
      have hnext : Fast whole { l with source, c := u.toNat, prev, target := l.target ++ [b] } :=
        ⟨hprev, Int.natCast_nonneg _, h.buffer, h.err,
          h.follows.unit hsource hunit (by simp [h.buffer])⟩
      obtain ⟨hfast, htarget⟩ := ih hnext
      refine ⟨hfast, ?_⟩
      rw [List.length_append, List.length_singleton] at htarget
      omega
    simp only []
    split
    · next hlt =>
      split
      · next hle =>
        refine go ?_ ?_
        · split
          · exact isPrev_asciiPrev
          · exact h.prev
        · simp only [encodeUnit, encodeFirst, if_pos hle]
      · next hgt =>
        split
        · next hs =>
          refine go (isPrev_simplePrev (toNat_isCodePoint u)) ?_
          have hlead : u16IsLead u.toNat = false := by
            rw [← Bool.not_eq_true, u16IsLead_iff (by omega)]
            omega
          simp only [encodeUnit, encodeFirst, if_neg hgt, hlead, encodeCodePoint, diffBytes,
            bocu1PREV_of_lt hlt, if_pos hs]
          rfl
        · exact ⟨stay, Nat.le_add_right _ _⟩
    · exact ⟨stay, Nat.le_add_right _ _⟩

theorem putDiff_loop {bytes : List UInt8} {n : Nat} (h : Running targetLimit l)
    (hc : IsCodePoint l.c) (hroom : n ≤ l.targetCapacity) (hn : bytes.length = n)
    (hf : ∀ more, whole more = after (l.target ++ bytes)
      (transduce encodeUnit ⟨bocu1PREV l.c, none⟩ (l.source ++ more))) :
    Running targetLimit { l with prev := bocu1PREV l.c, target := l.target ++ bytes,
                                 targetCapacity := l.targetCapacity - n } ∧
      FromFollows whole { l with prev := bocu1PREV l.c, target := l.target ++ bytes,
                                 targetCapacity := l.targetCapacity - n } ⟨bocu1PREV l.c,
                                   none⟩ := by
  have hcap := h.capacity
  refine ⟨⟨isPrev_bocu1PREV hc, h.nonneg, ?_, h.buffer, h.err⟩, fun more => ?_⟩
  · change (l.target ++ bytes).length + (l.targetCapacity - n) = targetLimit
    rw [List.length_append]
    omega
  · rw [hf more, h.buffer, List.append_nil]

theorem double_bytes {diff : Int} (hs : ¬ diffIsSingle diff = true)
    (hd : diffIsDouble diff = true) :
    (let p := if diff ≥ 0 then
        let diff := diff - (reachPos1 + 1)
        (diff.tdiv trailCount + startPos2, diff.tmod trailCount)
      else
        let (diff, m) := negDivMod (diff - reachNeg1) trailCount
        (diff + startNeg2, m)
     [toByte p.1, toByte (trailToByte p.2)]) = diffBytes diff := by
  rw [diffBytes, if_neg hs]
  rw [diffIsSingle_iff] at hs
  rw [diffIsDouble_iff] at hd
  simp only [trailCount_eq, negDivMod_eq, reachNeg1_eq, reachPos1_eq, reachPos2_eq, reachNeg2_eq,
    startPos2_eq, startNeg2_eq]
  by_cases hpos : 0 ≤ diff
  · rw [if_pos hpos, if_pos hpos, if_pos (by omega), Int.tdiv_eq_ediv_of_nonneg (by omega),
      Int.tmod_eq_emod_of_nonneg (by omega), Int.add_comm]
    rfl
  · rw [if_neg hpos, if_neg hpos, if_pos (by omega), Int.add_comm]
    rfl

theorem putDiff_inv (h : Running targetLimit l) (hc : IsCodePoint l.c)
    (hroom : 0 < l.targetCapacity)
    (hf : ∀ more, whole more = after (l.target ++ diffBytes (l.c - l.prev))
      (transduce encodeUnit ⟨bocu1PREV l.c, none⟩ (l.source ++ more))) :
    FromInv whole targetLimit l.putDiff := by
  have hprev := h.prev
  rw [FromLocals.putDiff]
  by_cases hs : diffIsSingle (l.c - l.prev) = true
  · have hbytes : diffBytes (l.c - l.prev) = [toByte (packSingleDiff (l.c - l.prev))] := by
      rw [diffBytes, if_pos hs]
    rw [hbytes] at hf
    have hgo := putDiff_loop h hc hroom rfl hf
    simp only [if_pos hs]
    split
    · exact hgo
    · exact hgo
  by_cases hd : diffIsDouble (l.c - l.prev) = true ∧ 2 ≤ l.targetCapacity
  · rw [← double_bytes hs hd.1] at hf
    simp only [if_neg hs, if_pos hd]
    exact putDiff_loop h hc hd.2 rfl hf
  have hpacks := @packDiff_packs (l.c - l.prev) (by simp only [IsPrev, IsCodePoint] at *; omega)
    (by simp only [IsPrev, IsCodePoint] at *; omega) hs
  have hlong : ¬ diffIsDouble (l.c - l.prev) = true → 3 ≤ (diffBytes (l.c - l.prev)).length :=
    three_le_diffBytes_length
  simp only [if_neg hs, if_neg hd, hpacks.length_eq]
  generalize packDiff (l.c - l.prev) = packed at *
  generalize diffBytes (l.c - l.prev) = bytes at *
  have htwo := hpacks.two_le_length
  by_cases hfits : bytes.length ≤ l.targetCapacity
  · have hthree : bytes.length ≥ 3 := hlong fun hdouble => hd ⟨hdouble, by omega⟩
    rw [if_pos hfits, if_pos hthree, hpacks.packedBytes_all]
    exact putDiff_loop h hc hfits rfl hf
  rw [if_neg hfits, hpacks.packedBytes_low (by omega), hpacks.packedBytes_high (by omega),
    show bytes.length - (bytes.length - l.targetCapacity) = l.targetCapacity by omega]
  have hc0 : ¬ l.c < 0 := Int.not_lt.mpr h.nonneg
  refine ⟨isPrev_bocu1PREV hc, fun hneg => absurd hneg hc0, fun more => ?_, Or.inr ?_⟩
  · rw [hf more, if_neg hc0, List.append_assoc, List.take_append_drop]
  have hcap := h.capacity
  change (l.target ++ bytes.take l.targetCapacity).length = targetLimit
  rw [List.length_append, List.length_take]
  omega

theorem loop_inv (h : FromInv whole targetLimit (.loop, l)) : FromInv whole targetLimit l.loop := by
  obtain ⟨hr, hf⟩ := h
  rw [FromLocals.loop]
  split
  · next hsource =>
    have hc0 : ¬ l.c < 0 := Int.not_lt.mpr hr.nonneg
    refine ⟨hr.prev, fun hneg => absurd hneg hc0, ?_, Or.inl ⟨hr.err, hsource, hr.buffer⟩⟩
    rw [if_neg hc0]
    exact hf
  next u source hsource =>
  split
  · next hroom =>
    have hu := u.toNat_lt
    simp only []
    by_cases hle : (u.toNat : Int) ≤ 0x20
    · rw [if_pos hle]
      have hunit : encodeUnit ⟨l.prev, none⟩ u = some
          (⟨if (u.toNat : Int) ≠ 0x20 then asciiPrev else l.prev, none⟩, [toByte u.toNat]) := by
        simp only [encodeUnit, encodeFirst, if_pos hle]
      refine ⟨⟨?_, Int.natCast_nonneg _, ?_, hr.buffer, hr.err⟩, hf.unit hsource hunit ?_⟩
      · dsimp only
        split
        · exact isPrev_asciiPrev
        · exact hr.prev
      · have hcap := hr.capacity
        change (l.target ++ [toByte u.toNat]).length + (l.targetCapacity - 1) = targetLimit
        rw [List.length_append, List.length_singleton]
        omega
      · simp [hr.buffer]
    · rw [if_neg hle]
      have hr' : Running targetLimit { l with source, c := u.toNat } :=
        ⟨hr.prev, Int.natCast_nonneg _, hr.capacity, hr.buffer, hr.err⟩
      by_cases hlead : u16IsLead u.toNat = true
      · have hrange := (u16IsLead_iff (by omega)).mp hlead
        rw [if_pos hlead]
        refine ⟨hr', hroom, by dsimp only; omega, hf.unit hsource ?_ (List.append_nil _).symm⟩
        simp only [encodeUnit, encodeFirst, if_neg hle, if_pos hlead]
      rw [if_neg hlead]
      have hunit : encodeUnit ⟨l.prev, none⟩ u = some (encodeCodePoint l.prev u.toNat) := by
        simp only [encodeUnit, encodeFirst, if_neg hle, if_neg hlead]
      refine putDiff_inv hr' (toNat_isCodePoint u) hroom fun more => ?_
      rw [hf more, hsource, hr.buffer, List.cons_append, transduce_cons hunit, after_after,
        List.append_nil]
  · next hroom =>
    have hc0 : ¬ l.c < 0 := Int.not_lt.mpr hr.nonneg
    have hcap := hr.capacity
    refine ⟨hr.prev, fun hneg => absurd hneg hc0, ?_, Or.inr (by dsimp only; omega)⟩
    rw [if_neg hc0]
    exact hf

theorem getTrail_inv (h : FromInv whole targetLimit (.getTrail, l)) :
    FromInv whole targetLimit l.getTrail := by
  obtain ⟨hr, hroom, hlead, hf⟩ := h
  have hc : IsCodePoint l.c := by
    rw [IsCodePoint]
    omega
  rw [FromLocals.getTrail]
  split
  · next hsource =>
    refine ⟨hr.prev, fun _ => by dsimp only; omega, ?_, Or.inl ⟨hr.err, hsource, hr.buffer⟩⟩
    rw [if_pos (by dsimp only; omega), Int.neg_neg]
    exact hf
  next trail source hsource =>
  by_cases htrail : u16IsTrail trail.toNat = true
  · have hb := trail.toNat_lt
    have hrange := (u16IsTrail_iff (by omega)).mp htrail
    have hsup := @u16GetSupplementary_bounds l.c.toNat trail.toNat (by omega) (by omega)
    have hunit : encodeUnit ⟨l.prev, some l.c⟩ trail =
        some (encodeCodePoint l.prev (u16GetSupplementary l.c.toNat trail.toNat)) := by
      simp only [encodeUnit, if_pos htrail]
    rw [if_pos htrail]
    refine putDiff_inv ⟨hr.prev, Int.natCast_nonneg _, hr.capacity, hr.buffer, hr.err⟩ ?_ hroom
      fun more => ?_
    · dsimp only [IsCodePoint]
      omega
    · rw [hf more, hsource, hr.buffer, List.cons_append, transduce_cons hunit, after_after,
        List.append_nil]
  · rw [if_neg htrail]
    refine putDiff_inv hr hc hroom fun more => ?_
    rw [hf more, hsource, hr.buffer, List.cons_append,
      transduce_unpaired (by rw [← Bool.not_eq_true]; exact htrail), after_after, List.append_nil]

theorem fastSingle_inv (h : FromInv whole targetLimit (.fastSingle, l)) :
    FromInv whole targetLimit (.loop, l.fastSingle targetLimit) := by
  obtain ⟨hr, hf⟩ := h
  have hcap := hr.capacity
  have hfast : Fast whole l := ⟨hr.prev, hr.nonneg, hr.buffer, hr.err, hf⟩
  obtain ⟨hend, htarget⟩ := hfast.fastLoop (Min.min l.targetCapacity l.source.length)
  refine ⟨⟨hend.prev, hend.nonneg, ?_, hend.buffer, hend.err⟩, hend.follows⟩
  dsimp only [FromLocals.fastSingle]
  omega

theorem step_inv (hstep : FromLocals.step targetLimit p = some p')
    (h : FromInv whole targetLimit p) : FromInv whole targetLimit p' := by
  obtain ⟨label, l⟩ := p
  cases label with
  | fastSingle => rw [← Option.some.inj hstep]; exact fastSingle_inv h
  | loop => rw [← Option.some.inj hstep]; exact loop_inv h
  | getTrail => rw [← Option.some.inj hstep]; exact getTrail_inv h
  | done => cases hstep

end Call

def fromMeasure : FromLabel × FromLocals → Nat
  | (.fastSingle, l) => 3 * l.source.length + 2
  | (.loop, l) => 3 * l.source.length + 1
  | (.getTrail, l) => 3 * l.source.length + 3
  | (.done, _) => 0

theorem fastLoop_source (n : Nat) (l : FromLocals) :
    (l.fastLoop n).source.length ≤ l.source.length := by
  induction n generalizing l with
  | zero => exact Nat.le_refl _
  | succ n ih =>
    have go : ∀ {l' : FromLocals}, l'.source.length ≤ l.source.length →
        (l'.fastLoop n).source.length ≤ l.source.length :=
      fun h => Nat.le_trans (ih _) h
    rw [FromLocals.fastLoop]
    split
    · exact Nat.le_refl _
    next u source hsource =>
    have hlen : source.length ≤ l.source.length := by
      rw [hsource]
      exact Nat.le_succ _
    simp only []
    split
    · split
      · exact go hlen
      split
      · exact go hlen
      · exact Nat.le_refl _
    · exact Nat.le_refl _

theorem putDiff_measure (l : FromLocals) : fromMeasure l.putDiff ≤ 3 * l.source.length + 2 := by
  unfold FromLocals.putDiff
  simp only []
  split_ifs <;> simp only [fromMeasure] <;> omega

theorem step_measure {targetLimit : Nat}
    (hstep : FromLocals.step targetLimit p = some p') : fromMeasure p' < fromMeasure p := by
  obtain ⟨label, l⟩ := p
  cases label with
  | fastSingle =>
    have := fastLoop_source (Min.min l.targetCapacity l.source.length) l
    rw [← Option.some.inj hstep]
    simp only [fromMeasure, FromLocals.fastSingle]
    omega
  | loop =>
    rw [← Option.some.inj hstep, FromLocals.loop]
    split
    · simp [fromMeasure]
    next u source hsource =>
    have hlen : l.source.length = source.length + 1 := by rw [hsource, List.length_cons]
    have hput := putDiff_measure { l with source, c := u.toNat }
    have hloop : fromMeasure (.loop, l) = 3 * source.length + 4 := by
      rw [fromMeasure, hlen]
      omega
    rw [hloop]
    simp only [] at hput ⊢
    split
    · split
      · change 3 * source.length + 1 < 3 * source.length + 4
        omega
      split
      · exact Nat.lt_succ_self _
      · exact Nat.lt_of_le_of_lt hput (by omega)
    · exact Nat.succ_pos _
  | getTrail =>
    rw [← Option.some.inj hstep, FromLocals.getTrail]
    split
    · simp [fromMeasure]
    next trail source hsource =>
    have hlen : l.source.length = source.length + 1 := by rw [hsource, List.length_cons]
    split
    · refine Nat.lt_of_le_of_lt (putDiff_measure _) ?_
      change 3 * source.length + 2 < 3 * l.source.length + 3
      omega
    · exact Nat.lt_of_le_of_lt (putDiff_measure _) (Nat.lt_succ_self _)
  | done => cases hstep

section Calls

variable {cnv : Encoder} {source : List UInt16} {targetCapacity : Nat}

theorem fromUnicodeLocals_ended (hv : cnv.Valid) (ha : cnv.Admits targetCapacity) :
    Ended (fun more => transduce encodeUnit cnv.rep (source ++ more)) targetCapacity
      (fromUnicodeLocals cnv source targetCapacity) := by
  have hprev : IsPrev cnv.rep.prev := by
    dsimp only [Encoder.rep]
    split
    · exact isPrev_asciiPrev
    · next hne => exact hv.prev.resolve_left hne
  have hc : 0 ≤ cnv.fromUChar32 := by
    have := hv.lead
    omega
  have hrun : Running targetCapacity
      ⟨source, [], targetCapacity, cnv.rep.prev, cnv.fromUChar32, [], .zeroError⟩ :=
    ⟨hprev, hc, Nat.zero_add _, rfl, rfl⟩
  -- The fuel is enough from both entry points.
  have hend : ∀ (label : FromLabel) (l : FromLocals), l.source = source →
      FromInv (fun more => transduce encodeUnit cnv.rep (source ++ more)) targetCapacity (label,
        l) →
      Ended (fun more => transduce encodeUnit cnv.rep (source ++ more)) targetCapacity
        (Program.exec (FromLocals.step targetCapacity) (3 * source.length + 4) (label, l)).2 := by
    intro label l hsource hinv
    have hfuel : fromMeasure (label, l) < 3 * source.length + 4 := by
      cases label <;> simp only [fromMeasure, hsource] <;> omega
    have hstop := Program.exec_halts (FromLocals.step targetCapacity) step_measure hfuel
    have hfinal := Program.exec_invariant (FromLocals.step targetCapacity) step_inv
      (3 * source.length + 4) hinv
    generalize Program.exec (FromLocals.step targetCapacity) (3 * source.length + 4) (label, l) = p
      at hstop hfinal
    obtain ⟨label', l'⟩ := p
    cases label' with
    | done => exact hfinal
    | fastSingle => cases hstop
    | loop => cases hstop
    | getTrail => cases hstop
  rw [fromUnicodeLocals]
  apply hend _ _ rfl
  by_cases hlead : cnv.fromUChar32 = 0
  · simp only [hlead, ne_eq, not_true_eq_false, false_and, if_false]
    rw [hlead] at hrun
    refine ⟨hrun, fun more => ?_⟩
    simp [Encoder.rep, hlead]
  · have hroom : targetCapacity > 0 := ha.resolve_left hlead
    simp only [if_pos (And.intro hlead hroom)]
    refine ⟨hrun, hroom, hv.lead.resolve_left hlead, fun more => ?_⟩
    simp [Encoder.rep, hlead]

theorem bocu1FromUnicode_keeps (hv : cnv.Valid) (ha : cnv.Admits targetCapacity) :
    Keeps encodeUnit Encoder.rep Encoder.Valid cnv source
      (bocu1FromUnicode cnv source targetCapacity) := by
  have h := @fromUnicodeLocals_ended cnv source targetCapacity hv ha
  rw [bocu1FromUnicode]
  generalize fromUnicodeLocals cnv source targetCapacity = l at h
  have hne : ¬ l.prev = 0 := by
    have := h.prev.1
    omega
  have hrep : l.toEncoder.rep = ⟨l.prev, if l.c < 0 then some (-l.c) else none⟩ := by
    by_cases hc : l.c < 0
    · have hlead : ¬ -l.c = 0 := by omega
      rw [FromLocals.toEncoder, if_pos hc, if_pos hc, Encoder.rep, if_neg hne, if_neg hlead]
    · rw [FromLocals.toEncoder, if_neg hc, if_neg hc, Encoder.rep, if_neg hne, if_pos rfl]
  refine ⟨fun _ => ⟨⟨Or.inr h.prev, ?_⟩, fun more => ?_⟩, fun hfail => by cases hfail⟩
  · simp only [FromLocals.toEncoder]
    split
    · next hc => exact Or.inr (h.lead hc)
    · exact Or.inl rfl
  · simp only [hrep]
    exact h.follows more

theorem fromUnicodeLocals_complete (hv : cnv.Valid) (hroom : 8 * source.length < targetCapacity) :
    (fromUnicodeLocals cnv source targetCapacity).err = .zeroError ∧
      (fromUnicodeLocals cnv source targetCapacity).source = [] ∧
      (fromUnicodeLocals cnv source targetCapacity).charErrorBuffer = [] := by
  have ha : cnv.Admits targetCapacity := Or.inr (by omega)
  have h := @fromUnicodeLocals_ended cnv source targetCapacity hv ha
  have hlen := transduce_length_le @encodeUnit_length_le source cnv.rep
  have hwhole := h.follows []
  generalize fromUnicodeLocals cnv source targetCapacity = l at h hwhole
  rcases h.complete with hcomplete | hfull
  · exact hcomplete
  rw [List.append_nil, List.append_nil] at hwhole
  rw [hwhole, after, List.length_append, List.length_append] at hlen
  omega

theorem fromUnicodeLocals_transduce (hv : cnv.Valid) (hroom : 8 * source.length < targetCapacity) :
    transduce encodeUnit cnv.rep source =
      ((fromUnicodeLocals cnv source targetCapacity).target,
        some (fromUnicodeLocals cnv source targetCapacity).toEncoder.rep, []) := by
  have ha : cnv.Admits targetCapacity := Or.inr (by omega)
  obtain ⟨-, hsource, hbuffer⟩ := fromUnicodeLocals_complete hv hroom
  have hkeeps := ((@bocu1FromUnicode_keeps cnv source targetCapacity hv ha).proceeds rfl).2 []
  rw [List.append_nil, bocu1FromUnicode, hsource, hbuffer] at hkeeps
  rw [hkeeps]
  simp [after]

theorem toEncoder_rep_prev (hv : cnv.Valid) (ha : cnv.Admits targetCapacity) :
    (fromUnicodeLocals cnv source targetCapacity).toEncoder.rep.prev =
      (fromUnicodeLocals cnv source targetCapacity).toEncoder.fromUnicodeStatus := by
  have hprev := (@fromUnicodeLocals_ended cnv source targetCapacity hv ha).prev
  refine if_neg fun hzero => ?_
  rw [FromLocals.toEncoder] at hzero
  dsimp only at hzero
  rw [IsPrev] at hprev
  omega

end Calls

end Icu.Bocu1
