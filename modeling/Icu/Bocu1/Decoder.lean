import Icu.Bocu1.Difference

/-! # The decoder as a transducer

The decoder reads one byte at a time and keeps `prev` and, inside of a multi-byte sequence,
the partial difference with the number of trail bytes. A call of `_Bocu1ToUnicode` follows
this transducer, unless it arrives inside of a sequence and without room in the target.
-/

namespace Icu.Bocu1

open Utf16 Lib Lib.Transducer

variable {count diff : Int} {p' p : ToLabel × ToLocals}

theorem packState_toNat {diff count : Int} (h0 : 0 ≤ count) (h1 : count ≤ 3) :
    ((packState diff count).toNat : Int) = (diff * 4) % 2 ^ 32 + count := by
  have hcount : (BitVec.ofInt 32 count).toNat = count.toNat := by
    rw [BitVec.toNat_ofInt]
    omega
  have hdiff : (BitVec.ofInt 32 diff <<< 2).toNat = ((diff * 4) % 2 ^ 32 / 4).toNat * 2 ^ 2 := by
    rw [BitVec.toNat_shiftLeft, BitVec.toNat_ofInt, Nat.shiftLeft_eq]
    omega
  rw [packState, BitVec.toNat_or, hdiff, hcount, Bits.or_mul (by omega)]
  omega

theorem stateCount_packState (h0 : 0 ≤ count) (h1 : count ≤ 3) :
    stateCount (packState diff count) = count := by
  have h := @packState_toNat diff count h0 h1
  have hmask : (packState diff count &&& 3).toNat = (packState diff count).toNat % 2 ^ 2 := by
    rw [BitVec.toNat_and]
    exact Bits.and_low _ 2 3 (by decide)
  rw [stateCount, hmask]
  omega

theorem stateDiff_packState (h0 : 0 ≤ count) (h1 : count ≤ 3)
    (hlow : -2 ^ 29 ≤ diff) (hhigh : diff < 2 ^ 29) : stateDiff (packState diff count) = diff := by
  have h := @packState_toNat diff count h0 h1
  have hint : (packState diff count).toInt = diff * 4 + count := by
    have hsize : ((2 ^ 32 : Nat) : Int) = 0x100000000 := by decide
    rw [BitVec.toInt_eq_toNat_bmod, h, Int.bmod_eq_iff (by decide), hsize]
    omega
  rw [stateDiff, BitVec.toInt_sshiftRight, hint, Int.shiftRight_eq_div_pow]
  omega

/-- The partial difference and the number of trail bytes. The upper bound grows with the
trail bytes that were added. -/
structure IsPending (diff count : Int) : Prop where
  count_pos : 1 ≤ count
  count_le : count ≤ 3
  lower : -15000000 ≤ diff
  upper : diff ≤ 200000 + (3 - count) * 15000000

theorem IsPending.state (h : IsPending diff count) :
    stateDiff (packState diff count) = diff ∧ stateCount (packState diff count) = count := by
  have h0 := h.count_pos
  have h1 := h.count_le
  have h2 := h.lower
  have h3 := h.upper
  exact ⟨stateDiff_packState (by omega) h1 (by omega) (by omega),
    stateCount_packState (by omega) h1⟩

theorem decodeBocu1LeadByte_pending {b : Int} (h0 : 0x21 ≤ b) (h1 : b ≤ 0xfe) :
    ∃ diff count, decodeBocu1LeadByte b = packState diff count ∧ IsPending diff count := by
  simp only [decodeBocu1LeadByte, startNeg2_eq, startPos2_eq, startPos3_eq, startPos4_eq,
    startNeg3_eq, min_eq, trailCount_eq, reachPos1_eq, reachPos2_eq, reachPos3_eq, reachNeg1_eq,
    reachNeg2_eq, reachNeg3_eq]
  split_ifs
  all_goals refine ⟨_, _, rfl, ?_, ?_, ?_, ?_⟩ <;> omega

theorem decodeBocu1TrailByte_le {b : Int} (hb : b ≤ 0xff) :
    decodeBocu1TrailByte count b ≤ 242 * 59049 := by
  have hdigit : (if b ≤ 0x20 then bocu1ByteToTrail.getD b.toNat (-1) else b - trailByteOffset) ≤
    242 := by
    split
    · have hall : ∀ n ≤ 0x20, bocu1ByteToTrail.getD n (-1) ≤ 242 := by decide
      exact hall _ (by omega)
    · rw [trailByteOffset_eq]
      omega
  rw [decodeBocu1TrailByte]
  simp only [trailCount_eq]
  split_ifs at * <;> omega

theorem IsPending.add {t : Int} (h : IsPending diff count) (h0 : 0 ≤ t)
    (ht : t ≤ 242 * 59049) (hc : count - 1 ≠ 0) : IsPending (diff + t) (count - 1) := by
  have h1 := h.count_pos
  have h2 := h.count_le
  have h3 := h.lower
  have h4 := h.upper
  constructor <;> omega

structure DecoderState where
  prev : Int
  pending : Option (Int × Int)
  deriving DecidableEq

def codePointUnits (c : Int) : List UInt16 :=
  if c ≤ 0xffff then [toUnit c] else [u16Lead c.toNat, u16Trail c.toNat]

def decodeCodePoint (c : Int) :
    DecoderState × List UInt16 := (⟨bocu1PREV c, none⟩, codePointUnits c)

def decodeFirst (prev : Int) (b : UInt8) : DecoderState × List UInt16 :=
  let c : Int := b.toNat
  if startNeg2 ≤ c ∧ c < startPos2 then decodeCodePoint (prev + (c - middle))
  else if c ≤ 0x20 then (⟨if c ≠ 0x20 then asciiPrev else prev, none⟩, [toUnit c])
  else if c = reset then (⟨asciiPrev, none⟩, [])
  else
    let state := decodeBocu1LeadByte c
    (⟨prev, some (stateDiff state, stateCount state)⟩, [])

def decodeTrail (prev diff count : Int) (b : UInt8) : Option (DecoderState × List UInt16) :=
  let t := decodeBocu1TrailByte count b.toNat
  if t < 0 then none
  else if count - 1 = 0 then
    let c := prev + (diff + t)
    if c < 0 ∨ c > 0x10ffff then none else some (decodeCodePoint c)
  else some (⟨prev, some (diff + t, count - 1)⟩, [])

def decodeByte (s : DecoderState) (b : UInt8) : Option (DecoderState × List UInt16) :=
  match s.pending with
  | none => some (decodeFirst s.prev b)
  | some (diff, count) => decodeTrail s.prev diff count b

theorem codePointUnits_length_le (c : Int) : (codePointUnits c).length ≤ 2 := by
  rw [codePointUnits]
  split <;> simp

theorem decodeByte_length_le {s : DecoderState} {b : UInt8} {r : DecoderState × List UInt16}
    (h : decodeByte s b = some r) : r.2.length ≤ 2 := by
  unfold decodeByte at h
  split at h
  · rw [← Option.some.inj h, decodeFirst]
    split
    · exact codePointUnits_length_le _
    split
    · simp
    · split <;> simp
  simp only [decodeTrail, Option.ite_none_left_eq_some] at h
  obtain ⟨-, h⟩ := h
  split at h
  · rw [Option.ite_none_left_eq_some] at h
    rw [← Option.some.inj h.2]
    exact codePointUnits_length_le _
  · rw [← Option.some.inj h]
    simp

/-! ## One call -/

def Decoder.rep (cnv : Decoder) : DecoderState :=
  ⟨if cnv.toUnicodeStatus = 0 then asciiPrev else cnv.toUnicodeStatus,
    if cnv.toUBytes = [] then none else some (stateDiff cnv.mode, stateCount cnv.mode)⟩

/-- `mode` holds a partial difference if there are bytes of a sequence. -/
structure Decoder.Valid (cnv : Decoder) : Prop where
  prev : cnv.toUnicodeStatus = 0 ∨ IsPrev cnv.toUnicodeStatus
  pending : cnv.toUBytes = [] ∨ IsPending (stateDiff cnv.mode) (stateCount cnv.mode)

theorem Decoder.valid_initial : Decoder.initial.Valid := ⟨Or.inl rfl, Or.inl rfl⟩

/-- There is room in the target, or the call does not start inside of a sequence. -/
def Decoder.Admits (cnv : Decoder) (targetCapacity : Nat) : Prop :=
  cnv.toUBytes = [] ∨ 0 < targetCapacity

instance Decoder.decidableAdmits (cnv : Decoder) (targetCapacity : Nat) :
    Decidable (cnv.Admits targetCapacity) :=
  inferInstanceAs (Decidable (_ ∨ _))

section Call

variable {whole : List UInt8 → List UInt16 × Option DecoderState × List UInt8} {targetLimit : Nat}
  {l : ToLocals} {b : UInt8} {prev : Int}

structure ToRunning (l : ToLocals) : Prop where
  prev : IsPrev l.prev
  buffer : l.uCharErrorBuffer = []
  err : l.err = .zeroError

/-- The transducer state and the source give the rest of the whole output. -/
def ToFollows (whole : List UInt8 → List UInt16 × Option DecoderState × List UInt8)
    (l : ToLocals) (s : DecoderState) : Prop :=
  Follows decodeByte whole (l.target ++ l.uCharErrorBuffer) s l.source

structure ToEnded (whole : List UInt8 → List UInt16 × Option DecoderState × List UInt8)
    (targetLimit : Nat) (l : ToLocals) : Prop where
  proceeds : l.err ≠ .illegalCharFound → IsPrev l.prev ∧
    (l.bytes = [] ∧ ToFollows whole l ⟨l.prev, none⟩ ∨
      l.bytes ≠ [] ∧ IsPending l.diff l.count ∧ ToFollows whole l ⟨l.prev,
        some (l.diff, l.count)⟩) ∧
    (l.err = .zeroError ∧ l.source = [] ∧ l.uCharErrorBuffer = [] ∨ l.target.length = targetLimit)
  fails : l.err = .illegalCharFound → ∀ more,
    whole more = (l.target ++ l.uCharErrorBuffer, none, l.source ++ more)

def ToInv (whole : List UInt8 → List UInt16 × Option DecoderState × List UInt8)
    (targetLimit : Nat) : ToLabel × ToLocals → Prop
  | (.fastSingle, l) =>
    ToRunning l ∧ l.bytes = [] ∧ l.target.length ≤ targetLimit ∧ ToFollows whole l ⟨l.prev, none⟩
  | (.loop, l) =>
    ToRunning l ∧ l.bytes = [] ∧ l.target.length ≤ targetLimit ∧ ToFollows whole l ⟨l.prev, none⟩
  | (.getTrail, l) =>
    ToRunning l ∧ l.bytes ≠ [] ∧ l.target.length < targetLimit ∧ IsPending l.diff l.count ∧
      ToFollows whole l ⟨l.prev, some (l.diff, l.count)⟩
  | (.done, l) => ToEnded whole targetLimit l

theorem ToFollows.byte {s s' : DecoderState} {l' : ToLocals} {out : List UInt16}
    (hf : ToFollows whole l s) (hsource : l.source = b :: l'.source)
    (hbyte : decodeByte s b = some (s', out))
    (hout : l'.target ++ l'.uCharErrorBuffer = l.target ++ l.uCharErrorBuffer ++ out) :
    ToFollows whole l' s' := by
  rw [ToFollows, hsource] at hf
  rw [ToFollows, hout]
  exact hf.cons hbyte

/-- A single-byte difference does not leave the range of code points. -/
theorem IsPrev.single (h : IsPrev prev)
    (hb : startNeg2 ≤ (b.toNat : Int) ∧ (b.toNat : Int) < startPos2) :
    IsCodePoint (prev + (b.toNat - middle)) := by
  simp only [IsPrev, IsCodePoint, startNeg2_eq, startPos2_eq, middle_eq] at *
  omega

theorem putCodePoint_inv (hc : IsCodePoint l.c) (hbuffer : l.uCharErrorBuffer = [])
    (herr : l.err = .zeroError) (hbytes : l.bytes = []) (hroom : l.target.length < targetLimit)
    (hf : Follows decodeByte whole (l.target ++ codePointUnits l.c) ⟨bocu1PREV l.c, none⟩
      l.source) :
    ToInv whole targetLimit (l.putCodePoint targetLimit) := by
  have hprev := isPrev_bocu1PREV hc
  rw [ToLocals.putCodePoint]
  simp only []
  by_cases hbmp : l.c ≤ 0xffff
  · rw [if_pos hbmp]
    rw [codePointUnits, if_pos hbmp] at hf
    refine ⟨⟨hprev, hbuffer, herr⟩, hbytes, ?_, ?_⟩
    · dsimp only
      rw [List.length_append, List.length_singleton]
      omega
    · dsimp only [ToFollows]
      rwa [hbuffer, List.append_nil]
  rw [if_neg hbmp]
  rw [codePointUnits, if_neg hbmp] at hf
  split
  · next hroom' =>
    rw [List.length_append, List.length_singleton] at hroom'
    refine ⟨⟨hprev, hbuffer, herr⟩, hbytes, ?_, ?_⟩
    · dsimp only
      rw [List.length_append, List.length_append, List.length_singleton, List.length_singleton]
      omega
    · dsimp only [ToFollows]
      rwa [hbuffer, List.append_nil, List.append_assoc]
  · next hfull =>
    rw [List.length_append, List.length_singleton] at hfull
    refine ⟨fun _ => ⟨hprev, Or.inl ⟨hbytes, ?_⟩, Or.inr ?_⟩, fun hfail => by cases hfail⟩
    · dsimp only [ToFollows]
      rwa [List.append_assoc]
    dsimp only
    rw [List.length_append, List.length_singleton]
    omega

structure ToFast (whole : List UInt8 → List UInt16 × Option DecoderState × List UInt8)
    (l : ToLocals) : Prop where
  running : ToRunning l
  bytes : l.bytes = []
  follows : ToFollows whole l ⟨l.prev, none⟩

theorem decodeByte_single (hs : startNeg2 ≤ (b.toNat : Int) ∧ (b.toNat : Int) < startPos2)
    (hlt : prev + (b.toNat - middle) < 0x3000) :
    decodeByte ⟨prev, none⟩ b = some (⟨simplePrev (prev + (b.toNat - middle)), none⟩,
      [toUnit (prev + (b.toNat - middle))]) := by
  simp only [decodeByte, decodeFirst, if_pos hs, decodeCodePoint, codePointUnits,
    bocu1PREV_of_lt hlt]
  rw [if_pos (by omega)]

theorem decodeByte_direct {prev : Int} {b : UInt8}
    (hs : ¬ (startNeg2 ≤ (b.toNat : Int) ∧ (b.toNat : Int) < startPos2))
    (hle : (b.toNat : Int) ≤ 0x20) :
    decodeByte ⟨prev, none⟩ b = some (⟨if (b.toNat : Int) ≠ 0x20 then asciiPrev else prev, none⟩,
      [toUnit b.toNat]) := by
  simp only [decodeByte, decodeFirst, if_neg hs, if_pos hle]

theorem isPrev_direct (h : IsPrev prev) (b : UInt8) :
    IsPrev (if (b.toNat : Int) ≠ 0x20 then asciiPrev else prev) := by
  split
  · exact isPrev_asciiPrev
  · exact h

theorem ToFast.fastLoop (n : Nat) {l : ToLocals} (h : ToFast whole l) :
    ToFast whole (l.fastLoop n) ∧ (l.fastLoop n).target.length ≤ l.target.length + n := by
  induction n generalizing l with
  | zero => exact ⟨⟨⟨h.running.prev, h.running.buffer, h.running.err⟩, h.bytes, h.follows⟩,
    Nat.le_refl _⟩
  | succ n ih =>
    have stay : ∀ {c : Int}, ToFast whole { l with c, count := n + 1 } :=
      ⟨⟨h.running.prev, h.running.buffer, h.running.err⟩, h.bytes, h.follows⟩
    rw [ToLocals.fastLoop]
    split
    · exact ⟨⟨⟨h.running.prev, h.running.buffer, h.running.err⟩, h.bytes, h.follows⟩,
        Nat.le_add_right _ _⟩
    next b source hsource =>
    have go : ∀ {prev c : Int} {u : UInt16}, IsPrev prev →
        decodeByte ⟨l.prev, none⟩ b = some (⟨prev, none⟩, [u]) →
        ToFast whole (ToLocals.fastLoop n { l with source, c, target := l.target ++ [u], prev }) ∧
        (ToLocals.fastLoop n { l with source, c, target := l.target ++ [u], prev }).target.length ≤
          l.target.length + (n + 1) := by
      intro prev c u hprev hbyte
      have hnext : ToFast whole { l with source, c, target := l.target ++ [u], prev } :=
        ⟨⟨hprev, h.running.buffer, h.running.err⟩, h.bytes,
          h.follows.byte hsource hbyte (by simp [h.running.buffer])⟩
      obtain ⟨hfast, htarget⟩ := ih hnext
      refine ⟨hfast, ?_⟩
      rw [List.length_append, List.length_singleton] at htarget
      omega
    simp only []
    split
    · next hs =>
      split
      · next hlt =>
        exact go (isPrev_simplePrev (h.running.prev.single hs)) (decodeByte_single hs hlt)
      · exact ⟨stay, Nat.le_add_right _ _⟩
    · next hs =>
      split
      · next hle => exact go (isPrev_direct h.running.prev b) (decodeByte_direct hs hle)
      · exact ⟨stay, Nat.le_add_right _ _⟩

theorem toFastSingle_inv (h : ToInv whole targetLimit (.fastSingle, l)) :
    ToInv whole targetLimit (.loop, l.fastSingle targetLimit) := by
  obtain ⟨hr, hbytes, hlen, hf⟩ := h
  have hfast : ToFast whole { l with diff := l.source.length } :=
    ⟨⟨hr.prev, hr.buffer, hr.err⟩, hbytes, hf⟩
  obtain ⟨hend, htarget⟩ :=
    hfast.fastLoop (Min.min (targetLimit - l.target.length) l.source.length)
  refine ⟨hend.running, hend.bytes, ?_, hend.follows⟩
  dsimp only [ToLocals.fastSingle] at htarget ⊢
  omega

theorem toGetTrail_inv (h : ToInv whole targetLimit (.getTrail, l)) :
    ToInv whole targetLimit (l.getTrail targetLimit) := by
  obtain ⟨hr, hbytes, hroom, hp, hf⟩ := h
  rw [ToLocals.getTrail]
  split
  · next hsource =>
    exact ⟨fun _ => ⟨hr.prev, Or.inr ⟨hbytes, hp, hf⟩, Or.inl ⟨hr.err, hsource, hr.buffer⟩⟩,
      fun hfail => by rw [hr.err] at hfail; cases hfail⟩
  next b source hsource =>
  have illegal : ∀ {l' : ToLocals}, l'.err = .illegalCharFound → l'.source = source →
      l'.target ++ l'.uCharErrorBuffer = l.target ++ l.uCharErrorBuffer →
      decodeByte ⟨l.prev, some (l.diff, l.count)⟩ b = none → ToEnded whole targetLimit l' := by
    intro l' herr hrest hout hnone
    refine ⟨fun hok => absurd herr hok, fun _ more => ?_⟩
    rw [hf more, hsource, List.cons_append, transduce_cons_none hnone, hout, hrest, after,
      List.append_nil]
  simp only []
  by_cases hneg : decodeBocu1TrailByte l.count b.toNat < 0
  · rw [if_pos hneg]
    exact illegal rfl rfl rfl (by simp only [decodeByte, decodeTrail, if_pos hneg])
  rw [if_neg hneg]
  by_cases hlast : l.count - 1 = 0
  · rw [if_pos hlast]
    by_cases hrange : l.prev + (l.diff + decodeBocu1TrailByte l.count b.toNat) < 0 ∨
        l.prev + (l.diff + decodeBocu1TrailByte l.count b.toNat) > 0x10ffff
    · rw [if_pos hrange]
      refine illegal rfl rfl rfl ?_
      simp only [decodeByte, decodeTrail, if_neg hneg, if_pos hlast, if_pos hrange]
    rw [if_neg hrange]
    refine putCodePoint_inv ?_ hr.buffer hr.err rfl hroom ?_
    · dsimp only [IsCodePoint]
      omega
    rw [ToFollows, hsource, hr.buffer, List.append_nil] at hf
    refine hf.cons ?_
    simp only [decodeByte, decodeTrail, if_neg hneg, if_pos hlast, if_neg hrange]
    rfl
  · rw [if_neg hlast]
    have hb := b.toNat_lt
    refine ⟨⟨hr.prev, hr.buffer, hr.err⟩, by simp, hroom,
      hp.add (by omega) (decodeBocu1TrailByte_le (by omega)) hlast,
      hf.byte hsource ?_ (List.append_nil _).symm⟩
    simp only [decodeByte, decodeTrail, if_neg hneg, if_neg hlast]

def doubleDiff (b : Int) : Int :=
  if b ≥ middle then (b - startPos2) * trailCount + reachPos1 + 1
  else (b - startNeg2) * trailCount + reachNeg1

theorem decodeBocu1LeadByte_double {b : Int} (h0 : startNeg3 ≤ b) (h1 : b < startPos3)
    (hs : ¬ (startNeg2 ≤ b ∧ b < startPos2)) :
    decodeBocu1LeadByte b = packState (doubleDiff b) 1 ∧ IsPending (doubleDiff b) 1 := by
  simp only [startNeg2_eq, startPos2_eq, startNeg3_eq, startPos3_eq] at h0 h1 hs
  simp only [decodeBocu1LeadByte, doubleDiff, startNeg2_eq, startPos2_eq, startPos3_eq,
    startNeg3_eq,
    middle_eq, trailCount_eq, reachPos1_eq, reachNeg1_eq]
  by_cases hpos : b ≥ 0x90
  · simp only [if_pos hpos, if_pos (show b ≥ 0x50 by omega), if_pos h1, true_and]
    constructor <;> omega
  simp only [if_neg hpos, if_neg (show ¬ b ≥ 0x50 by omega), if_pos (show b ≥ 0x25 by omega),
    true_and]
  constructor <;> omega

theorem doubleByte_inv {trail : UInt8} (hr : ToRunning l) (hbytes : l.bytes = [])
    (hroom : l.target.length < targetLimit)
    (hf : Follows decodeByte whole l.target ⟨l.prev, none⟩ (b :: trail :: l.source))
    (h0 : startNeg3 ≤ (b.toNat : Int)) (h1 : (b.toNat : Int) < startPos3)
    (hs : ¬ (startNeg2 ≤ (b.toNat : Int) ∧ (b.toNat : Int) < startPos2)) :
    ToInv whole targetLimit (l.doubleByte targetLimit b trail) := by
  obtain ⟨hlead, hp⟩ := decodeBocu1LeadByte_double h0 h1 hs
  have hfirst : decodeByte ⟨l.prev, none⟩ b =
      some (⟨l.prev, some (doubleDiff b.toNat, 1)⟩, []) := by
    rw [startNeg3_eq] at h0
    rw [startPos3_eq] at h1
    simp only [decodeByte, decodeFirst, if_neg hs, reset_eq, hlead, hp.state]
    rw [if_neg (by omega), if_neg (by omega)]
  have hf' := hf.cons hfirst
  rw [List.append_nil] at hf'
  have hdiff : (if (b.toNat : Int) ≥ middle then
      ((b.toNat : Int) - startPos2) * trailCount + reachPos1 + 1
      else ((b.toNat : Int) - startNeg2) * trailCount + reachNeg1) = doubleDiff b.toNat := rfl
  rw [ToLocals.doubleByte, hdiff]
  simp only []
  generalize doubleDiff b.toNat = diff at *
  have htrail : decodeByte ⟨l.prev, some (diff, 1)⟩ trail = decodeTrail l.prev diff 1 trail := rfl
  simp only [decodeTrail, Int.sub_self, if_true] at htrail
  generalize decodeBocu1TrailByte 1 trail.toNat = t at *
  have illegal : decodeByte ⟨l.prev, some (diff, 1)⟩ trail = none →
      ToEnded whole targetLimit { l with diff, c := if t < 0 then t else l.prev + diff + t,
                                         bytes := [b, trail], err := .illegalCharFound } := by
    intro hnone
    refine ⟨fun hok => absurd rfl hok, fun _ more => ?_⟩
    rw [hf' more, List.cons_append, transduce_cons_none hnone, hr.buffer, after, List.append_nil]
  by_cases hneg : t < 0
  · rw [if_pos (Or.inl hneg)]
    exact illegal (by rw [htrail, if_pos hneg])
  rw [if_neg hneg, Int.add_assoc]
  rw [if_neg hneg] at htrail illegal
  by_cases hrange : l.prev + (diff + t) < 0 ∨ l.prev + (diff + t) > 0x10ffff
  · rw [if_pos (Or.inr hrange)]
    rw [Int.add_assoc] at illegal
    exact illegal (by rw [htrail, if_pos hrange])
  rw [if_neg (by rw [not_or]; exact ⟨hneg, hrange⟩)]
  refine putCodePoint_inv ?_ hr.buffer hr.err hbytes hroom (hf'.cons ?_)
  · dsimp only [IsCodePoint]
    omega
  · rw [htrail, if_neg hrange]
    rfl

theorem toLoop_inv (h : ToInv whole targetLimit (.loop, l)) :
    ToInv whole targetLimit (l.loop targetLimit) := by
  obtain ⟨hr, hbytes, hlen, hf⟩ := h
  have hok : l.err ≠ .illegalCharFound := by rw [hr.err]; decide
  rw [ToLocals.loop]
  split
  · next hsource =>
    exact ⟨fun _ => ⟨hr.prev, Or.inl ⟨hbytes, hf⟩, Or.inl ⟨hr.err, hsource, hr.buffer⟩⟩,
      fun hfail => absurd hfail hok⟩
  next b source hsource =>
  have hb := b.toNat_lt
  have hf' := hf
  rw [ToFollows, hsource, hr.buffer, List.append_nil] at hf'
  by_cases hfull : l.target.length ≥ targetLimit
  · rw [if_pos hfull]
    exact ⟨fun _ => ⟨hr.prev, Or.inl ⟨hbytes, hf⟩, Or.inr (Nat.le_antisymm hlen hfull)⟩,
      fun hfail => by cases hfail⟩
  rw [if_neg hfull]
  simp only []
  by_cases hs : startNeg2 ≤ (b.toNat : Int) ∧ (b.toNat : Int) < startPos2
  · rw [if_pos hs]
    split
    · next hlt =>
      refine ⟨⟨isPrev_simplePrev (hr.prev.single hs), hr.buffer, hr.err⟩, hbytes, ?_,
        hf.byte hsource (decodeByte_single hs hlt) (by simp [hr.buffer])⟩
      rw [List.length_append, List.length_singleton]
      omega
    · refine putCodePoint_inv (hr.prev.single hs) hr.buffer hr.err hbytes (Nat.lt_of_not_ge hfull)
        (hf'.cons ?_)
      simp only [decodeByte, decodeFirst, if_pos hs]
      rfl
  rw [if_neg hs]
  by_cases hle : (b.toNat : Int) ≤ 0x20
  · rw [if_pos hle]
    refine ⟨⟨isPrev_direct hr.prev b, hr.buffer, hr.err⟩, hbytes, ?_,
      hf.byte hsource (decodeByte_direct hs hle) (by simp [hr.buffer])⟩
    rw [List.length_append, List.length_singleton]
    omega
  rw [if_neg hle]
  split
  · next trail source' hdouble =>
    rw [decide_eq_true_iff] at hdouble
    exact doubleByte_inv ⟨hr.prev, hr.buffer, hr.err⟩ hbytes (Nat.lt_of_not_ge hfull) hf' hdouble.1
      hdouble.2 hs
  split
  · next hreset =>
    refine ⟨⟨isPrev_asciiPrev, hr.buffer, hr.err⟩, hbytes, hlen,
      hf.byte hsource ?_ (List.append_nil _).symm⟩
    simp only [decodeByte, decodeFirst, if_neg hs, if_neg hle, if_pos hreset]
  · next hreset =>
    have hlt : (b.toNat : Int) ≤ 0xfe := by
      rw [reset_eq] at hreset
      omega
    obtain ⟨diff, count, hlead, hp⟩ := @decodeBocu1LeadByte_pending b.toNat (by omega) hlt
    refine ⟨⟨hr.prev, hr.buffer, hr.err⟩, by simp, Nat.lt_of_not_ge hfull, ?_,
      hf.byte hsource ?_ (List.append_nil _).symm⟩
    · dsimp only
      rw [hlead, hp.state.1, hp.state.2]
      exact hp
    · simp only [decodeByte, decodeFirst, if_neg hs, if_neg hle, if_neg hreset]

theorem toStep_inv (hstep : ToLocals.step targetLimit p = some p')
    (h : ToInv whole targetLimit p) : ToInv whole targetLimit p' := by
  obtain ⟨label, l⟩ := p
  cases label with
  | fastSingle => rw [← Option.some.inj hstep]; exact toFastSingle_inv h
  | loop => rw [← Option.some.inj hstep]; exact toLoop_inv h
  | getTrail => rw [← Option.some.inj hstep]; exact toGetTrail_inv h
  | done => cases hstep

end Call

def toMeasure : ToLabel × ToLocals → Nat
  | (.fastSingle, l) => 2 * l.source.length + 2
  | (.loop, l) => 2 * l.source.length + 1
  | (.getTrail, l) => 2 * l.source.length + 1
  | (.done, _) => 0

theorem toFastLoop_source (n : Nat) (l : ToLocals) :
    (l.fastLoop n).source.length ≤ l.source.length := by
  induction n generalizing l with
  | zero => exact Nat.le_refl _
  | succ n ih =>
    have go : ∀ {l' : ToLocals}, l'.source.length ≤ l.source.length →
        (l'.fastLoop n).source.length ≤ l.source.length :=
      fun h => Nat.le_trans (ih _) h
    rw [ToLocals.fastLoop]
    split
    · exact Nat.le_refl _
    next b source hsource =>
    have hlen : source.length ≤ l.source.length := by
      rw [hsource]
      exact Nat.le_succ _
    simp only []
    split
    · split
      · exact go hlen
      · exact Nat.le_refl _
    · split
      · exact go hlen
      · exact Nat.le_refl _

theorem putCodePoint_measure (targetLimit : Nat) (l : ToLocals) :
    toMeasure (l.putCodePoint targetLimit) ≤ 2 * l.source.length + 1 := by
  rw [ToLocals.putCodePoint]
  simp only []
  split
  · exact Nat.le_refl _
  split
  · exact Nat.le_refl _
  · exact Nat.zero_le _

theorem doubleByte_measure (targetLimit : Nat) (l : ToLocals) (lead trail : UInt8) :
    toMeasure (l.doubleByte targetLimit lead trail) ≤ 2 * l.source.length + 1 := by
  rw [ToLocals.doubleByte]
  generalize (if (lead.toNat : Int) ≥ middle then
    ((lead.toNat : Int) - startPos2) * trailCount + reachPos1 + 1
    else ((lead.toNat : Int) - startNeg2) * trailCount + reachNeg1) = diff
  generalize decodeBocu1TrailByte 1 trail.toNat = t
  simp only []
  generalize (if t < 0 then t else l.prev + diff + t) = c
  split
  · exact Nat.zero_le _
  · exact putCodePoint_measure targetLimit _

theorem toStep_measure {targetLimit : Nat}
    (hstep : ToLocals.step targetLimit p = some p') : toMeasure p' < toMeasure p := by
  obtain ⟨label, l⟩ := p
  cases label with
  | fastSingle =>
    have := toFastLoop_source (Min.min (targetLimit - l.target.length) l.source.length)
      { l with diff := l.source.length }
    rw [← Option.some.inj hstep]
    simp only [toMeasure, ToLocals.fastSingle] at this ⊢
    omega
  | loop =>
    rw [← Option.some.inj hstep, ToLocals.loop]
    split
    · exact Nat.succ_pos _
    next b source hsource =>
    have hloop : toMeasure (.loop, l) = 2 * source.length + 3 := by
      rw [toMeasure, hsource, List.length_cons]
      omega
    rw [hloop]
    simp only []
    split
    · exact Nat.succ_pos _
    split
    · split
      · exact Nat.lt_succ_self _
      · exact Nat.lt_of_le_of_lt (putCodePoint_measure _ _) (by dsimp only; omega)
    split
    · dsimp only [toMeasure]
      omega
    split
    · refine Nat.lt_of_le_of_lt (doubleByte_measure _ _ _ _) ?_
      dsimp only
      rw [List.length_cons]
      omega
    split
    · dsimp only [toMeasure]
      omega
    · dsimp only [toMeasure]
      omega
  | getTrail =>
    rw [← Option.some.inj hstep, ToLocals.getTrail]
    split
    · exact Nat.succ_pos _
    next b source hsource =>
    have htrail : toMeasure (.getTrail, l) = 2 * source.length + 3 := by
      rw [toMeasure, hsource, List.length_cons]
      omega
    rw [htrail]
    simp only []
    split
    · exact Nat.succ_pos _
    split
    · split
      · exact Nat.succ_pos _
      · exact Nat.lt_of_le_of_lt (putCodePoint_measure _ _) (by dsimp only; omega)
    · dsimp only [toMeasure]
      omega
  | done => cases hstep

section Calls

variable {cnv : Decoder} {source : List UInt8} {targetLimit : Nat}

theorem toUnicodeLocals_ended (hv : cnv.Valid) (ha : cnv.Admits targetLimit) :
    ToEnded (fun more => transduce decodeByte cnv.rep (source ++ more)) targetLimit
      (toUnicodeLocals cnv source targetLimit) := by
  have hprev : IsPrev cnv.rep.prev := by
    dsimp only [Decoder.rep]
    split
    · exact isPrev_asciiPrev
    · next hne => exact hv.prev.resolve_left hne
  -- The fuel is enough from both entry points.
  have hend : ∀ (label : ToLabel) (l : ToLocals), l.source = source →
      ToInv (fun more => transduce decodeByte cnv.rep (source ++ more)) targetLimit (label, l) →
      ToEnded (fun more => transduce decodeByte cnv.rep (source ++ more)) targetLimit
        (Program.exec (ToLocals.step targetLimit) (2 * source.length + 3) (label, l)).2 := by
    intro label l hsource hinv
    have hfuel : toMeasure (label, l) < 2 * source.length + 3 := by
      cases label <;> simp only [toMeasure, hsource] <;> omega
    have hstop := Program.exec_halts (ToLocals.step targetLimit) toStep_measure hfuel
    have hfinal := Program.exec_invariant (ToLocals.step targetLimit) toStep_inv
      (2 * source.length + 3) hinv
    generalize Program.exec (ToLocals.step targetLimit) (2 * source.length + 3) (label, l) = p
      at hstop hfinal
    obtain ⟨label', l'⟩ := p
    cases label' with
    | done => exact hfinal
    | fastSingle => cases hstop
    | loop => cases hstop
    | getTrail => cases hstop
  rw [toUnicodeLocals]
  apply hend _ _ rfl
  by_cases hbytes : cnv.toUBytes = []
  · have hno : ¬ (stateCount cnv.mode > 0 ∧ cnv.toUBytes.length > 0 ∧ 0 < targetLimit) := by
      rw [hbytes, List.length_nil]
      omega
    simp only [if_neg hno]
    refine ⟨⟨hprev, rfl, rfl⟩, hbytes, Nat.zero_le _, fun more => ?_⟩
    simp [Decoder.rep, hbytes]
  have hp := hv.pending.resolve_left hbytes
  have hroom : 0 < targetLimit := ha.resolve_left hbytes
  have hgo : stateCount cnv.mode > 0 ∧ cnv.toUBytes.length > 0 ∧ 0 < targetLimit :=
    ⟨Int.lt_of_lt_of_le Int.zero_lt_one hp.count_pos, List.length_pos_of_ne_nil hbytes, hroom⟩
  simp only [if_pos hgo]
  refine ⟨⟨hprev, rfl, rfl⟩, hbytes, hroom, hp, fun more => ?_⟩
  simp [Decoder.rep, hbytes]

theorem bocu1ToUnicode_keeps (hv : cnv.Valid) (ha : cnv.Admits targetLimit) :
    Keeps decodeByte Decoder.rep Decoder.Valid cnv source
      (bocu1ToUnicode cnv source targetLimit) := by
  have h := @toUnicodeLocals_ended cnv source targetLimit hv ha
  rw [bocu1ToUnicode]
  generalize toUnicodeLocals cnv source targetLimit = l at h
  constructor
  · intro hok
    rw [decide_eq_false_iff_not] at hok
    obtain ⟨hprev, hstate, -⟩ := h.proceeds hok
    have hne : ¬ l.prev = 0 := by
      have := hprev.1
      omega
    have hdecoder : l.toDecoder = ⟨l.prev, packState l.diff l.count, l.bytes⟩ := if_neg hok
    simp only [hdecoder]
    rcases hstate with ⟨hbytes, hf⟩ | ⟨hbytes, hp, hf⟩
    · refine ⟨⟨Or.inr hprev, Or.inl hbytes⟩, fun more => ?_⟩
      have hrep : Decoder.rep ⟨l.prev, packState l.diff l.count, l.bytes⟩ = ⟨l.prev, none⟩ := by
        rw [Decoder.rep, if_neg hne, if_pos hbytes]
      rw [hrep]
      exact hf more
    refine ⟨⟨Or.inr hprev, Or.inr ?_⟩, fun more => ?_⟩
    · dsimp only
      rw [hp.state.1, hp.state.2]
      exact hp
    have hrep : Decoder.rep ⟨l.prev, packState l.diff l.count, l.bytes⟩ =
        ⟨l.prev, some (l.diff, l.count)⟩ := by
      rw [Decoder.rep, if_neg hne, if_neg hbytes, hp.state.1, hp.state.2]
    rw [hrep]
    exact hf more
  · intro hfail more
    rw [decide_eq_true_iff] at hfail
    exact h.fails hfail more

theorem toUnicodeLocals_complete (hv : cnv.Valid) (hroom : 2 * source.length < targetLimit)
    (hok : (toUnicodeLocals cnv source targetLimit).err ≠ .illegalCharFound) :
    (toUnicodeLocals cnv source targetLimit).err = .zeroError ∧
      (toUnicodeLocals cnv source targetLimit).source = [] ∧
      (toUnicodeLocals cnv source targetLimit).uCharErrorBuffer = [] := by
  have ha : cnv.Admits targetLimit := Or.inr (by omega)
  have h := @toUnicodeLocals_ended cnv source targetLimit hv ha
  have hkeeps := ((@bocu1ToUnicode_keeps cnv source targetLimit hv ha).proceeds
    (decide_eq_false hok)).2 []
  have hlen := transduce_length_le @decodeByte_length_le source cnv.rep
  rw [List.append_nil] at hkeeps
  rw [hkeeps, after, List.length_append, bocu1ToUnicode, List.length_append] at hlen
  generalize toUnicodeLocals cnv source targetLimit = l at *
  rcases (h.proceeds hok).2.2 with hcomplete | hfull
  · exact hcomplete
  · omega

/-- With enough room, a call writes all output, unless there is an illegal sequence. -/
theorem toUnicodeLocals_transduce (hv : cnv.Valid) (hroom : 2 * source.length < targetLimit)
    (hok : (toUnicodeLocals cnv source targetLimit).err ≠ .illegalCharFound) :
    transduce decodeByte cnv.rep source =
      ((toUnicodeLocals cnv source targetLimit).target,
        some (toUnicodeLocals cnv source targetLimit).toDecoder.rep, []) := by
  have ha : cnv.Admits targetLimit := Or.inr (by omega)
  obtain ⟨-, hsource, hbuffer⟩ := toUnicodeLocals_complete hv hroom hok
  have hkeeps := ((@bocu1ToUnicode_keeps cnv source targetLimit hv ha).proceeds
    (decide_eq_false hok)).2 []
  rw [List.append_nil, bocu1ToUnicode, hsource, hbuffer] at hkeeps
  rw [hkeeps]
  simp [after]

theorem toUnicodeLocals_illegal (hv : cnv.Valid) (ha : cnv.Admits targetLimit)
    (hfail : (toUnicodeLocals cnv source targetLimit).err = .illegalCharFound) :
    transduce decodeByte cnv.rep source =
      ((bocu1ToUnicode cnv source targetLimit).output, none,
        (toUnicodeLocals cnv source targetLimit).source) := by
  have hwhole := (@toUnicodeLocals_ended cnv source targetLimit hv ha).fails hfail []
  simp only [List.append_nil] at hwhole
  exact hwhole

theorem toDecoder_rep_prev (hv : cnv.Valid) (ha : cnv.Admits targetLimit)
    (hok : (toUnicodeLocals cnv source targetLimit).err ≠ .illegalCharFound) :
    (toUnicodeLocals cnv source targetLimit).toDecoder.rep.prev =
      (toUnicodeLocals cnv source targetLimit).toDecoder.toUnicodeStatus := by
  have hprev := ((@toUnicodeLocals_ended cnv source targetLimit hv ha).proceeds hok).1
  refine if_neg fun hzero => ?_
  rw [ToLocals.toDecoder, if_neg hok] at hzero
  dsimp only at hzero
  rw [IsPrev] at hprev
  omega

end Calls

end Icu.Bocu1
