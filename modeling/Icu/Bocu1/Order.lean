import Icu.Bocu1.Encoder
import Icu.Lib.OrderedCode
import Icu.Utf16.Joining

/-! # The order of encoded strings

From every `prev`, the bytes of the differences are in the order of the differences, and the C0
control codes and space, which are written directly, are below all lead bytes. So the order of
encoded strings is the order of their code points.
-/

namespace Icu.Bocu1

open Utf16 Lib Lib.Transducer Lib.OrderedCode

variable {k' k start prev : Int} {x y : List UInt8} {c : Nat} {cps : List Nat}

theorem toByte_lt {x y : Int} (hx : 0 ≤ x) (hy : y ≤ 0xff) (h : x < y) : toByte x < toByte y := by
  have hleft := toByte_toNat hx (by omega)
  have hright := toByte_toNat (show 0 ≤ y by omega) hy
  rw [UInt8.lt_iff_toNat_lt]
  omega

theorem trailToByte_lt {t t' : Int} (h0 : 0 ≤ t) (h1 : t' < 243) (h : t < t') :
    trailToByte t < trailToByte t' := by
  rw [trailToByte, trailToByte, trailControlsCount_eq, trailByteOffset_eq]
  by_cases hlow : t ≥ 20
  · rw [if_pos hlow, if_pos (by omega)]
    omega
  have hcontrol : ∀ n < 20, bocu1TrailToByte.getD n 0 ≤ 0x1f := by decide
  have hmono : ∀ m < 20, ∀ n < m, bocu1TrailToByte.getD n 0 < bocu1TrailToByte.getD m 0 := by decide
  rw [if_neg hlow]
  by_cases hlow' : t' ≥ 20
  · have := hcontrol t.toNat (by omega)
    rw [if_pos hlow']
    omega
  · rw [if_neg hlow']
    exact hmono t'.toNat (by omega) t.toNat (by omega)

theorem digitByte_lt (h : k % 243 < k' % 243) : digitByte k < digitByte k' := by
  have h0 : 0 ≤ k % 243 := by omega
  have h1 : k' % 243 < 243 := by omega
  have hle := (trailToByte_emod_bounds k).1
  have hle' := (trailToByte_emod_bounds k').2
  exact toByte_lt hle hle' (trailToByte_lt h0 h1 h)

/-- A digit, and what follows it if it does not tell. -/
theorem diverges_digit (hhigh : k / 243 = k' / 243) (hle : k ≤ k')
    (hnext : k = k' → Diverges x y) : Diverges (digitByte k :: x) (digitByte k' :: y) := by
  rcases Int.lt_or_eq_of_le hle with hlt | rfl
  · exact .head (digitByte_lt (by omega))
  · exact .tail _ (hnext rfl)

theorem diverges_lead {a a' : Int} (h0 : 0 ≤ a) (h1 : a' ≤ 0xff) (hle : a ≤ a')
    (hnext : a = a' → Diverges x y) : Diverges (toByte a :: x) (toByte a' :: y) := by
  rcases Int.lt_or_eq_of_le hle with hlt | rfl
  · exact .head (toByte_lt h0 h1 hlt)
  · exact .tail _ (hnext rfl)

theorem twoBytes_diverges (h0 : 0 ≤ start + k / 243) (h1 : start + k' / 243 ≤ 0xff)
    (h : k < k') : Diverges (twoBytes start k) (twoBytes start k') :=
  diverges_lead h0 h1 (by omega) fun hlead =>
    diverges_digit (by omega) (Int.le_of_lt h) fun hsame => absurd hsame (by omega)

theorem threeBytes_diverges (h0 : 0 ≤ start + k / 243 / 243)
    (h1 : start + k' / 243 / 243 ≤ 0xff) (h : k < k') :
    Diverges (threeBytes start k) (threeBytes start k') :=
  diverges_lead h0 h1 (by omega) fun hlead =>
    diverges_digit (by omega) (by omega) fun hsame =>
      diverges_digit hsame (Int.le_of_lt h) fun heq => absurd heq (by omega)

theorem fourBytes_diverges {lead : Int} (hhigh : k / 243 / 243 / 243 = k' / 243 / 243 / 243)
    (h : k < k') : Diverges (fourBytes lead k) (fourBytes lead k') :=
  .tail _ (diverges_digit hhigh (by omega) fun hsame =>
    diverges_digit hsame (by omega) fun hsame' =>
      diverges_digit hsame' (Int.le_of_lt h) fun heq => absurd heq (by omega))

section Ranges

variable {diff : Int}

theorem diffBytes_negative_four (h : diff < -187660) :
    diffBytes diff = fourBytes 0x21 (diff + 187660) := by
  rw [diffBytes, if_neg (by rw [diffIsSingle_iff]; omega), if_neg (by omega), reachNeg2_eq,
    if_neg (by omega), reachNeg3_eq, if_neg (by omega), min_eq, Int.sub_neg]

theorem diffBytes_negative_three (h0 : -187660 ≤ diff) (h1 : diff < -10513) :
    diffBytes diff = threeBytes 0x25 (diff + 10513) := by
  rw [diffBytes, if_neg (by rw [diffIsSingle_iff]; omega), if_neg (by omega), reachNeg2_eq,
    if_neg (by omega), reachNeg3_eq, if_pos h0, startNeg3_eq, Int.sub_neg]

theorem diffBytes_negative_two (h0 : -10513 ≤ diff) (h1 : diff < -64) :
    diffBytes diff = twoBytes 0x50 (diff + 64) := by
  rw [diffBytes, if_neg (by rw [diffIsSingle_iff]; omega), if_neg (by omega), reachNeg2_eq,
    if_pos h0,
    startNeg2_eq, reachNeg1_eq, Int.sub_neg]

theorem diffBytes_single (h0 : -64 ≤ diff) (h1 : diff ≤ 63) :
    diffBytes diff = [toByte (0x90 + diff)] := by
  rw [diffBytes, if_pos (diffIsSingle_iff.mpr ⟨h0, h1⟩), packSingleDiff, middle_eq]

theorem diffBytes_two (h0 : 63 < diff) (h1 : diff ≤ 10512) :
    diffBytes diff = twoBytes 0xd0 (diff - 64) := by
  rw [diffBytes, if_neg (by rw [diffIsSingle_iff]; omega), if_pos (by omega), reachPos2_eq,
    if_pos h1,
    startPos2_eq, reachPos1_eq]
  rfl

theorem diffBytes_three (h0 : 10512 < diff) (h1 : diff ≤ 187659) :
    diffBytes diff = threeBytes 0xfb (diff - 10513) := by
  rw [diffBytes, if_neg (by rw [diffIsSingle_iff]; omega), if_pos (by omega), reachPos2_eq,
    if_neg (by omega), reachPos3_eq, if_pos h1, startPos3_eq]
  rfl

theorem diffBytes_four (h : 187659 < diff) : diffBytes diff = fourBytes 0xfe (diff - 187660) := by
  rw [diffBytes, if_neg (by rw [diffIsSingle_iff]; omega), if_pos (by omega), reachPos2_eq,
    if_neg (by omega), reachPos3_eq, if_neg (by omega), startPos4_eq]
  rfl

theorem diffBytes_succ_diverges (h0 : -0x10ffff ≤ diff) (h1 : diff < 0x10ffff) :
    Diverges (diffBytes diff) (diffBytes (diff + 1)) := by
  by_cases hneg4 : diff + 1 < -187660
  · rw [diffBytes_negative_four (by omega), diffBytes_negative_four hneg4]
    exact fourBytes_diverges (by omega) (by omega)
  by_cases hneg4' : diff + 1 = -187660
  · obtain rfl : diff = -187661 := by omega
    exact .head (by decide)
  by_cases hneg3 : diff + 1 < -10513
  · rw [diffBytes_negative_three (by omega) (by omega), diffBytes_negative_three (by omega) hneg3]
    exact threeBytes_diverges (by omega) (by omega) (by omega)
  by_cases hneg3' : diff + 1 = -10513
  · obtain rfl : diff = -10514 := by omega
    exact .head (by decide)
  by_cases hneg2 : diff + 1 < -64
  · rw [diffBytes_negative_two (by omega) (by omega), diffBytes_negative_two (by omega) hneg2]
    exact twoBytes_diverges (by omega) (by omega) (by omega)
  by_cases hneg2' : diff + 1 = -64
  · obtain rfl : diff = -65 := by omega
    exact .head (by decide)
  by_cases hsingle : diff + 1 ≤ 63
  · rw [diffBytes_single (by omega) (by omega), diffBytes_single (by omega) hsingle]
    exact .head (toByte_lt (by omega) (by omega) (by omega))
  by_cases hsingle' : diff = 63
  · rw [hsingle']
    exact .head (by decide)
  by_cases htwo : diff + 1 ≤ 10512
  · rw [diffBytes_two (by omega) (by omega), diffBytes_two (by omega) htwo]
    exact twoBytes_diverges (by omega) (by omega) (by omega)
  by_cases htwo' : diff = 10512
  · rw [htwo']
    exact .head (by decide)
  by_cases hthree : diff + 1 ≤ 187659
  · rw [diffBytes_three (by omega) (by omega), diffBytes_three (by omega) hthree]
    exact threeBytes_diverges (by omega) (by omega) (by omega)
  by_cases hthree' : diff = 187659
  · rw [hthree']
    exact .head (by decide)
  · rw [diffBytes_four (by omega), diffBytes_four (by omega)]
    exact fourBytes_diverges (by omega) (by omega)

end Ranges

theorem diffBytes_diverges {x y : Int} (h0 : -0x10ffff ≤ x) (h1 : y ≤ 0x10ffff) (h : x < y) :
    Diverges (diffBytes x) (diffBytes y) := by
  exact diverges_of_succ (fun hab hbc => by rw [UInt8.lt_iff_toNat_lt] at *; omega)
    (fun _ => diffBytes_succ_diverges) h0 h1 h

theorem diffBytes_head {diff : Int} (h0 : -0x10ffff ≤ diff) (h1 : diff ≤ 0x10ffff) :
    ∃ b bs, diffBytes diff = b :: bs ∧ 0x21 ≤ b.toNat := by
  have hhead : ∃ b bs, diffBytes (-0x10ffff) = b :: bs ∧ 0x21 ≤ b.toNat := ⟨_, _, rfl, by decide⟩
  obtain ⟨b, bs, hbytes, hb⟩ := hhead
  rcases Int.lt_or_eq_of_le h0 with hlt | rfl
  · have hdiverges := diffBytes_diverges (Int.le_refl _) h1 hlt
    rw [hbytes] at hdiverges
    generalize diffBytes diff = bytes at hdiverges
    cases hdiverges with
    | head hlt' =>
      rw [UInt8.lt_iff_toNat_lt] at hlt'
      exact ⟨_, _, rfl, by omega⟩
    | tail => exact ⟨_, _, rfl, hb⟩
  · exact ⟨b, bs, hbytes, hb⟩

/-- The bytes of a difference, as the encoder writes them. -/
def differenceBytes (diff : Int) : List UInt8 :=
  if diffIsSingle diff then [toByte (packSingleDiff diff)]
  else packedBytes (lengthFromPacked (packDiff diff)) (packDiff diff)

/-- One code point. C0 control codes and space are encoded with their US-ASCII bytes, and `prev` is
reset for C0 controls but not for space. -/
def encodeNext (prev : Int) (c : Nat) : Int × List UInt8 :=
  if c ≤ 0x20 then (if c ≠ 0x20 then asciiPrev else prev, [toByte c])
  else (bocu1PREV c, differenceBytes (c - prev))

def encodeCodePoints (cps : List Nat) : List UInt8 := encode encodeNext asciiPrev cps

theorem differenceBytes_eq {diff : Int} (h0 : -0x10ffff ≤ diff) (h1 : diff ≤ 0x10ffff) :
    differenceBytes diff = diffBytes diff := by
  rw [differenceBytes]
  by_cases hs : diffIsSingle diff = true
  · rw [if_pos hs, diffBytes, if_pos hs]
  have hpacks := packDiff_packs h0 h1 hs
  rw [if_neg hs, hpacks.length_eq, hpacks.packedBytes_all]

theorem isCodePoint_natCast (h : c ≤ 0x10ffff) : IsCodePoint (c : Int) := ⟨by omega, by omega⟩

theorem encodeNext_eq (hprev : IsPrev prev) (hc : c ≤ 0x10ffff) (hlarge : 0x20 < c) :
    encodeNext prev c = (bocu1PREV c, diffBytes (c - prev)) := by
  rw [IsPrev] at hprev
  rw [encodeNext, if_neg (by omega), differenceBytes_eq (by omega) (by omega)]

theorem encodeNext_ordered : Ordered encodeNext IsPrev (fun c : Nat => c ≤ 0x10ffff) where
  next := by
    intro prev c hprev hc
    have hc' : IsCodePoint (c : Int) := isCodePoint_natCast hc
    by_cases hsmall : c ≤ 0x20
    · rw [encodeNext, if_pos hsmall]
      split
      · exact isPrev_asciiPrev
      · exact hprev
    · rw [encodeNext, if_neg hsmall]
      dsimp only
      exact isPrev_bocu1PREV hc'
  writes := by
    intro prev c hprev hc
    by_cases hsmall : c ≤ 0x20
    · rw [encodeNext, if_pos hsmall]
      exact List.cons_ne_nil _ _
    rw [encodeNext_eq hprev hc (by omega)]
    rw [IsPrev] at hprev
    obtain ⟨b, bs, hbytes, -⟩ := @diffBytes_head (c - prev) (by omega) (by omega)
    rw [hbytes]
    exact List.cons_ne_nil _ _
  diverges := by
    intro prev c c' hprev hc hc' hlt
    have hrange : 0x40 ≤ prev ∧ prev ≤ 0x10ffc0 := hprev
    by_cases hsmall : c ≤ 0x20
    · by_cases hsmall' : c' ≤ 0x20
      · rw [encodeNext, encodeNext, if_pos hsmall, if_pos hsmall']
        exact .head (toByte_lt (by omega) (by omega) (by omega))
      obtain ⟨b, bs, hbytes, hb⟩ := @diffBytes_head (c' - prev) (by omega) (by omega)
      have hbyte := @toByte_toNat c (by omega) (by omega)
      rw [encodeNext, if_pos hsmall, encodeNext_eq hprev hc' (by omega)]
      rw [hbytes]
      refine .head ?_
      rw [UInt8.lt_iff_toNat_lt]
      omega
    · rw [encodeNext_eq hprev hc (by omega), encodeNext_eq hprev hc' (by omega)]
      exact diffBytes_diverges (by omega) (by omega) (by omega)

/-- UTF-16 text can hold the code points, and no lead surrogate at the end waits for more input. -/
structure Encodable (cps : List Nat) : Prop where
  unjoined : Unjoined cps
  last : ∀ c ∈ cps.getLast?, u16IsLead c = false

theorem Encodable.tail {c : Nat} {cps : List Nat} (h : Encodable (c :: cps)) : Encodable cps where
  unjoined := (Unjoined.of_append (show Unjoined ([c] ++ cps) from h.unjoined)).2
  last := by
    intro d hd
    refine h.last d ?_
    cases cps with
    | nil => cases hd
    | cons => exact hd

theorem Encodable.next_of_lead (h : Encodable (c :: cps)) (hlead : u16IsLead c = true) :
    ∃ v rest, utf16 cps = v :: rest ∧ u16IsTrail v.toNat = false := by
  cases cps with
  | nil =>
    have := h.last c rfl
    rw [hlead] at this
    cases this
  | cons d cps =>
    have hd := h.unjoined.le d (List.mem_cons_of_mem c List.mem_cons_self)
    have hapart := (List.isChain_cons.mp h.unjoined.apart).1 d rfl
    obtain ⟨v, rest, hunits⟩ := List.exists_cons_of_ne_nil
      (List.ne_nil_of_length_pos (length_unitsOf_pos d))
    refine ⟨v, rest ++ utf16 cps, by rw [utf16_cons, hunits, List.cons_append], ?_⟩
    rw [← Bool.not_eq_true]
    intro htrail
    exact hapart ⟨hlead, head_unitsOf hd [] (by rw [hunits]; rfl) htrail⟩

theorem transduce_utf16 (h : Encodable cps) (hprev : IsPrev prev) :
    ∃ s, transduce encodeUnit ⟨prev, none⟩ (utf16 cps) =
    (encode encodeNext prev cps, some s, []) := by
  induction cps generalizing prev with
  | nil => exact ⟨_, rfl⟩
  | cons c cps ih =>
    have hc : c ≤ 0x10ffff := h.unjoined.le c List.mem_cons_self
    have hprev' : IsPrev (encodeNext prev c).1 := encodeNext_ordered.next hprev hc
    obtain ⟨s, hrest⟩ := ih h.tail hprev'
    refine ⟨s, ?_⟩
    rw [utf16_cons, encode]
    -- The bytes of the code point are written, and the encoder is ready for the next one.
    suffices hfirst : transduce encodeUnit ⟨prev, none⟩ (unitsOf c ++ utf16 cps) =
        after (encodeNext prev c).2 (transduce encodeUnit ⟨(encodeNext prev c).1, none⟩
          (utf16 cps)) by
      rw [hfirst, hrest]
      rfl
    by_cases hsmall : c ≤ 0x20
    · have hunit : encodeUnit ⟨prev, none⟩ (UInt16.ofNat c) =
          some (⟨(encodeNext prev c).1, none⟩, (encodeNext prev c).2) := by
        rw [encodeUnit, encodeFirst, toNat_ofNat_bmp (by omega), if_pos (by omega), encodeNext,
          if_pos hsmall]
        by_cases hspace : c = 0x20
        · rw [hspace]
          rfl
        · rw [if_pos (by omega), if_pos hspace]
      rw [unitsOf_bmp (by omega), List.singleton_append, transduce_cons hunit]
    have hnext := encodeNext_eq hprev hc (by omega)
    rw [hnext]
    by_cases hsup : 0xffff < c
    · have hlead := toNat_u16Lead hsup hc
      have hfirst : encodeUnit ⟨prev, none⟩ (u16Lead c) = some (⟨prev, some (u16Lead c).toNat⟩,
        []) := by
        rw [encodeUnit, encodeFirst, if_neg (by omega), if_pos (u16IsLead_u16Lead hsup hc)]
      have hsecond : encodeUnit ⟨prev, some (u16Lead c).toNat⟩ (u16Trail c) =
          some (⟨bocu1PREV c, none⟩, diffBytes (c - prev)) := by
        rw [encodeUnit]
        dsimp only
        rw [if_pos (u16IsTrail_u16Trail c), Int.toNat_natCast,
          u16GetSupplementary_u16Lead_u16Trail hsup hc,
          encodeCodePoint]
      rw [unitsOf_supplementary hsup, List.cons_append, List.singleton_append,
        transduce_cons hfirst,
        transduce_cons hsecond, after_nil]
    · rw [unitsOf_bmp (by omega), List.singleton_append]
      by_cases hlead : u16IsLead c = true
      · obtain ⟨v, rest, hunits, htrail⟩ := h.next_of_lead hlead
        have hwaits : encodeUnit ⟨prev, none⟩ (UInt16.ofNat c) = some (⟨prev, some c⟩, []) := by
          rw [encodeUnit, encodeFirst, toNat_ofNat_bmp (by omega), if_neg (by omega), if_pos hlead]
        rw [transduce_cons hwaits, after_nil, hunits, transduce_unpaired htrail]
      have hunit : encodeUnit ⟨prev, none⟩ (UInt16.ofNat c) =
          some (⟨bocu1PREV c, none⟩, diffBytes (c - prev)) := by
        rw [encodeUnit, encodeFirst, toNat_ofNat_bmp (by omega), if_neg (by omega), if_neg hlead,
          encodeCodePoint]
      rw [transduce_cons hunit]

theorem bocu1FromUnicode_utf16 (h : Encodable cps) {targetCapacity : Nat}
    (hroom : 8 * (utf16 cps).length < targetCapacity) :
    (bocu1FromUnicode .initial (utf16 cps) targetCapacity).output = encodeCodePoints cps := by
  obtain ⟨s, hbytes⟩ := transduce_utf16 h isPrev_asciiPrev
  obtain ⟨-, -, hbuffer⟩ :=
    @fromUnicodeLocals_complete .initial (utf16 cps) targetCapacity Encoder.valid_initial hroom
  have htarget := @fromUnicodeLocals_transduce .initial (utf16 cps) targetCapacity
    Encoder.valid_initial hroom
  have hstart : Encoder.initial.rep = ⟨asciiPrev, none⟩ := rfl
  rw [hstart, hbytes, Prod.mk.injEq] at htarget
  rw [bocu1FromUnicode, hbuffer, List.append_nil, ← htarget.1]
  rfl

/-- The order of encoded sequences of code points is the order of the sequences, and the converter
encodes each sequence that UTF-16 text can hold. -/
theorem code_point_order {a b : List Nat} (ha : ∀ c ∈ a, c ≤ 0x10ffff)
    (hb : ∀ c ∈ b, c ≤ 0x10ffff) :
    (a < b ↔ encodeCodePoints a < encodeCodePoints b) ∧
      ∀ cps, Encodable cps → ∀ targetCapacity, 8 * (utf16 cps).length < targetCapacity →
        (bocu1FromUnicode .initial (utf16 cps) targetCapacity).output = encodeCodePoints cps := by
  have : Std.Asymm (fun x y : UInt8 => x < y) :=
    ⟨fun x y h h' => by rw [UInt8.lt_iff_toNat_lt] at *; omega⟩
  exact ⟨encodeNext_ordered.encode_lt_iff isPrev_asciiPrev ha hb,
    fun cps h targetCapacity hroom => bocu1FromUnicode_utf16 h hroom⟩

theorem code_point_order_mixed : ([0x61, 0x3050] < [0x61, 0x10000] ↔
      encodeCodePoints [0x61, 0x3050] < encodeCodePoints [0x61, 0x10000]) ∧
    (bocu1FromUnicode .initial (utf16 [0x61, 0x10000]) 25).output = encodeCodePoints
    [0x61, 0x10000] := by
  obtain ⟨horder, hconverter⟩ :=
    @code_point_order [0x61, 0x3050] [0x61, 0x10000] (by decide) (by decide)
  refine ⟨horder, hconverter _ ⟨unjoined_of_isScalar (by decide), fun c hc => ?_⟩ _ (by decide)⟩
  rw [← Option.some.inj hc]
  decide

end Icu.Bocu1
