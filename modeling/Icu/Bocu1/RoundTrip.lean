import Icu.Bocu1.Encoder
import Icu.Bocu1.Decoder

/-! # Decoding what was encoded

The decoder adds the bytes of a difference to the same `prev`, so that both transducers stay
at the same `prev` from code point to code point.
-/

namespace Icu.Bocu1

open Utf16 Lib Lib.Transducer

variable {bytes : List UInt8} {s : EncoderState} {out : List UInt16}

section Difference

variable {prev diff count lead k : Int} {more : List UInt8}

theorem decodeByte_lead (h0 : 0x21 ≤ lead) (h1 : lead ≤ 0xfe)
    (hs : ¬ (startNeg2 ≤ lead ∧ lead < startPos2))
    (hstate : decodeBocu1LeadByte lead = packState diff count) (hp : IsPending diff count) :
    decodeByte ⟨prev, none⟩ (toByte lead) = some (⟨prev, some (diff, count)⟩, []) := by
  have hb := toByte_toNat (x := lead) (by omega) (by omega)
  simp only [decodeByte, decodeFirst, hb, if_neg hs, hstate, hp.state, reset_eq]
  rw [if_neg (by omega), if_neg (by omega)]

theorem decodeByte_digit_last (h : IsCodePoint (prev + (diff + k % 243))) :
    decodeByte ⟨prev, some (diff, 1)⟩ (digitByte k) =
      some (decodeCodePoint (prev + (diff + k % 243))) := by
  have ht := decodeBocu1TrailByte_digitByte k 1
  rw [if_pos rfl] at ht
  have hpos : ¬ k % 243 < 0 := by omega
  have hrange : ¬ (prev + (diff + k % 243) < 0 ∨ prev + (diff + k % 243) > 0x10ffff) := by
    rw [IsCodePoint] at h
    omega
  simp only [decodeByte, decodeTrail, ht, if_neg hpos, Int.sub_self, if_true, if_neg hrange]

theorem decodeByte_digit_two : decodeByte ⟨prev, some (diff, 2)⟩ (digitByte k) =
      some (⟨prev, some (diff + k % 243 * 243, 1)⟩, []) := by
  have ht := decodeBocu1TrailByte_digitByte k 2
  rw [if_neg (by decide), if_pos rfl] at ht
  have hpos : ¬ k % 243 * 243 < 0 := by omega
  simp only [decodeByte, decodeTrail, ht, if_neg hpos]
  rfl

theorem decodeByte_digit_three : decodeByte ⟨prev, some (diff, 3)⟩ (digitByte k) =
      some (⟨prev, some (diff + k % 243 * (243 * 243), 2)⟩, []) := by
  have ht := decodeBocu1TrailByte_digitByte k 3
  rw [if_neg (by decide), if_neg (by decide)] at ht
  have hpos : ¬ k % 243 * (243 * 243) < 0 := by omega
  simp only [decodeByte, decodeTrail, ht, if_neg hpos]
  rfl

/-- The bytes of a code point, decoded from a state between two code points. -/
def Decodes (prev : Int) (bytes : List UInt8) (c : Int) : Prop :=
  ∀ more, transduce decodeByte ⟨prev, none⟩ (bytes ++ more) =
    after (codePointUnits c) (transduce decodeByte ⟨bocu1PREV c, none⟩ more)

variable {c start : Int}

theorem Decodes.of_lead (h0 : 0x21 ≤ lead) (h1 : lead ≤ 0xfe)
    (hs : ¬ (startNeg2 ≤ lead ∧ lead < startPos2))
    (hstate : decodeBocu1LeadByte lead = packState diff count) (hp : IsPending diff count)
    (hbytes : ∀ more, transduce decodeByte ⟨prev, some (diff, count)⟩ (bytes ++ more) =
      after (codePointUnits c) (transduce decodeByte ⟨bocu1PREV c, none⟩ more)) :
    Decodes prev (toByte lead :: bytes) c := by
  intro more
  rw [List.cons_append, transduce_cons (decodeByte_lead h0 h1 hs hstate hp), after_nil, hbytes more]

theorem decode_one (hc : prev + (diff + k % 243) = c) (h : IsCodePoint c) (more : List UInt8) :
    transduce decodeByte ⟨prev, some (diff, 1)⟩ ([digitByte k] ++ more) =
      after (codePointUnits c) (transduce decodeByte ⟨bocu1PREV c, none⟩ more) := by
  subst hc
  exact transduce_cons (decodeByte_digit_last h)

theorem decode_two (hc : prev + (diff + k / 243 % 243 * 243 + k % 243) = c) (h : IsCodePoint c)
    (more : List UInt8) :
    transduce decodeByte ⟨prev, some (diff, 2)⟩ ([digitByte (k / 243), digitByte k] ++ more) =
      after (codePointUnits c) (transduce decodeByte ⟨bocu1PREV c, none⟩ more) := by
  rw [List.cons_append, transduce_cons decodeByte_digit_two, after_nil, decode_one hc h]

theorem decode_three
    (hc : prev + (diff + k / 243 / 243 % 243 * (243 * 243) + k / 243 % 243 * 243 + k % 243) = c)
    (h : IsCodePoint c) (more : List UInt8) : transduce decodeByte ⟨prev, some (diff, 3)⟩
        ([digitByte (k / 243 / 243), digitByte (k / 243), digitByte k] ++ more) =
      after (codePointUnits c) (transduce decodeByte ⟨bocu1PREV c, none⟩ more) := by
  rw [List.cons_append, transduce_cons decodeByte_digit_three, after_nil, decode_two hc h]

theorem decodes_single (h : diffIsSingle (c - prev) = true) :
    Decodes prev [toByte (packSingleDiff (c - prev))] c := by
  rw [diffIsSingle_iff] at h
  have hb : ((toByte (packSingleDiff (c - prev))).toNat : Int) = 0x90 + (c - prev) :=
    toByte_toNat (by rw [packSingleDiff, middle_eq]; omega)
      (by rw [packSingleDiff, middle_eq]; omega)
  have hs : startNeg2 ≤ 0x90 + (c - prev) ∧ 0x90 + (c - prev) < startPos2 := by
    rw [startNeg2_eq, startPos2_eq]
    omega
  have hc : prev + (0x90 + (c - prev) - middle) = c := by
    rw [middle_eq]
    omega
  intro more
  refine transduce_cons ?_
  simp only [decodeByte, decodeFirst, hb, if_pos hs, hc]
  rfl

theorem decodeBocu1LeadByte_pos (h0 : 0xd0 ≤ lead) : decodeBocu1LeadByte lead =
      if lead < 0xfb then packState ((lead - 0xd0) * 243 + 63 + 1) 1
      else if lead < 0xfe then packState ((lead - 0xfb) * 243 * 243 + 10512 + 1) 2
      else packState (187659 + 1) 3 := by
  simp only [decodeBocu1LeadByte, trailCount_eq, reachPos1_eq, reachPos2_eq, reachPos3_eq,
    startPos2_eq, startPos3_eq, startPos4_eq, startNeg2_eq]
  rw [if_pos (by omega)]

theorem decodeBocu1LeadByte_neg (h0 : lead < 0x50) : decodeBocu1LeadByte lead =
      if lead ≥ 0x25 then packState ((lead - 0x50) * 243 + -64) 1
      else if lead > 0x21 then packState ((lead - 0x25) * 243 * 243 + -10513) 2
      else packState (-243 * 243 * 243 + -187660) 3 := by
  simp only [decodeBocu1LeadByte, trailCount_eq, reachNeg1_eq, reachNeg2_eq, reachNeg3_eq,
    startNeg2_eq, startNeg3_eq, min_eq]
  rw [if_neg (by omega)]

theorem decodes_diffBytes (hp : IsPrev prev) (hc : IsCodePoint c) :
    Decodes prev (diffBytes (c - prev)) c := by
  have hlow : -0x10ffff ≤ c - prev := by
    simp only [IsPrev, IsCodePoint] at *
    omega
  have hhigh : c - prev ≤ 0x10ffff := by
    simp only [IsPrev, IsCodePoint] at *
    omega
  rw [diffBytes]
  by_cases hs : diffIsSingle (c - prev) = true
  · rw [if_pos hs]
    exact decodes_single hs
  rw [if_neg hs]
  rw [diffIsSingle_iff] at hs
  have hmulti : ∀ {b : Int}, b < 0x50 ∨ 0xd0 ≤ b → ¬ (startNeg2 ≤ b ∧ b < startPos2) := by
    intro b hb
    rw [startNeg2_eq, startPos2_eq]
    omega
  simp only [reachPos1_eq, reachPos2_eq, reachPos3_eq, reachNeg1_eq, reachNeg2_eq, reachNeg3_eq,
    startPos2_eq, startPos3_eq, startPos4_eq, startNeg2_eq, startNeg3_eq, min_eq]
  by_cases hpos : 0 ≤ c - prev
  · rw [if_pos hpos]
    by_cases h2 : c - prev ≤ 10512
    · have hlead := @decodeBocu1LeadByte_pos (0xd0 + (c - prev - (63 + 1)) / 243) (by omega)
      rw [if_pos (by omega)] at hlead
      rw [if_pos h2]
      exact .of_lead (by omega) (by omega) (hmulti (by omega)) hlead (by constructor <;> omega)
        (decode_one (by omega) hc)
    by_cases h3 : c - prev ≤ 187659
    · have hlead := @decodeBocu1LeadByte_pos (0xfb + (c - prev - (10512 + 1)) / 243 / 243)
        (by omega)
      rw [if_neg (by omega), if_pos (by omega)] at hlead
      rw [if_neg h2, if_pos h3]
      exact .of_lead (by omega) (by omega) (hmulti (by omega)) hlead (by constructor <;> omega)
        (decode_two (by omega) hc)
    · have hlead := @decodeBocu1LeadByte_pos (0xfe) (by omega)
      rw [if_neg (by omega), if_neg (by omega)] at hlead
      rw [if_neg h2, if_neg h3]
      exact .of_lead (by omega) (by omega) (hmulti (by omega)) hlead (by constructor <;> omega)
        (decode_three (by omega) hc)
  · rw [if_neg hpos]
    by_cases h2 : -10513 ≤ c - prev
    · have hlead := @decodeBocu1LeadByte_neg (0x50 + (c - prev - -64) / 243) (by omega)
      rw [if_pos (by omega)] at hlead
      rw [if_pos h2]
      exact .of_lead (by omega) (by omega) (hmulti (by omega)) hlead (by constructor <;> omega)
        (decode_one (by omega) hc)
    by_cases h3 : -187660 ≤ c - prev
    · have hlead := @decodeBocu1LeadByte_neg (0x25 + (c - prev - -10513) / 243 / 243)
        (by omega)
      rw [if_neg (by omega), if_pos (by omega)] at hlead
      rw [if_neg h2, if_pos h3]
      exact .of_lead (by omega) (by omega) (hmulti (by omega)) hlead (by constructor <;> omega)
        (decode_two (by omega) hc)
    · have hlead := @decodeBocu1LeadByte_neg (0x21) (by omega)
      rw [if_neg (by omega), if_neg (by omega)] at hlead
      rw [if_neg h2, if_neg h3]
      exact .of_lead (by omega) (by omega) (hmulti (by omega)) hlead (by constructor <;> omega)
        (decode_three (by omega) hc)

end Difference

section Units

variable {u trail : UInt16}

theorem toUnit_toNat (u : UInt16) : toUnit u.toNat = u := by
  have := u.toNat_lt
  apply UInt16.toNat_inj.mp
  rw [toUnit, UInt16.toNat_ofNat']
  omega

theorem codePointUnits_unit (u : UInt16) : codePointUnits u.toNat = [u] := by
  have := u.toNat_lt
  rw [codePointUnits, if_pos (by omega), toUnit_toNat]

theorem codePointUnits_pair (hl : 0xd800 ≤ u.toNat ∧ u.toNat ≤ 0xdbff)
    (ht : 0xdc00 ≤ trail.toNat ∧ trail.toNat ≤ 0xdfff) :
    codePointUnits (u16GetSupplementary u.toNat trail.toNat) = [u, trail] := by
  have hsup := u16GetSupplementary_bounds hl ht
  have hlead : u16Lead (u16GetSupplementary u.toNat trail.toNat) = u := by
    apply UInt16.toNat_inj.mp
    rw [u16Lead, UInt16.toNat_ofNat', Nat.shiftRight_eq_div_pow, u16GetSupplementary_eq]
    omega
  have htrail : u16Trail (u16GetSupplementary u.toNat trail.toNat) = trail := by
    have hlow : u16GetSupplementary u.toNat trail.toNat &&& 0x3ff = trail.toNat - 0xdc00 := by
      rw [Bits.and_low _ 10 0x3ff (by decide), u16GetSupplementary_eq]
      omega
    have hor : (trail.toNat - 0xdc00) ||| 0xdc00 = trail.toNat := by
      rw [Nat.or_comm, show 0xdc00 = 0x37 * 2 ^ 10 from rfl, Bits.or_mul (by omega)]
      omega
    apply UInt16.toNat_inj.mp
    rw [u16Trail, hlow, hor, UInt16.toNat_ofNat']
    omega
  rw [codePointUnits, if_neg (by omega), Int.toNat_natCast, hlead, htrail]

end Units

/-! ## Strings -/

/-- A state of the encoder: the lead surrogate that waits is one. -/
structure EncoderState.Valid (s : EncoderState) : Prop where
  prev : IsPrev s.prev
  lead : ∀ lead ∈ s.lead, ∃ u : UInt16, lead = u.toNat ∧ 0xd800 ≤ u.toNat ∧ u.toNat ≤ 0xdbff

def EncoderState.waiting (s : EncoderState) : List UInt16 := s.lead.toList.map toUnit

/-- The decoder goes from one encoder state to another, writing the given units. -/
def Mirrors (s s' : EncoderState) (bytes : List UInt8) (out : List UInt16) : Prop :=
  ∀ more, transduce decodeByte ⟨s.prev, none⟩ (bytes ++ more) =
    after out (transduce decodeByte ⟨s'.prev, none⟩ more)

theorem Mirrors.trans {s' s'' : EncoderState} {bytes' : List UInt8} {out' : List UInt16}
    (h : Mirrors s s' bytes out) (h' : Mirrors s' s'' bytes' out') :
    Mirrors s s'' (bytes ++ bytes') (out ++ out') := by
  intro more
  rw [List.append_assoc, h, h', after_after]

section CodePoint

variable {prev c : Int} {lead : Option Int}

theorem encodeCodePoint_valid (hc : IsCodePoint c) : (encodeCodePoint prev c).1.Valid :=
  ⟨isPrev_bocu1PREV hc, fun _ h => by cases h⟩

theorem encodeCodePoint_mirrors (hp : IsPrev prev) (hc : IsCodePoint c) :
    Mirrors ⟨prev, lead⟩ (encodeCodePoint prev c).1 (encodeCodePoint prev c).2 (codePointUnits c) :=
  decodes_diffBytes hp hc

end CodePoint

theorem encodeFirst_mirrors {prev : Int} (hp : IsPrev prev) (lead : Option Int) (u : UInt16) :
    (encodeFirst prev u).1.Valid ∧ ∃ out,
      Mirrors ⟨prev, lead⟩ (encodeFirst prev u).1 (encodeFirst prev u).2 out ∧
      out ++ (encodeFirst prev u).1.waiting = [u] := by
  have hu := u.toNat_lt
  rw [encodeFirst]
  by_cases hle : (u.toNat : Int) ≤ 0x20
  · have hbyte : ((toByte u.toNat).toNat : Int) = u.toNat := toByte_toNat (by omega) (by omega)
    have hs : ¬ (startNeg2 ≤ ((toByte u.toNat).toNat : Int) ∧
        ((toByte u.toNat).toNat : Int) < startPos2) := by
      rw [startNeg2_eq, startPos2_eq]
      omega
    have hdirect := @decodeByte_direct prev _ hs (by omega)
    rw [hbyte] at hdirect
    rw [if_pos hle]
    refine ⟨⟨?_, by simp⟩, [u], fun more => ?_, rfl⟩
    · dsimp only
      split
      · exact isPrev_asciiPrev
      · exact hp
    · rw [toUnit_toNat] at hdirect
      exact transduce_cons hdirect
  rw [if_neg hle]
  by_cases hlead : u16IsLead u.toNat = true
  · have hrange := (u16IsLead_iff (by omega)).mp hlead
    rw [if_pos hlead]
    refine ⟨⟨hp, ?_⟩, [], fun more => rfl, ?_⟩
    · intro lead hmem
      rw [Option.mem_some_iff] at hmem
      exact ⟨u, hmem.symm, hrange⟩
    · simp [EncoderState.waiting, toUnit_toNat]
  · rw [if_neg hlead]
    exact ⟨encodeCodePoint_valid (toNat_isCodePoint u), [u],
      codePointUnits_unit u ▸ encodeCodePoint_mirrors hp (toNat_isCodePoint u), rfl⟩

theorem encodeUnit_mirrors (hs : s.Valid) (u : UInt16) :
    ∃ s' bytes out, encodeUnit s u = some (s', bytes) ∧ s'.Valid ∧ Mirrors s s' bytes out ∧
      out ++ s'.waiting = s.waiting ++ [u] := by
  obtain ⟨prev, lead⟩ := s
  cases lead with
  | none =>
    obtain ⟨hv, out, hm, hout⟩ := encodeFirst_mirrors hs.prev none u
    exact ⟨_, _, out, rfl, hv, hm, hout⟩
  | some lead =>
    obtain ⟨lead, rfl, hlead⟩ := hs.lead lead rfl
    have hu := u.toNat_lt
    have hwait : EncoderState.waiting ⟨prev, some lead.toNat⟩ = [lead] := by
      simp [EncoderState.waiting, toUnit_toNat]
    by_cases htrail : u16IsTrail u.toNat = true
    · have hrange := (u16IsTrail_iff (by omega)).mp htrail
      have hsup := u16GetSupplementary_bounds hlead hrange
      have hpair := codePointUnits_pair hlead hrange
      have hunit : encodeUnit ⟨prev, some lead.toNat⟩ u =
          some (encodeCodePoint prev (u16GetSupplementary lead.toNat u.toNat)) := by
        simp only [encodeUnit, Int.toNat_natCast, if_pos htrail]
      generalize u16GetSupplementary lead.toNat u.toNat = c at *
      have hc : IsCodePoint c := by
        rw [IsCodePoint]
        omega
      refine ⟨_, _, [lead, u], hunit, @encodeCodePoint_valid prev c hc, ?_, ?_⟩
      · rw [← hpair]
        exact encodeCodePoint_mirrors hs.prev hc
      · rw [hwait]
        rfl
    · have hc : IsCodePoint (lead.toNat : Int) := toNat_isCodePoint lead
      have hm := @encodeCodePoint_mirrors prev lead.toNat (some lead.toNat) hs.prev hc
      rw [codePointUnits_unit] at hm
      obtain ⟨hv, out, hm', hout⟩ := encodeFirst_mirrors (isPrev_bocu1PREV hc) none u
      have hunit : encodeUnit ⟨prev, some lead.toNat⟩ u =
          some ((encodeFirst (bocu1PREV lead.toNat) u).1,
            diffBytes (lead.toNat - prev) ++ (encodeFirst (bocu1PREV lead.toNat) u).2) := by
        simp only [encodeUnit, if_neg htrail]
      refine ⟨_, _, [lead] ++ out, hunit, hv, hm.trans hm', ?_⟩
      rw [hwait, List.append_assoc, hout]

theorem encode_mirrors (units : List UInt16) (hs : s.Valid) :
    ∃ s' bytes out, transduce encodeUnit s units = (bytes, some s', []) ∧ s'.Valid ∧
      Mirrors s s' bytes out ∧ out ++ s'.waiting = s.waiting ++ units := by
  induction units generalizing s with
  | nil => exact ⟨s, [], [], rfl, hs, fun _ => rfl, by simp⟩
  | cons u units ih =>
    obtain ⟨s₁, bytes₁, out₁, hunit, hv₁, hm₁, hout₁⟩ := encodeUnit_mirrors hs u
    obtain ⟨s₂, bytes₂, out₂, htrans, hv₂, hm₂, hout₂⟩ := ih hv₁
    refine ⟨s₂, bytes₁ ++ bytes₂, out₁ ++ out₂, ?_, hv₂, hm₁.trans hm₂, ?_⟩
    · rw [transduce_cons hunit, htrans, after]
    rw [List.append_assoc, hout₂, ← List.append_assoc, hout₁, List.append_assoc]
    rfl

theorem EncoderState.Valid.lead_eq_none (hv : s.Valid) {units : List UInt16}
    (hout : out ++ s.waiting = units)
    (hlast : ∀ u, units.getLast? = some u → u16IsLead u.toNat = false) : s.lead = none := by
  cases hlead : s.lead with
  | none => rfl
  | some lead =>
    obtain ⟨u, rfl, hrange⟩ := hv.lead lead hlead
    have hunits : units.getLast? = some u := by
      simp [← hout, waiting, hlead, toUnit_toNat]
    have hyes : u16IsLead u.toNat = true := (u16IsLead_iff (by omega)).mpr hrange
    rw [hlast u hunits] at hyes
    cases hyes

/-- A string that does not end with an unpaired lead surrogate comes back, and both
converters end with the same `prev`. -/
theorem toUnicode_fromUnicode {s : List UInt16}
    (hlast : ∀ u, s.getLast? = some u → u16IsLead u.toNat = false)
    {targetCapacity targetLimit : Nat}
    (hfrom : 8 * s.length < targetCapacity) (hto : 16 * s.length < targetLimit) :
    let encoded := fromUnicodeLocals .initial s targetCapacity
    let decoded := toUnicodeLocals .initial encoded.target targetLimit
    encoded.err = .zeroError ∧ encoded.source = [] ∧ encoded.toEncoder.fromUChar32 = 0 ∧
      decoded.err = .zeroError ∧ decoded.source = [] ∧ decoded.toDecoder.toUBytes = [] ∧
      decoded.target = s ∧
      decoded.toDecoder.toUnicodeStatus = encoded.toEncoder.fromUnicodeStatus := by
  intro encoded decoded
  obtain ⟨herr, hsource, -⟩ :=
    @fromUnicodeLocals_complete .initial s targetCapacity Encoder.valid_initial hfrom
  have hencoded := @fromUnicodeLocals_transduce .initial s targetCapacity Encoder.valid_initial
    hfrom
  obtain ⟨s', bytes, out, htrans, hv, hm, hout⟩ :=
    encode_mirrors s (s := Encoder.initial.rep) ⟨isPrev_asciiPrev, fun _ h => by cases h⟩
  have hnone := hv.lead_eq_none hout hlast
  rw [htrans, Prod.mk.injEq, Prod.mk.injEq, Option.some.injEq] at hencoded
  obtain ⟨htarget, hstate, -⟩ := hencoded
  have hbytes := transduce_length_le @encodeUnit_length_le s Encoder.initial.rep
  rw [htrans] at hbytes
  dsimp only at hbytes
  have hlong : 2 * encoded.target.length < targetLimit := by
    rw [← htarget]
    omega
  have hdecodes : transduce decodeByte Decoder.initial.rep encoded.target =
      (out, some ⟨s'.prev, none⟩, []) := by
    have := hm []
    rw [List.append_nil, transduce_nil, after, List.append_nil, htarget] at this
    exact this
  have hok : decoded.err ≠ .illegalCharFound := by
    intro hfail
    have hillegal := toUnicodeLocals_illegal Decoder.valid_initial (Or.inl rfl) hfail
    rw [hdecodes] at hillegal
    cases hillegal
  obtain ⟨herr', hsource', -⟩ := toUnicodeLocals_complete Decoder.valid_initial hlong hok
  have hdecoded := toUnicodeLocals_transduce Decoder.valid_initial hlong hok
  rw [hdecodes, Prod.mk.injEq, Prod.mk.injEq, Option.some.injEq] at hdecoded
  obtain ⟨htarget', hstate', -⟩ := hdecoded
  have hfromUChar32 : encoded.toEncoder.fromUChar32 = 0 := by
    by_contra hne
    have hlead : encoded.toEncoder.rep.lead = some encoded.toEncoder.fromUChar32 := if_neg hne
    rw [← hstate, hnone] at hlead
    cases hlead
  have hbytes' : decoded.toDecoder.toUBytes = [] := by
    by_contra hne
    have hpending : decoded.toDecoder.rep.pending =
        some (stateDiff decoded.toDecoder.mode, stateCount decoded.toDecoder.mode) := if_neg hne
    rw [← hstate'] at hpending
    cases hpending
  have hout' : out = s := by
    rw [EncoderState.waiting, hnone, Option.toList_none, List.map_nil, List.append_nil] at hout
    exact hout
  refine ⟨herr, hsource, hfromUChar32, herr', hsource', hbytes', ?_, ?_⟩
  · rw [← htarget', hout']
  have hprev := @toEncoder_rep_prev .initial s targetCapacity Encoder.valid_initial (Or.inl rfl)
  have hprev' := toDecoder_rep_prev Decoder.valid_initial (Or.inl rfl) hok
  rw [← hprev', ← hstate', ← hprev, ← hstate]

theorem toUnicode_fromUnicode_mixed : u16IsLead (0xdc00 : UInt16).toNat = false ∧
      (toUnicodeLocals .initial
        (fromUnicodeLocals .initial [0x61, 0x20, 0x3050, 0xd800, 0xdc00, 0xd800, 0xa, 0xdc00]
          65).target
        129).target = [0x61, 0x20, 0x3050, 0xd800, 0xdc00, 0xd800, 0xa, 0xdc00] := by
  have hlead : u16IsLead (0xdc00 : UInt16).toNat = false := by decide
  refine ⟨hlead, (toUnicode_fromUnicode (fun u hu => ?_) (by decide) (by decide)).2.2.2.2.2.2.1⟩
  rw [← Option.some.inj hu]
  exact hlead

end Icu.Bocu1
