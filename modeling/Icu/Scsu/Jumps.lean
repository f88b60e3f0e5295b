import Icu.Scsu.DecodeByte

/-! # One jump of the SCSU decoder

Between two labels the converter reads no byte, one byte or a pair of them, as the decoder does
byte by byte, or it comes to its end.
-/

namespace Icu.Scsu

open Utf16 Lib

variable {p : ToLabel × ToLocals}

section Jump

variable {targetLimit : Nat} {l l' : ToLocals} {c : Nat} {bs : List UInt8} {b : UInt8}
  {cnv : Decoder}

theorem putCodePoint_fits (h : l.target.length + (unitsOf c).length ≤ targetLimit) :
    l.putCodePoint targetLimit c = ({ l with target := l.target ++ unitsOf c }, true) := by
  rw [ToLocals.putCodePoint]
  by_cases hbmp : c ≤ 0xffff
  · rw [if_pos hbmp, unitsOf_bmp hbmp]
    rfl
  rw [unitsOf_supplementary (by omega)] at h ⊢
  have hlt : (l.put (0xd7c0 + (c >>> 10))).target.length < targetLimit := by
    rw [List.length_cons, List.length_singleton] at h
    rw [ToLocals.put, List.length_append, List.length_singleton]
    omega
  rw [if_neg hbmp]
  rw [if_pos hlt, ToLocals.put, ToLocals.put, List.append_assoc, Nat.add_comm, Nat.or_comm]
  rfl

theorem putCodePoint_overflow (hroom : l.target.length < targetLimit)
    (h : targetLimit < l.target.length + (unitsOf c).length) :
    unitsOf c = [u16Lead c, u16Trail c] ∧ l.putCodePoint targetLimit c =
      ({ l with target := l.target ++ [u16Lead c], uCharErrorBuffer := [u16Trail c],
                err := .bufferOverflowError }, false) := by
  by_cases hbmp : c ≤ 0xffff
  · rw [unitsOf_bmp hbmp, List.length_singleton] at h
    omega
  have hfull : ¬ (l.put (0xd7c0 + (c >>> 10))).target.length < targetLimit := by
    rw [unitsOf_supplementary (by omega), List.length_cons, List.length_singleton] at h
    rw [ToLocals.put, List.length_append, List.length_singleton]
    omega
  refine ⟨unitsOf_supplementary (by omega), ?_⟩
  rw [ToLocals.putCodePoint, if_neg hbmp]
  rw [if_neg hfull, ToLocals.put, Nat.add_comm, Nat.or_comm]
  rfl

/-- A byte has been read, and there was room for its units. -/
structure ReadsByte (targetLimit : Nat) (l l' : ToLocals) (b : UInt8) (bs : List UInt8)
    (out : List UInt16) : Prop where
  source : l.source = b :: bs
  room : l.target.length < targetLimit
  step : decodeByte l.cnv.rep b = some (l'.cnv.rep, out)
  source' : l'.source = bs
  target : l'.target = l.target ++ out
  fits : l'.target.length ≤ targetLimit
  valid : l'.cnv.Valid
  err : l'.err = l.err
  buffer : l'.uCharErrorBuffer = l.uCharErrorBuffer

theorem ReadsByte.silent (hsource : l.source = b :: bs)
    (hroom : l.target.length < targetLimit) {d : Decoder}
    (hstep : decodeByte l.cnv.rep b = some (d, [])) (hrep : cnv.rep = d) (hvalid : cnv.Valid) :
    ReadsByte targetLimit l ⟨cnv, bs, l.target, l.uCharErrorBuffer, l.err⟩ b bs [] :=
  ⟨hsource, hroom, hrep ▸ hstep, rfl, (List.append_nil _).symm, Nat.le_of_lt hroom, hvalid, rfl,
    rfl⟩

theorem ReadsByte.unit {b : UInt8} {bs : List UInt8} (hsource : l.source = b :: bs)
    (hroom : l.target.length < targetLimit) {d : Decoder} {u : UInt16}
    (hstep : decodeByte l.cnv.rep b = some (d, [u])) {cnv : Decoder} (hrep : cnv.rep = d)
    (hvalid : cnv.Valid) :
    ReadsByte targetLimit l ⟨cnv, bs, l.target ++ [u], l.uCharErrorBuffer, l.err⟩ b bs [u] := by
  refine ⟨hsource, hroom, hrep ▸ hstep, rfl, rfl, ?_, hvalid, rfl, rfl⟩
  rw [List.length_append, List.length_singleton]
  exact hroom

inductive Effect (targetLimit : Nat) (label : ToLabel) (l : ToLocals) : ToLabel × ToLocals → Prop
  | idle {label' : ToLabel} (hlabel' : label' ≠ .endloop) : Effect targetLimit label l (label', l)
  | stop {err : UErrorCode} (hstop : l.source = [] ∨ targetLimit ≤ l.target.length)
      (herr : err = l.err ∨ err = .bufferOverflowError) :
      Effect targetLimit label l (.endloop, { l with err })
  | byte {label' : ToLabel} {l' : ToLocals} {b : UInt8} {bs : List UInt8} {out : List UInt16}
      (hlabel : label ≠ .fastUnicode) (hlabel' : label' ≠ .endloop)
      (h : ReadsByte targetLimit l l' b bs out) : Effect targetLimit label l (label', l')
  | pair {m l' : ToLocals} {b b2 : UInt8} {bs : List UInt8} {u : UInt16}
      (hlabel : label = .fastUnicode) (h : ReadsByte targetLimit l m b (b2 :: bs) [])
      (h' : ReadsByte targetLimit m l' b2 bs [u]) (hlead : ToLocals.isUnicodeLead b = true)
      (hpair : m.cnv.toUState = .quotePairTwo) (hstate : l'.cnv.toUState = .readCommand) :
      Effect targetLimit label l (.fastUnicode, l')
  /-- There was room for the first one of two units only. The state is not changed, so that it is
  what the decoder has for it unless the code point was quoted. -/
  | overflow {d : Decoder} {b : UInt8} {bs : List UInt8} {lead trail : UInt16}
      (hsource : l.source = b :: bs) (hroom : l.target.length < targetLimit)
      (hstep : decodeByte l.cnv.rep b = some (d, [lead, trail]))
      (hstate : l.cnv.toUState = .quoteOne ∨ l.cnv.rep = d)
      (hfull : targetLimit < l.target.length + 2) :
      Effect targetLimit label l
        (.endloop, ⟨l.cnv, bs, l.target ++ [lead], [trail], .bufferOverflowError⟩)
  | illegal {b : UInt8} {bs : List UInt8} (hsource : l.source = b :: bs)
      (hstep : decodeByte l.cnv.rep b = none) :
      Effect targetLimit label l (.endloop,
        ⟨{ l.cnv with toUBytes := [b] }, bs, l.target, l.uCharErrorBuffer, .illegalCharFound⟩)
  | reserved {b : UInt8} {bs : List UInt8} (hsource : l.source = b :: bs)
      (hroom : l.target.length < targetLimit) (hstate : l.cnv.toUState = .defineOne)
      (hb : isReserved b.toNat = true) :
      Effect targetLimit label l (.endloop, { l with source := bs }.storeSecond b)

def AtLabel (targetLimit : Nat) : ToLabel × ToLocals → Prop
  | (.fastSingle, l) => l.cnv.toUIsSingleByteMode = true ∧ l.cnv.toUState = .readCommand
  | (.singleByteMode, l) => l.cnv.toUIsSingleByteMode = true ∧
      (l.cnv.toUState = .readCommand → l.target.length < targetLimit →
        ∀ b ∈ l.source.head?, b.toNat < 0x20)
  | (.fastUnicode, l) => l.cnv.toUIsSingleByteMode = false ∧ l.cnv.toUState = .readCommand
  | (.unicodeByteMode, l) => l.cnv.toUIsSingleByteMode = false ∧ l.cnv.Valid ∧
      (l.cnv.toUState = .readCommand → l.target.length < targetLimit →
        ∀ b b2 bs, l.source = b :: b2 :: bs → ToLocals.isUnicodeLead b = false)
  | (.endloop, _) => True

def Jumps (targetLimit : Nat) (label : ToLabel) (l : ToLocals) (p : ToLabel × ToLocals) : Prop :=
  Effect targetLimit label l p ∧ AtLabel targetLimit p

/-! ### Single-byte mode -/

theorem fastSingle_jumps (hat : AtLabel targetLimit (.fastSingle, l)) :
    Jumps targetLimit .fastSingle l (l.fastSingle targetLimit) := by
  obtain ⟨hmode, hstate⟩ := hat
  rw [ToLocals.fastSingle]
  split
  · next hsource =>
    refine ⟨.idle (by decide), hmode, fun _ _ b hb => ?_⟩
    rw [hsource] at hb
    cases hb
  next b source hsource =>
  split
  · next hgo =>
    obtain ⟨hroom, hb⟩ := hgo
    have hstep := decodeByte_readSingle hmode hstate b
    have hvalid : l.cnv.Valid := valid_of_single hmode
    rw [decodeSingle] at hstep
    dsimp only at hstep ⊢
    rw [if_pos hb] at hstep
    by_cases hascii : b.toNat ≤ 0x7f
    · rw [if_pos hascii] at hstep ⊢
      exact ⟨.byte (by decide) (by decide) (.unit hsource hroom hstep rfl hvalid), hmode, hstate⟩
    rw [if_neg hascii] at hstep ⊢
    have hoffset : l.cnv.rep.toUDynamicOffsets.get l.cnv.rep.toUDynamicWindow =
        l.cnv.toUDynamicOffsets.get l.cnv.toUDynamicWindow := rfl
    rw [hoffset] at hstep
    by_cases hfits : l.target.length +
        (unitsOf (l.cnv.toUDynamicOffsets.get l.cnv.toUDynamicWindow + (b.toNat &&& 0x7f))).length ≤
        targetLimit
    · rw [putCodePoint_fits (l := { l with source }) hfits]
      refine ⟨.byte (by decide) (by decide) ⟨hsource, hroom, hstep, rfl, rfl, ?_, hvalid, rfl, rfl⟩,
        hmode, hstate⟩
      rw [List.length_append]
      exact hfits
    · obtain ⟨hpair, hput⟩ := putCodePoint_overflow (l := { l with source }) hroom
        (Nat.lt_of_not_le hfits)
      rw [hput]
      rw [hpair] at hstep hfits
      exact ⟨.overflow hsource hroom hstep (Or.inr rfl) (Nat.lt_of_not_le hfits), trivial⟩
  · next hstop =>
    refine ⟨.idle (by decide), hmode, fun _ hroom b' hb' => ?_⟩
    rw [hsource] at hb'
    cases hb'
    rw [not_and] at hstop
    exact Nat.lt_of_not_ge (hstop hroom)

theorem singleCommand_jumps (hsource : l.source = b :: bs)
    (hroom : l.target.length < targetLimit) (hmode : l.cnv.toUIsSingleByteMode = true)
    (hstate : l.cnv.toUState = .readCommand) (hb : b.toNat < 0x20) :
    Jumps targetLimit .singleByteMode l ({ l with source := bs }.singleCommand b) := by
  have hstep := decodeByte_readSingle hmode hstate b
  have hrep := Decoder.rep_of_readCommand hstate
  have hvalid : ∀ {d : Decoder}, d.toUIsSingleByteMode = true → d.Valid := valid_of_single
  -- A command that begins a sequence.
  have pending : ∀ {d cnv : Decoder}, decodeByte l.cnv.rep b = some (d, []) → cnv.rep = d →
      cnv.toUIsSingleByteMode = true → ¬ cnv.toUState = .readCommand →
      Jumps targetLimit .singleByteMode l (.singleByteMode, ⟨cnv, bs, l.target, l.uCharErrorBuffer,
        l.err⟩) := by
    intro d cnv hstep hrep' hmode' hstate'
    exact ⟨.byte (by decide) (by decide) (.silent hsource hroom hstep hrep' (hvalid hmode')),
      hmode',
      fun h => absurd h hstate'⟩
  rw [decodeSingle] at hstep
  rw [ToLocals.singleCommand]
  rw [if_neg (by omega)] at hstep
  by_cases hcontrol : isDirectControl b.toNat = true
  · rw [if_pos hcontrol] at hstep ⊢
    exact ⟨.byte (by decide) (by decide) (.unit hsource hroom hstep rfl (hvalid hmode)), hmode,
      hstate⟩
  rw [if_neg hcontrol] at hstep ⊢
  by_cases hsc0 : sc0 ≤ b.toNat
  · rw [if_pos hsc0] at hstep ⊢
    by_cases hsc7 : b.toNat ≤ sc7
    · rw [if_pos hsc7] at hstep ⊢
      refine ⟨.byte (by decide) (by decide) (.silent hsource hroom hstep ?_ (hvalid hmode)), hmode,
        hstate⟩
      rw [hrep]
      exact Decoder.rep_of_readCommand hstate
    · rw [if_neg hsc7] at hstep ⊢
      refine pending hstep ?_ hmode (fun h => by cases h)
      rw [hrep]
      exact Decoder.rep_of_pending (s := .defineOne) rfl (by decide)
  rw [if_neg hsc0] at hstep ⊢
  by_cases hsq7 : b.toNat ≤ sq7
  · rw [if_pos hsq7] at hstep ⊢
    refine pending hstep ?_ hmode (fun h => by cases h)
    rw [hrep]
    exact Decoder.rep_of_pending (s := .quoteOne) rfl (by decide)
  rw [if_neg hsq7] at hstep ⊢
  by_cases hsdx : b.toNat = sdx
  · rw [if_pos hsdx] at hstep ⊢
    refine pending hstep ?_ hmode (fun h => by cases h)
    rw [hrep]
    exact Decoder.rep_of_pending (s := .definePairOne) rfl (by decide)
  rw [if_neg hsdx] at hstep ⊢
  by_cases hsqu : b.toNat = squ
  · rw [if_pos hsqu] at hstep ⊢
    refine pending hstep ?_ hmode (fun h => by cases h)
    rw [hrep]
    exact Decoder.rep_of_pending (s := .quotePairOne) rfl (by decide)
  rw [if_neg hsqu] at hstep ⊢
  by_cases hscu : b.toNat = scu
  · rw [if_pos hscu] at hstep ⊢
    refine ⟨.byte (by decide) (by decide) (.silent hsource hroom hstep ?_ fun _ => Or.inl hstate),
      rfl, hstate⟩
    rw [hrep]
    exact Decoder.rep_of_readCommand hstate
  · rw [if_neg hscu] at hstep ⊢
    exact ⟨.illegal hsource hstep, trivial⟩

theorem defineOne_jumps (hsource : l.source = b :: bs)
    (hroom : l.target.length < targetLimit) (hmode : l.cnv.toUIsSingleByteMode = true)
    (hstate : l.cnv.toUState = .defineOne) :
    Jumps targetLimit .singleByteMode l ({ l with source := bs }.defineOne b) := by
  -- A window is defined.
  have define : ∀ offset, isReserved b.toNat = false → definedOffset b.toNat = offset →
      Jumps targetLimit .singleByteMode l
        (.fastSingle, ({ l with source := bs }.setOffset offset).setState .readCommand) := by
    rintro offset hallocated rfl
    have hstep : decodeByte l.cnv.rep b =
        some ((l.cnv.rep.setOffset (definedOffset b.toNat)).ready, []) := by
      rw [decodeByte_defineOne (Decoder.rep_toUState _ ▸ hstate), hallocated,
        if_neg Bool.false_ne_true]
    exact ⟨.byte (by decide) (by decide) (.silent hsource hroom hstep
      (Decoder.rep_of_readCommand rfl)
      (valid_of_single hmode)), hmode, rfl⟩
  have reserved : isReserved b.toNat = true →
      Jumps targetLimit .singleByteMode l (.endloop, { l with source := bs }.storeSecond b) :=
    fun hb => ⟨.reserved hsource hroom hstate hb, trivial⟩
  have hg : gapThreshold = 0x68 := rfl
  have hs : reservedStart = 0xa8 := rfl
  have hf : fixedThreshold = 0xf9 := rfl
  have reserved_iff : isReserved b.toNat = true ↔
      b.toNat = 0 ∨ reservedStart ≤ b.toNat ∧ b.toNat < fixedThreshold := by
    simp [isReserved]
  rw [ToLocals.defineOne]
  by_cases hzero : b.toNat = 0
  · rw [if_pos hzero]
    exact reserved (reserved_iff.mpr (Or.inl hzero))
  rw [if_neg hzero]
  by_cases hgap : b.toNat < gapThreshold
  · rw [if_pos hgap]
    refine define _ (Bool.not_eq_true _ ▸ mt reserved_iff.mp (by omega)) ?_
    rw [definedOffset, if_pos hgap]
  rw [if_neg hgap]
  by_cases hres : b.toNat < reservedStart
  · rw [if_pos hres]
    refine define _ (Bool.not_eq_true _ ▸ mt reserved_iff.mp (by omega)) ?_
    rw [definedOffset, if_neg hgap, if_pos hres]
  rw [if_neg hres]
  by_cases hfix : b.toNat ≥ fixedThreshold
  · rw [if_pos hfix]
    refine define _ (Bool.not_eq_true _ ▸ mt reserved_iff.mp (by omega)) ?_
    rw [definedOffset, if_neg hgap, if_neg hres]
  · rw [if_neg hfix]
    exact reserved (reserved_iff.mpr (Or.inr (by omega)))

theorem quoteOne_jumps (hsource : l.source = b :: bs)
    (hroom : l.target.length < targetLimit) (hmode : l.cnv.toUIsSingleByteMode = true)
    (hstate : l.cnv.toUState = .quoteOne) :
    Jumps targetLimit .singleByteMode l ({ l with source := bs }.quoteOne targetLimit b) := by
  have hvalid : ∀ {d : Decoder}, d.toUIsSingleByteMode = true → d.Valid := valid_of_single
  have hstep : decodeByte l.cnv.rep b =
      if b.toNat < 0x80 then
        some (l.cnv.rep.ready, [UInt16.ofNat (staticOffsets.get l.cnv.toUQuoteWindow + b.toNat)])
      else some (l.cnv.rep.ready,
        unitsOf (l.cnv.toUDynamicOffsets.get l.cnv.toUQuoteWindow + (b.toNat &&& 0x7f))) := by
    rw [decodeByte, Decoder.rep_toUState, hstate]
    rfl
  rw [ToLocals.quoteOne]
  dsimp only
  by_cases hstatic : b.toNat < 0x80
  · rw [if_pos hstatic] at hstep ⊢
    exact ⟨.byte (by decide) (by decide) (.unit hsource hroom hstep (Decoder.rep_of_readCommand rfl)
      (hvalid hmode)),
      hmode, rfl⟩
  rw [if_neg hstatic] at hstep ⊢
  by_cases hfits : l.target.length +
      (unitsOf (l.cnv.toUDynamicOffsets.get l.cnv.toUQuoteWindow + (b.toNat &&& 0x7f))).length ≤
        targetLimit
  · rw [putCodePoint_fits (l := { l with source := bs }) hfits]
    have hready : ({ l.cnv with toUState := .readCommand } : Decoder).rep = l.cnv.rep.ready :=
      Decoder.rep_of_readCommand rfl
    refine ⟨.byte (by decide) (by decide) ⟨hsource, hroom, ?_, rfl, rfl, ?_, hvalid hmode, rfl,
      rfl⟩, hmode, rfl⟩
    · rw [hstep, ← hready]
      rfl
    · rw [ToLocals.setState, List.length_append]
      exact hfits
  · obtain ⟨hpair, hput⟩ := putCodePoint_overflow (l := { l with source := bs }) hroom
      (Nat.lt_of_not_le hfits)
    rw [hput]
    rw [hpair] at hstep hfits
    exact ⟨.overflow hsource hroom hstep (Or.inl hstate) (Nat.lt_of_not_le hfits), trivial⟩

theorem singleByteMode_jumps (hat : AtLabel targetLimit (.singleByteMode, l)) :
    Jumps targetLimit .singleByteMode l (l.singleByteMode targetLimit) := by
  obtain ⟨hmode, hhead⟩ := hat
  rw [ToLocals.singleByteMode]
  split
  · next hsource => exact ⟨.stop (Or.inl hsource) (Or.inl rfl), trivial⟩
  next b source hsource =>
  by_cases hfull : l.target.length ≥ targetLimit
  · rw [if_pos hfull]
    exact ⟨.stop (Or.inr hfull) (Or.inr rfl), trivial⟩
  have hroom : l.target.length < targetLimit := Nat.lt_of_not_ge hfull
  rw [if_neg hfull]
  dsimp only
  have hvalid : ∀ {d : Decoder}, d.toUIsSingleByteMode = true → d.Valid := valid_of_single
  cases hstate : l.cnv.toUState with
  | readCommand =>
    refine singleCommand_jumps hsource hroom hmode hstate (hhead hstate hroom b ?_)
    rw [hsource]
    exact rfl
  | quotePairOne =>
    have hrep := Decoder.rep_of_pending hstate (by decide)
    have hstep : decodeByte l.cnv.rep b = some ({ l.cnv.rep with
        toUByteOne := b.toNat, toUState := .quotePairTwo, toUBytes := l.cnv.rep.bytesWith b },
          []) := by
      rw [decodeByte, Decoder.rep_toUState, hstate]
    refine ⟨.byte (by decide) (by decide) (.silent hsource hroom hstep ?_ (hvalid hmode)), hmode,
      fun h => by cases h⟩
    rw [hrep]
    exact Decoder.rep_of_pair (Or.inl rfl)
  | quotePairTwo =>
    have hrep : l.cnv.rep = l.cnv := Decoder.rep_of_pair (Or.inl hstate)
    have hstep : decodeByte l.cnv.rep b =
        some (l.cnv.ready, [UInt16.ofNat (l.cnv.toUByteOne <<< 8 ||| b.toNat)]) := by
      rw [hrep, decodeByte, hstate]
    exact ⟨.byte (by decide) (by decide) (.unit hsource hroom hstep (Decoder.rep_of_readCommand rfl)
      (hvalid hmode)), hmode, rfl⟩
  | quoteOne => exact quoteOne_jumps hsource hroom hmode hstate
  | definePairOne =>
    have hrep := Decoder.rep_of_pending hstate (by decide)
    have hstep : decodeByte l.cnv.rep b = some ({ l.cnv.rep with
        toUDynamicWindow := Fin.ofNat 8 (b.toNat >>> 5 &&& 7), toUByteOne := b.toNat &&& 0x1f,
        toUState := .definePairTwo, toUBytes := l.cnv.rep.bytesWith b }, []) := by
      rw [decodeByte, Decoder.rep_toUState, hstate]
    refine ⟨.byte (by decide) (by decide) (.silent hsource hroom hstep ?_ (hvalid hmode)), hmode,
      fun h => by cases h⟩
    rw [hrep]
    exact Decoder.rep_of_pair (Or.inr rfl)
  | definePairTwo =>
    have hrep : l.cnv.rep = l.cnv := Decoder.rep_of_pair (Or.inr hstate)
    have hstep : decodeByte l.cnv.rep b =
        some ((l.cnv.setOffset (0x10000 + (l.cnv.toUByteOne <<< 15 ||| b.toNat <<< 7))).ready,
          []) := by
      rw [hrep, decodeByte, hstate]
    exact ⟨.byte (by decide) (by decide) (.silent hsource hroom hstep
      (Decoder.rep_of_readCommand rfl)
      (hvalid hmode)), hmode, rfl⟩
  | defineOne => exact defineOne_jumps hsource hroom hmode hstate

/-! ### Unicode mode -/

theorem fastUnicode_jumps (hat : AtLabel targetLimit (.fastUnicode, l)) :
    Jumps targetLimit .fastUnicode l (l.fastUnicode targetLimit) := by
  obtain ⟨hmode, hstate⟩ := hat
  have hvalid : l.cnv.Valid := fun _ => Or.inl hstate
  rw [ToLocals.fastUnicode]
  split
  · next b b2 source hsource =>
    split
    · next hgo =>
      obtain ⟨hroom, hb⟩ := hgo
      have hfirst := decodeByte_readUnicode hmode hstate b
      rw [decodeUnicode_lead hb] at hfirst
      have hread := ReadsByte.silent hsource hroom hfirst (Decoder.rep_of_pair (Or.inl rfl))
        fun _ => Or.inr (Or.inr rfl)
      have hsecond : decodeByte (Decoder.rep { l.cnv.rep with
          toUByteOne := b.toNat, toUState := .quotePairTwo, toUBytes := [b] }) b2 =
          some (l.cnv.rep.ready, [UInt16.ofNat (b.toNat <<< 8 ||| b2.toNat)]) := by
        rw [Decoder.rep_of_pair (Or.inl rfl)]
        rfl
      have hready : l.cnv.rep = l.cnv.rep.ready := by
        rw [Decoder.rep_of_readCommand hstate, Decoder.ready, ← hstate]
      exact ⟨.pair rfl hread (ReadsByte.unit (l := ⟨_, _, l.target, l.uCharErrorBuffer, l.err⟩) rfl
        hroom
        hsecond hready hvalid) hb rfl hstate, hmode, hstate⟩
    · next hstop =>
      refine ⟨.idle (by decide), hmode, hvalid, fun _ hroom b' b2' bs' hsource' => ?_⟩
      rw [hsource] at hsource'
      cases hsource'
      exact Bool.not_eq_true _ ▸ fun hb => hstop ⟨hroom, hb⟩
  · next hshort => exact ⟨.idle (by decide), hmode, hvalid, fun _ _ b b2 bs h =>
      absurd h (hshort b b2 bs)⟩

theorem unicodeCommand_jumps (hsource : l.source = b :: bs)
    (hroom : l.target.length < targetLimit) (hmode : l.cnv.toUIsSingleByteMode = false)
    (hstate : l.cnv.toUState = .readCommand) :
    Jumps targetLimit .unicodeByteMode l ({ l with source := bs }.unicodeCommand b) := by
  have hstep := decodeByte_readUnicode hmode hstate b
  have hrep := Decoder.rep_of_readCommand hstate
  rw [decodeUnicode] at hstep
  rw [ToLocals.unicodeCommand]
  -- A sequence of Unicode mode begins.
  have quotes : ∀ {d cnv : Decoder}, decodeByte l.cnv.rep b = some (d, []) → cnv.rep = d →
      cnv.toUIsSingleByteMode = false → ¬ cnv.toUState = .readCommand →
      cnv.toUState = .quotePairOne ∨ cnv.toUState = .quotePairTwo →
      Jumps targetLimit .unicodeByteMode l
        (.unicodeByteMode, ⟨cnv, bs, l.target, l.uCharErrorBuffer, l.err⟩) := by
    intro d cnv hstep hrep' hmode' hpending hstate'
    exact ⟨.byte (by decide) (by decide) (.silent hsource hroom hstep hrep' fun _ =>
      Or.inr hstate'),
      hmode', fun _ => Or.inr hstate', fun h => absurd h hpending⟩
  by_cases hlead : ToLocals.isUnicodeLead b = true
  · rw [if_pos hlead] at hstep ⊢
    refine quotes hstep ?_ hmode (fun h => by cases h) (Or.inr rfl)
    rw [hrep]
    exact Decoder.rep_of_pair (Or.inl rfl)
  rw [if_neg hlead] at hstep ⊢
  by_cases huc7 : b.toNat ≤ uc7
  · rw [if_pos huc7] at hstep ⊢
    refine ⟨.byte (by decide) (by decide) (.silent hsource hroom hstep ?_ (valid_of_single rfl)),
      rfl,
      hstate⟩
    rw [hrep]
    exact Decoder.rep_of_readCommand hstate
  rw [if_neg huc7] at hstep ⊢
  by_cases hud7 : b.toNat ≤ ud7
  · rw [if_pos hud7] at hstep ⊢
    refine ⟨.byte (by decide) (by decide) (.silent hsource hroom hstep ?_ (valid_of_single rfl)),
      rfl,
      fun h => by cases h⟩
    rw [hrep]
    exact Decoder.rep_of_pending (s := .defineOne) rfl (by decide)
  rw [if_neg hud7] at hstep ⊢
  by_cases hudx : b.toNat = udx
  · rw [if_pos hudx] at hstep ⊢
    refine ⟨.byte (by decide) (by decide) (.silent hsource hroom hstep ?_ (valid_of_single rfl)),
      rfl,
      fun h => by cases h⟩
    rw [hrep]
    exact Decoder.rep_of_pending (s := .definePairOne) rfl (by decide)
  rw [if_neg hudx] at hstep ⊢
  by_cases huqu : b.toNat = uqu
  · rw [if_pos huqu] at hstep ⊢
    refine quotes hstep ?_ hmode (fun h => by cases h) (Or.inl rfl)
    rw [hrep]
    exact Decoder.rep_of_pending (s := .quotePairOne) rfl (by decide)
  · rw [if_neg huqu] at hstep ⊢
    exact ⟨.illegal hsource hstep, trivial⟩

theorem unicodeByteMode_jumps (hat : AtLabel targetLimit (.unicodeByteMode, l)) :
    Jumps targetLimit .unicodeByteMode l (l.unicodeByteMode targetLimit) := by
  obtain ⟨hmode, hvalid, -⟩ := hat
  rw [ToLocals.unicodeByteMode]
  split
  · next hsource => exact ⟨.stop (Or.inl hsource) (Or.inl rfl), trivial⟩
  next b source hsource =>
  by_cases hfull : l.target.length ≥ targetLimit
  · rw [if_pos hfull]
    exact ⟨.stop (Or.inr hfull) (Or.inr rfl), trivial⟩
  have hroom : l.target.length < targetLimit := Nat.lt_of_not_ge hfull
  rw [if_neg hfull]
  dsimp only
  rcases hvalid hmode with hstate | hstate | hstate
  · rw [hstate]
    exact unicodeCommand_jumps hsource hroom hmode hstate
  · have hrep := Decoder.rep_of_pending hstate (by decide)
    have hstep : decodeByte l.cnv.rep b = some ({ l.cnv.rep with
        toUByteOne := b.toNat, toUState := .quotePairTwo, toUBytes := l.cnv.rep.bytesWith b },
          []) := by
      rw [decodeByte, Decoder.rep_toUState, hstate]
    rw [hstate]
    refine ⟨.byte (by decide) (by decide) (.silent hsource hroom hstep ?_ fun _ =>
      Or.inr (Or.inr rfl)),
      hmode, fun _ => Or.inr (Or.inr rfl), fun h => by cases h⟩
    rw [hrep]
    exact Decoder.rep_of_pair (Or.inl rfl)
  · have hrep : l.cnv.rep = l.cnv := Decoder.rep_of_pair (Or.inl hstate)
    have hstep : decodeByte l.cnv.rep b =
        some (l.cnv.ready, [UInt16.ofNat (l.cnv.toUByteOne <<< 8 ||| b.toNat)]) := by
      rw [hrep, decodeByte, hstate]
    rw [hstate]
    exact ⟨.byte (by decide) (by decide) (.unit hsource hroom hstep (Decoder.rep_of_readCommand rfl)
      fun _ => Or.inl rfl), hmode, rfl⟩

theorem toStep_jumps {label : ToLabel}
    (hstep : ToLocals.step targetLimit (label, l) = some p) (hat : AtLabel targetLimit (label, l)) :
    Jumps targetLimit label l p := by
  cases label with
  | fastSingle => rw [← Option.some.inj hstep]; exact fastSingle_jumps hat
  | singleByteMode => rw [← Option.some.inj hstep]; exact singleByteMode_jumps hat
  | fastUnicode => rw [← Option.some.inj hstep]; exact fastUnicode_jumps hat
  | unicodeByteMode => rw [← Option.some.inj hstep]; exact unicodeByteMode_jumps hat
  | endloop => cases hstep

theorem atLabel_start (hv : cnv.Valid) (hcnv : l.cnv = cnv) :
    AtLabel targetLimit (cnv.label, l) := by
  subst hcnv
  rw [Decoder.label]
  by_cases hmode : l.cnv.toUIsSingleByteMode = true
  · rw [if_pos hmode]
    by_cases hstate : l.cnv.toUState = .readCommand
    · rw [if_pos hstate]
      exact ⟨hmode, hstate⟩
    · rw [if_neg hstate]
      exact ⟨hmode, fun h => absurd h hstate⟩
  rw [if_neg hmode]
  rw [Bool.not_eq_true] at hmode
  by_cases hstate : l.cnv.toUState = .readCommand
  · rw [if_pos hstate]
    exact ⟨hmode, hstate⟩
  · rw [if_neg hstate]
    exact ⟨hmode, hv, fun h => absurd h hstate⟩

theorem Decoder.label_ne_endloop (cnv : Decoder) : cnv.label ≠ .endloop := by
  rw [Decoder.label]
  repeat' split
  all_goals decide

end Jump

def toMeasure : ToLabel × ToLocals → Nat
  | (.fastSingle, l) => 2 * l.source.length + 2
  | (.singleByteMode, l) => 2 * l.source.length + 1
  | (.fastUnicode, l) => 2 * l.source.length + 2
  | (.unicodeByteMode, l) => 2 * l.source.length + 1
  | (.endloop, _) => 0

theorem toMeasure_le (p : ToLabel × ToLocals) : toMeasure p ≤ 2 * p.2.source.length + 2 := by
  obtain ⟨label, l⟩ := p
  cases label <;> dsimp only [toMeasure] <;> omega

section Source

variable {targetLimit : Nat} {l : ToLocals}

theorem putCodePoint_source (l : ToLocals) (c : Nat) :
    (l.putCodePoint targetLimit c).1.source = l.source := by
  rw [ToLocals.putCodePoint]
  dsimp only
  split
  · rfl
  · split <;> rfl

theorem singleCommand_source (l : ToLocals) (b : UInt8) :
    (l.singleCommand b).2.source = l.source := by
  rw [ToLocals.singleCommand]
  repeat' split
  all_goals rfl

theorem defineOne_source (l : ToLocals) (b : UInt8) : (l.defineOne b).2.source = l.source := by
  rw [ToLocals.defineOne]
  repeat' split
  all_goals rfl

theorem quoteOne_source (l : ToLocals) (b : UInt8) :
    (l.quoteOne targetLimit b).2.source = l.source := by
  have hput := @putCodePoint_source targetLimit l
    (l.cnv.toUDynamicOffsets.get l.cnv.toUQuoteWindow + (b.toNat &&& 0x7f))
  rw [ToLocals.quoteOne]
  split
  · rfl
  dsimp only
  split <;> exact hput

theorem unicodeCommand_source (l : ToLocals) (b : UInt8) :
    (l.unicodeCommand b).2.source = l.source := by
  rw [ToLocals.unicodeCommand]
  repeat' split
  all_goals rfl

theorem toStep_measure {p' : ToLabel × ToLocals} (hstep : ToLocals.step targetLimit p = some p') :
    toMeasure p' < toMeasure p := by
  -- A jump behind one byte.
  have reads : ∀ {b : UInt8} {bs : List UInt8} {l : ToLocals} {p' : ToLabel × ToLocals},
      l.source = b :: bs → p'.2.source = bs → toMeasure p' < 2 * l.source.length + 1 := by
    intro b bs l p' hsource hp'
    have hle := toMeasure_le p'
    rw [hp'] at hle
    rw [hsource, List.length_cons]
    omega
  obtain ⟨label, l⟩ := p
  cases label with
  | fastSingle =>
    rw [← Option.some.inj hstep, ToLocals.fastSingle]
    split
    · exact Nat.lt_succ_self _
    next b source hsource =>
    split
    · refine Nat.lt_succ_of_lt (reads hsource ?_)
      dsimp only
      split
      · rfl
      have hput := @putCodePoint_source targetLimit { l with source := source }
        (l.cnv.toUDynamicOffsets.get l.cnv.toUDynamicWindow + (b.toNat &&& 0x7f))
      split <;> exact hput
    · exact Nat.lt_succ_self _
  | singleByteMode =>
    rw [← Option.some.inj hstep, ToLocals.singleByteMode]
    split
    · exact Nat.succ_pos _
    next b source hsource =>
    split
    · exact Nat.succ_pos _
    refine reads hsource ?_
    dsimp only
    split
    · exact singleCommand_source _ _
    · rfl
    · rfl
    · exact quoteOne_source _ _
    · rfl
    · rfl
    · exact defineOne_source _ _
  | fastUnicode =>
    rw [← Option.some.inj hstep, ToLocals.fastUnicode]
    split
    · next b b2 source hsource =>
      split
      · dsimp only [toMeasure]
        rw [hsource, List.length_cons, List.length_cons]
        omega
      · exact Nat.lt_succ_self _
    · exact Nat.lt_succ_self _
  | unicodeByteMode =>
    rw [← Option.some.inj hstep, ToLocals.unicodeByteMode]
    split
    · exact Nat.succ_pos _
    next b source hsource =>
    split
    · exact Nat.succ_pos _
    refine reads hsource ?_
    dsimp only
    split
    · exact unicodeCommand_source _ _
    · rfl
    · rfl
    · rfl
  | endloop => cases hstep

end Source

end Icu.Scsu
