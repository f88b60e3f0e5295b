import Icu.Scsu.OffsetsModel

/-! # Illegal bytes

A reserved tag ends a call with an error code. A reserved window offset value ends it with the
same bytes stored, but without an error code, so that a call reports every illegal byte that it
meets exactly if it meets no such value.
-/

namespace Icu.Scsu

open Utf16 Lib

/-- At a label with room for more output an illegal byte is next. The offending bytes are those of
its sequence up to it, and the rest is what follows it. -/
inductive MeetsIllegal (targetLimit : Nat) : ToLabel × ToLocals → List UInt8 → List UInt8 → Prop
  | singleTag {l : ToLocals} {b : UInt8} {bs : List UInt8} (hsource : l.source = b :: bs)
      (hroom : l.target.length < targetLimit) (hstate : l.cnv.toUState = .readCommand)
      (hb : b.toNat = srs) : MeetsIllegal targetLimit (.singleByteMode, l) [b] bs
  | unicodeTag {l : ToLocals} {b : UInt8} {bs : List UInt8} (hsource : l.source = b :: bs)
      (hroom : l.target.length < targetLimit) (hstate : l.cnv.toUState = .readCommand)
      (hb : b.toNat = urs) : MeetsIllegal targetLimit (.unicodeByteMode, l) [b] bs
  | offset {l : ToLocals} {b : UInt8} {bs : List UInt8} (hsource : l.source = b :: bs)
      (hroom : l.target.length < targetLimit) (hstate : l.cnv.toUState = .defineOne)
      (hb : isReserved b.toNat = true) :
      MeetsIllegal targetLimit (.singleByteMode, l) (l.cnv.toUBytes.take 1 ++ [b]) bs

/-- A call has ended with a failure code, with the offending bytes in the converter, and behind
them in the source. -/
def Reports (l : ToLocals) (offending rest : List UInt8) : Prop :=
  l.err.isSuccess = false ∧ l.toDecoder.toUBytes = offending ∧ l.source = rest

/-- A call of `_SCSUToUnicode` reports each illegal byte that it meets on its way. -/
def ReportsIllegal (cnv : Decoder) (source : List UInt8) (targetLimit : Nat) : Prop :=
  ∀ (n : Nat) (offending rest : List UInt8),
    MeetsIllegal targetLimit
      (Program.exec (ToLocals.step targetLimit) n (cnv.label, ⟨cnv, source, [], [], .zeroError⟩))
      offending rest →
    Reports (toUnicodeLocals cnv source targetLimit) offending rest

/-- A call of `_SCSUToUnicodeWithOffsets` reports each illegal byte that it meets on its way. -/
def ReportsIllegalWithOffsets (cnv : Decoder) (source : List UInt8) (targetLimit : Nat) : Prop :=
  ∀ (n : Nat) (offending rest : List UInt8),
    MeetsIllegal targetLimit (OffsetLocals.locals
      (Program.exec (OffsetLocals.step targetLimit) n (cnv.label, cnv.offsetStart source)))
      offending rest →
    Reports (toUnicodeOffsetLocals cnv source targetLimit).toToLocals offending rest

/-- A reserved window offset value is read while there is room for more output. -/
def definesReserved : List UInt8 → Decoder → Nat → Bool
  | [], _, _ => false
  | b :: bs, d, room =>
    room != 0 &&
      ((d.toUState == .defineOne && isReserved b.toNat) ||
        match decodeByte d b with
        | none => false
        | some (d', out) => definesReserved bs d' (room - out.length))

theorem definesReserved_zero (bs : List UInt8) (d : Decoder) : definesReserved bs d 0 = false := by
  cases bs with
  | nil => rfl
  | cons => rfl

section Calls

variable {targetLimit : Nat} {l : ToLocals} {label : ToLabel} {bs : List UInt8} {b : UInt8}
  {p : ToLabel × ToLocals}

def DefinesReserved (targetLimit : Nat) (l : ToLocals) : Prop :=
  l.target.length < targetLimit ∧ l.cnv.toUState = .defineOne ∧
    ∃ b bs, l.source = b :: bs ∧ isReserved b.toNat = true

def pendingReserved (targetLimit : Nat) : ToLabel × ToLocals → Bool
  | (.endloop, _) => false
  | (_, l) => definesReserved l.source l.cnv.rep (targetLimit - l.target.length)

theorem pendingReserved_eq (hlabel : label ≠ .endloop) : pendingReserved targetLimit (label, l) =
      definesReserved l.source l.cnv.rep (targetLimit - l.target.length) := by
  cases label with
  | endloop => exact absurd rfl hlabel
  | fastSingle => rfl
  | singleByteMode => rfl
  | fastUnicode => rfl
  | unicodeByteMode => rfl

theorem label_of_defineOne (hlabel : label ≠ .endloop)
    (hat : AtLabel targetLimit (label, l)) (hstate : l.cnv.toUState = .defineOne) :
    label = .singleByteMode := by
  cases label with
  | endloop => exact absurd rfl hlabel
  | fastSingle => exact absurd (hat.2.symm.trans hstate) (by decide)
  | singleByteMode => rfl
  | fastUnicode => exact absurd (hat.2.symm.trans hstate) (by decide)
  | unicodeByteMode =>
    rcases hat.2.1 hat.1 with h | h | h
    · exact absurd (h.symm.trans hstate) (by decide)
    · exact absurd (h.symm.trans hstate) (by decide)
    · exact absurd (h.symm.trans hstate) (by decide)

/-- A byte that is not a reserved window offset value. -/
theorem definesReserved_byte {l' : ToLocals} {out : List UInt16}
    (h : ReadsByte targetLimit l l' b bs out) (hno : ¬ DefinesReserved targetLimit l) :
    definesReserved l'.source l'.cnv.rep (targetLimit - l'.target.length) =
      definesReserved l.source l.cnv.rep (targetLimit - l.target.length) := by
  have hroom := h.room
  have hbyte : (l.cnv.rep.toUState == .defineOne && isReserved b.toNat) = false := by
    rw [← Bool.not_eq_true, Bool.and_eq_true, beq_iff_eq]
    rintro ⟨hstate, hb⟩
    exact hno ⟨hroom, hstate, b, bs, h.source, hb⟩
  rw [h.source, definesReserved, h.step, hbyte, bne_iff_ne.mpr (by omega), Bool.true_and,
    Bool.false_or, h.source', h.target, List.length_append, Nat.sub_add_eq]

/-- What is still to come does not change on the way. -/
theorem pendingReserved_step
    (hstep : ToLocals.step targetLimit (label, l) = some p) (hat : AtLabel targetLimit (label, l))
    (hno : ¬ DefinesReserved targetLimit l) :
    pendingReserved targetLimit p = pendingReserved targetLimit (label, l) := by
  have hlabel : label ≠ .endloop := by
    rintro rfl
    cases hstep
  rw [pendingReserved_eq hlabel]
  obtain ⟨heffect, -⟩ := toStep_jumps hstep hat
  cases heffect with
  | idle hlabel' => exact pendingReserved_eq hlabel'
  | stop hstop =>
    rcases hstop with hnil | hfull
    · rw [hnil]
      rfl
    · rw [Nat.sub_eq_zero_of_le hfull, definesReserved_zero]
      rfl
  | byte _ hlabel' hread => rw [pendingReserved_eq hlabel', definesReserved_byte hread hno]
  | pair _ hread hread' _ hpair =>
    rw [pendingReserved_eq (by decide), definesReserved_byte hread' ?_,
      definesReserved_byte hread hno]
    rintro ⟨-, hstate, -⟩
    exact absurd (hpair.symm.trans hstate) (by decide)
  | @overflow d b bs lead trail hsource hroom hbyte _ hfull =>
    have hdefine : (l.cnv.rep.toUState == .defineOne && isReserved b.toNat) = false := by
      rw [← Bool.not_eq_true, Bool.and_eq_true, beq_iff_eq]
      rintro ⟨hstate, hb⟩
      exact hno ⟨hroom, hstate, b, bs, hsource, hb⟩
    rw [hsource, definesReserved, hbyte, hdefine]
    dsimp only
    have hnone : targetLimit - l.target.length - [lead, trail].length = 0 := by
      rw [List.length_cons, List.length_singleton]
      omega
    rw [hnone, definesReserved_zero, Bool.false_or, Bool.and_false]
    rfl
  | @illegal b bs hsource hbyte =>
    have hdefine : (l.cnv.rep.toUState == .defineOne && isReserved b.toNat) = false := by
      rw [← Bool.not_eq_true, Bool.and_eq_true, beq_iff_eq]
      rintro ⟨hstate, -⟩
      rw [decodeByte_defineOne hstate] at hbyte
      split at hbyte
      · cases hbyte
      · cases hbyte
    rw [hsource, definesReserved, hbyte, hdefine, Bool.false_or, Bool.and_false]
    rfl
  | reserved hsource hroom hstate hb => exact absurd ⟨hroom, hstate, _, _, hsource, hb⟩ hno

theorem pendingReserved_of_defines (hlabel : label ≠ .endloop)
    (h : DefinesReserved targetLimit l) : pendingReserved targetLimit (label, l) = true := by
  obtain ⟨hroom, hstate, b, bs, hsource, hb⟩ := h
  rw [pendingReserved_eq hlabel, hsource, definesReserved, Decoder.rep_toUState, hstate, hb,
    bne_iff_ne.mpr (by omega), Bool.true_and]
  rfl

/-! ## The end of a call -/

theorem step_singleTag (hsource : l.source = b :: bs)
    (hroom : l.target.length < targetLimit) (hstate : l.cnv.toUState = .readCommand)
    (hb : b.toNat = srs) : ToLocals.step targetLimit (.singleByteMode, l) =
      some (.endloop, { l with source := bs, err := .illegalCharFound }.storeFirst b) := by
  rw [ToLocals.step, ToLocals.singleByteMode, hsource]
  dsimp only
  rw [if_neg (Nat.not_le_of_lt hroom), hstate]
  rw [ToLocals.singleCommand, hb]
  rfl

theorem step_unicodeTag (hsource : l.source = b :: bs)
    (hroom : l.target.length < targetLimit) (hstate : l.cnv.toUState = .readCommand)
    (hb : b.toNat = urs) : ToLocals.step targetLimit (.unicodeByteMode, l) =
      some (.endloop, { l with source := bs, err := .illegalCharFound }.storeFirst b) := by
  have hlead : ToLocals.isUnicodeLead b = false := by
    rw [← UInt8.ofNat_toNat (x := b), hb]
    decide
  rw [ToLocals.step, ToLocals.unicodeByteMode, hsource]
  dsimp only
  rw [if_neg (Nat.not_le_of_lt hroom), hstate]
  rw [ToLocals.unicodeCommand, hb, hlead]
  rfl

theorem step_offset (hsource : l.source = b :: bs)
    (hroom : l.target.length < targetLimit) (hstate : l.cnv.toUState = .defineOne)
    (hb : isReserved b.toNat = true) : ToLocals.step targetLimit (.singleByteMode, l) =
      some (.endloop, { l with source := bs }.storeSecond b) := by
  have hg : gapThreshold = 0x68 := rfl
  have hs : reservedStart = 0xa8 := rfl
  have hf : fixedThreshold = 0xf9 := rfl
  have hreserved : b.toNat = 0 ∨ reservedStart ≤ b.toNat ∧ b.toNat < fixedThreshold := by
    simpa [isReserved] using hb
  rw [ToLocals.step, ToLocals.singleByteMode, hsource]
  dsimp only
  rw [if_neg (Nat.not_le_of_lt hroom), hstate]
  rw [ToLocals.defineOne]
  by_cases hzero : b.toNat = 0
  · rw [if_pos hzero]
  · rw [if_neg hzero, if_neg (by omega), if_neg (by omega), if_neg (by omega)]

variable {cnv : Decoder} {source : List UInt8}

theorem toUnicodeLocals_of_stop {n : Nat} {l : ToLocals}
    (hrun : Program.exec (ToLocals.step targetLimit) n
      (cnv.label, ⟨cnv, source, [], [], .zeroError⟩) = p)
    (hstep : ToLocals.step targetLimit p = some (.endloop, l)) :
    toUnicodeLocals cnv source targetLimit = l := by
  have hend : Program.exec (ToLocals.step targetLimit) (n + 1)
      (cnv.label, ⟨cnv, source, [], [], .zeroError⟩) = (.endloop, l) := by
    rw [Program.exec_add, hrun, Program.exec, hstep]
    rfl
  have hstop : ToLocals.step targetLimit (Program.exec (ToLocals.step targetLimit) (n + 1)
      (cnv.label, ⟨cnv, source, [], [], .zeroError⟩)) = none := by
    rw [hend]
    rfl
  have hfuel : toMeasure (cnv.label, ⟨cnv, source, [], [], .zeroError⟩) < 2 * source.length + 3 :=
    Nat.lt_succ_of_le (toMeasure_le _)
  have hhalts := Program.exec_halts (ToLocals.step targetLimit) toStep_measure hfuel
  rw [toUnicodeLocals, Program.exec_unique _ hhalts hstop, hend]

structure OnWay (targetLimit : Nat) (p : ToLabel × ToLocals) : Prop where
  atLabel : AtLabel targetLimit p
  err : p.1 ≠ .endloop → p.2.err = .zeroError

theorem onWay_step {p' : ToLabel × ToLocals} (hstep : ToLocals.step targetLimit p = some p')
    (h : OnWay targetLimit p) : OnWay targetLimit p' := by
  obtain ⟨label, l⟩ := p
  have hlabel : label ≠ .endloop := by
    rintro rfl
    cases hstep
  have herr : l.err = .zeroError := h.err hlabel
  obtain ⟨heffect, hat'⟩ := toStep_jumps hstep h.atLabel
  refine ⟨hat', fun hlabel' => ?_⟩
  cases heffect with
  | idle => exact herr
  | stop => exact absurd rfl hlabel'
  | byte _ _ hread => exact hread.err.trans herr
  | pair _ hread hread' => exact (hread'.err.trans hread.err).trans herr
  | overflow => exact absurd rfl hlabel'
  | illegal => exact absurd rfl hlabel'
  | reserved => exact absurd rfl hlabel'

/-- A reserved window offset value that is still to come is met, and the call ends behind it. -/
theorem pendingReserved_met (h : OnWay targetLimit p)
    (hpending : pendingReserved targetLimit p = true) :
    ∃ n offending rest l, MeetsIllegal targetLimit
        (Program.exec (ToLocals.step targetLimit) n p) offending rest ∧
      ToLocals.step targetLimit (Program.exec (ToLocals.step targetLimit) n p) =
        some (.endloop, l) ∧
      l.err = .zeroError := by
  induction hk : toMeasure p using Nat.strongRecOn generalizing p with
  | ind k ih =>
  obtain ⟨label, l⟩ := p
  have hlabel : label ≠ .endloop := by
    rintro rfl
    cases hpending
  by_cases hmeets : DefinesReserved targetLimit l
  · obtain ⟨hroom, hstate, b, bs, hsource, hb⟩ := hmeets
    obtain rfl := label_of_defineOne hlabel h.atLabel hstate
    exact ⟨0, _, _, _, .offset hsource hroom hstate hb, step_offset hsource hroom hstate hb,
      h.err hlabel⟩
  have hsome : ∃ p', ToLocals.step targetLimit (label, l) = some p' := by
    cases label with
    | endloop => exact absurd rfl hlabel
    | fastSingle => exact ⟨_, rfl⟩
    | singleByteMode => exact ⟨_, rfl⟩
    | fastUnicode => exact ⟨_, rfl⟩
    | unicodeByteMode => exact ⟨_, rfl⟩
  obtain ⟨p', hstep⟩ := hsome
  rw [← pendingReserved_step hstep h.atLabel hmeets] at hpending
  obtain ⟨n, hn⟩ := ih _ (hk ▸ toStep_measure hstep) (onWay_step hstep h) hpending rfl
  refine ⟨n + 1, ?_⟩
  rw [Program.exec, hstep]
  exact hn

theorem onWay_start (hv : cnv.Valid) :
    OnWay targetLimit (cnv.label, ⟨cnv, source, [], [], .zeroError⟩) :=
  ⟨atLabel_start hv rfl, fun _ => rfl⟩

theorem pendingReserved_exec (hv : cnv.Valid)
    (hclean : definesReserved source cnv.rep targetLimit = false)
    (n : Nat) : pendingReserved targetLimit (Program.exec (ToLocals.step targetLimit) n
      (cnv.label, ⟨cnv, source, [], [], .zeroError⟩)) = false := by
  refine (Program.exec_invariant (ToLocals.step targetLimit)
    (I := fun p => AtLabel targetLimit p ∧ pendingReserved targetLimit p = false) ?_ n
    ⟨atLabel_start hv rfl, ?_⟩).2
  · rintro ⟨label, l⟩ p' hstep ⟨hat, hpending⟩
    have hlabel : label ≠ .endloop := by
      rintro rfl
      cases hstep
    have hno : ¬ DefinesReserved targetLimit l := by
      intro hmeets
      rw [pendingReserved_of_defines hlabel hmeets] at hpending
      cases hpending
    exact ⟨(toStep_jumps hstep hat).2, (pendingReserved_step hstep hat hno).trans hpending⟩
  · rw [pendingReserved_eq cnv.label_ne_endloop]
    exact hclean

theorem reportsIllegal_of_clean (hv : cnv.Valid)
    (hclean : definesReserved source cnv.rep targetLimit = false) :
    ReportsIllegal cnv source targetLimit := by
  intro n offending rest hmeets
  have hpending := pendingReserved_exec hv hclean n
  generalize hrun : Program.exec (ToLocals.step targetLimit) n
    (cnv.label, ⟨cnv, source, [], [], .zeroError⟩) = p at hmeets hpending
  cases hmeets with
  | singleTag hsource hroom hstate hb =>
    rw [toUnicodeLocals_of_stop hrun (step_singleTag hsource hroom hstate hb)]
    exact ⟨rfl, rfl, rfl⟩
  | unicodeTag hsource hroom hstate hb =>
    rw [toUnicodeLocals_of_stop hrun (step_unicodeTag hsource hroom hstate hb)]
    exact ⟨rfl, rfl, rfl⟩
  | offset hsource hroom hstate hb =>
    rw [pendingReserved_of_defines (by decide) ⟨hroom, hstate, _, _, hsource, hb⟩] at hpending
    cases hpending

theorem clean_of_reportsIllegal (hv : cnv.Valid) (h : ReportsIllegal cnv source targetLimit) :
    definesReserved source cnv.rep targetLimit = false := by
  rw [← Bool.not_eq_true]
  intro hdirty
  obtain ⟨n, offending, rest, l, hmeets, hstep, herr⟩ := pendingReserved_met
    (show OnWay targetLimit (cnv.label, ⟨cnv, source, [], [], .zeroError⟩) from onWay_start hv)
    ((pendingReserved_eq cnv.label_ne_endloop).trans hdirty)
  have hfailure := (h n offending rest hmeets).1
  rw [toUnicodeLocals_of_stop rfl hstep, herr] at hfailure
  cases hfailure

theorem reportsIllegalWithOffsets_iff (hv : cnv.Valid) :
    ReportsIllegalWithOffsets cnv source targetLimit ↔ ReportsIllegal cnv source targetLimit := by
  rw [ReportsIllegalWithOffsets, ReportsIllegal, OffsetLocals.toToLocals_toUnicodeOffsetLocals hv]
  constructor
  · intro h n
    rw [OffsetLocals.locals_exec hv]
    exact h n
  · intro h n
    rw [← OffsetLocals.locals_exec hv]
    exact h n

/-- The functions report each illegal byte that they meet if and only if none is a reserved window
offset value. -/
theorem illegal_reported_iff (hv : cnv.Valid) :
    ReportsIllegal cnv source targetLimit ∧ ReportsIllegalWithOffsets cnv source targetLimit ↔
      definesReserved source cnv.rep targetLimit = false := by
  rw [reportsIllegalWithOffsets_iff hv, and_self]
  exact ⟨clean_of_reportsIllegal hv, reportsIllegal_of_clean hv⟩

/-- The reserved tag between two letters. -/
theorem illegal_reported_srs :
    ReportsIllegal .initial [0x41, 0x0c, 0x42] 10 ∧ ReportsIllegalWithOffsets .initial
    [0x41, 0x0c, 0x42] 10 :=
  (illegal_reported_iff (fun h => by cases h)).mpr (by decide)

/-- The offset value 0 of a window definition is read, and the call succeeds. -/
theorem illegal_unreported_sd0 : ¬ ReportsIllegal .initial [0x18, 0x00, 0x41] 10 := by
  intro h
  have hmeets : MeetsIllegal 10 (Program.exec (ToLocals.step 10) 2
      (Decoder.initial.label, ⟨.initial, [0x18, 0x00, 0x41], [], [], .zeroError⟩)) [0x18, 0x00]
        [0x41] :=
    .offset rfl (by decide) rfl rfl
  exact absurd (h 2 _ _ hmeets).1 (by decide)

end Calls

end Icu.Scsu
