import Icu.Scsu.Illegal

/-! # The offsets of the characters

`_SCSUToUnicodeWithOffsets` writes for each unit the index of the first byte of its sequence. The
fast path for Unicode mode counts a sequence only after it has taken its end, so that a character
directly behind it has an offset that is two bytes before its first one.
-/

namespace Icu.Scsu

open Utf16 Lib
open ToLocals (isUnicodeLead)

variable {bs : List UInt8} {d : Decoder} {first index : Int} {out : List UInt16} {b : UInt8}

/-- The decoder stops at an illegal byte and at a reserved window offset value. -/
def decodeLegal (d : Decoder) (b : UInt8) : Option (Decoder × List UInt16) :=
  if d.toUState = .defineOne ∧ isReserved b.toNat then none else decodeByte d b

/-- The index of the first byte of its sequence, for each unit. The current sequence begins at
`first`, and the next byte is at `index`. -/
def charOffsets : List UInt8 → Decoder → Int → Int → List Int
  | [], _, _, _ => []
  | b :: bs, d, first, index =>
    match decodeLegal d b with
    | none => []
    | some (d', out) =>
      List.replicate out.length first ++
        charOffsets bs d' (if d'.toUState = .readCommand then index + 1 else first) (index + 1)

def readsPair (d : Decoder) : List UInt8 → Bool
  | b :: _ :: _ => !d.toUIsSingleByteMode && d.toUState == .readCommand && isUnicodeLead b
  | _ => false

/-- Does the character follow directly on a two-byte character in Unicode mode, without a command
between them, for each unit? Here `behind` is so for the current sequence, and `pair` says that it
is itself such a character. -/
def behindPair : List UInt8 → Decoder → Bool → Bool → List Bool
  | [], _, _, _ => []
  | b :: bs, d, behind, pair =>
    match decodeLegal d b with
    | none => []
    | some (d', out) =>
      List.replicate out.length behind ++
        if d'.toUState = .readCommand then behindPair bs d' (pair || readsPair d (b :: bs)) false
        else behindPair bs d' behind (pair || readsPair d (b :: bs))

/-- The index before the first byte of a call if the character began in the previous one. -/
def Decoder.firstIndex (cnv : Decoder) : Int := if cnv.toUState = .readCommand then 0 else -1

/-- A call with offsets writes the text of the call without them, and the offsets are those of the
characters, in order. -/
structure WritesOffsets (cnv : Decoder) (source : List UInt8) (targetLimit : Nat) : Prop where
  text : (toUnicodeOffsetLocals cnv source targetLimit).target =
    (toUnicodeLocals cnv source targetLimit).target
  offsets : (toUnicodeOffsetLocals cnv source targetLimit).offsets =
    charOffsets source cnv.rep cnv.firstIndex 0
  ordered : (toUnicodeOffsetLocals cnv source targetLimit).offsets.Pairwise (· ≤ ·)

theorem le_of_mem_charOffsets
    (h : first ≤ index) {i : Int} (hi : i ∈ charOffsets bs d first index) : first ≤ i := by
  induction bs generalizing d first index with
  | nil => cases hi
  | cons b bs ih =>
    rw [charOffsets] at hi
    cases hstep : decodeLegal d b with
    | none =>
      rw [hstep] at hi
      cases hi
    | some r =>
      rw [hstep] at hi
      rcases List.mem_append.mp hi with hi | hi
      · exact Int.le_of_eq (List.eq_of_mem_replicate hi).symm
      by_cases hstate : r.1.toUState = .readCommand
      · rw [if_pos hstate] at hi
        exact Int.le_trans (by omega) (ih (Int.le_refl _) hi)
      · rw [if_neg hstate] at hi
        exact ih (by omega) hi

theorem charOffsets_ordered (h : first ≤ index) :
    (charOffsets bs d first index).Pairwise (· ≤ ·) := by
  induction bs generalizing d first index with
  | nil => exact List.Pairwise.nil
  | cons b bs ih =>
    rw [charOffsets]
    cases decodeLegal d b with
    | none => exact List.Pairwise.nil
    | some r =>
      have hfirst : first ≤ if r.1.toUState = .readCommand then index + 1 else first := by
        split <;> omega
      have hnext : (if r.1.toUState = .readCommand then index + 1 else first) ≤ index + 1 := by
        split <;> omega
      refine List.pairwise_append.mpr ⟨?_, ih hnext, fun i hi j hj => ?_⟩
      · exact List.pairwise_replicate.mpr (Or.inr (Int.le_refl _))
      rw [List.eq_of_mem_replicate hi]
      exact Int.le_trans hfirst (le_of_mem_charOffsets hnext hj)

/-- Directly behind a two-byte character the offset is two bytes too low. -/
def lagged (first : Int) (behind : Bool) : Int := if behind then first - 2 else first

theorem length_behindPair (bs : List UInt8) (d : Decoder) (first index : Int) (behind pair : Bool) :
    (behindPair bs d behind pair).length = (charOffsets bs d first index).length := by
  induction bs generalizing d first index behind pair with
  | nil => rfl
  | cons b bs ih =>
    rw [behindPair, charOffsets]
    cases decodeLegal d b with
    | none => rfl
    | some r =>
      rw [List.length_append, List.length_append, List.length_replicate, List.length_replicate]
      split
      · rw [ih]
      · rw [ih]

/-- The offsets that are written, from where the call is in the source. -/
def writtenOffsets (bs : List UInt8) (d : Decoder) (first index : Int) (behind pair : Bool) :
    List Int :=
  List.zipWith lagged (charOffsets bs d first index) (behindPair bs d behind pair)

theorem writtenOffsets_cons {d' : Decoder}
    (hstep : decodeLegal d b = some (d', out)) (first index : Int) (behind pair : Bool) :
    writtenOffsets (b :: bs) d first index behind pair =
      List.replicate out.length (lagged first behind) ++
        if d'.toUState = .readCommand then
          writtenOffsets bs d' (index + 1) (index + 1) (pair || readsPair d (b :: bs)) false
        else writtenOffsets bs d' first (index + 1) behind (pair || readsPair d (b :: bs)) := by
  rw [writtenOffsets, charOffsets, behindPair, hstep]
  rw [List.zipWith_append (by rw [List.length_replicate, List.length_replicate]),
    List.zipWith_replicate, Nat.min_self]
  by_cases hstate : d'.toUState = .readCommand
  · rw [if_pos hstate, if_pos hstate, if_pos hstate]
    rfl
  · rw [if_neg hstate, if_neg hstate, if_neg hstate]
    rfl

theorem writtenOffsets_none (hstep : decodeLegal d b = none)
    (first index : Int) (behind pair : Bool) :
    writtenOffsets (b :: bs) d first index behind pair = [] := by
  rw [writtenOffsets, charOffsets, hstep]
  rfl

theorem zipWith_lagged_eq {firsts : List Int} {behinds : List Bool}
    (hlen : behinds.length = firsts.length) :
    List.zipWith lagged firsts behinds = firsts ↔ true ∉ behinds := by
  induction firsts generalizing behinds with
  | nil =>
    rw [List.eq_nil_of_length_eq_zero hlen]
    simp
  | cons first firsts ih =>
    obtain ⟨behind, behinds, rfl⟩ := List.exists_cons_of_length_eq_add_one hlen
    rw [List.zipWith_cons_cons, List.cons.injEq, ih (Nat.succ.inj hlen), List.mem_cons, not_or]
    refine and_congr_left fun _ => ?_
    cases behind with
    | false => simp [lagged]
    | true => simp [lagged]

theorem writtenOffsets_eq_iff (bs : List UInt8) (d : Decoder) (first index : Int)
    (behind pair : Bool) :
    writtenOffsets bs d first index behind pair = charOffsets bs d first index ↔
      true ∉ behindPair bs d behind pair :=
  zipWith_lagged_eq (length_behindPair bs d first index behind pair)

section Run

variable {targetLimit : Nat} {total : List Int} {label : ToLabel} {l : OffsetLocals} {q : ToLocals}

/-- What has been written and what is still to be written do not change on the way. -/
structure OffsetRun (targetLimit : Nat) (total : List Int) (l : OffsetLocals) : Prop where
  room : l.target.length + 2 * l.source.length < targetLimit
  written : ∃ first behind, l.sourceIndex = lagged first behind ∧
    l.offsets ++ writtenOffsets l.source l.cnv.rep first l.nextSourceIndex behind false = total

structure OffsetInv (targetLimit : Nat) (total : List Int) (p : ToLabel × OffsetLocals) : Prop where
  atLabel : AtLabel targetLimit (OffsetLocals.locals p)
  run : p.1 ≠ .endloop → OffsetRun targetLimit total p.2
  done : p.1 = .endloop → p.2.offsets = total

theorem readsPair_of_label (hlabel : label ≠ .fastUnicode) (hlabel' : label ≠ .endloop)
    {l : ToLocals}
    (hat : AtLabel targetLimit (label, l)) (hroom : l.target.length < targetLimit) :
    readsPair l.cnv.rep l.source = false := by
  rw [← Bool.not_eq_true]
  intro hpair
  rcases hsource : l.source with _ | ⟨b, _ | ⟨b2, bs⟩⟩
  · rw [hsource] at hpair
    cases hpair
  · rw [hsource] at hpair
    cases hpair
  · rw [hsource, readsPair, Bool.and_eq_true, Bool.and_eq_true, Bool.not_eq_true',
      Decoder.rep_toUIsSingleByteMode, beq_iff_eq, Decoder.rep_toUState] at hpair
    obtain ⟨⟨hmode, hstate⟩, hlead⟩ := hpair
    cases label with
    | fastSingle => exact absurd (hat.1.symm.trans hmode) (by decide)
    | singleByteMode => exact absurd (hat.1.symm.trans hmode) (by decide)
    | fastUnicode => exact hlabel rfl
    | unicodeByteMode =>
      exact absurd ((hat.2.2 hstate hroom b b2 bs hsource).symm.trans hlead) (by decide)
    | endloop => exact hlabel' rfl

theorem decodeLegal_of_read {l l' : ToLocals}
    (h : ReadsByte targetLimit l l' b bs out) (hno : ¬ DefinesReserved targetLimit l) :
    decodeLegal l.cnv.rep b = some (l'.cnv.rep, out) := by
  rw [decodeLegal, if_neg ?_, h.step]
  rintro ⟨hstate, hb⟩
  exact hno ⟨h.room, hstate, b, bs, h.source, hb⟩

theorem OffsetRun.done (h : OffsetRun targetLimit total l) (htarget : q.target = l.target)
    (hstop : ∀ first behind pair,
      writtenOffsets l.source l.cnv.rep first l.nextSourceIndex behind pair = []) :
    (OffsetLocals.track label l (.endloop, q)).2.offsets = total := by
  obtain ⟨first, behind, -, hwritten⟩ := h.written
  rw [hstop, List.append_nil] at hwritten
  rw [← hwritten]
  exact OffsetLocals.offsets_none htarget

theorem OffsetRun.byte (h : OffsetRun targetLimit total l) {label' : ToLabel}
    (hlabel : label ≠ .fastUnicode) (hlabel' : label' ≠ .endloop)
    (hread : ReadsByte targetLimit l.toToLocals q b bs out)
    (hpair : readsPair l.cnv.rep l.source = false)
    (hno : ¬ DefinesReserved targetLimit l.toToLocals) :
    OffsetRun targetLimit total (OffsetLocals.track label l (label', q)).2 where
  room := by
    have hroom := h.room
    have hout : out.length ≤ 2 := decodeByte_length_le hread.step
    rw [hread.source, List.length_cons] at hroom
    dsimp only [OffsetLocals.track]
    rw [hread.source', hread.target, List.length_append]
    omega
  written := by
    obtain ⟨first, behind, hindex, hwritten⟩ := h.written
    have hlength : q.target.length - l.target.length = out.length := by
      rw [hread.target, List.length_append, Nat.add_sub_cancel_left]
    have hone : l.source.length - q.source.length = 1 := by
      rw [hread.source, hread.source', List.length_cons, Nat.add_sub_cancel_left]
    rw [hread.source] at hpair hwritten
    rw [writtenOffsets_cons (decodeLegal_of_read hread hno), hpair, Bool.or_false,
      ← List.append_assoc, ← hindex, Decoder.rep_toUState] at hwritten
    dsimp only [OffsetLocals.track]
    rw [hlength, hone, hread.source', OffsetLocals.nextIndex]
    have hshorter : ¬ q.source.length = l.source.length := by omega
    by_cases hstate : q.cnv.toUState = .readCommand
    · rw [if_pos hstate] at hwritten
      rw [if_neg (by
        rintro (hsame | hend | hpending)
        · exact hshorter hsame
        · exact hlabel' hend
        · exact hpending hstate), if_neg hlabel]
      exact ⟨l.nextSourceIndex + 1, false, rfl, hwritten⟩
    · rw [if_neg hstate] at hwritten
      rw [if_pos (Or.inr (Or.inr hstate))]
      exact ⟨first, behind, hindex, hwritten⟩

theorem OffsetRun.pair (h : OffsetRun targetLimit total l) {m q : ToLocals} {b b2 : UInt8}
    {bs : List UInt8} {u : UInt16} (hread : ReadsByte targetLimit l.toToLocals m b (b2 :: bs) [])
    (hread' : ReadsByte targetLimit m q b2 bs [u]) (hlead : isUnicodeLead b = true)
    (hmode : l.cnv.toUIsSingleByteMode = false) (hcommand : l.cnv.toUState = .readCommand)
    (hpair : m.cnv.toUState = .quotePairTwo) (hstate : q.cnv.toUState = .readCommand) :
    OffsetRun targetLimit total (OffsetLocals.track .fastUnicode l (.fastUnicode, q)).2 where
  room := by
    have hroom := h.room
    rw [hread.source, List.length_cons, List.length_cons] at hroom
    dsimp only [OffsetLocals.track]
    rw [hread'.source', hread'.target, hread.target, List.append_nil, List.length_append,
      List.length_singleton]
    omega
  written := by
    obtain ⟨first, behind, hindex, hwritten⟩ := h.written
    have htarget : q.target = l.target ++ [u] := by
      rw [hread'.target, hread.target, List.append_nil]
    have htwo : l.source.length - q.source.length = 2 := by
      rw [hread.source, hread'.source', List.length_cons, List.length_cons]
      omega
    have hfirst : ¬ DefinesReserved targetLimit l.toToLocals := fun hmeets =>
      absurd (hcommand.symm.trans hmeets.2.1) (by decide)
    have hsecond : ¬ DefinesReserved targetLimit m := fun hmeets =>
      absurd (hpair.symm.trans hmeets.2.1) (by decide)
    have hreads : readsPair l.cnv.rep (b :: b2 :: bs) = true := by
      rw [readsPair, Decoder.rep_toUIsSingleByteMode, Decoder.rep_toUState, hmode, hcommand, hlead]
      rfl
    rw [hread.source, writtenOffsets_cons (decodeLegal_of_read hread hfirst), Decoder.rep_toUState,
      if_neg (by rw [hpair]; decide), hreads,
      writtenOffsets_cons (decodeLegal_of_read hread' hsecond), Decoder.rep_toUState, if_pos hstate,
      List.length_nil, List.replicate_zero, List.nil_append, ← hindex,
        ← List.append_assoc] at hwritten
    dsimp only [OffsetLocals.track]
    rw [OffsetLocals.offsets_one htarget, htwo, hread'.source', OffsetLocals.nextIndex]
    have hshorter : ¬ q.source.length = l.source.length := by omega
    rw [if_neg (by
      rintro (hsame | hend | hpending)
      · exact hshorter hsame
      · cases hend
      · exact hpending hstate), if_pos rfl]
    refine ⟨l.nextSourceIndex + 2, true, ?_, ?_⟩
    · rw [lagged, if_pos rfl]
      omega
    · rw [Bool.false_or, Bool.true_or, Int.add_assoc] at hwritten
      exact hwritten

theorem offsetInv_step {p p' : ToLabel × OffsetLocals}
    (hstep : OffsetLocals.step targetLimit p = some p') (h : OffsetInv targetLimit total p) :
    OffsetInv targetLimit total p' := by
  have hat' := OffsetLocals.atLabel_step hstep h.atLabel
  obtain ⟨label, l⟩ := p
  have hlabel : label ≠ .endloop := by
    rintro rfl
    cases hstep
  have hrun := h.run hlabel
  have hat : AtLabel targetLimit (label, l.toToLocals) := h.atLabel
  rw [OffsetLocals.step_track hat, Option.map_eq_some_iff] at hstep
  obtain ⟨q, hjump, rfl⟩ := hstep
  obtain ⟨heffect, -⟩ := toStep_jumps hjump hat
  have hroom : l.target.length + 2 * l.source.length < targetLimit := hrun.room
  cases heffect with
  | idle hlabel' =>
    refine ⟨hat', fun _ => ?_, fun hend => absurd hend hlabel'⟩
    rw [← OffsetLocals.track_idle]
    exact hrun
  | stop hstop =>
    refine ⟨hat', fun hend => absurd rfl hend, fun _ => hrun.done rfl fun _ _ _ => ?_⟩
    rw [hstop.resolve_right (by omega)]
    rfl
  | byte hlabel0 hlabel' hread =>
    have hno : ¬ DefinesReserved targetLimit l.toToLocals := by
      rintro ⟨hroom', hstate, b', bs', hsource, hb⟩
      obtain rfl := label_of_defineOne hlabel hat hstate
      rw [step_offset hsource hroom' hstate hb] at hjump
      cases hjump
      exact hlabel' rfl
    exact ⟨hat', fun _ => hrun.byte hlabel0 hlabel' hread
      (readsPair_of_label hlabel0 hlabel hat hread.room) hno, fun hend => absurd hend hlabel'⟩
  | pair hlabel0 hread hread' hlead hpair hstate =>
    subst hlabel0
    exact ⟨hat', fun _ => hrun.pair hread hread' hlead hat.1 hat.2 hpair hstate,
      fun hend => by cases hend⟩
  | overflow hsource _ _ _ hfull =>
    rw [hsource, List.length_cons] at hroom
    omega
  | illegal hsource hbyte =>
    refine ⟨hat', fun hend => absurd rfl hend, fun _ => hrun.done rfl fun _ _ _ => ?_⟩
    rw [hsource, writtenOffsets_none]
    rw [decodeLegal, hbyte, ite_self]
  | reserved hsource _ hstate hb =>
    refine ⟨hat', fun hend => absurd rfl hend, fun _ => hrun.done rfl fun _ _ _ => ?_⟩
    rw [hsource, writtenOffsets_none]
    rw [decodeLegal, if_pos ⟨hstate, hb⟩]

end Run

section Call

variable {cnv : Decoder} {source : List UInt8} {targetLimit : Nat}

theorem toUnicodeOffsetLocals_offsets (hv : cnv.Valid) (hroom : 2 * source.length < targetLimit) :
    (toUnicodeOffsetLocals cnv source targetLimit).offsets =
      writtenOffsets source cnv.rep cnv.firstIndex 0 false false := by
  have hrun : OffsetRun targetLimit (writtenOffsets source cnv.rep cnv.firstIndex 0 false false)
      (cnv.offsetStart source) :=
    ⟨by rw [Nat.add_comm]; exact hroom, cnv.firstIndex, false, rfl, rfl⟩
  have hinv := Program.exec_invariant (OffsetLocals.step targetLimit) offsetInv_step
    (2 * source.length + 3) (s := (cnv.label, cnv.offsetStart source))
    ⟨atLabel_start hv rfl, fun _ => hrun, fun hend => absurd hend cnv.label_ne_endloop⟩
  refine hinv.done ?_
  -- The jumps are those of the call without offsets, which comes to its end.
  have hfuel : toMeasure (cnv.label, ⟨cnv, source, [], [], .zeroError⟩) < 2 * source.length + 3 :=
    Nat.lt_succ_of_le (toMeasure_le _)
  have hstop := Program.exec_halts (ToLocals.step targetLimit) toStep_measure hfuel
  rw [OffsetLocals.locals_exec hv] at hstop
  generalize Program.exec (OffsetLocals.step targetLimit) (2 * source.length + 3)
    (cnv.label, cnv.offsetStart source) = p at hstop
  obtain ⟨label, l⟩ := p
  cases label with
  | endloop => rfl
  | fastSingle => cases hstop
  | singleByteMode => cases hstop
  | fastUnicode => cases hstop
  | unicodeByteMode => cases hstop

/-- With room for the whole text, the offsets are right if and only if no character follows
directly on a two-byte character in Unicode mode. -/
theorem writesOffsets_iff (hv : cnv.Valid) (hroom : 2 * source.length < targetLimit) :
    WritesOffsets cnv source targetLimit ↔ true ∉ behindPair source cnv.rep false false := by
  have hoffsets := toUnicodeOffsetLocals_offsets hv hroom
  have hfirst : cnv.firstIndex ≤ 0 := by
    rw [Decoder.firstIndex]
    split <;> omega
  rw [← writtenOffsets_eq_iff source cnv.rep cnv.firstIndex 0, ← hoffsets]
  constructor
  · exact WritesOffsets.offsets
  intro h
  refine ⟨?_, h, ?_⟩
  · rw [OffsetLocals.toToLocals_toUnicodeOffsetLocals hv]
  rw [h]
  exact charOffsets_ordered hfirst

/-- Single-byte mode, Unicode mode, a character, and a command before the next one. -/
theorem writesOffsets_scu : WritesOffsets .initial [0x41, 0x0f, 0x4e, 0x00, 0xe0, 0x42] 20 :=
  (writesOffsets_iff (fun h => by cases h) (by decide)).mpr (by decide)

/-- The second one of two ideographs has the offset of the first one. -/
theorem writesOffsets_not_ideographs : ¬ WritesOffsets .initial
    [0x0f, 0x4e, 0x00, 0x4e, 0x01] 20 := by
  intro h
  exact absurd h.offsets (by decide)

end Call

end Icu.Scsu
