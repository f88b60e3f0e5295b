import Icu.Scsu.Jumps

/-! # The SCSU decoder

A call of `_SCSUToUnicode` decodes byte by byte until it is out of bytes or of room, or until it
meets an illegal or a reserved byte.
-/

namespace Icu.Scsu

open Utf16 Lib Lib.Transducer

variable {d : Decoder}

section Call

variable {start : Decoder} {input : List UInt8} {targetLimit : Nat} {l l' : ToLocals}
  {bs : List UInt8} {out : List UInt16} {b : UInt8} {label : ToLabel}

/-- From a start on, the first bytes of an input give this output, this state and this rest of the
input, whatever follows. -/
structure Reads (start : Decoder) (input : List UInt8) (out : List UInt16) (d : Decoder)
    (rest : List UInt8) : Prop where
  follows : Follows decodeByte (fun more => transduce decodeByte start (input ++ more)) out d rest
  stuck : ∀ more, stuckAt decodeByte start (input ++ more) = stuckAt decodeByte d (rest ++ more)
  reserved : ∀ more, readsReserved (input ++ more) start = false → readsReserved (rest ++ more) d =
    false

theorem Reads.byte {out' : List UInt16} {d' : Decoder}
    (h : Reads start input out d (b :: bs)) (hstep : decodeByte d b = some (d', out')) :
    Reads start input (out ++ out') d' bs where
  follows := h.follows.cons hstep
  stuck more := by rw [h.stuck more, List.cons_append, stuckAt_cons hstep]
  reserved more hclean := by
    have hr := h.reserved more hclean
    rw [List.cons_append, readsReserved, hstep] at hr
    exact (Bool.or_eq_false_iff.mp hr).2

/-- The windows and the mode, which an illegal byte does not change. -/
def Decoder.windows (d : Decoder) : Offsets × Bool × Window × Window :=
  (d.toUDynamicOffsets, d.toUIsSingleByteMode, d.toUQuoteWindow, d.toUDynamicWindow)

/-- A call that has read some bytes, and written what the decoder writes for them. -/
structure Running (start : Decoder) (input : List UInt8) (targetLimit : Nat) (l : ToLocals) :
    Prop where
  err : l.err = .zeroError
  buffer : l.uCharErrorBuffer = []
  room : l.target.length ≤ targetLimit
  valid : l.cnv.Valid
  reads : Reads start input l.target l.cnv.rep l.source
  quotes : splitsQuote l.source l.cnv.rep (targetLimit - l.target.length) = false

structure Ended (start : Decoder) (input : List UInt8) (targetLimit : Nat) (l : ToLocals) :
    Prop where
  proceeds : l.err ≠ .illegalCharFound →
    l.cnv.Valid ∧ (l.err = .zeroError ∨ l.err = .bufferOverflowError) ∧
      Reads start input (l.target ++ l.uCharErrorBuffer) l.cnv.rep l.source ∧
      (l.source = [] ∧ l.uCharErrorBuffer = [] ∨ targetLimit ≤ l.target.length ∨
        readsReserved input start = true)
  fails : l.err = .illegalCharFound → ∀ more,
    transduce decodeByte start (input ++ more) =
      (l.target ++ l.uCharErrorBuffer, none, l.source ++ more) ∧
    (stuckAt decodeByte start (input ++ more)).map Decoder.windows = some l.cnv.windows

def ToInv (start : Decoder) (input : List UInt8) (targetLimit : Nat) : ToLabel × ToLocals → Prop
  | (.fastSingle, l) => Running start input targetLimit l ∧ l.cnv.toUIsSingleByteMode = true ∧
      l.cnv.toUState = .readCommand
  | (.singleByteMode, l) => Running start input targetLimit l ∧ l.cnv.toUIsSingleByteMode = true ∧
      (l.cnv.toUState = .readCommand → l.target.length < targetLimit →
        ∀ b ∈ l.source.head?, b.toNat < 0x20)
  | (.fastUnicode, l) => Running start input targetLimit l ∧ l.cnv.toUIsSingleByteMode = false ∧
      l.cnv.toUState = .readCommand
  | (.unicodeByteMode, l) => Running start input targetLimit l ∧ l.cnv.toUIsSingleByteMode = false
  | (.endloop, l) => Ended start input targetLimit l

theorem Running.byte (h : Running start input targetLimit l)
    (hread : ReadsByte targetLimit l l' b bs out) : Running start input targetLimit l' where
  err := hread.err.trans h.err
  buffer := hread.buffer.trans h.buffer
  room := hread.fits
  valid := hread.valid
  reads := by
    have hf := h.reads
    rw [hread.source] at hf
    rw [hread.target, hread.source']
    exact hf.byte hread.step
  quotes := by
    have hroom := hread.room
    have hq := h.quotes
    rw [hread.source, splitsQuote, hread.step, bne_iff_ne.mpr (by omega), Bool.true_and] at hq
    have hsplit := (Bool.or_eq_false_iff.mp hq).2
    rw [hread.source', hread.target, List.length_append, Nat.sub_add_eq]
    exact hsplit

theorem Running.ended (h : Running start input targetLimit l)
    (hstop : l.source = [] ∨ targetLimit ≤ l.target.length) {err : UErrorCode}
    (herr : err = .zeroError ∨ err = .bufferOverflowError) :
    Ended start input targetLimit { l with err } where
  proceeds _ := by
    refine ⟨h.valid, herr, ?_, ?_⟩
    · dsimp only
      rw [h.buffer, List.append_nil]
      exact h.reads
    · rcases hstop with hstop | hstop
      · exact Or.inl ⟨hstop, h.buffer⟩
      · exact Or.inr (Or.inl hstop)
  fails hfail := by
    rcases herr with rfl | rfl
    · cases hfail
    · cases hfail

theorem Running.illegal (h : Running start input targetLimit l) {b : UInt8} {bs : List UInt8}
    (hsource : l.source = b :: bs) (hstep : decodeByte l.cnv.rep b = none) :
    Ended start input targetLimit
      ⟨{ l.cnv with toUBytes := [b] }, bs, l.target, l.uCharErrorBuffer, .illegalCharFound⟩ where
  proceeds hok := absurd rfl hok
  fails _ more := by
    have hf := h.reads.follows more
    have hs := h.reads.stuck more
    rw [hsource, List.cons_append, transduce_cons_none hstep] at hf
    rw [hsource, List.cons_append, stuckAt_cons_none hstep] at hs
    refine ⟨hf.trans ?_, ?_⟩
    · rw [after, h.buffer, List.append_nil]
    rw [hs]
    rfl
theorem Running.overflow (h : Running start input targetLimit l) {d : Decoder} {b : UInt8}
    {bs : List UInt8} {lead trail : UInt16} (hsource : l.source = b :: bs)
    (hroom : l.target.length < targetLimit)
    (hstep : decodeByte l.cnv.rep b = some (d, [lead, trail]))
    (hstate : l.cnv.toUState = .quoteOne ∨ l.cnv.rep = d)
    (hfull : targetLimit < l.target.length + 2) :
    Ended start input targetLimit
      ⟨l.cnv, bs, l.target ++ [lead], [trail], .bufferOverflowError⟩ where
  proceeds _ := by
    have hrep : l.cnv.rep = d := by
      refine hstate.resolve_left fun hquote => ?_
      -- The call would split a quoted pair.
      have hq := h.quotes
      rw [hsource, splitsQuote, hstep, bne_iff_ne.mpr (by omega), Bool.true_and] at hq
      have hsplit := (Bool.or_eq_false_iff.mp hq).1
      rw [Decoder.rep_toUState, hquote, beq_self_eq_true, Bool.true_and, decide_eq_false_iff_not,
        List.length_cons, List.length_singleton] at hsplit
      omega
    refine ⟨h.valid, Or.inr rfl, ?_, Or.inr (Or.inl ?_)⟩
    · have hf := h.reads
      rw [hsource] at hf
      rw [List.append_assoc, List.singleton_append]
      conv => arg 4; rw [hrep]
      exact hf.byte hstep
    · dsimp only
      rw [List.length_append, List.length_singleton]
      omega
  fails hfail := by cases hfail

theorem Running.stuck (h : Running start input targetLimit l)
    (hsource : l.source = b :: bs) (hstate : l.cnv.toUState = .defineOne)
    (hb : isReserved b.toNat = true) :
    Ended start input targetLimit ({ l with source := bs }.storeSecond b) where
  proceeds _ := by
    have hrep' : ({ l with source := bs }.storeSecond b).cnv.rep =
        { l.cnv.rep with toUBytes := l.cnv.rep.bytesWith b } := by
      rw [Decoder.rep_of_pending hstate (by decide)]
      exact Decoder.rep_of_pending (s := .defineOne) hstate (by decide)
    have hstep : decodeByte l.cnv.rep b =
        some ({ l.cnv.rep with toUBytes := l.cnv.rep.bytesWith b }, []) := by
      rw [decodeByte_defineOne (Decoder.rep_toUState _ ▸ hstate), if_pos hb]
    have hf := h.reads
    rw [hsource] at hf
    have hdirty : readsReserved input start = true := by
      rw [← Bool.not_eq_false]
      intro hclean
      have hr := hf.reserved [] (by rw [List.append_nil]; exact hclean)
      rw [List.append_nil, readsReserved, hb, Decoder.rep_toUState, hstate] at hr
      cases hr
    refine ⟨h.valid, Or.inl h.err, ?_, Or.inr (Or.inr hdirty)⟩
    have hbuffer : ({ l with source := bs }.storeSecond b).uCharErrorBuffer = [] := h.buffer
    rw [hrep', hbuffer]
    exact hf.byte hstep
  fails hfail := by
    have : l.err = .illegalCharFound := hfail
    rw [h.err] at this
    cases this
theorem toInv_of_atLabel (hlabel : label ≠ .endloop)
    (h : Running start input targetLimit l) (hat : AtLabel targetLimit (label, l)) :
    ToInv start input targetLimit (label, l) := by
  cases label with
  | fastSingle => exact ⟨h, hat⟩
  | singleByteMode => exact ⟨h, hat⟩
  | fastUnicode => exact ⟨h, hat⟩
  | unicodeByteMode => exact ⟨h, hat.1⟩
  | endloop => exact absurd rfl hlabel

theorem ToInv.running (hlabel : label ≠ .endloop)
    (h : ToInv start input targetLimit (label, l)) : Running start input targetLimit l := by
  cases label with
  | fastSingle => exact h.1
  | singleByteMode => exact h.1
  | fastUnicode => exact h.1
  | unicodeByteMode => exact h.1
  | endloop => exact absurd rfl hlabel

theorem toStep_inv {p p' : ToLabel × ToLocals} (hstep : ToLocals.step targetLimit p = some p')
    (h : AtLabel targetLimit p ∧ ToInv start input targetLimit p) :
    AtLabel targetLimit p' ∧ ToInv start input targetLimit p' := by
  obtain ⟨label, l⟩ := p
  have hlabel : label ≠ .endloop := by
    rintro rfl
    cases hstep
  obtain ⟨hat, hinv⟩ := h
  have hr := hinv.running hlabel
  obtain ⟨heffect, hat'⟩ := toStep_jumps hstep hat
  refine ⟨hat', ?_⟩
  cases heffect with
  | idle hlabel' => exact toInv_of_atLabel hlabel' hr hat'
  | stop hstop herr => exact hr.ended hstop (herr.imp_left fun herr => herr.trans hr.err)
  | byte _ hlabel' hread => exact toInv_of_atLabel hlabel' (hr.byte hread) hat'
  | pair _ hread hread' => exact toInv_of_atLabel (by decide) ((hr.byte hread).byte hread') hat'
  | overflow hsource hroom hbyte hstate hfull => exact hr.overflow hsource hroom hbyte hstate hfull
  | illegal hsource hbyte => exact hr.illegal hsource hbyte
  | reserved hsource _ hstate hb => exact hr.stuck hsource hstate hb

end Call

section Calls

variable {cnv : Decoder} {source : List UInt8} {targetLimit : Nat}

def Decoder.Admits (cnv : Decoder) (source : List UInt8) (targetLimit : Nat) : Prop :=
  splitsQuote source cnv.rep targetLimit = false

theorem toUnicodeLocals_ended (hv : cnv.Valid) (ha : cnv.Admits source targetLimit) :
    Ended cnv.rep source targetLimit (toUnicodeLocals cnv source targetLimit) := by
  have hrun : Running cnv.rep source targetLimit ⟨cnv, source, [], [], .zeroError⟩ :=
    ⟨rfl, rfl, Nat.zero_le _, hv, ⟨fun _ => (after_nil _).symm, fun _ => rfl, fun _ h => h⟩, ha⟩
  have hat : AtLabel targetLimit (cnv.label, ⟨cnv, source, [], [], .zeroError⟩) :=
    atLabel_start hv rfl
  have hfuel : toMeasure (cnv.label, ⟨cnv, source, [], [], .zeroError⟩) < 2 * source.length + 3 :=
    Nat.lt_succ_of_le (toMeasure_le _)
  have hstop := Program.exec_halts (ToLocals.step targetLimit) toStep_measure hfuel
  have hfinal := (Program.exec_invariant (ToLocals.step targetLimit) toStep_inv
    (2 * source.length + 3) ⟨hat, toInv_of_atLabel cnv.label_ne_endloop hrun hat⟩).2
  rw [toUnicodeLocals]
  generalize Program.exec (ToLocals.step targetLimit) (2 * source.length + 3)
    (cnv.label, ⟨cnv, source, [], [], .zeroError⟩) = p at hstop hfinal
  obtain ⟨label', l'⟩ := p
  cases label' with
  | endloop => exact hfinal
  | fastSingle => cases hstop
  | singleByteMode => cases hstop
  | fastUnicode => cases hstop
  | unicodeByteMode => cases hstop

theorem toDecoder_rep {l : ToLocals} (herr : l.err = .zeroError ∨ l.err = .bufferOverflowError) :
    l.toDecoder.rep = l.cnv.rep ∧ (l.cnv.Valid → l.toDecoder.Valid) := by
  have hno : ¬ (l.err ≠ .zeroError ∧ l.err ≠ .bufferOverflowError) := by
    rintro ⟨h0, h1⟩
    exact herr.elim h0 h1
  rw [ToLocals.toDecoder, if_neg hno]
  by_cases hstate : l.cnv.toUState = .readCommand
  · rw [if_pos hstate]
    refine ⟨?_, fun hv => hv⟩
    rw [Decoder.rep_of_readCommand hstate]
    exact Decoder.rep_of_readCommand hstate
  · rw [if_neg hstate]
    exact ⟨rfl, fun hv => hv⟩

theorem scsuToUnicode_keeps (hv : cnv.Valid) (ha : cnv.Admits source targetLimit) :
    Keeps decodeByte Decoder.rep Decoder.Valid cnv source
      (scsuToUnicode cnv source targetLimit) := by
  have h := toUnicodeLocals_ended hv ha
  rw [scsuToUnicode]
  generalize toUnicodeLocals cnv source targetLimit = l at h
  constructor
  · intro hok
    rw [decide_eq_false_iff_not] at hok
    obtain ⟨hvalid, herr, hf, -⟩ := h.proceeds hok
    obtain ⟨hrep, hkeep⟩ := toDecoder_rep herr
    refine ⟨hkeep hvalid, fun more => ?_⟩
    rw [hrep]
    exact hf.follows more
  · intro hfail more
    rw [decide_eq_true_iff] at hfail
    exact (h.fails hfail more).1

theorem scsuToUnicode_reads (hv : cnv.Valid) (ha : cnv.Admits source targetLimit)
    (hok : (scsuToUnicode cnv source targetLimit).failed = false) :
    Reads cnv.rep source (scsuToUnicode cnv source targetLimit).output
      (scsuToUnicode cnv source targetLimit).state.rep
        (scsuToUnicode cnv source targetLimit).rest := by
  have h := toUnicodeLocals_ended hv ha
  rw [scsuToUnicode] at hok ⊢
  generalize toUnicodeLocals cnv source targetLimit = l at h hok
  obtain ⟨-, herr, hreads, -⟩ := h.proceeds (of_decide_eq_false hok)
  rw [(toDecoder_rep herr).1]
  exact hreads

theorem scsuToUnicode_stuck (hv : cnv.Valid) (ha : cnv.Admits source targetLimit)
    (hfail : (scsuToUnicode cnv source targetLimit).failed = true) (more : List UInt8) :
    (stuckAt decodeByte cnv.rep (source ++ more)).map Decoder.windows =
        some (scsuToUnicode cnv source targetLimit).state.windows ∧
      (scsuToUnicode cnv source targetLimit).state.toUState = .readCommand := by
  have h := toUnicodeLocals_ended hv ha
  rw [scsuToUnicode] at hfail ⊢
  generalize toUnicodeLocals cnv source targetLimit = l at h hfail
  have herr := of_decide_eq_true hfail
  have hreset : l.err ≠ .zeroError ∧ l.err ≠ .bufferOverflowError := by
    rw [herr]
    decide
  rw [(h.fails herr more).2, ToLocals.toDecoder, if_pos hreset]
  exact ⟨rfl, rfl⟩

theorem admits_of_room {room : Nat} (h : 2 * source.length ≤ room) :
    splitsQuote source d room = false := by
  induction source generalizing d room with
  | nil => rfl
  | cons b bs ih =>
    rw [List.length_cons] at h
    rw [splitsQuote]
    cases hstep : decodeByte d b with
    | none => rw [Bool.and_false]
    | some r =>
      have hout := decodeByte_length_le hstep
      dsimp only
      rw [ih (by omega), Bool.or_false, decide_eq_false (by omega), Bool.and_false, Bool.and_false]

/-- With enough room, and without reserved bytes, a call gives all of the output, up to an illegal
byte. -/
theorem scsuToUnicode_all (hv : cnv.Valid) (hroom : 2 * source.length < targetLimit)
    (hclean : readsReserved source cnv.rep = false) : transduce decodeByte cnv.rep source =
      ((scsuToUnicode cnv source targetLimit).output,
        if (scsuToUnicode cnv source targetLimit).failed then none
        else some (scsuToUnicode cnv source targetLimit).state.rep,
        (scsuToUnicode cnv source targetLimit).rest) := by
  have ha : cnv.Admits source targetLimit := admits_of_room (Nat.le_of_lt hroom)
  have h := toUnicodeLocals_ended hv ha
  have hkeeps := scsuToUnicode_keeps hv ha
  have hlen := transduce_length_le @decodeByte_length_le source cnv.rep
  cases hfail : (scsuToUnicode cnv source targetLimit).failed with
  | true =>
    have hwhole := hkeeps.fails hfail []
    rw [List.append_nil, List.append_nil] at hwhole
    rw [hwhole, if_pos rfl]
  | false =>
    have hok : (toUnicodeLocals cnv source targetLimit).err ≠ .illegalCharFound :=
      of_decide_eq_false hfail
    have hwhole := (hkeeps.proceeds hfail).2 []
    rw [List.append_nil, List.append_nil] at hwhole
    obtain ⟨-, -, -, hend⟩ := h.proceeds hok
    have hrest : (scsuToUnicode cnv source targetLimit).rest = [] := by
      rcases hend with hend | hfull | hstuck
      · exact hend.1
      · rw [hwhole, after, List.length_append] at hlen
        have : (toUnicodeLocals cnv source targetLimit).target.length ≤
            (scsuToUnicode cnv source targetLimit).output.length := by
          rw [scsuToUnicode, List.length_append]
          exact Nat.le_add_right _ _
        omega
      · rw [hclean] at hstuck
        cases hstuck
    rw [hwhole, hrest, transduce_nil, after, List.append_nil, if_neg Bool.false_ne_true]

end Calls

end Icu.Scsu
