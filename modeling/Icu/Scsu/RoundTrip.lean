import Icu.Scsu.Chunking
import Icu.Scsu.EncoderRun

/-! # SCSU comes back

The bytes depend on how the text and the room for bytes are cut into buffers, since the encoder
looks at the next unit of its buffer. The decoder turns all of them into the text, and its windows
and its mode are always those of the encoder.
-/

namespace Icu.Scsu

open Utf16 Lib Lib.Transducer

variable {s : List UInt16} {now : Progress Encoder UInt16 UInt8} {start : Encoder}

structure Mirrored (start : Encoder) (s : List UInt16) (now : Progress Encoder UInt16 UInt8) :
    Prop where
  ok : now.failed = false
  ready : now.state.Ready
  covers : Covers start s now.output now.state (waiting now.state.fromUChar32 ++ now.remaining)
  wellFormed : WellFormed (waiting now.state.fromUChar32 ++ now.remaining)

theorem mirrored_initial (locale : Locale) (hs : WellFormed s) :
    Mirrored (.initial locale) s ⟨.initial locale, s, [], false⟩ :=
  ⟨rfl, ⟨Encoder.valid_initial locale, Or.inl rfl⟩, ⟨[], fun q => ⟨q, .nil _⟩, rfl⟩, hs⟩

theorem scsuFromUnicode_ended {cnv : Encoder} {source more : List UInt16} (h : cnv.Ready)
    (hformed : WellFormed (waiting cnv.fromUChar32 ++ source ++ more)) (room : Nat) :
    let reply := scsuFromUnicode cnv source room
    reply.failed = false ∧ reply.state.Ready ∧
      Covers cnv source reply.output reply.state (waiting reply.state.fromUChar32 ++ reply.rest) ∧
      WellFormed (waiting reply.state.fromUChar32 ++ reply.rest ++ more) ∧
      (3 * (waiting cnv.fromUChar32 ++ source).length < room → reply.rest = []) := by
  have hend := fromUnicodeLocals_ended h hformed room
  rw [scsuFromUnicode]
  generalize fromUnicodeLocals cnv source room = l at hend
  refine ⟨decide_eq_false ?_, ⟨⟨hend.valid.usesAll, hend.valid.offsets⟩, hend.waits⟩, hend.covers,
    hend.wellFormed, fun hroom => ?_⟩
  · rcases hend.err with herr | herr
    · rw [herr]
      decide
    · rw [herr]
      decide
  · rcases hend.stops with hsource | hfull
    · exact hsource
    have := hend.short
    omega

theorem Mirrored.serve (h : Mirrored start s now) (request : Nat × Nat) :
    Mirrored start s (serve scsuFromUnicode now request) := by
  have hrest := List.take_append_drop request.1 now.remaining
  have hformed : WellFormed (waiting now.state.fromUChar32 ++ now.remaining.take request.1 ++
      now.remaining.drop request.1) := by
    rw [List.append_assoc, hrest]
    exact h.wellFormed
  obtain ⟨hok, hready, ⟨out', hm', heq'⟩, hformed', -⟩ :=
    scsuFromUnicode_ended h.ready hformed request.2
  obtain ⟨out, hm, heq⟩ := h.covers
  rw [Transducer.serve, if_neg (by simp [h.ok])]
  refine ⟨hok, hready, ⟨out ++ out', hm.trans hm', ?_⟩, ?_⟩
  · dsimp only
    rw [← heq, List.append_assoc, ← hrest, ← List.append_assoc (waiting now.state.fromUChar32),
      ← heq']
    simp only [List.append_assoc, List.take_append_drop]
  · dsimp only
    rw [← List.append_assoc]
    exact hformed'

theorem Mirrored.serveAll (h : Mirrored start s now) (requests : List (Nat × Nat)) :
    Mirrored start s (requests.foldl (Transducer.serve scsuFromUnicode) now) := by
  induction requests generalizing now with
  | nil => exact h
  | cons request requests ih => exact ih (h.serve request)

/-- A lead surrogate does not wait at the end of a well-formed string. -/
theorem waiting_of_wellFormed {c : Nat} (hc : c = 0 ∨ 0xd800 ≤ c ∧ c ≤ 0xdbff)
    (h : WellFormed (waiting c ++ [])) : waiting c = [] := by
  rcases hc with rfl | hc
  · rfl
  have hwait : waiting c = [UInt16.ofNat c] := if_neg (by omega)
  rw [hwait, List.append_nil] at h
  have hno := (h _ (List.mem_singleton.mpr rfl)).not_range
  rw [toNat_ofNat_bmp (by omega)] at hno
  omega

/-! ## The decoder reports an overflow only if the target is full -/

/-- There is no error before the end, and then a buffer overflow means a full target. -/
def Unfailing (targetLimit : Nat) : ToLabel × ToLocals → Prop
  | (.endloop, l) => l.err = .bufferOverflowError → targetLimit ≤ l.target.length
  | (_, l) => l.err = .zeroError

section Overflow

variable {targetLimit : Nat} {l : ToLocals}

theorem putCodePoint_unfailing (h : l.err = .zeroError) (c : Nat) :
    ((l.putCodePoint targetLimit c).2 = true → (l.putCodePoint targetLimit c).1.err = .zeroError) ∧
      ((l.putCodePoint targetLimit c).2 = false →
        targetLimit ≤ (l.putCodePoint targetLimit c).1.target.length) := by
  rw [ToLocals.putCodePoint]
  split
  · exact ⟨fun _ => h, fun hno => (by cases hno)⟩
  dsimp only
  split
  · exact ⟨fun _ => h, fun hno => (by cases hno)⟩
  · next hfull => exact ⟨fun hno => (by cases hno), fun _ => Nat.le_of_not_lt hfull⟩

section

variable (h : l.err = .zeroError)
include h

theorem fastSingle_unfailing : Unfailing targetLimit (l.fastSingle targetLimit) := by
  rw [ToLocals.fastSingle]
  split
  · exact h
  next b source hsource =>
  split
  · dsimp only
    split
    · exact h
    have hput := @putCodePoint_unfailing targetLimit { l with source } h
      (l.cnv.toUDynamicOffsets.get l.cnv.toUDynamicWindow + (b.toNat &&& 0x7f))
    split
    · next hgo => exact hput.1 hgo
    · next hstop => exact fun _ => hput.2 (Bool.not_eq_true _ ▸ hstop)
  · exact h

theorem singleCommand_unfailing (b : UInt8) : Unfailing targetLimit (l.singleCommand b) := by
  rw [ToLocals.singleCommand]
  split
  · exact h
  split
  · split
    · exact h
    · exact h
  split
  · exact h
  split
  · exact h
  split
  · exact h
  split
  · exact h
  · exact fun hno => by cases hno

theorem singleByteMode_unfailing : Unfailing targetLimit (l.singleByteMode targetLimit) := by
  have hzero : ∀ {l : ToLocals}, l.err = .zeroError → Unfailing targetLimit (.endloop, l) := by
    intro l hl hno
    rw [hl] at hno
    cases hno
  rw [ToLocals.singleByteMode]
  split
  · exact hzero h
  next b source hsource =>
  split
  · next hfull => exact fun _ => hfull
  dsimp only
  split
  · exact singleCommand_unfailing (l := { l with source }) h b
  · exact h
  · exact h
  · rw [ToLocals.quoteOne]
    dsimp only
    split
    · exact h
    have hput := @putCodePoint_unfailing targetLimit { l with source } h
      (l.cnv.toUDynamicOffsets.get l.cnv.toUQuoteWindow + (b.toNat &&& 0x7f))
    split
    · next hgo => exact hput.1 hgo
    · next hstop => exact fun _ => hput.2 (Bool.not_eq_true _ ▸ hstop)
  · exact h
  · exact h
  · rw [ToLocals.defineOne]
    split
    · exact hzero h
    split
    · exact h
    split
    · exact h
    split
    · exact h
    · exact hzero h

theorem unicodeByteMode_unfailing : Unfailing targetLimit (l.unicodeByteMode targetLimit) := by
  rw [ToLocals.unicodeByteMode]
  split
  · intro hno
    rw [h] at hno
    cases hno
  next b source hsource =>
  split
  · next hfull => exact fun _ => hfull
  dsimp only
  split
  · rw [ToLocals.unicodeCommand]
    split
    · exact h
    split
    · exact h
    split
    · exact h
    split
    · exact h
    split
    · exact h
    · exact fun hno => by cases hno
  · exact h
  · exact h
  · exact h

end

theorem toStep_unfailing {s s' : ToLabel × ToLocals} (hs : ToLocals.step targetLimit s = some s')
    (h : Unfailing targetLimit s) : Unfailing targetLimit s' := by
  obtain ⟨label, l⟩ := s
  cases label with
  | fastSingle =>
    cases hs
    exact fastSingle_unfailing h
  | singleByteMode =>
    cases hs
    exact singleByteMode_unfailing h
  | fastUnicode =>
    cases hs
    rw [ToLocals.fastUnicode]
    split
    · split
      · exact h
      · exact h
    · exact h
  | unicodeByteMode =>
    cases hs
    exact unicodeByteMode_unfailing h
  | endloop => cases hs

/-- A call that does not fail and has room left reports no error. -/
theorem toUnicodeLocals_unfailing (cnv : Decoder) (source : List UInt8)
    (h : (toUnicodeLocals cnv source targetLimit).err = .bufferOverflowError) :
    targetLimit ≤ (toUnicodeLocals cnv source targetLimit).target.length := by
  have hstart : Unfailing targetLimit (cnv.label, ⟨cnv, source, [], [], .zeroError⟩) := by
    cases cnv.label with
    | endloop => exact fun hno => by cases hno
    | _ => rfl
  have hfinal := Program.exec_invariant (ToLocals.step targetLimit) toStep_unfailing
    (2 * source.length + 3) hstart
  rw [toUnicodeLocals] at h ⊢
  generalize Program.exec (ToLocals.step targetLimit) (2 * source.length + 3)
    (cnv.label, ⟨cnv, source, [], [], .zeroError⟩) = p at h hfinal
  obtain ⟨label, l⟩ := p
  cases label with
  | endloop => exact hfinal h
  | _ =>
    have hzero : l.err = .zeroError := hfinal
    rw [hzero] at h
    cases h

end Overflow

/-- A call that decodes bytes without an illegal or a reserved one, with enough room. -/
theorem toUnicodeLocals_decodes {cnv d : Decoder} {bytes : List UInt8} {out : List UInt16}
    (h : Decodes cnv.rep bytes out d) (hv : cnv.Valid) {capacity : Nat}
    (hroom : 2 * bytes.length < capacity) : let decoded := toUnicodeLocals cnv bytes capacity
    decoded.err = .zeroError ∧ decoded.source = [] ∧ decoded.uCharErrorBuffer = [] ∧
      decoded.target = out ∧ decoded.toDecoder.rep = d := by
  have htrans := h.transduce_eq
  have hlength := transduce_length_le @decodeByte_length_le bytes cnv.rep
  have hend := toUnicodeLocals_ended hv (admits_of_room (Nat.le_of_lt hroom))
  have hfull := @toUnicodeLocals_unfailing capacity cnv bytes
  generalize toUnicodeLocals cnv bytes capacity = decoded at hend hfull
  rw [htrans] at hlength
  have hok : decoded.err ≠ .illegalCharFound := by
    intro hfail
    have hnone := (hend.fails hfail []).1
    rw [List.append_nil, htrans] at hnone
    cases hnone
  obtain ⟨-, herr, hreads, hstop⟩ := hend.proceeds hok
  have hall := hreads.follows []
  dsimp only at hall hlength
  rw [List.append_nil, List.append_nil, htrans] at hall
  have hout : out = decoded.target ++ decoded.uCharErrorBuffer ++
      (transduce decodeByte decoded.cnv.rep decoded.source).1 := congrArg Prod.fst hall
  have hleft : ¬ capacity ≤ decoded.target.length := by
    rw [hout, List.length_append, List.length_append] at hlength
    omega
  have hzero : decoded.err = .zeroError := herr.resolve_right fun hover => hleft (hfull hover)
  obtain ⟨hsource, hbuffer⟩ : decoded.source = [] ∧ decoded.uCharErrorBuffer = [] := by
    rcases hstop with hdone | hno | hreserved
    · exact hdone
    · exact absurd hno hleft
    · rw [h.readsReserved_eq] at hreserved
      cases hreserved
  rw [hsource, hbuffer, List.append_nil, transduce_nil, after, List.append_nil, Prod.mk.injEq,
    Prod.mk.injEq, Option.some.injEq] at hall
  exact ⟨hzero, hsource, hbuffer, hall.1.symm, (toDecoder_rep herr).1.trans hall.2.1.symm⟩

/-- Whatever bytes the encoder has written for the text so far, and whatever its buffers: the
decoder reads them without an error, into the text so far but for a lead surrogate that waits, and
has the windows and the mode of the encoder. The use of the windows is a permutation. When all of
the text is read, it comes back; and a call with enough room reads all of it. -/
theorem toUnicode_fromUnicode_calls (locale : Locale) {s : List UInt16} (hs : WellFormed s)
    (requests : List (Nat × Nat)) {capacity : Nat}
    (hroom : 2 * (serveAll scsuFromUnicode (.initial locale) s requests).output.length < capacity) :
    let now := serveAll scsuFromUnicode (.initial locale) s requests
    let decoded := toUnicodeLocals .initial now.output capacity
    now.failed = false ∧ decoded.err = .zeroError ∧ decoded.source = [] ∧
      decoded.uCharErrorBuffer = [] ∧
      decoded.target ++ waiting now.state.fromUChar32 ++ now.remaining = s ∧
      decoded.toDecoder.toUState = .readCommand ∧
      decoded.toDecoder.toUDynamicOffsets = now.state.fromUDynamicOffsets ∧
      decoded.toDecoder.toUDynamicWindow = now.state.fromUDynamicWindow ∧
      decoded.toDecoder.toUIsSingleByteMode = now.state.fromUIsSingleByteMode ∧
      Function.Bijective now.state.windowUse.get ∧
      (now.remaining = [] → decoded.target = s) ∧
      (∀ room, 3 * (waiting now.state.fromUChar32 ++ now.remaining).length < room →
        (scsuFromUnicode now.state now.remaining room).rest = []) := by
  intro now decoded
  have h : Mirrored (.initial locale) s now := (mirrored_initial locale hs).serveAll requests
  obtain ⟨out, hm, hout⟩ := h.covers
  obtain ⟨q, hd⟩ := hm 0
  have hinitial : (Encoder.initial locale).decoder 0 = Decoder.initial.rep := rfl
  rw [hinitial] at hd
  obtain ⟨herr, hsource, hbuffer, htarget, hrep⟩ := toUnicodeLocals_decodes hd valid_initial hroom
  have htext : decoded.target ++ waiting now.state.fromUChar32 ++ now.remaining = s := by
    rw [List.append_assoc, show decoded.target = out from htarget]
    exact hout
  refine ⟨h.ok, herr, hsource, hbuffer, htext, congrArg Decoder.toUState hrep,
    congrArg Decoder.toUDynamicOffsets hrep, congrArg Decoder.toUDynamicWindow hrep,
    congrArg Decoder.toUIsSingleByteMode hrep, h.ready.valid.usesAll, fun hall => ?_,
      fun room hlong => ?_⟩
  · have hformed := h.wellFormed
    rw [hall] at hformed
    rw [hall, waiting_of_wellFormed h.ready.waits hformed, List.append_nil,
      List.append_nil] at htext
    exact htext
  · have hformed : WellFormed (waiting now.state.fromUChar32 ++ now.remaining ++ []) := by
      rw [List.append_nil]
      exact h.wellFormed
    exact (scsuFromUnicode_ended h.ready hformed room).2.2.2.2 hlong

/-- Letters, ideographs and a pair that is cut by the buffers. -/
theorem toUnicode_fromUnicode_calls_mixed :
    WellFormed [0x41, 0x416, 0x4e00, 0x4e01, 0xd801, 0xdc00] ∧
      (toUnicodeLocals .initial (serveAll scsuFromUnicode (.initial .lGeneric)
        [0x41, 0x416, 0x4e00, 0x4e01, 0xd801, 0xdc00]
        [(2, 2), (1, 1), (2, 9), (9, 0), (9, 99)]).output
        99).target = [0x41, 0x416, 0x4e00, 0x4e01, 0xd801, 0xdc00] := by
  have hs : WellFormed [0x41, 0x416, 0x4e00, 0x4e01, 0xd801, 0xdc00] := by decide
  have h := @toUnicode_fromUnicode_calls .lGeneric _ hs [(2, 2), (1, 1), (2, 9), (9, 0), (9, 99)] 99
    (by decide)
  exact ⟨hs, h.2.2.2.2.2.2.2.2.2.2.1 (by decide)⟩

end Icu.Scsu
