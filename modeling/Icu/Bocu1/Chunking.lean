import Icu.Bocu1.Encoder
import Icu.Bocu1.Decoder

/-! # Conversion in chunks

The source and the target are cut into buffers, and each call continues where the last one
stopped. The output is that of a single call, if no call arrives without room in the target
while a lead surrogate or a multi-byte sequence is incomplete. Such a call drops it: the
converter writes back a lead surrogate only if it has read it itself, and `mode` from the
counters of the fast loop.
-/

namespace Icu.Bocu1

open Utf16 Lib Lib.Transducer

variable {capacity capacity' : Nat}

section From

variable {input : List UInt16} {requests : List (Nat × Nat)}

def FromAdmits (input : List UInt16) (requests : List (Nat × Nat)) : Prop :=
  Transducer.Admits bocu1FromUnicode Encoder.Admits ⟨.initial, input, [], false⟩ requests

instance decidableFromAdmits (input : List UInt16) (requests : List (Nat × Nat)) :
    Decidable (FromAdmits input requests) :=
  inferInstanceAs (Decidable (Transducer.Admits _ _ _ _))

theorem serveAll_from_onTrack (h : FromAdmits input requests) :
    OnTrack encodeUnit Encoder.rep Encoder.Valid (transduce encodeUnit Encoder.initial.rep input)
      (serveAll bocu1FromUnicode .initial input requests) := by
  have hstart : OnTrack encodeUnit Encoder.rep Encoder.Valid
      (transduce encodeUnit Encoder.initial.rep input)
      (⟨.initial, input, [], false⟩ : Progress Encoder UInt16 UInt8) := by
    refine ⟨fun _ => ⟨Encoder.valid_initial, ?_⟩, fun hfail => absurd hfail Bool.false_ne_true⟩
    exact (after_nil _).symm
  have hcall : ∀ (cnv : Encoder) (source : List UInt16) (capacity : Nat), cnv.Valid →
      cnv.Admits capacity → Keeps encodeUnit Encoder.rep Encoder.Valid cnv source
        (bocu1FromUnicode cnv source capacity) :=
    fun _ _ _ hv ha => bocu1FromUnicode_keeps hv ha
  exact hstart.serveAll hcall h

/-- The encoder never fails. -/
theorem serveAll_from_failed (input : List UInt16) (requests : List (Nat × Nat)) :
    (serveAll bocu1FromUnicode .initial input requests).failed = false := by
  have key : ∀ now : Progress Encoder UInt16 UInt8, now.failed = false →
      (requests.foldl (serve bocu1FromUnicode) now).failed = false := by
    induction requests with
    | nil => exact fun _ h => h
    | cons request requests ih =>
      intro now h
      refine ih _ ?_
      rw [serve, if_neg (by simp [h])]
      rfl
  exact key _ rfl

theorem bocu1FromUnicode_all {cnv : Encoder} {source : List UInt16}
    (hv : cnv.Valid) (hroom : 8 * source.length < capacity) : transduce encodeUnit cnv.rep source =
      ((bocu1FromUnicode cnv source capacity).output,
        some (bocu1FromUnicode cnv source capacity).state.rep, []) := by
  have htrans := fromUnicodeLocals_transduce hv hroom
  obtain ⟨-, -, hbuffer⟩ := fromUnicodeLocals_complete hv hroom
  rw [bocu1FromUnicode, hbuffer, List.append_nil]
  exact htrans

theorem fromUnicode_chunks (h : FromAdmits input requests) (hroom : 8 * input.length < capacity)
    (hroom' : 8 * (serveAll bocu1FromUnicode .initial input requests).remaining.length <
      capacity') :
    let now := serveAll bocu1FromUnicode .initial input requests
    let whole := bocu1FromUnicode .initial input capacity
    let later := bocu1FromUnicode now.state now.remaining capacity'
    whole.output = now.output ++ later.output ∧ whole.state.rep = later.state.rep ∧
      (now.remaining = [] → whole.output = now.output ∧ whole.state.rep = now.state.rep) := by
  intro now whole later
  obtain ⟨hv, hnow⟩ := (serveAll_from_onTrack h).proceeds (serveAll_from_failed input requests)
  rw [bocu1FromUnicode_all Encoder.valid_initial hroom] at hnow
  refine ⟨?_, ?_, fun hnil => ?_⟩
  · rw [bocu1FromUnicode_all hv hroom', after, Prod.mk.injEq] at hnow
    exact hnow.1
  · rw [bocu1FromUnicode_all hv hroom', after, Prod.mk.injEq, Prod.mk.injEq, Option.some.injEq]
      at hnow
    exact hnow.2.1
  · rw [hnil, transduce_nil, after, List.append_nil, Prod.mk.injEq, Prod.mk.injEq,
      Option.some.injEq] at hnow
    exact ⟨hnow.1, hnow.2.1⟩

end From

section To

variable {input : List UInt8} {requests : List (Nat × Nat)}

def ToAdmits (input : List UInt8) (requests : List (Nat × Nat)) : Prop :=
  Transducer.Admits bocu1ToUnicode Decoder.Admits ⟨.initial, input, [], false⟩ requests

instance decidableToAdmits (input : List UInt8) (requests : List (Nat × Nat)) :
    Decidable (ToAdmits input requests) :=
  inferInstanceAs (Decidable (Transducer.Admits _ _ _ _))

theorem serveAll_to_onTrack (h : ToAdmits input requests) :
    OnTrack decodeByte Decoder.rep Decoder.Valid (transduce decodeByte Decoder.initial.rep input)
      (serveAll bocu1ToUnicode .initial input requests) := by
  have hstart : OnTrack decodeByte Decoder.rep Decoder.Valid
      (transduce decodeByte Decoder.initial.rep input)
      (⟨.initial, input, [], false⟩ : Progress Decoder UInt8 UInt16) := by
    refine ⟨fun _ => ⟨Decoder.valid_initial, ?_⟩, fun hfail => absurd hfail Bool.false_ne_true⟩
    exact (after_nil _).symm
  have hcall : ∀ (cnv : Decoder) (source : List UInt8) (capacity : Nat), cnv.Valid →
      cnv.Admits capacity → Keeps decodeByte Decoder.rep Decoder.Valid cnv source
        (bocu1ToUnicode cnv source capacity) :=
    fun _ _ _ hv ha => bocu1ToUnicode_keeps hv ha
  exact hstart.serveAll hcall h

theorem bocu1ToUnicode_all {cnv : Decoder} {source : List UInt8}
    (hv : cnv.Valid) (hroom : 2 * source.length < capacity) : transduce decodeByte cnv.rep source =
      ((bocu1ToUnicode cnv source capacity).output,
        if (bocu1ToUnicode cnv source capacity).failed then none
        else some (bocu1ToUnicode cnv source capacity).state.rep,
        (bocu1ToUnicode cnv source capacity).rest) := by
  by_cases hfail : (toUnicodeLocals cnv source capacity).err = .illegalCharFound
  · have hfailed : (bocu1ToUnicode cnv source capacity).failed = true := decide_eq_true hfail
    rw [hfailed, if_pos rfl]
    exact toUnicodeLocals_illegal hv (Or.inr (by omega)) hfail
  have hfailed : (bocu1ToUnicode cnv source capacity).failed = false := decide_eq_false hfail
  obtain ⟨-, hsource, hbuffer⟩ := toUnicodeLocals_complete hv hroom hfail
  rw [hfailed, if_neg Bool.false_ne_true, toUnicodeLocals_transduce hv hroom hfail, bocu1ToUnicode,
    hbuffer, hsource, List.append_nil]

/-- The results of two calls: output, failure, the rest of the source, and the state if
there was no failure. -/
def SameReply (output : List UInt16) (failed : Bool) (state : Decoder) (rest : List UInt8)
    (whole : Reply Decoder UInt8 UInt16) : Prop :=
  whole.output = output ∧ whole.failed = failed ∧ whole.rest = rest ∧
    (failed = false → whole.state.rep = state.rep)

theorem SameReply.of_eq {output : List UInt16} {failed : Bool} {state : Decoder} {rest : List UInt8}
    {whole : Reply Decoder UInt8 UInt16}
    (h : (whole.output, if whole.failed then none else some whole.state.rep, whole.rest) =
      (output, if failed then none else some state.rep, rest)) :
    SameReply output failed state rest whole := by
  rw [Prod.mk.injEq, Prod.mk.injEq] at h
  obtain ⟨hout, hstate, hrest⟩ := h
  cases hw : whole.failed with
  | true =>
    cases hf : failed with
    | true => exact ⟨hout, hw, hrest, fun hno => by cases hno⟩
    | false => simp [hw, hf] at hstate
  | false =>
    cases hf : failed with
    | true => simp [hw, hf] at hstate
    | false => exact ⟨hout, hw, hrest, fun _ => by simpa [hw, hf] using hstate⟩

theorem toUnicode_chunks (h : ToAdmits input requests) (hroom : 2 * input.length < capacity)
    (hroom' : 2 * (serveAll bocu1ToUnicode .initial input requests).remaining.length < capacity') :
    let now := serveAll bocu1ToUnicode .initial input requests
    let whole := bocu1ToUnicode .initial input capacity
    let later := bocu1ToUnicode now.state now.remaining capacity'
    (now.failed = true → SameReply now.output true now.state now.remaining whole) ∧
      (now.failed = false →
        SameReply (now.output ++ later.output) later.failed later.state later.rest whole) ∧
      (now.failed = false → now.remaining = [] →
        SameReply now.output false now.state [] whole) := by
  intro now whole later
  have htrack := serveAll_to_onTrack h
  rw [bocu1ToUnicode_all Decoder.valid_initial hroom] at htrack
  refine ⟨fun hfail => .of_eq ?_, fun hok => .of_eq ?_, fun hok hnil => .of_eq ?_⟩
  · rw [htrack.fails hfail]
    rfl
  · obtain ⟨hv, hnow⟩ := htrack.proceeds hok
    rw [hnow, bocu1ToUnicode_all hv hroom']
    rfl
  · obtain ⟨-, hnow⟩ := htrack.proceeds hok
    rw [hnow, show (serveAll bocu1ToUnicode .initial input requests).remaining = [] from hnil,
      transduce_nil, after, List.append_nil]
    rfl

end To

/-- In every run whose calls find room in the target or nothing incomplete, the output so
far and that of one more call with enough room is the output of a single call, and a run
that has read all input has written it all and keeps the same incomplete code point. -/
theorem chunks_eq_single {units : List UInt16} {bytes : List UInt8}
    {fromRequests toRequests : List (Nat × Nat)} (hfrom : FromAdmits units fromRequests)
    (hto : ToAdmits bytes toRequests) : (∀ capacity capacity', 8 * units.length < capacity →
      let now := serveAll bocu1FromUnicode .initial units fromRequests
      8 * now.remaining.length < capacity' →
      let whole := bocu1FromUnicode .initial units capacity
      let later := bocu1FromUnicode now.state now.remaining capacity'
      whole.output = now.output ++ later.output ∧ whole.state.rep = later.state.rep ∧
        (now.remaining = [] → whole.output = now.output ∧ whole.state.rep = now.state.rep)) ∧
    ∀ capacity capacity', 2 * bytes.length < capacity →
      let now := serveAll bocu1ToUnicode .initial bytes toRequests
      2 * now.remaining.length < capacity' →
      let whole := bocu1ToUnicode .initial bytes capacity
      let later := bocu1ToUnicode now.state now.remaining capacity'
      (now.failed = true → SameReply now.output true now.state now.remaining whole) ∧
        (now.failed = false →
          SameReply (now.output ++ later.output) later.failed later.state later.rest whole) ∧
        (now.failed = false → now.remaining = [] → SameReply now.output false now.state [] whole) :=
  ⟨fun _ _ hroom hroom' => fromUnicode_chunks hfrom hroom hroom',
    fun _ _ hroom hroom' => toUnicode_chunks hto hroom hroom'⟩

theorem chunks_eq_single_linearB : FromAdmits [0xd800, 0xdc00] [(0, 0), (1, 4), (1, 2), (0, 0)] ∧
      ToAdmits [0xfb, 0xef, 0x36] [(1, 1), (1, 1), (1, 1), (0, 0)] ∧
      (bocu1FromUnicode .initial [0xd800, 0xdc00] 17).output =
        (serveAll bocu1FromUnicode .initial [0xd800, 0xdc00]
          [(0, 0), (1, 4), (1, 2), (0, 0)]).output ∧
      (bocu1ToUnicode .initial [0xfb, 0xef, 0x36] 7).output =
        (serveAll bocu1ToUnicode .initial [0xfb, 0xef, 0x36]
          [(1, 1), (1, 1), (1, 1), (0, 0)]).output := by
  have hfrom : FromAdmits [0xd800, 0xdc00] [(0, 0), (1, 4), (1, 2), (0, 0)] := by decide
  have hto : ToAdmits [0xfb, 0xef, 0x36] [(1, 1), (1, 1), (1, 1), (0, 0)] := by decide
  obtain ⟨hencode, hdecode⟩ := chunks_eq_single hfrom hto
  refine ⟨hfrom, hto, ?_, ?_⟩
  · exact ((hencode 17 1 (by decide) (by decide)).2.2 (by decide)).1
  · exact ((hdecode 7 1 (by decide) (by decide)).2.2 (by decide) (by decide)).1

/-- A call without room drops the lead surrogate, or the lead byte, that was read before. -/
theorem chunks_ne_single :
    (serveAll bocu1FromUnicode .initial [0xd800, 0xdc00] [(1, 4), (1, 0), (1, 4)]).remaining = [] ∧
      (serveAll bocu1FromUnicode .initial [0xd800, 0xdc00] [(1, 4), (1, 0), (1, 4)]).output ≠
        (bocu1FromUnicode .initial [0xd800, 0xdc00] 17).output ∧
      (serveAll bocu1ToUnicode .initial [0xfb, 0xef, 0x36] [(1, 2), (1, 0), (2, 4)]).remaining =
      [] ∧
      (serveAll bocu1ToUnicode .initial [0xfb, 0xef, 0x36] [(1, 2), (1, 0), (2, 4)]).output ≠
        (bocu1ToUnicode .initial [0xfb, 0xef, 0x36] 7).output := by
  decide

end Icu.Bocu1
