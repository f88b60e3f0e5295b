import Icu.UcnvU8.ToUnicode
import Icu.UcnvU8.FromUnicode

/-! # Conversion in chunks

The source and the target are cut into buffers, and each call continues where the last one
stopped. The text, the place of the first illegal sequence and its bytes are those of a single
call, if no call goes on behind the five bytes whose partial value is zero: it takes them for
nothing.
-/

namespace Icu.UcnvU8

open Lib Lib.Transducer Lib.Peeking

variable {targetLimit : Nat}

/-- Calls of `ucnv_toUnicode_UTF8`. -/
def toCall (isCESU8 : Bool) (cnv : ToConverter) (source : List UInt8) (targetLimit : Nat) :
    Reply ToConverter UInt8 UInt16 :=
  (toUnicodeUTF8 isCESU8 cnv source targetLimit).reply

/-- Calls of `ucnv_fromUnicode_UTF8`. -/
def fromCall (isCESU8 : Bool) (cnv : FromConverter) (source : List UInt16) (targetLimit : Nat) :
    Reply FromConverter UInt16 UInt8 :=
  (fromUnicodeUTF8 isCESU8 cnv source targetLimit).reply

/-- No call goes on behind the five bytes whose partial value is zero. -/
def ToAdmits (isCESU8 : Bool) (input : List UInt8) (requests : List (Nat × Nat)) : Prop :=
  AdmitsCalls (toCall isCESU8) ToConverter.Admits ⟨.initial, input, [], false⟩ requests

instance decidableToAdmits (isCESU8 : Bool) (input : List UInt8) (requests : List (Nat × Nat)) :
    Decidable (ToAdmits isCESU8 input requests) :=
  decidableAdmitsCalls _ _ _

/-- The run of calls agrees with the single call, and an illegal sequence has the same length. -/
structure ToAgrees (single : Reply ToConverter UInt8 UInt16)
    (now : Progress ToConverter UInt8 UInt16) : Prop extends
    Agrees ToConverter.rep single now where
  toULength : now.failed = true → single.state.toULength = now.state.toULength

section To

variable {isCESU8 : Bool} {input : List UInt8} {requests : List (Nat × Nat)}

theorem serveAll_to_onTrack (h : ToAdmits isCESU8 input requests) :
    OnTrack (decodeByte isCESU8 unitsOf) ToConverter.rep ToConverter.Valid ToConverter.Stuck
      (run (decodeByte isCESU8 unitsOf) ToConverter.initial.rep input)
      (serveAll (toCall isCESU8) .initial input requests) := by
  have hcall : ∀ (cnv : ToConverter) (source : List UInt8) (targetLimit : Nat), cnv.Valid →
      cnv.Admits source targetLimit →
      Keeps (decodeByte isCESU8 unitsOf) ToConverter.rep ToConverter.Valid ToConverter.Stuck cnv
        source
        (toCall isCESU8 cnv source targetLimit) :=
    fun _ _ _ hv ha => toUnicodeUTF8_keeps hv ha
  exact (OnTrack.start ToConverter.valid_initial).serveCalls hcall h

theorem admits_initial (source : List UInt8) (targetLimit : Nat) :
    ToConverter.initial.Admits source targetLimit := by
  intro h
  cases h

theorem toUnicode_chunks (h : ToAdmits isCESU8 input requests)
    (hroom : 2 * input.length < targetLimit) : ToAgrees (toCall isCESU8 .initial input targetLimit)
      (serveAll (toCall isCESU8) .initial input requests) := by
  have hadmits := admits_initial input targetLimit
  have htrack := serveAll_to_onTrack h
  have hkeeps := @toUnicodeUTF8_keeps isCESU8 _ _ _ ToConverter.valid_initial hadmits
  have hagrees := htrack.agrees
    (hkeeps.outcome (toUnicodeUTF8_all ToConverter.valid_initial hadmits hroom))
  refine ⟨hagrees, fun hfail => ?_⟩
  obtain ⟨hsingle, -, -, hrep⟩ := hagrees.stopped hfail
  have hnow : ToConverter.Stuck _ := (htrack.fails hfail).1
  have hstuck : ToConverter.Stuck _ := (hkeeps.fails hsingle).1
  rw [ToConverter.Stuck] at hnow hstuck
  rw [← hnow, ← hrep]
  exact hstuck.symm

end To

section From

variable {isCESU8 : Bool} {input : List UInt16}

theorem fromUnicode_chunks (requests : List (Nat × Nat)) (hroom : 4 * input.length < targetLimit) :
    Agrees FromConverter.fromUChar32 (fromCall isCESU8 .initial input targetLimit)
      (serveAll (fromCall isCESU8) .initial input requests) := by
  have hv : FromConverter.initial.Valid := Or.inl rfl
  have hcall : ∀ (cnv : FromConverter) (source : List UInt16) (targetLimit : Nat), cnv.Valid →
      True → Keeps (encodeUnit isCESU8) FromConverter.fromUChar32 FromConverter.Valid
        (fun _ => True) cnv source (fromCall isCESU8 cnv source targetLimit) :=
    fun _ _ _ hv _ => fromUnicodeUTF8_keeps hv
  have hadmits : ∀ (requests : List (Nat × Nat)) (now : Progress FromConverter UInt16 UInt8),
      AdmitsCalls (fromCall isCESU8) (fun _ _ _ => True) now requests := by
    intro requests
    induction requests with
    | nil => exact fun _ => trivial
    | cons request requests ih => exact fun now => ⟨fun _ => trivial, ih _⟩
  have hstart := @OnTrack.start _ _ _ _ (encodeUnit isCESU8) FromConverter.fromUChar32
    FromConverter.Valid (fun _ => True) _ input hv
  have htrack := hstart.serveCalls hcall (hadmits requests _)
  exact htrack.agrees
    ((fromUnicodeUTF8_keeps hv).outcome (fromUnicodeUTF8_all hv hroom))

end From

/-- In every run whose calls do not go on behind the five bytes, the text of the converters and
their first error are those of a single call, and the variants with offsets have the same
results. -/
theorem chunkedCalls_eq_single (isCESU8 : Bool) {bytes : List UInt8} {toRequests : List (Nat × Nat)}
    (hto : ToAdmits isCESU8 bytes toRequests) (units : List UInt16)
    (fromRequests : List (Nat × Nat)) :
    (∀ targetLimit, 2 * bytes.length < targetLimit →
      ToAgrees (toCall isCESU8 .initial bytes targetLimit)
        (serveAll (toCall isCESU8) .initial bytes toRequests)) ∧
    (∀ targetLimit, 4 * units.length < targetLimit →
      Agrees FromConverter.fromUChar32 (fromCall isCESU8 .initial units targetLimit)
        (serveAll (fromCall isCESU8) .initial units fromRequests)) ∧
    (∀ cnv source targetLimit, (toUnicodeUTF8OffsetsLogic isCESU8 cnv source targetLimit).result =
      toUnicodeUTF8 isCESU8 cnv source targetLimit) ∧
    ∀ cnv source targetLimit, (fromUnicodeUTF8OffsetsLogic isCESU8 cnv source targetLimit).result =
      fromUnicodeUTF8 isCESU8 cnv source targetLimit :=
  ⟨fun _ hroom => toUnicode_chunks hto hroom, fun _ hroom => fromUnicode_chunks fromRequests hroom,
    toUnicodeUTF8OffsetsLogic_result isCESU8, fromUnicodeUTF8OffsetsLogic_result isCESU8⟩

/-- A call may go on behind an incomplete sequence with any other value. -/
theorem chunkedCalls_eq_single_f0 :
    ToAdmits false [0xf0, 0x9f, 0x98, 0x80, 0xe0, 0x41] [(2, 1), (0, 1), (1, 0), (2, 1), (3, 4)] ∧
      (toCall false .initial [0xf0, 0x9f, 0x98, 0x80, 0xe0, 0x41] 13).rest = [0x41] ∧
      (toCall false .initial [0xf0, 0x9f, 0x98, 0x80, 0xe0, 0x41] 13).output =
      [0xd83d, 0xde00] := by
  have hadmits : ToAdmits false [0xf0, 0x9f, 0x98, 0x80, 0xe0, 0x41]
      [(2, 1), (0, 1), (1, 0), (2, 1), (3, 4)] := by decide
  have hfail : (serveAll (toCall false) .initial [0xf0, 0x9f, 0x98, 0x80, 0xe0, 0x41]
      [(2, 1), (0, 1), (1, 0), (2, 1), (3, 4)]).failed = true := by decide
  have hagrees := (chunkedCalls_eq_single false hadmits [] []).1 13 (by decide)
  obtain ⟨-, hout, hrest, -⟩ := hagrees.stopped hfail
  refine ⟨hadmits, ?_, ?_⟩
  · rw [hrest]
    decide
  · rw [hout]
    decide

/-- The five bytes of an incomplete sequence are lost between two calls. -/
theorem chunks_lose_fd : ¬ ∀ (isCESU8 : Bool) (bytes : List UInt8) (requests : List (Nat × Nat))
    (targetLimit : Nat), 2 * bytes.length < targetLimit →
      ToAgrees (toCall isCESU8 .initial bytes targetLimit)
        (serveAll (toCall isCESU8) .initial bytes requests) := by
  intro h
  have hagrees := h false [0xfd, 0xbd, 0xbd, 0xbe, 0x80, 0x41] [(5, 1), (1, 1)] 13 (by decide)
  obtain ⟨hsingle, -⟩ := hagrees.ended (by decide) (by decide)
  revert hsingle
  decide

end Icu.UcnvU8
