import Icu.Scsu.Decoder

/-! # SCSU decoding in chunks

The bytes and the room for units are cut into buffers, and each call continues where the last
one stopped. Text, windows, mode and error are those of a single call, if no call runs out of
room between the two units of a code point that is quoted from a dynamic window, and no window
is defined with a reserved offset value. In the first case the call leaves the state in which
the quoted byte was read, so that the next byte is quoted, too. In the second case the call ends
early and without an error.
-/

namespace Icu.Scsu

open Lib Lib.Transducer

variable {input : List UInt8} {requests : List (Nat × Nat)} {now : Progress Decoder UInt8 UInt16}

instance decidableAdmitsCall (cnv : Decoder) (source : List UInt8) (targetLimit : Nat) :
    Decidable (cnv.Admits source targetLimit) :=
  inferInstanceAs (Decidable (_ = _))

def ToAdmits (input : List UInt8) (requests : List (Nat × Nat)) : Prop :=
  AdmitsCalls scsuToUnicode Decoder.Admits ⟨.initial, input, [], false⟩ requests

instance decidableToAdmits (input : List UInt8) (requests : List (Nat × Nat)) :
    Decidable (ToAdmits input requests) :=
  decidableAdmitsCalls scsuToUnicode _ requests

theorem valid_initial : Decoder.initial.Valid := valid_of_single rfl

structure Between (input : List UInt8) (now : Progress Decoder UInt8 UInt16) : Prop where
  onTrack : OnTrack decodeByte Decoder.rep Decoder.Valid
    (transduce decodeByte Decoder.initial.rep input) now
  stuck : now.failed = false →
    stuckAt decodeByte Decoder.initial.rep input = stuckAt decodeByte now.state.rep now.remaining
  reserved : now.failed = false → readsReserved input Decoder.initial.rep = false →
    readsReserved now.remaining now.state.rep = false
  windows : now.failed = true →
    (stuckAt decodeByte Decoder.initial.rep input).map Decoder.windows = some now.state.windows ∧
      now.state.toUState = .readCommand

theorem Between.serve (h : Between input now) {request : Nat × Nat}
    (ha : now.failed = false → now.state.Admits (now.remaining.take request.1) request.2) :
    Between input (serve scsuToUnicode now request) := by
  have htrack : OnTrack decodeByte Decoder.rep Decoder.Valid
      (transduce decodeByte Decoder.initial.rep input)
        (Transducer.serve scsuToUnicode now request) :=
    h.onTrack.serve fun hf => scsuToUnicode_keeps (h.onTrack.proceeds hf).1 (ha hf)
  cases hf : now.failed with
  | true =>
    rw [Transducer.serve, if_pos hf] at htrack ⊢
    exact h
  | false =>
    have hv := (h.onTrack.proceeds hf).1
    have hrest := List.take_append_drop request.1 now.remaining
    rw [Transducer.serve, if_neg (by simp [hf])] at htrack ⊢
    refine ⟨htrack, fun hok => ?_, fun hok hclean => ?_, fun hfail => ?_⟩
    · have hreads := scsuToUnicode_reads hv (ha hf) hok
      have hstuck := hreads.stuck (now.remaining.drop request.1)
      rw [hrest] at hstuck
      rw [h.stuck hf, hstuck]
    · have hreads := scsuToUnicode_reads hv (ha hf) hok
      refine hreads.reserved (now.remaining.drop request.1) ?_
      rw [hrest]
      exact h.reserved hf hclean
    · have hstuck := scsuToUnicode_stuck hv (ha hf) hfail (now.remaining.drop request.1)
      rw [hrest] at hstuck
      rw [h.stuck hf]
      exact hstuck

theorem Between.serveAll (h : Between input now)
    (ha : AdmitsCalls scsuToUnicode Decoder.Admits now requests) :
    Between input (requests.foldl (Transducer.serve scsuToUnicode) now) := by
  induction requests generalizing now with
  | nil => exact h
  | cons request requests ih => exact ih (h.serve ha.1) ha.2

theorem between_serveAll (ha : ToAdmits input requests) :
    Between input (serveAll scsuToUnicode .initial input requests) := by
  refine Between.serveAll ⟨⟨fun _ => ⟨valid_initial, (after_nil _).symm⟩, fun hfail => ?_⟩,
    fun _ => rfl, fun _ h => h, fun hfail => ?_⟩ ha
  · cases hfail
  · cases hfail

/-- The results of calls and of a single call: text, error, the rest of the bytes, the windows, the
mode and the state of the decoder. -/
structure SameResult (output : List UInt16) (failed : Bool) (state : Decoder) (rest : List UInt8)
    (whole : Reply Decoder UInt8 UInt16) : Prop where
  output : whole.output = output
  failed : whole.failed = failed
  rest : whole.rest = rest
  windows : whole.state.windows = state.windows
  state : whole.state.toUState = state.toUState

theorem windows_rep (d : Decoder) : d.rep.windows = d.windows := rfl

theorem sameResult_of_rep {output : List UInt16} {state : Decoder} {rest : List UInt8}
    {whole : Reply Decoder UInt8 UInt16}
    (h : (whole.output, if whole.failed then none else some whole.state.rep, whole.rest) =
      (output, some state.rep, rest)) : SameResult output false state rest whole := by
  rw [Prod.mk.injEq, Prod.mk.injEq] at h
  obtain ⟨hout, hstate, hrest⟩ := h
  cases hw : whole.failed with
  | true =>
    rw [hw, if_pos rfl] at hstate
    cases hstate
  | false =>
    rw [hw, if_neg Bool.false_ne_true, Option.some.injEq] at hstate
    refine ⟨hout, hw, hrest, ?_, ?_⟩
    · rw [← windows_rep, hstate, windows_rep]
    · rw [← Decoder.rep_toUState, hstate, Decoder.rep_toUState]

/-- In every run of calls that do not split a quoted pair, on bytes without reserved window offset
values, the text so far and that of one more call with enough room are the text of a single call,
with the same windows, mode and state. A run that has read all bytes or has failed has the result
of the single call. -/
theorem toUnicode_calls (ha : ToAdmits input requests)
    (hclean : readsReserved input Decoder.initial = false) {capacity capacity' : Nat}
    (hroom : 2 * input.length < capacity)
    (hroom' : 2 * (serveAll scsuToUnicode .initial input requests).remaining.length < capacity') :
    let now := serveAll scsuToUnicode .initial input requests
    let whole := scsuToUnicode .initial input capacity
    let later := scsuToUnicode now.state now.remaining capacity'
    (now.failed = true → SameResult now.output true now.state now.remaining whole) ∧
      (now.failed = false → now.remaining = [] → SameResult now.output false now.state [] whole) ∧
      (now.failed = false →
        SameResult (now.output ++ later.output) later.failed later.state later.rest whole) := by
  intro now whole later
  have hrep : Decoder.initial.rep = Decoder.initial := rfl
  have h := between_serveAll ha
  have hwhole := scsuToUnicode_all valid_initial hroom (by rw [hrep]; exact hclean)
  have hadmits : Decoder.initial.Admits input capacity := admits_of_room (Nat.le_of_lt hroom)
  have htrack := h.onTrack
  rw [hwhole] at htrack
  -- Where the single call fails, the run has failed at the same byte.
  have hfailed : ∀ {output : List UInt16} {state : Decoder} {rest : List UInt8},
      (whole.output, if whole.failed then none else some whole.state.rep, whole.rest) =
        (output, none, rest) →
      (stuckAt decodeByte Decoder.initial.rep input).map Decoder.windows = some state.windows →
      state.toUState = .readCommand → SameResult output true state rest whole := by
    intro output state rest heq hwindows hstate
    rw [Prod.mk.injEq, Prod.mk.injEq] at heq
    have hw : whole.failed = true := by
      cases hw : whole.failed with
      | true => rfl
      | false =>
        rw [hw, if_neg Bool.false_ne_true] at heq
        cases heq.2.1
    have hstuck := scsuToUnicode_stuck valid_initial hadmits hw []
    rw [List.append_nil, hwindows, Option.some.injEq] at hstuck
    exact ⟨heq.1, hw, heq.2.2, hstuck.1.symm, hstuck.2.trans hstate.symm⟩
  refine ⟨fun hfail => ?_, fun hok hnil => sameResult_of_rep ?_, fun hok => ?_⟩
  · obtain ⟨hwindows, hstate⟩ := h.windows hfail
    exact hfailed (htrack.fails hfail) hwindows hstate
  · obtain ⟨-, hnow⟩ := htrack.proceeds hok
    rw [show (serveAll scsuToUnicode .initial input requests).remaining = [] from hnil,
      transduce_nil,
      after, List.append_nil] at hnow
    exact hnow
  · obtain ⟨hv, hnow⟩ := htrack.proceeds hok
    have hlater := scsuToUnicode_all hv hroom' (h.reserved hok (by rw [hrep]; exact hclean))
    rw [hlater, after] at hnow
    cases hl : later.failed with
    | false =>
      rw [show (scsuToUnicode now.state now.remaining capacity').failed = false from hl,
        if_neg Bool.false_ne_true] at hnow
      exact sameResult_of_rep hnow
    | true =>
      rw [show (scsuToUnicode now.state now.remaining capacity').failed = true from hl,
        if_pos rfl] at hnow
      have hstuck := scsuToUnicode_stuck hv (admits_of_room (Nat.le_of_lt hroom')) hl []
      rw [List.append_nil, ← h.stuck hok] at hstuck
      exact hfailed hnow hstuck.1 hstuck.2

/-- A character from a window that is defined, in two calls. -/
theorem toUnicode_calls_cyrillic :
    ToAdmits [0x19, 0x09, 0x92, 0x41] [(2, 1), (1, 1), (0, 0), (4, 2)] ∧
      readsReserved [0x19, 0x09, 0x92, 0x41] Decoder.initial = false ∧
      SameResult
        (serveAll scsuToUnicode .initial [0x19, 0x09, 0x92, 0x41]
        [(2, 1), (1, 1), (0, 0), (4, 2)]).output
        false
        (serveAll scsuToUnicode .initial [0x19, 0x09, 0x92, 0x41]
        [(2, 1), (1, 1), (0, 0), (4, 2)]).state
        [] (scsuToUnicode .initial [0x19, 0x09, 0x92, 0x41] 9) := by
  have ha : ToAdmits [0x19, 0x09, 0x92, 0x41] [(2, 1), (1, 1), (0, 0), (4, 2)] := by decide +kernel
  have hclean : readsReserved [0x19, 0x09, 0x92, 0x41] Decoder.initial = false := by decide
  have h := @toUnicode_calls _ _ ha hclean 9 1 (by decide) (by decide +kernel)
  exact ⟨ha, hclean, h.2.1 (by decide +kernel) (by decide +kernel)⟩

/-- A quoted supplementary code point at the end of a buffer makes the next byte a quoted one, and
bytes behind a reserved offset value are read by a second call only. -/
theorem toUnicode_calls_differ :
    (scsuToUnicode .initial [0x0b, 0x20, 0x00, 0x02, 0x80, 0x41] 20).output =
    [0xd800, 0xdc00, 0x41] ∧
      (serveAll scsuToUnicode .initial [0x0b, 0x20, 0x00, 0x02, 0x80, 0x41]
      [(6, 1), (6, 4)]).output =
        [0xd800, 0xdc00, 0xc1] ∧
      (scsuToUnicode .initial [0x18, 0x00, 0x01, 0x41] 20).output = [] ∧
      (scsuToUnicode .initial [0x18, 0x00, 0x01, 0x41] 20).failed = false ∧
      (serveAll scsuToUnicode .initial [0x18, 0x00, 0x01, 0x41] [(2, 4), (2, 4)]).output =
      [0x41] := by
  decide +kernel

end Icu.Scsu
