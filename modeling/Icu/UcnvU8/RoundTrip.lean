import Icu.UcnvU8.Chunking
import Icu.UcnvU8.Legal

/-! # Round trip through the UTF-8 converter

A well-formed text that goes through the encoder and then through the decoder, in any calls, is
the same text. No call of the decoder goes on behind the five bytes whose partial value is zero.
-/

namespace Icu.UcnvU8

open Lib Lib.Transducer Lib.Peeking Utf16 Utf8

variable {requests : List (Nat × Nat)} {cps : List UInt32}

/-- The five bytes end neither with the input nor with a sixth byte. -/
theorem run_zeroValued (s : List UInt8) :
    (run (decodeByte false unitsOf) zeroValued s).state ≠ [] := by
  cases s with
  | nil => exact List.cons_ne_nil _ _
  | cons b s =>
    have hlegal : ∀ ch, ¬ isLegal false 6 6 ch = true := by
      intro ch hlegal
      simp only [isLegal, Bool.and_eq_true, decide_eq_true_eq] at hlegal
      exact absurd (UInt32.le_trans hlegal.1.2 hlegal.1.1.2) (by decide)
    rw [run_cons, decodeByte, if_neg (show zeroValued ≠ [] by decide)]
    split
    · have hconclude : extend false unitsOf (zeroValued ++ [b]) = .reject (zeroValued ++ [b]) :=
        if_neg (hlegal _)
      rw [hconclude]
      exact List.cons_ne_nil _ _
    · exact List.cons_ne_nil _ _

/-- A run over complete sequences has no such call. -/
theorem admitsCalls_of_complete {out : List UInt16} {now : Progress ToConverter UInt8 UInt16}
    (h : OnTrack (decodeByte false unitsOf) ToConverter.rep ToConverter.Valid ToConverter.Stuck
      ⟨out, [], none⟩ now) : AdmitsCalls (toCall false) ToConverter.Admits now requests := by
  induction requests generalizing now with
  | nil => exact trivial
  | cons request requests ih =>
    have hadmits : now.failed = false →
        now.state.Admits (now.remaining.take request.1) request.2 := by
      intro hok hz
      obtain ⟨-, hwhole⟩ := h.proceeds hok
      rw [hz] at hwhole
      exact absurd (congrArg Outcome.state hwhole).symm (run_zeroValued now.remaining)
    exact ⟨hadmits, ih (h.serve fun hok => toUnicodeUTF8_keeps (h.proceeds hok).1 (hadmits hok))⟩

theorem run_flatMap_bytesOf (h : ∀ ch ∈ cps, IsScalar ch.toNat) :
    run (decodeByte false unitsOf) [] (cps.flatMap bytesOf) = ⟨cps.flatMap unitsOf, [], none⟩ := by
  induction cps with
  | nil => rfl
  | cons ch cps ih =>
    obtain ⟨hseq, hcode⟩ := isSequence_appendUTF8 (h ch List.mem_cons_self)
    rw [List.flatMap_cons, bytesOf, run_sequence hseq,
      ih fun x hx => h x (List.mem_cons_of_mem ch hx), UInt32.toNat_inj.mp hcode]
    rfl

/-- The encoder writes the sequences of the code points. -/
theorem serveAll_encodes (h : ∀ ch ∈ cps, IsScalar ch.toNat) :
    let now := serveAll (fromCall false) .initial (cps.flatMap unitsOf) requests
    now.failed = false ∧ (now.remaining = [] → now.output = cps.flatMap bytesOf) := by
  have hv : FromConverter.initial.Valid := Or.inl rfl
  have hroom := Nat.lt_succ_self (4 * (cps.flatMap unitsOf).length)
  have hsingle := (@fromUnicodeUTF8_keeps false _ _ _ hv).outcome (fromUnicodeUTF8_all hv hroom)
  rw [show FromConverter.initial.fromUChar32 = 0 from rfl, run_flatMap_unitsOf h,
    Outcome.mk.injEq] at hsingle
  obtain ⟨hbytes, -, hstopped⟩ := hsingle
  have hcalls := @fromUnicode_chunks _ false _ requests hroom
  have hok : (fromCall false .initial (cps.flatMap unitsOf)
      (4 * (cps.flatMap unitsOf).length + 1)).failed = false := by
    by_contra hfail
    rw [fromCall, Bool.not_eq_false] at hfail
    rw [if_pos hfail] at hstopped
    cases hstopped
  cases hfail : (serveAll (fromCall false) .initial (cps.flatMap unitsOf) requests).failed with
  | true => exact absurd (hok.symm.trans (hcalls.stopped hfail).1) Bool.false_ne_true
  | false => exact ⟨hfail, fun hread => (hcalls.ended hfail hread).2.1.symm.trans hbytes.symm⟩

/-- What the decoder has written is the start of the text. -/
theorem serveAll_decodes (h : ∀ ch ∈ cps, IsScalar ch.toNat) :
    let now := serveAll (toCall false) .initial (cps.flatMap bytesOf) requests
    now.failed = false ∧ now.output <+: cps.flatMap unitsOf ∧
      (now.remaining = [] → now.output = cps.flatMap unitsOf ∧ now.state.rep = []) := by
  have hstart := @OnTrack.start _ _ _ _ (decodeByte false unitsOf) ToConverter.rep ToConverter.Valid
    ToConverter.Stuck _ (cps.flatMap bytesOf) ToConverter.valid_initial
  have hwhole : run (decodeByte false unitsOf) ToConverter.initial.rep (cps.flatMap bytesOf) =
      ⟨cps.flatMap unitsOf, [], none⟩ := run_flatMap_bytesOf h
  have htrack := @serveAll_to_onTrack _ _ requests (admitsCalls_of_complete (hwhole ▸ hstart))
  rw [hwhole] at htrack
  generalize serveAll (toCall false) .initial (cps.flatMap bytesOf) requests = now at htrack ⊢
  cases hfail : now.failed with
  | true => cases congrArg Outcome.stopped (htrack.fails hfail).2
  | false =>
    have hnow := (htrack.proceeds hfail).2
    rw [Outcome.after, Outcome.mk.injEq] at hnow
    refine ⟨hfail, ⟨_, hnow.1.symm⟩, fun hnil => ?_⟩
    rw [hnil, run_nil, List.append_nil] at hnow
    exact ⟨hnow.1.symm, hnow.2.1.symm⟩

theorem utf8_roundTrip (h : ∀ ch ∈ cps, IsScalar ch.toNat)
    (fromRequests toRequests : List (Nat × Nat)) :
    let encoded := serveAll (fromCall false) .initial (cps.flatMap unitsOf) fromRequests
    let decoded := serveAll (toCall false) .initial encoded.output toRequests
    encoded.failed = false ∧ (encoded.remaining = [] →
      decoded.failed = false ∧ decoded.output <+: cps.flatMap unitsOf ∧
        (decoded.remaining = [] →
          decoded.output = cps.flatMap unitsOf ∧ decoded.state.rep = [])) := by
  obtain ⟨hencoded, hbytes⟩ := @serveAll_encodes fromRequests cps h
  refine ⟨hencoded, fun hread => ?_⟩
  rw [hbytes hread]
  exact serveAll_decodes h

theorem utf8_roundTrip_euro :
    let encoded := serveAll (fromCall false) .initial [0x20ac, 0xd83d, 0xde00] [(2, 2), (2, 9)]
    encoded.output = [0xe2, 0x82, 0xac, 0xf0, 0x9f, 0x98, 0x80] ∧
      (serveAll (toCall false) .initial encoded.output [(4, 1), (2, 8), (2, 8)]).output =
        [0x20ac, 0xd83d, 0xde00] :=
  ⟨by decide, (((@utf8_roundTrip [0x20ac, 0x1f600] (by simp; decide) [(2, 2), (2, 9)]
    [(4, 1), (2, 8), (2, 8)]).2 (by decide)).2.2 (by decide)).1⟩

end Icu.UcnvU8
