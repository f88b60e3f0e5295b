import Icu.UcnvU8.Legal

/-! # The UTF-8 decoder by code points

`ucnv_getNextUChar_UTF8` reads one code point at a time, from a source that is complete. It ends
and cuts its sequences as `ucnv_toUnicode_UTF8` does.
-/

namespace Icu.UcnvU8

open Utf16 Utf8 Lib Lib.Peeking

/-- Bytes of a sequence are stored from `toUBytes[0]` on. -/
def ToConverter.save (cnv : ToConverter) (bytes : List UInt8) : ToConverter :=
  { cnv with toUBytes := bytes ++ cnv.toUBytes.drop bytes.length, toULength := bytes.length }

/-- What a call changes, and what it returns. -/
structure NextResult where
  cnv : ToConverter
  source : List UInt8
  ch : UInt32
  err : UErrorCode
  deriving DecidableEq

/-- The trail bytes that a source begins with. -/
def trailsOf (source : List UInt8) : List UInt8 := source.takeWhile fun b => u8IsTrail b.toNat

/-- `switch(extraBytesToWrite)`, with `n` cases to fall through: `isLegalSequence`, `ch` and
`source` behind them. -/
def trailBytes : Nat → UInt32 → List UInt8 → Bool × UInt32 × List UInt8
  | 0, ch, source => (true, ch, source)
  | _ + 1, ch, [] => (false, ch, []) -- not reached
  | n + 1, ch, myByte :: source =>
    let ch := ch + myByte.toUInt32
    let ch := if n = 0 then ch else ch <<< 6
    if !u8IsTrail myByte.toNat then (false, ch, myByte :: source) else trailBytes n ch source

/-- `ucnv_getNextUChar_UTF8(args, err)` -/
def getNextUCharUTF8 (cnv : ToConverter) : List UInt8 → NextResult
  | [] => ⟨cnv, [], 0xffff, .indexOutOfBoundsError⟩ -- no input
  | myByte :: source =>
    let extraBytesToWrite := bytesFromUTF8.getD myByte.toNat 0
    if myByte.toUInt32 < 0x80 then ⟨cnv, source, myByte.toUInt32, .zeroError⟩
    else if extraBytesToWrite = 0 then ⟨cnv.save [myByte], source, 0xffff, .illegalCharFound⟩
    else if source.length < extraBytesToWrite - 1 then
      -- check if all of the remaining bytes are trail bytes
      let trails := trailsOf source
      ⟨cnv.save (myByte :: trails), source.drop trails.length, 0xffff,
        if trails.length = source.length then .truncatedCharFound else .illegalCharFound⟩
    else
      let r := trailBytes (extraBytesToWrite - 1) (myByte.toUInt32 <<< 6) source
      let ch := r.2.1 - offsetsFromUTF8.getD extraBytesToWrite 0
      if r.1 && decide (ch ≤ 0x10ffff) && decide (utf8MinChar32.getD extraBytesToWrite 0 ≤ ch) &&
          !uIsSurrogate ch.toNat then ⟨cnv, r.2.2, ch, .zeroError⟩
      else
        ⟨cnv.save (myByte :: source.take (source.length - r.2.2.length)), r.2.2, 0xffff,
          .illegalCharFound⟩

section Call

variable {β : Type} {put : UInt32 → List β} {p : List UInt8} {cnv : ToConverter}

theorem trailsOf_cons {b : UInt8} {source : List UInt8} (h : u8IsTrail b.toNat = true) :
    trailsOf (b :: source) = b :: trailsOf source := List.takeWhile_cons_of_pos h

theorem trailsOf_cons_of_not {b : UInt8} {source : List UInt8} (h : ¬ u8IsTrail b.toNat = true) :
    trailsOf (b :: source) = [] := List.takeWhile_cons_of_neg h

theorem isTrail_take {n : Nat} {source : List UInt8} (h : n ≤ (trailsOf source).length) :
    ∀ b ∈ source.take n, u8IsTrail b.toNat = true := by
  intro b hb
  have hprefix : trailsOf source <+: source := List.takeWhile_prefix _
  have hmem : b ∈ trailsOf source := by
    rw [List.prefix_iff_eq_take.mp hprefix]
    exact (List.take_prefix_take_left h).subset hb
  exact List.mem_takeWhile_imp (p := fun b : UInt8 => u8IsTrail b.toNat) hmem

/-- Behind a part of a sequence, the decoder reads the trail bytes that it lacks, or those there
are. -/
theorem run_trails (hp : IsPartial p) (source : List UInt8) :
    ((trailsOf source).length < sequenceBytes p - p.length →
      run (decodeByte false put) p source = ⟨[], p ++ trailsOf source,
        if (trailsOf source).length = source.length then none
        else some (source.drop (trailsOf source).length)⟩) ∧
    (sequenceBytes p - p.length ≤ (trailsOf source).length → ∃ a,
      run (decodeByte false put) p source =
        resume (decodeByte false put) a (source.drop (sequenceBytes p - p.length))
          (conclude false put (p ++ source.take (sequenceBytes p - p.length)))) := by
  have hshort := hp.short
  induction source generalizing p with
  | nil =>
    refine ⟨fun _ => by simp [trailsOf], fun hle => ?_⟩
    rw [trailsOf, List.takeWhile_nil, List.length_nil] at hle
    omega
  | cons b source ih =>
    by_cases htrail : u8IsTrail b.toNat = true
    · have hlength : (p ++ [b]).length = p.length + 1 := by simp
      have hbytes := sequenceBytes_concat hp.ne_nil b
      rw [run_cons, decodeByte, if_neg hp.ne_nil, if_pos htrail, extend, hlength, hbytes,
        trailsOf_cons htrail, List.length_cons]
      by_cases hmore : p.length + 1 < sequenceBytes p
      · have hpart : IsPartial (p ++ [b]) := by
          refine ⟨by simp, fun x hx => ?_, by omega⟩
          rw [List.tail_append_of_ne_nil hp.ne_nil, List.mem_append, List.mem_singleton] at hx
          rcases hx with hx | rfl
          · exact hp.trails x hx
          · exact htrail
        obtain ⟨hfew, hall⟩ := ih hpart hpart.short
        rw [hlength, hbytes] at hfew hall
        obtain ⟨n, hn⟩ : ∃ n, sequenceBytes p - p.length = n + 1 :=
          ⟨sequenceBytes p - p.length - 1, by omega⟩
        have hn' : sequenceBytes p - (p.length + 1) = n := by omega
        rw [hn'] at hfew hall
        rw [if_pos hmore, resume, Outcome.after_nil, hn]
        refine ⟨fun hlt => ?_, fun hle => ?_⟩
        · rw [hfew (by omega)]
          simp
        · obtain ⟨a, hrun⟩ := hall (by omega)
          exact ⟨a, by simpa using hrun⟩
      · have hone : sequenceBytes p - p.length = 1 := by omega
        rw [if_neg hmore, hone]
        exact ⟨fun hlt => by omega, fun _ => ⟨b, by simp⟩⟩
    · rw [run_cons, decodeByte, if_neg hp.ne_nil, if_neg htrail, trailsOf_cons_of_not htrail]
      refine ⟨fun _ => by simp [resume], fun hle => ?_⟩
      rw [List.length_nil] at hle
      omega

theorem trailBytes_eq {n : Nat} {source : List UInt8} (hn : n < source.length) (v : UInt32) :
    (n < (trailsOf source).length → trailBytes (n + 1) (v <<< 6) source =
      (true, (source.take (n + 1)).foldl (fun (ch : UInt32) b => (ch <<< 6) + b.toUInt32) v,
        source.drop (n + 1))) ∧
    ((trailsOf source).length ≤ n → (trailBytes (n + 1) (v <<< 6) source).1 = false ∧
      (trailBytes (n + 1) (v <<< 6) source).2.2 = source.drop (trailsOf source).length) := by
  induction n generalizing source v with
  | zero =>
    obtain ⟨b, source, rfl⟩ := List.exists_cons_of_length_pos hn
    by_cases htrail : u8IsTrail b.toNat = true
    · rw [trailsOf_cons htrail, trailBytes]
      simp [htrail, trailBytes]
    · rw [trailsOf_cons_of_not htrail, trailBytes]
      simp [htrail]
  | succ n ih =>
    obtain ⟨b, source, rfl⟩ := List.exists_cons_of_length_pos (Nat.zero_lt_of_lt hn)
    by_cases htrail : u8IsTrail b.toNat = true
    · obtain ⟨hall, hfew⟩ := @ih source (by simpa using hn) ((v <<< 6) + b.toUInt32)
      rw [trailsOf_cons htrail, trailBytes, List.length_cons]
      simp only [Nat.add_one_ne_zero, if_false, htrail, Bool.not_true, Bool.false_eq_true]
      exact ⟨fun hlt => hall (by omega), fun hle => hfew (by omega)⟩
    · rw [trailsOf_cons_of_not htrail, trailBytes]
      simp [htrail]

/-- A call that returns a code point has read its sequence. Where a call fails, the decoder stops,
with the same bytes. -/
inductive Called (source : List UInt8) (r : NextResult) : Prop
  | codePoint (q : List UInt8) (hseq : IsSequence q) (hsource : source = q ++ r.source)
    (hch : r.ch = sequenceCode q) (herr : r.err = .zeroError)
  | illegal (herr : r.err = .illegalCharFound) (hshort : r.source.length < source.length)
    (hrun : run (decodeByte false codeOf) [] source = ⟨[], r.cnv.rep, some r.source⟩)
  | truncated (herr : r.err = .truncatedCharFound) (hne : r.cnv.rep ≠ [])
    (hrun : run (decodeByte false codeOf) [] source = ⟨[], r.cnv.rep, none⟩)

theorem rep_save (cnv : ToConverter) (bytes : List UInt8) : (cnv.save bytes).rep = bytes :=
  List.take_left

theorem isLegal_of_length (inBytes : Nat) (ch : UInt32) : isLegal false inBytes inBytes ch =
    (decide (ch ≤ 0x10ffff) && decide (utf8MinChar32.getD inBytes 0 ≤ ch) &&
      !uIsSurrogate ch.toNat) := by
  rw [isLegal, beq_self_eq_true]
  rfl

theorem sequenceValue_cons (b : UInt8) (q : List UInt8) : sequenceValue (b :: q) =
    q.foldl (fun (ch : UInt32) b => (ch <<< 6) + b.toUInt32) b.toUInt32 := by
  simp [sequenceValue]

theorem called_of_switch {b : UInt8} {source : List UInt8} {n : Nat} (hpart : IsPartial [b])
    (hn : sequenceBytes [b] = n + 2) (henough : n < source.length) :
    Called (b :: source)
      (let r := trailBytes (n + 1) (b.toUInt32 <<< 6) source
      let ch := r.2.1 - offsetsFromUTF8.getD (n + 2) 0
      if r.1 && decide (ch ≤ 0x10ffff) && decide (utf8MinChar32.getD (n + 2) 0 ≤ ch) &&
          !uIsSurrogate ch.toNat then ⟨cnv, r.2.2, ch, .zeroError⟩
      else
        ⟨cnv.save (b :: source.take (source.length - r.2.2.length)), r.2.2, 0xffff,
          .illegalCharFound⟩) := by
  have hrun : run (decodeByte false codeOf) [] (b :: source) =
      run (decodeByte false codeOf) [b] source := run_isPartial (Or.inr hpart) source
  obtain ⟨hrunFew, hrunAll⟩ := @run_trails _ codeOf _ hpart source
  obtain ⟨hbytesAll, hbytesFew⟩ := trailBytes_eq henough b.toUInt32
  rw [List.length_singleton, hn, show n + 2 - 1 = n + 1 from rfl] at hrunFew hrunAll
  by_cases hall : n < (trailsOf source).length
  · have hq : sequenceBytes (b :: source.take (n + 1)) = n + 2 := hn
    have hlength : (b :: source.take (n + 1)).length = n + 2 := by
      rw [List.length_cons, List.length_take]
      omega
    have hcode : sequenceValue (b :: source.take (n + 1)) - offsetsFromUTF8.getD (n + 2) 0 =
        sequenceCode (b :: source.take (n + 1)) := by rw [sequenceCode, hq]
    have hlegal := isLegal_of_length (n + 2) (sequenceCode (b :: source.take (n + 1)))
    rw [hbytesAll hall, ← sequenceValue_cons]
    dsimp only
    rw [hcode, Bool.true_and, ← hlegal]
    split
    · next hok =>
      refine .codePoint (b :: source.take (n + 1)) ⟨by simp, isTrail_take hall, ?_⟩ ?_ rfl rfl
      · rwa [hlength, hq]
      · rw [List.cons_append, List.take_append_drop]
    · next hbad =>
      obtain ⟨a, hresume⟩ := hrunAll hall
      have hsaved : source.take (source.length - (source.drop (n + 1)).length) =
          source.take (n + 1) := by
        rw [List.length_drop]
        congr 1
        omega
      refine .illegal rfl ?_ ?_
      · dsimp only
        rw [List.length_drop, List.length_cons]
        omega
      dsimp only
      rw [hrun, hresume, List.singleton_append, conclude, hlength, hq, hcode, if_neg hbad,
        rep_save, hsaved]
      rfl
  · obtain ⟨hfalse, hrest⟩ := hbytesFew (Nat.le_of_not_lt hall)
    have hsaved : source.take (source.length - (source.drop (trailsOf source).length).length) =
        trailsOf source := by
      rw [List.length_drop, Nat.sub_sub_self (by omega)]
      exact (List.prefix_iff_eq_take.mp (List.takeWhile_prefix _)).symm
    dsimp only
    rw [hfalse, hrest, Bool.false_and, Bool.false_and, Bool.false_and,
      if_neg Bool.false_ne_true, hsaved]
    refine .illegal rfl ?_ ?_
    · dsimp only
      rw [List.length_drop, List.length_cons]
      omega
    · rw [hrun, hrunFew (by omega), if_neg (by omega), rep_save]
      rfl

theorem getNextUCharUTF8_called (cnv : ToConverter) (b : UInt8) (source : List UInt8) :
    Called (b :: source) (getNextUCharUTF8 cnv (b :: source)) := by
  rw [getNextUCharUTF8]
  simp only [show bytesFromUTF8.getD b.toNat 0 = sequenceBytes [b] from rfl]
  by_cases hascii : b.toUInt32 < 0x80
  · have hlt := (toUInt32_lt_iff b).mp hascii
    rw [if_pos hascii]
    exact .codePoint [b] (isSequence_one hlt) rfl (sequenceCode_one hlt).symm rfl
  rw [if_neg hascii]
  by_cases hzero : sequenceBytes [b] = 0
  · rw [if_pos hzero]
    refine .illegal rfl (Nat.lt_succ_self _) ?_
    rw [run_cons, decodeByte, if_pos rfl, if_neg hascii, extend, hzero, if_neg (by simp), conclude,
      if_neg (by simp [isLegal, hzero]), rep_save]
    rfl
  rw [if_neg hzero]
  have hne : sequenceBytes [b] ≠ 1 := fun hone =>
    hascii ((toUInt32_lt_iff b).mpr (sequenceBytes_range.1 hone))
  have hpart : IsPartial [b] := by
    refine ⟨by simp, fun x hx => (by cases hx), ?_⟩
    rw [List.length_singleton]
    omega
  obtain ⟨n, hn⟩ : ∃ n, sequenceBytes [b] = n + 2 := ⟨sequenceBytes [b] - 2, by omega⟩
  rw [hn, show n + 2 - 1 = n + 1 from rfl]
  by_cases henough : n < source.length
  · rw [if_neg (by omega)]
    exact called_of_switch hpart hn henough
  have hle : (trailsOf source).length ≤ source.length :=
    (List.takeWhile_prefix (p := fun b : UInt8 => u8IsTrail b.toNat) (l := source)).length_le
  have hrun : run (decodeByte false codeOf) [] (b :: source) =
      run (decodeByte false codeOf) [b] source := run_isPartial (Or.inr hpart) source
  rw [(run_trails hpart source).1 (by rw [hn, List.length_singleton]; omega)] at hrun
  rw [if_pos (by omega)]
  by_cases hend : (trailsOf source).length = source.length
  · rw [if_pos hend] at hrun ⊢
    exact .truncated rfl (by simp [rep_save]) (by rw [hrun, rep_save]; rfl)
  rw [if_neg hend] at hrun ⊢
  refine .illegal rfl ?_ (by rw [hrun, rep_save]; rfl)
  dsimp only
  rw [List.length_drop, List.length_cons]
  omega

end Call

/-! ## Whole runs -/

/-- What comes out of a source. An illegal sequence has the number of bytes behind it. -/
inductive Event
  | codePoint (c : Nat)
  | illegal (toUBytes : List UInt8) (left : Nat)
  | truncated (toUBytes : List UInt8)
  deriving DecidableEq

/-- Calls of `ucnv_getNextUChar_UTF8` until the source is used up. -/
def nextEvents : Nat → ToConverter → List UInt8 → List Event
  | 0, _, _ => []
  | fuel + 1, cnv, source =>
    let r := getNextUCharUTF8 cnv source
    if r.err = .zeroError then .codePoint r.ch.toNat :: nextEvents fuel r.cnv r.source
    else if r.err = .illegalCharFound then
      .illegal r.cnv.rep r.source.length :: nextEvents fuel { r.cnv with toULength := 0 } r.source
    else if r.err = .truncatedCharFound then [.truncated r.cnv.rep]
    else []

/-- Calls of `ucnv_toUnicode_UTF8`, each behind the illegal sequence of the one before it. -/
def bufferEvents (targetLimit : Nat) : Nat → ToConverter → List UInt8 → List Event
  | 0, _, _ => []
  | fuel + 1, cnv, source =>
    let r := toUnicodeUTF8 false cnv source targetLimit
    (codePoints r.reply.output).map .codePoint ++
      if r.err = .illegalCharFound then
        .illegal r.cnv.rep r.source.length ::
          bufferEvents targetLimit fuel { r.cnv with toULength := 0 } r.source
      else if r.cnv.toULength ≠ 0 then [.truncated r.cnv.rep] else []

/-- Runs of the decoder, each behind the stop of the one before it. -/
def runEvents : Nat → List UInt8 → List Event
  | 0, _ => []
  | fuel + 1, source =>
    let r := run (decodeByte false codeOf) [] source
    r.output.map (fun ch => .codePoint ch.toNat) ++
      match r.stopped with
      | some rest => .illegal r.state rest.length :: runEvents fuel rest
      | none => if r.state = [] then [] else [.truncated r.state]

theorem nextEvents_eq : ∀ (fuel : Nat) (cnv : ToConverter) (source : List UInt8) (k : Nat),
    source.length < fuel → source.length < k →
      nextEvents fuel cnv source = runEvents k source := by
  intro fuel
  induction fuel with
  | zero => exact fun _ _ _ h => absurd h (Nat.not_lt_zero _)
  | succ fuel ih =>
    intro cnv source k hfuel hk
    obtain ⟨k, rfl⟩ : ∃ j, k = j + 1 := ⟨k - 1, by omega⟩
    cases source with
    | nil => rfl
    | cons b source =>
      rw [nextEvents]
      dsimp only
      rcases getNextUCharUTF8_called cnv b source with
        ⟨q, hseq, hsource, hch, herr⟩ | ⟨herr, hshort, hrun⟩ | ⟨herr, hne, hrun⟩
      · have hlength := congrArg List.length hsource
        have hpos := List.length_pos_of_ne_nil hseq.ne_nil
        rw [List.length_append, List.length_cons] at hlength
        rw [List.length_cons] at hfuel hk
        generalize getNextUCharUTF8 cnv (b :: source) = r at hsource hch herr hlength ⊢
        have hrest : nextEvents fuel r.cnv r.source = runEvents (k + 1) r.source :=
          ih _ _ (k + 1) (by omega) (by omega)
        rw [if_pos herr, hch, hrest, hsource, runEvents, runEvents, run_sequence hseq]
        rfl
      · rw [if_neg (by rw [herr]; decide), if_pos herr, runEvents, hrun,
          ih _ _ k (by omega) (by omega)]
        rfl
      · rw [if_neg (by rw [herr]; decide), if_neg (by rw [herr]; decide), if_pos herr, runEvents,
          hrun]
        exact (if_neg hne).symm

theorem toUBytes_length (isCESU8 : Bool) (cnv : ToConverter) (source : List UInt8)
    (targetLimit : Nat) : (toUnicodeUTF8 isCESU8 cnv source targetLimit).cnv.toUBytes.length =
      cnv.toUBytes.length := by
  have hput : ∀ l : ToLocals, (l.putChar isCESU8 targetLimit).2.cnv.toUBytes = l.cnv.toUBytes := by
    intro l
    rw [ToLocals.putChar]
    dsimp only
    split_ifs <;> rfl
  have hstep : ∀ {s s' : ToLabel × ToLocals}, ToLocals.step isCESU8 targetLimit s = some s' →
      s.2.cnv.toUBytes.length = cnv.toUBytes.length →
      s'.2.cnv.toUBytes.length = cnv.toUBytes.length := by
    rintro ⟨label, l⟩ s' hs hl
    cases label with
    | loop =>
      rw [← Option.some.inj hs, ToLocals.loop]
      split
      · exact hl
      dsimp only
      split_ifs <;> simpa using hl
    | morebytes =>
      rw [← Option.some.inj hs, ToLocals.morebytes]
      split
      · split
        · dsimp only
          split
          · rw [hput]
            simpa using hl
          · simpa using hl
        · exact hl
      · rwa [hput]
    | donefornow => cases hs
  have hstart : (ToLocals.start targetLimit cnv source).2.cnv.toUBytes.length =
      cnv.toUBytes.length := by
    rw [ToLocals.start]
    split <;> rfl
  have hexec := Program.exec_invariant (ToLocals.step isCESU8 targetLimit) hstep (toFuel source)
    hstart
  rw [toUnicodeUTF8, ToLocals.result, ToLocals.finish]
  split <;> exact hexec

theorem toUnicodeUTF8_outcome {cnv : ToConverter} {source : List UInt8} {targetLimit : Nat}
    (hv : cnv.Valid) (hempty : cnv.toULength = 0) (hroom : 2 * source.length < targetLimit) :
    let r := toUnicodeUTF8 false cnv source targetLimit
    run (decodeByte false unitsOf) [] source =
        ⟨r.reply.output, r.cnv.rep, if r.err = .illegalCharFound then some r.source else none⟩ ∧
      r.cnv.rep.length = r.cnv.toULength ∧
      (r.err = .illegalCharFound → r.cnv.toUnicodeStatus = 0) := by
  have hrep := ToConverter.rep_of_zero hempty
  have ha : cnv.Admits source targetLimit := fun hz => absurd (hrep.symm.trans hz) (by decide)
  have hkeeps := @toUnicodeUTF8_keeps false _ _ _ hv ha
  have hrun := hkeeps.outcome (toUnicodeUTF8_all hv ha hroom)
  rw [hrep] at hrun
  refine ⟨?_, ?_, ?_⟩
  · rw [hrun]
    simp only [ToResult.reply, decide_eq_true_eq]
  · cases hf : (toUnicodeUTF8 false cnv source targetLimit).reply.failed with
    | true => exact (hkeeps.fails hf).1
    | false => exact (hkeeps.proceeds hf).1.length
  · intro herr
    by_cases hstay : targetLimit = 0 ∨ cnv.toUnicodeStatus = 0 ∧ source = []
    · rw [toUnicodeUTF8_unchanged hstay]
      rw [hv.status, hrep]
      rfl
    · obtain ⟨l, hl, hended⟩ := @toUnicodeUTF8_ended false _ _ _ hv ha hstay
      rw [hl] at herr ⊢
      exact hended.cleared herr

theorem codePoints_flatMap_unitsOf {cps : List UInt32} (h : ∀ ch ∈ cps, IsScalar ch.toNat) :
    codePoints (cps.flatMap unitsOf) = cps.map UInt32.toNat := by
  have hunits : cps.flatMap unitsOf = utf16 (cps.map UInt32.toNat) := by
    rw [utf16, List.flatMap_map]
    exact List.flatMap_congr fun ch hch => unitsOf_eq (h ch hch)
  rw [hunits, codePoints_utf16]
  intro c hc
  obtain ⟨ch, hch, rfl⟩ := List.mem_map.mp hc
  exact h ch hch

theorem run_stopped_state : ∀ (source p rest : List UInt8),
    (run (decodeByte false codeOf) p source).stopped = some rest →
    (run (decodeByte false codeOf) p source).state ≠ [] := by
  have hextend : ∀ {q q' : List UInt8}, q ≠ [] → extend false codeOf q = .reject q' →
      q' ≠ [] := by
    intro q q' hne hmove
    rw [extend, conclude] at hmove
    split_ifs at hmove
    cases hmove
    exact hne
  intro source
  induction source with
  | nil => exact fun _ _ h => by cases h
  | cons b source ih =>
    intro p rest h
    rw [run_cons] at h ⊢
    cases hmove : decodeByte false codeOf p b with
    | go q out =>
      rw [hmove] at h
      exact ih q rest h
    | reject q =>
      rw [decodeByte] at hmove
      split_ifs at hmove
      · exact hextend (by simp) hmove
      · exact hextend (by simp) hmove
    | refuse q =>
      rw [decodeByte, extend, extend, conclude, conclude] at hmove
      split_ifs at hmove with hnil
      cases hmove
      exact hnil

theorem bufferEvents_eq {targetLimit : Nat} :
    ∀ (fuel : Nat) (cnv : ToConverter) (source : List UInt8), cnv.Valid → cnv.toULength = 0 →
      2 * source.length < targetLimit → source.length < fuel →
      bufferEvents targetLimit fuel cnv source = runEvents fuel source := by
  intro fuel
  induction fuel with
  | zero => exact fun _ _ _ _ _ h => absurd h (Nat.not_lt_zero _)
  | succ fuel ih =>
    intro cnv source hv hempty hroom hfuel
    obtain ⟨hrun, hlength, hstatus⟩ := toUnicodeUTF8_outcome hv hempty hroom
    have hsize := (toUBytes_length false cnv source targetLimit).trans hv.size
    obtain ⟨hbytes, hscalar, -⟩ := run_codes (s := source) (Or.inl rfl)
    have hne := run_stopped_state source []
    rw [run_flatMap (@decodeByte_flatMap _ false unitsOf)] at hrun
    rw [bufferEvents, runEvents]
    generalize toUnicodeUTF8 false cnv source targetLimit = r at hrun hlength hstatus hsize ⊢
    generalize run (decodeByte false codeOf) [] source = o at hrun hbytes hscalar hne ⊢
    obtain ⟨output, state, stopped⟩ := o
    rw [Outcome.mk.injEq] at hrun
    obtain ⟨hout, rfl, rfl⟩ := hrun
    dsimp only at hout hbytes hscalar hne ⊢
    rw [← hout, codePoints_flatMap_unitsOf hscalar, List.map_map]
    by_cases herr : r.err = .illegalCharFound
    · rw [if_pos herr] at hbytes
      rw [if_pos herr] at hne
      have hshort := congrArg List.length hbytes
      have hpos := List.length_pos_of_ne_nil (hne r.source rfl)
      simp only [List.nil_append, List.length_append, Option.getD_some] at hshort
      have hv' : ToConverter.Valid { r.cnv with toULength := 0 } :=
        .of_zero rfl hsize (hstatus herr)
      rw [if_pos herr, if_pos herr, ih _ r.source hv' rfl (by omega) (by omega)]
      rfl
    · have hnil : r.cnv.toULength ≠ 0 ↔ ¬ r.cnv.rep = [] := by
        rw [← hlength, ne_eq, List.length_eq_zero_iff]
      rw [if_neg herr, if_neg herr]
      simp only [hnil, ite_not]
      rfl

theorem getNextUChar_agrees {source : List UInt8} {targetLimit : Nat}
    (h : 2 * source.length < targetLimit) :
    nextEvents (source.length + 1) .initial source =
      bufferEvents targetLimit (source.length + 1) .initial source := by
  rw [bufferEvents_eq _ _ _ ToConverter.valid_initial rfl h (Nat.lt_succ_self _)]
  exact nextEvents_eq _ _ _ _ (Nat.lt_succ_self _) (Nat.lt_succ_self _)

theorem getNextUChar_agrees_split :
    nextEvents 6 .initial [0x41, 0xe2, 0x28, 0xf0, 0x9f] =
        [.codePoint 0x41, .illegal [0xe2] 3, .codePoint 0x28, .truncated [0xf0, 0x9f]] ∧
      nextEvents 6 .initial [0x41, 0xe2, 0x28, 0xf0, 0x9f] =
        bufferEvents 11 6 .initial [0x41, 0xe2, 0x28, 0xf0, 0x9f] :=
  ⟨by decide, @getNextUChar_agrees [0x41, 0xe2, 0x28, 0xf0, 0x9f] 11 (by decide)⟩

end Icu.UcnvU8
