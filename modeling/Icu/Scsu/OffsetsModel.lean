import Icu.Scsu.Jumps

/-! # The SCSU converter with offsets

`_SCSUToUnicodeWithOffsets`, a copy of `_SCSUToUnicode` that also writes for each unit the index
of the byte with which its sequence begins.
-/

namespace Icu.Scsu

open Lib
open ToLocals (isUnicodeLead)

structure OffsetLocals extends ToLocals where
  offsets : List Int
  sourceIndex : Int
  nextSourceIndex : Int
  deriving DecidableEq

namespace OffsetLocals

/-- A change of the locals that both functions have. -/
def on (l : OffsetLocals) (f : ToLocals → ToLocals) :
    OffsetLocals := { l with toToLocals := f l.toToLocals }

/-- `b=*source++; ++nextSourceIndex;` -/
def read (l : OffsetLocals) (source : List UInt8) : OffsetLocals :=
  { l with source, nextSourceIndex := l.nextSourceIndex + 1 }

/-- `sourceIndex=nextSourceIndex;` -/
def endSequence (l : OffsetLocals) : OffsetLocals := { l with sourceIndex := l.nextSourceIndex }

/-- `*offsets++=sourceIndex;` -/
def putOffset (l : OffsetLocals) :
    OffsetLocals := { l with offsets := l.offsets ++ [l.sourceIndex] }

/-- `*target++=(UChar)c; *offsets++=sourceIndex;` -/
def put (l : OffsetLocals) (c : Nat) : OffsetLocals := (l.on (·.put c)).putOffset

def putCodePoint (targetLimit : Nat) (l : OffsetLocals) (c : Nat) : OffsetLocals × Bool :=
  if c ≤ 0xffff then (l.put c, true)
  else
    -- output surrogate pair
    let l := l.on (·.put (0xd7c0 + (c >>> 10)))
    if l.target.length < targetLimit then
      ((l.on (·.put (0xdc00 ||| (c &&& 0x3ff)))).putOffset.putOffset, true)
    else
      -- target overflow
      ({ l.putOffset with uCharErrorBuffer := [UInt16.ofNat (0xdc00 ||| (c &&& 0x3ff))],
                          err := .bufferOverflowError }, false)

/-- One round of the fast path for single-byte mode. -/
def fastSingle (targetLimit : Nat) (l : OffsetLocals) : ToLabel × OffsetLocals :=
  match l.source with
  | [] => (.singleByteMode, l)
  | b :: source =>
    if l.target.length < targetLimit ∧ b.toNat ≥ 0x20 then
      let l := l.read source
      if b.toNat ≤ 0x7f then (.fastSingle, (l.put b.toNat).endSequence)
      else
        let c := l.cnv.toUDynamicOffsets.get l.cnv.toUDynamicWindow + (b.toNat &&& 0x7f)
        let (l, go) := l.putCodePoint targetLimit c
        if go then (.fastSingle, l.endSequence) else (.endloop, l)
    else (.singleByteMode, l)

/-- `case readCommand` in single-byte mode. -/
def singleCommand (l : OffsetLocals) (byte : UInt8) : ToLabel × OffsetLocals :=
  let b := byte.toNat
  if isDirectControl b then (.fastSingle, (l.put b).endSequence)
  else if sc0 ≤ b then
    if b ≤ sc7 then (.fastSingle, (l.on (·.setWindow (windowOf b sc0))).endSequence)
    else
      (.singleByteMode,
        l.on fun l => ((l.setWindow (windowOf b sd0)).setState .defineOne).storeFirst byte)
  else if b ≤ sq7 then
    (.singleByteMode, l.on fun l =>
      ({ l with cnv := { l.cnv with toUQuoteWindow := windowOf b sq0 } }.setState
        .quoteOne).storeFirst
        byte)
  else if b = sdx then (.singleByteMode, l.on fun l => (l.setState .definePairOne).storeFirst byte)
  else if b = squ then (.singleByteMode, l.on fun l => (l.setState .quotePairOne).storeFirst byte)
  else if b = scu then (.fastUnicode, l.endSequence.on (·.setMode false))
  else -- Srs
    (.endloop, l.on fun l => { l with err := .illegalCharFound }.storeFirst byte)

/-- `case defineOne` -/
def defineOne (l : OffsetLocals) (byte : UInt8) : ToLabel × OffsetLocals :=
  let b := byte.toNat
  if b = 0 then
    -- callback(illegal): Reserved window offset value 0
    (.endloop, l.on (·.storeSecond byte))
  else if b < gapThreshold then
    (.fastSingle, (l.on (·.setOffset (b <<< 7))).endSequence.on (·.setState .readCommand))
  else if b < reservedStart then
    (.fastSingle, (l.on (·.setOffset ((b <<< 7) + gapOffset))).endSequence.on
      (·.setState .readCommand))
  else if b ≥ fixedThreshold then
    (.fastSingle, (l.on (·.setOffset (fixedOffsets.getD (b - fixedThreshold) 0))).endSequence.on
      (·.setState .readCommand))
  else
    -- callback(illegal): Reserved window offset value 0xa8..0xf8
    (.endloop, l.on (·.storeSecond byte))

/-- `case quoteOne` -/
def quoteOne (targetLimit : Nat) (l : OffsetLocals) (byte : UInt8) : ToLabel × OffsetLocals :=
  let b := byte.toNat
  if b < 0x80 then
    (.fastSingle,
      (l.put (staticOffsets.get l.cnv.toUQuoteWindow + b)).endSequence.on (·.setState .readCommand))
  else
    let c := l.cnv.toUDynamicOffsets.get l.cnv.toUQuoteWindow + (b &&& 0x7f)
    let (l, go) := l.putCodePoint targetLimit c
    if go then (.fastSingle, l.endSequence.on (·.setState .readCommand)) else (.endloop, l)

/-- The head and the body of the loop for single-byte mode. -/
def singleByteMode (targetLimit : Nat) (l : OffsetLocals) : ToLabel × OffsetLocals :=
  match l.source with
  | [] => (.endloop, l)
  | byte :: source =>
    if l.target.length ≥ targetLimit then
      (.endloop, l.on ({ · with err := .bufferOverflowError })) -- target is full
    else
      let l := l.read source
      let b := byte.toNat
      match l.cnv.toUState with
      | .readCommand => l.singleCommand byte
      | .quotePairOne =>
        (.singleByteMode, l.on fun l =>
          ((l.setByteOne b).storeSecond byte).setState .quotePairTwo)
      | .quotePairTwo =>
        (.fastSingle,
          (l.put (l.cnv.toUByteOne <<< 8 ||| b)).endSequence.on (·.setState .readCommand))
      | .quoteOne => l.quoteOne targetLimit byte
      | .definePairOne =>
        (.singleByteMode, l.on fun l => (((l.setWindow (Fin.ofNat 8 (b >>> 5 &&& 7))).setByteOne
          (b &&& 0x1f)).storeSecond byte).setState .definePairTwo)
      | .definePairTwo =>
        (.fastSingle, (l.on fun l =>
          l.setOffset (0x10000 + (l.cnv.toUByteOne <<< 15 ||| b <<< 7))).endSequence.on
            (·.setState .readCommand))
      | .defineOne => l.defineOne byte

def fastUnicode (targetLimit : Nat) (l : OffsetLocals) : ToLabel × OffsetLocals :=
  match l.source with
  | b :: b2 :: source =>
    if l.target.length < targetLimit ∧ isUnicodeLead b then
      let l := (l.put (b.toNat <<< 8 ||| b2.toNat)).endSequence
      -- The sequence is counted after its end has been taken.
      (.fastUnicode, { l with nextSourceIndex := l.nextSourceIndex + 2, source })
    else (.unicodeByteMode, l)
  | _ => (.unicodeByteMode, l)

/-- `case readCommand` in Unicode mode. -/
def unicodeCommand (l : OffsetLocals) (byte : UInt8) : ToLabel × OffsetLocals :=
  let b := byte.toNat
  if isUnicodeLead byte then
    (.unicodeByteMode, l.on fun l => ((l.setByteOne b).storeFirst byte).setState .quotePairTwo)
  else if b ≤ uc7 then
    (.fastSingle, (l.on (·.setWindow (windowOf b uc0))).endSequence.on (·.setMode true))
  else if b ≤ ud7 then
    (.singleByteMode, l.on fun l =>
      (((l.setWindow (windowOf b ud0)).setMode true).storeFirst byte).setState .defineOne)
  else if b = udx then
    (.singleByteMode, l.on fun l => ((l.setMode true).storeFirst byte).setState .definePairOne)
  else if b = uqu then (.unicodeByteMode, l.on fun l => (l.storeFirst byte).setState .quotePairOne)
  else -- Urs
    (.endloop, l.on fun l => { l with err := .illegalCharFound }.storeFirst byte)

/-- The head and the body of the loop for Unicode mode. -/
def unicodeByteMode (targetLimit : Nat) (l : OffsetLocals) : ToLabel × OffsetLocals :=
  match l.source with
  | [] => (.endloop, l)
  | byte :: source =>
    if l.target.length ≥ targetLimit then
      (.endloop, l.on ({ · with err := .bufferOverflowError })) -- target is full
    else
      let l := l.read source
      let b := byte.toNat
      match l.cnv.toUState with
      | .readCommand => l.unicodeCommand byte
      | .quotePairOne =>
        (.unicodeByteMode, l.on fun l =>
          ((l.setByteOne b).storeSecond byte).setState .quotePairTwo)
      | .quotePairTwo =>
        (.fastUnicode,
          (l.put (l.cnv.toUByteOne <<< 8 ||| b)).endSequence.on (·.setState .readCommand))
      | _ => (.unicodeByteMode, l)

/-- One jump of `_SCSUToUnicodeWithOffsets`. -/
def step (targetLimit : Nat) : ToLabel × OffsetLocals → Option (ToLabel × OffsetLocals)
  | (.fastSingle, l) => some (l.fastSingle targetLimit)
  | (.singleByteMode, l) => some (l.singleByteMode targetLimit)
  | (.fastUnicode, l) => some (l.fastUnicode targetLimit)
  | (.unicodeByteMode, l) => some (l.unicodeByteMode targetLimit)
  | (.endloop, _) => none

end OffsetLocals

/-- The locals where the conversion begins. The index of the source is -1 if the current character
began in the previous buffer. -/
def Decoder.offsetStart (cnv : Decoder) (source : List UInt8) : OffsetLocals :=
  ⟨⟨cnv, source, [], [], .zeroError⟩, [], if cnv.toUState = .readCommand then 0 else -1, 0⟩

/-- `_SCSUToUnicodeWithOffsets(pArgs, pErrorCode)`: the locals at the end. -/
def toUnicodeOffsetLocals (cnv : Decoder) (source : List UInt8) (targetLimit : Nat) :
    OffsetLocals :=
  (Program.exec (OffsetLocals.step targetLimit) (2 * source.length + 3)
    (cnv.label, cnv.offsetStart source)).2

/-! ## Both functions

The offsets follow from what the function without them does.
-/

namespace OffsetLocals

/-- The index of the next sequence, as far as it is known. The fast path for Unicode mode takes
the end of the sequence before the one that it has read. -/
def nextIndex (label : ToLabel) (l : OffsetLocals) (p : ToLabel × ToLocals) : Int :=
  if p.2.source.length = l.source.length ∨ p.1 = .endloop ∨ p.2.cnv.toUState ≠ .readCommand then
    l.sourceIndex
  else if label = .fastUnicode then l.nextSourceIndex
  else l.nextSourceIndex + 1

/-- A jump without offsets, with the offsets. -/
def track (label : ToLabel) (l : OffsetLocals) (p : ToLabel × ToLocals) : ToLabel × OffsetLocals :=
  (p.1, ⟨p.2, l.offsets ++ List.replicate (p.2.target.length - l.target.length) l.sourceIndex,
    nextIndex label l p, l.nextSourceIndex + (l.source.length - p.2.source.length : Nat)⟩)

section Track

variable {targetLimit : Nat} {label label' : ToLabel} {l : OffsetLocals} {b : UInt8}
  {bs : List UInt8} {cnv : Decoder}

theorem track_idle (label' : ToLabel) : (label', l) = track label l (label', l.toToLocals) := by
  rw [track, nextIndex, if_pos (Or.inl rfl), Nat.sub_self, Nat.sub_self, List.replicate_zero,
    List.append_nil, Int.natCast_zero, Int.add_zero]

theorem track_stop (err : UErrorCode) :
    (.endloop, l.on ({ · with err })) = track label l (.endloop, { l.toToLocals with err }) := by
  rw [track, nextIndex, if_pos (Or.inl rfl), Nat.sub_self, Nat.sub_self, List.replicate_zero,
    List.append_nil, Int.natCast_zero, Int.add_zero]
  rfl

/-- One byte that is not the last one of its sequence. -/
theorem track_byte {locals : ToLocals} (hsource : l.source = b :: bs) (hrest : locals.source = bs)
    (hpending : label' = .endloop ∨ locals.cnv.toUState ≠ .readCommand) :
    (label', ⟨locals, l.offsets ++ List.replicate (locals.target.length - l.target.length)
      l.sourceIndex,
      l.sourceIndex, l.nextSourceIndex + 1⟩) = track label l (label', locals) := by
  rw [track, nextIndex, if_pos (Or.inr hpending)]
  rw [hsource, hrest, List.length_cons, Nat.add_sub_cancel_left]
  rfl

theorem track_last {locals : ToLocals} (hlabel : label ≠ .fastUnicode) (hlabel' : label' ≠ .endloop)
    (hsource : l.source = b :: bs) (hrest : locals.source = bs)
    (hstate : locals.cnv.toUState = .readCommand) :
    (label', ⟨locals, l.offsets ++ List.replicate (locals.target.length - l.target.length)
      l.sourceIndex,
      l.nextSourceIndex + 1, l.nextSourceIndex + 1⟩) = track label l (label', locals) := by
  have hread : ¬ (locals.source.length = l.source.length ∨ label' = .endloop ∨
      locals.cnv.toUState ≠ .readCommand) := by
    rw [hsource, hrest, List.length_cons, hstate]
    rintro (h | h | h)
    · omega
    · exact hlabel' h
    · exact h rfl
  rw [track, nextIndex, if_neg hread, if_neg hlabel]
  rw [hsource, hrest, List.length_cons, Nat.add_sub_cancel_left]
  rfl

theorem track_pair {locals : ToLocals} {b2 : UInt8} (hsource : l.source = b :: b2 :: bs)
    (hrest : locals.source = bs) (hstate : locals.cnv.toUState = .readCommand) : (.fastUnicode,
      ⟨locals, l.offsets ++ List.replicate (locals.target.length - l.target.length) l.sourceIndex,
        l.nextSourceIndex, l.nextSourceIndex + 2⟩) =
        track .fastUnicode l (.fastUnicode, locals) := by
  have hread : ¬ (locals.source.length = l.source.length ∨ ToLabel.fastUnicode = .endloop ∨
      locals.cnv.toUState ≠ .readCommand) := by
    rw [hsource, hrest, List.length_cons, List.length_cons, hstate]
    rintro (h | h | h)
    · omega
    · cases h
    · exact h rfl
  rw [track, nextIndex, if_neg hread, if_pos rfl]
  rw [hsource, hrest, List.length_cons, List.length_cons, Nat.add_assoc, Nat.add_sub_cancel_left]
  rfl

theorem offsets_none {target : List UInt16} (htarget : target = l.target) :
    l.offsets ++ List.replicate (target.length - l.target.length) l.sourceIndex = l.offsets := by
  rw [htarget, Nat.sub_self, List.replicate_zero, List.append_nil]

theorem offsets_one {target : List UInt16} {u : UInt16} (htarget : target = l.target ++ [u]) :
    l.offsets ++ List.replicate (target.length - l.target.length) l.sourceIndex =
      l.offsets ++ [l.sourceIndex] := by
  rw [htarget, List.length_append, List.length_singleton, Nat.add_sub_cancel_left,
    List.replicate_one]

theorem offsets_two {target : List UInt16} {u u' : UInt16}
    (htarget : target = l.target ++ [u] ++ [u']) :
    l.offsets ++ List.replicate (target.length - l.target.length) l.sourceIndex =
      l.offsets ++ [l.sourceIndex] ++ [l.sourceIndex] := by
  rw [htarget, List.append_assoc, List.length_append, Nat.add_sub_cancel_left, List.append_assoc]
  rfl

/-- A byte of a command that is not its last one. -/
theorem track_pending {f : ToLocals → ToLocals} (hsource : l.source = b :: bs)
    (hrest : (f { l.toToLocals with source := bs }).source = bs)
    (htarget : (f { l.toToLocals with source := bs }).target = l.target)
    (hpending : label' = .endloop ∨ (f { l.toToLocals with source := bs }).cnv.toUState ≠
      .readCommand) :
    (label', (l.read bs).on f) = track label l (label', f { l.toToLocals with source := bs }) := by
  rw [← track_byte hsource hrest hpending, offsets_none htarget]
  rfl

theorem track_command {locals : ToLocals} (hlabel : label ≠ .fastUnicode)
    (hlabel' : label' ≠ .endloop)
    (hsource : l.source = b :: bs) (hrest : locals.source = bs) (htarget : locals.target = l.target)
    (hstate : locals.cnv.toUState = .readCommand) :
    (label', ⟨locals, l.offsets, l.nextSourceIndex + 1, l.nextSourceIndex + 1⟩) =
      track label l (label', locals) := by
  rw [← track_last hlabel hlabel' hsource hrest hstate, offsets_none htarget]

theorem track_unit {locals : ToLocals} {u : UInt16} (hlabel : label ≠ .fastUnicode)
    (hlabel' : label' ≠ .endloop) (hsource : l.source = b :: bs) (hrest : locals.source = bs)
    (htarget : locals.target = l.target ++ [u]) (hstate : locals.cnv.toUState = .readCommand) :
    (label', ⟨locals, l.offsets ++ [l.sourceIndex], l.nextSourceIndex + 1, l.nextSourceIndex + 1⟩) =
      track label l (label', locals) := by
  rw [← track_last hlabel hlabel' hsource hrest hstate, offsets_one htarget]

theorem putCodePoint_track (c : Nat) : l.putCodePoint targetLimit c =
      (⟨(l.toToLocals.putCodePoint targetLimit c).1,
        l.offsets ++ List.replicate
          ((l.toToLocals.putCodePoint targetLimit c).1.target.length - l.target.length)
            l.sourceIndex,
        l.sourceIndex, l.nextSourceIndex⟩, (l.toToLocals.putCodePoint targetLimit c).2) := by
  rw [putCodePoint, ToLocals.putCodePoint]
  split
  · dsimp only [ToLocals.put]
    rw [@offsets_one l _ _ rfl]
    rfl
  dsimp only [on]
  split
  · dsimp only [ToLocals.put]
    rw [@offsets_two l _ _ _ rfl]
    rfl
  · dsimp only [ToLocals.put]
    rw [@offsets_one l _ _ rfl]
    rfl

theorem putCodePoint_jump {c : Nat} {g : ToLocals → ToLocals} (hlabel : label ≠ .fastUnicode)
    (hlabel' : label' ≠ .endloop) (hsource : l.source = b :: bs)
    (hg : ∀ m, (g m).source = m.source ∧ (g m).target = m.target)
    (hstate : ∀ m, m.cnv = l.cnv → (g m).cnv.toUState = .readCommand) :
    (if ((l.read bs).putCodePoint targetLimit c).2 then
        (label', ((l.read bs).putCodePoint targetLimit c).1.endSequence.on g)
      else (.endloop, ((l.read bs).putCodePoint targetLimit c).1)) =
    track label l
      (if ((l.read bs).toToLocals.putCodePoint targetLimit c).2 then
        (label', g ((l.read bs).toToLocals.putCodePoint targetLimit c).1)
      else (.endloop, ((l.read bs).toToLocals.putCodePoint targetLimit c).1)) := by
  have hrest := @putCodePoint_source targetLimit (l.read bs).toToLocals c
  have hcnv : ((l.read bs).toToLocals.putCodePoint targetLimit c).1.cnv = l.cnv := by
    rw [ToLocals.putCodePoint]
    dsimp only
    split
    · rfl
    · split <;> rfl
  have hkeeps := hg ((l.read bs).toToLocals.putCodePoint targetLimit c).1
  rw [putCodePoint_track]
  by_cases hgo : ((l.read bs).toToLocals.putCodePoint targetLimit c).2 = true
  · rw [if_pos hgo, if_pos hgo,
      ← track_last hlabel hlabel' hsource (hkeeps.1.trans hrest) (hstate _ hcnv), hkeeps.2]
    rfl
  · rw [if_neg hgo, if_neg hgo]
    exact track_byte hsource hrest (Or.inl rfl)

theorem fastSingle_track (hstate : l.cnv.toUState = .readCommand) :
    l.fastSingle targetLimit = track .fastSingle l (l.toToLocals.fastSingle targetLimit) := by
  have hlabel : ToLabel.fastSingle ≠ .fastUnicode := by decide
  have hlabel' : ToLabel.fastSingle ≠ .endloop := by decide
  rw [fastSingle, ToLocals.fastSingle]
  cases hsource : l.source with
  | nil => exact track_idle _
  | cons b source =>
    dsimp only
    split
    · split
      · exact track_unit hlabel hlabel' hsource rfl rfl hstate
      exact putCodePoint_jump (g := id) hlabel hlabel' hsource (fun _ => ⟨rfl, rfl⟩)
        fun m hm => hm ▸ hstate
    · exact track_idle _

theorem singleCommand_track (hsource : l.source = b :: bs)
    (hstate : l.cnv.toUState = .readCommand) :
    (l.read bs).singleCommand b =
      track .singleByteMode l ({ l.toToLocals with source := bs }.singleCommand b) := by
  have hlabel : ToLabel.singleByteMode ≠ .fastUnicode := by decide
  rw [singleCommand, ToLocals.singleCommand]
  split
  · exact track_unit hlabel (by decide) hsource rfl rfl hstate
  split
  · split
    · exact track_command hlabel (by decide) hsource rfl rfl hstate
    · exact track_pending hsource rfl rfl (Or.inr (by rintro ⟨⟩))
  split
  · exact track_pending hsource rfl rfl (Or.inr (by rintro ⟨⟩))
  split
  · exact track_pending hsource rfl rfl (Or.inr (by rintro ⟨⟩))
  split
  · exact track_pending hsource rfl rfl (Or.inr (by rintro ⟨⟩))
  split
  · exact track_command hlabel (by decide) hsource rfl rfl hstate
  · exact track_pending hsource rfl rfl (Or.inl rfl)

theorem defineOne_track (hsource : l.source = b :: bs) : (l.read bs).defineOne b =
      track .singleByteMode l ({ l.toToLocals with source := bs }.defineOne b) := by
  have hlabel : ToLabel.singleByteMode ≠ .fastUnicode := by decide
  have hlabel' : ToLabel.fastSingle ≠ .endloop := by decide
  rw [defineOne, ToLocals.defineOne]
  split
  · exact track_pending hsource rfl rfl (Or.inl rfl)
  split
  · exact track_command hlabel hlabel' hsource rfl rfl rfl
  split
  · exact track_command hlabel hlabel' hsource rfl rfl rfl
  split
  · exact track_command hlabel hlabel' hsource rfl rfl rfl
  · exact track_pending hsource rfl rfl (Or.inl rfl)

theorem quoteOne_track (hsource : l.source = b :: bs) : (l.read bs).quoteOne targetLimit b =
      track .singleByteMode l ({ l.toToLocals with source := bs }.quoteOne targetLimit b) := by
  have hlabel : ToLabel.singleByteMode ≠ .fastUnicode := by decide
  have hlabel' : ToLabel.fastSingle ≠ .endloop := by decide
  rw [quoteOne, ToLocals.quoteOne]
  split
  · exact track_unit hlabel hlabel' hsource rfl rfl rfl
  · exact putCodePoint_jump hlabel hlabel' hsource (fun _ => ⟨rfl, rfl⟩) fun _ _ => rfl

theorem singleByteMode_track :
    l.singleByteMode targetLimit =
      track .singleByteMode l (l.toToLocals.singleByteMode targetLimit) := by
  have hlabel : ToLabel.singleByteMode ≠ .fastUnicode := by decide
  rw [singleByteMode, ToLocals.singleByteMode]
  cases hsource : l.source with
  | nil => exact track_idle _
  | cons b source =>
  dsimp only
  split
  · rw [← hsource]
    exact track_stop _
  dsimp only [read]
  cases hstate : l.cnv.toUState with
  | readCommand => exact singleCommand_track hsource hstate
  | quotePairOne =>
    exact track_pending (f := fun l => ((l.setByteOne b.toNat).storeSecond b).setState
      .quotePairTwo)
      hsource rfl rfl (Or.inr (by rintro ⟨⟩))
  | quotePairTwo => exact track_unit hlabel (by decide) hsource rfl rfl rfl
  | quoteOne => exact quoteOne_track hsource
  | definePairOne =>
    exact track_pending (f := fun l =>
      (((l.setWindow (Fin.ofNat 8 (b.toNat >>> 5 &&& 7))).setByteOne
      (b.toNat &&& 0x1f)).storeSecond b).setState .definePairTwo) hsource rfl rfl
        (Or.inr (by rintro ⟨⟩))
  | definePairTwo => exact track_command hlabel (by decide) hsource rfl rfl rfl
  | defineOne => exact defineOne_track hsource

theorem fastUnicode_track (hstate : l.cnv.toUState = .readCommand) :
    l.fastUnicode targetLimit = track .fastUnicode l (l.toToLocals.fastUnicode targetLimit) := by
  rw [fastUnicode, ToLocals.fastUnicode]
  rcases hsource : l.source with _ | ⟨b, _ | ⟨b2, source⟩⟩
  · exact track_idle _
  · exact track_idle _
  · dsimp only
    split
    · refine Eq.trans ?_ (track_pair hsource rfl hstate)
      dsimp only [ToLocals.put]
      rw [@offsets_one l _ _ rfl]
      rfl
    · exact track_idle _

theorem unicodeCommand_track (hsource : l.source = b :: bs)
    (hstate : l.cnv.toUState = .readCommand) :
    (l.read bs).unicodeCommand b =
      track .unicodeByteMode l ({ l.toToLocals with source := bs }.unicodeCommand b) := by
  have hlabel : ToLabel.unicodeByteMode ≠ .fastUnicode := by decide
  rw [unicodeCommand, ToLocals.unicodeCommand]
  split
  · exact track_pending hsource rfl rfl (Or.inr (by rintro ⟨⟩))
  split
  · exact track_command hlabel (by decide) hsource rfl rfl hstate
  split
  · exact track_pending hsource rfl rfl (Or.inr (by rintro ⟨⟩))
  split
  · exact track_pending hsource rfl rfl (Or.inr (by rintro ⟨⟩))
  split
  · exact track_pending hsource rfl rfl (Or.inr (by rintro ⟨⟩))
  · exact track_pending hsource rfl rfl (Or.inl rfl)

theorem unicodeByteMode_track : l.unicodeByteMode targetLimit =
      track .unicodeByteMode l (l.toToLocals.unicodeByteMode targetLimit) := by
  have hlabel : ToLabel.unicodeByteMode ≠ .fastUnicode := by decide
  rw [unicodeByteMode, ToLocals.unicodeByteMode]
  cases hsource : l.source with
  | nil => exact track_idle _
  | cons b source =>
  dsimp only
  split
  · rw [← hsource]
    exact track_stop _
  dsimp only [read]
  cases hstate : l.cnv.toUState with
  | readCommand => exact unicodeCommand_track hsource hstate
  | quotePairOne =>
    exact track_pending (f := fun l => ((l.setByteOne b.toNat).storeSecond b).setState
      .quotePairTwo)
      hsource rfl rfl (Or.inr (by rintro ⟨⟩))
  | quotePairTwo => exact track_unit hlabel (by decide) hsource rfl rfl rfl
  | quoteOne => exact track_pending (f := id) hsource rfl rfl (Or.inr (by rw [id, hstate]; decide))
  | definePairOne =>
    exact track_pending (f := id) hsource rfl rfl (Or.inr (by rw [id, hstate]; decide))
  | definePairTwo =>
    exact track_pending (f := id) hsource rfl rfl (Or.inr (by rw [id, hstate]; decide))
  | defineOne => exact track_pending (f := id) hsource rfl rfl (Or.inr (by rw [id, hstate]; decide))

theorem step_track (hat : AtLabel targetLimit (label, l.toToLocals)) : step targetLimit (label, l) =
      (ToLocals.step targetLimit (label, l.toToLocals)).map (track label l) := by
  cases label with
  | fastSingle => exact congrArg some (fastSingle_track hat.2)
  | singleByteMode => exact congrArg some singleByteMode_track
  | fastUnicode => exact congrArg some (fastUnicode_track hat.2)
  | unicodeByteMode => exact congrArg some unicodeByteMode_track
  | endloop => rfl

def locals (p : ToLabel × OffsetLocals) : ToLabel × ToLocals := (p.1, p.2.toToLocals)

variable {p : ToLabel × OffsetLocals}

theorem locals_step (hat : AtLabel targetLimit (locals p)) :
    ToLocals.step targetLimit (locals p) = (step targetLimit p).map locals := by
  obtain ⟨label, l⟩ := p
  rw [step_track hat, Option.map_map, show locals ∘ track label l = id from rfl, Option.map_id, id]
  rfl

theorem atLabel_step {p' : ToLabel × OffsetLocals} (hstep : step targetLimit p = some p')
    (hat : AtLabel targetLimit (locals p)) : AtLabel targetLimit (locals p') := by
  have hlocals := locals_step hat
  rw [hstep] at hlocals
  exact (toStep_jumps hlocals hat).2

/-- Without the offsets, a run of `_SCSUToUnicodeWithOffsets` is one of `_SCSUToUnicode`. -/
theorem locals_exec (hv : cnv.Valid) (source : List UInt8) (n : Nat) :
    Program.exec (ToLocals.step targetLimit) n (cnv.label, ⟨cnv, source, [], [], .zeroError⟩) =
      locals (Program.exec (step targetLimit) n (cnv.label, cnv.offsetStart source)) :=
  Program.exec_map_invariant (f := locals) (s := (cnv.label, cnv.offsetStart source)) locals_step
    atLabel_step n (atLabel_start hv rfl)

theorem toToLocals_toUnicodeOffsetLocals (hv : cnv.Valid) (source : List UInt8) :
    (toUnicodeOffsetLocals cnv source targetLimit).toToLocals =
    toUnicodeLocals cnv source targetLimit :=
  (congrArg Prod.snd (locals_exec hv source _)).symm

end Track

end OffsetLocals

end Icu.Scsu
