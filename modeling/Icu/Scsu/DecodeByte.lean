import Icu.Scsu.Model

/-! # The SCSU decoder, byte by byte

The decoder reads one byte at a time and writes up to two units for it.
-/

namespace Icu.Scsu

open Utf16 Lib Lib.Transducer

variable {d : Decoder}

/-! ## One byte -/

def decodeSingle (d : Decoder) (byte : UInt8) : Option (Decoder × List UInt16) :=
  let b := byte.toNat
  if b ≥ 0x20 then
    if b ≤ 0x7f then some (d, [UInt16.ofNat b])
    else some (d, unitsOf (d.toUDynamicOffsets.get d.toUDynamicWindow + (b &&& 0x7f)))
  else if isDirectControl b then some (d, [UInt16.ofNat b])
  else if sc0 ≤ b then
    if b ≤ sc7 then some ({ d with toUDynamicWindow := windowOf b sc0 }, [])
    else
      some ({ d with toUDynamicWindow := windowOf b sd0, toUState := .defineOne, toUBytes :=
        [byte] }, [])
  else if b ≤ sq7 then
    some ({ d with toUQuoteWindow := windowOf b sq0, toUState := .quoteOne, toUBytes := [byte] },
      [])
  else if b = sdx then some ({ d with toUState := .definePairOne, toUBytes := [byte] }, [])
  else if b = squ then some ({ d with toUState := .quotePairOne, toUBytes := [byte] }, [])
  else if b = scu then some ({ d with toUIsSingleByteMode := false }, [])
  else none

def decodeUnicode (d : Decoder) (byte : UInt8) : Option (Decoder × List UInt16) :=
  let b := byte.toNat
  if ToLocals.isUnicodeLead byte then
    some ({ d with toUByteOne := b, toUState := .quotePairTwo, toUBytes := [byte] }, [])
  else if b ≤ uc7 then
    some ({ d with toUDynamicWindow := windowOf b uc0, toUIsSingleByteMode := true }, [])
  else if b ≤ ud7 then
    some ({ d with toUDynamicWindow := windowOf b ud0, toUIsSingleByteMode := true,
                   toUState := .defineOne, toUBytes := [byte] }, [])
  else if b = udx then
    some ({ d with toUIsSingleByteMode := true, toUState := .definePairOne, toUBytes := [byte] },
      [])
  else if b = uqu then some ({ d with toUState := .quotePairOne, toUBytes := [byte] }, [])
  else none

def isReserved (b : Nat) : Bool := b = 0 || (reservedStart ≤ b && b < fixedThreshold)

def definedOffset (b : Nat) : Nat :=
  if b < gapThreshold then b <<< 7
  else if b < reservedStart then (b <<< 7) + gapOffset
  else fixedOffsets.getD (b - fixedThreshold) 0

def Decoder.ready (d : Decoder) : Decoder :=
  { d with toUState := .readCommand, toUByteOne := 0, toUBytes := [] }

def Decoder.setOffset (d : Decoder) (offset : Nat) : Decoder :=
  { d with toUDynamicOffsets := setAt d.toUDynamicOffsets d.toUDynamicWindow offset }

def Decoder.bytesWith (d : Decoder) (byte : UInt8) : List UInt8 := d.toUBytes.take 1 ++ [byte]

/-- A reserved window offset value changes nothing but the stored bytes. -/
def decodeByte (d : Decoder) (byte : UInt8) : Option (Decoder × List UInt16) :=
  let b := byte.toNat
  match d.toUState with
  | .readCommand => if d.toUIsSingleByteMode then decodeSingle d byte else decodeUnicode d byte
  | .quotePairOne =>
    some ({ d with toUByteOne := b, toUState := .quotePairTwo, toUBytes := d.bytesWith byte }, [])
  | .quotePairTwo => some (d.ready, [UInt16.ofNat (d.toUByteOne <<< 8 ||| b)])
  | .quoteOne =>
    if b < 0x80 then some (d.ready, [UInt16.ofNat (staticOffsets.get d.toUQuoteWindow + b)])
    else some (d.ready, unitsOf (d.toUDynamicOffsets.get d.toUQuoteWindow + (b &&& 0x7f)))
  | .definePairOne =>
    some ({ d with toUDynamicWindow := Fin.ofNat 8 (b >>> 5 &&& 7), toUByteOne := b &&& 0x1f,
                   toUState := .definePairTwo, toUBytes := d.bytesWith byte }, [])
  | .definePairTwo => some ((d.setOffset (0x10000 + (d.toUByteOne <<< 15 ||| b <<< 7))).ready, [])
  | .defineOne =>
    if isReserved b then some ({ d with toUBytes := d.bytesWith byte }, [])
    else some ((d.setOffset (definedOffset b)).ready, [])

def Decoder.rep (d : Decoder) : Decoder :=
  { d with
    toUByteOne := if d.toUState = .quotePairTwo ∨ d.toUState = .definePairTwo then d.toUByteOne
      else 0
    toUBytes := if d.toUState = .readCommand then [] else d.toUBytes }

/-- In Unicode mode there are no quotes from windows and no definitions. -/
def Decoder.Valid (d : Decoder) : Prop :=
  d.toUIsSingleByteMode = false →
    d.toUState = .readCommand ∨ d.toUState = .quotePairOne ∨ d.toUState = .quotePairTwo

def readsReserved : List UInt8 → Decoder → Bool
  | [], _ => false
  | b :: bs, d =>
    (d.toUState == .defineOne && isReserved b.toNat) ||
      match decodeByte d b with
      | none => false
      | some (d', _) => readsReserved bs d'

/-- There is room for one unit only when a supplementary code point is quoted from a window. -/
def splitsQuote : List UInt8 → Decoder → Nat → Bool
  | [], _, _ => false
  | b :: bs, d, room =>
    room != 0 &&
      match decodeByte d b with
      | none => false
      | some (d', out) =>
        (d.toUState == .quoteOne && room < out.length) || splitsQuote bs d' (room - out.length)

theorem Decoder.rep_of_readCommand (h : d.toUState = .readCommand) :
    d.rep = { d with toUByteOne := 0, toUBytes := [] } := by
  rw [Decoder.rep, if_neg (by rw [h]; decide), if_pos h]

theorem Decoder.rep_of_pair (h : d.toUState = .quotePairTwo ∨ d.toUState = .definePairTwo) :
    d.rep = d := by
  have hne : ¬ d.toUState = .readCommand := by
    rcases h with h | h
    · rw [h]
      decide
    · rw [h]
      decide
  rw [Decoder.rep, if_pos h, if_neg hne]

theorem Decoder.rep_of_pending {s : State} (hs : d.toUState = s)
    (h : s ∉ [.readCommand, .quotePairTwo, .definePairTwo]) :
    d.rep = { d with toUByteOne := 0 } := by
  simp only [List.mem_cons, List.not_mem_nil, or_false, not_or] at h
  rw [Decoder.rep, hs, if_neg (by rw [not_or]; exact h.2), if_neg h.1]

@[simp] theorem Decoder.rep_toUState (d : Decoder) : d.rep.toUState = d.toUState := rfl

@[simp] theorem Decoder.rep_toUIsSingleByteMode (d : Decoder) :
    d.rep.toUIsSingleByteMode = d.toUIsSingleByteMode := rfl

theorem length_unitsOf_le (c : Nat) : (unitsOf c).length ≤ 2 := by
  rw [length_unitsOf, u16Length]
  split <;> omega

def Short (r : Option (Decoder × List UInt16)) : Prop := ∀ d out, r = some (d, out) → out.length ≤ 2

theorem short_none : Short none := fun _ _ h => by cases h

theorem short_some (d : Decoder) {out : List UInt16} (hout : out.length ≤ 2) :
    Short (some (d, out)) := by
  intro d' out' h
  cases h
  exact hout

theorem short_ite {p : Prop} [Decidable p] {r r' : Option (Decoder × List UInt16)} (h : Short r)
    (h' : Short r') : Short (if p then r else r') := by
  split
  · exact h
  · exact h'

theorem short_decodeSingle (d : Decoder) (b : UInt8) : Short (decodeSingle d b) := by
  have hone : ∀ u : UInt16, [u].length ≤ 2 := fun _ => Nat.le_succ 1
  have hnone : ([] : List UInt16).length ≤ 2 := Nat.zero_le 2
  unfold decodeSingle
  refine short_ite (short_ite (short_some _ (hone _)) (short_some _ (length_unitsOf_le _))) ?_
  refine short_ite (short_some _ (hone _)) ?_
  refine short_ite (short_ite (short_some _ hnone) (short_some _ hnone)) ?_
  refine short_ite (short_some _ hnone) (short_ite (short_some _ hnone) ?_)
  exact short_ite (short_some _ hnone) (short_ite (short_some _ hnone) short_none)

theorem short_decodeUnicode (d : Decoder) (b : UInt8) : Short (decodeUnicode d b) := by
  have hnone : ([] : List UInt16).length ≤ 2 := Nat.zero_le 2
  unfold decodeUnicode
  refine short_ite (short_some _ hnone) (short_ite (short_some _ hnone) ?_)
  refine short_ite (short_some _ hnone) (short_ite (short_some _ hnone) ?_)
  exact short_ite (short_some _ hnone) short_none

theorem short_decodeByte (d : Decoder) (b : UInt8) : Short (decodeByte d b) := by
  have hone : ∀ u : UInt16, [u].length ≤ 2 := fun _ => Nat.le_succ 1
  have hnone : ([] : List UInt16).length ≤ 2 := Nat.zero_le 2
  unfold decodeByte
  cases d.toUState with
  | readCommand => exact short_ite (short_decodeSingle d b) (short_decodeUnicode d b)
  | quotePairOne => exact short_some _ hnone
  | quotePairTwo => exact short_some _ (hone _)
  | quoteOne => exact short_ite (short_some _ (hone _)) (short_some _ (length_unitsOf_le _))
  | definePairOne => exact short_some _ hnone
  | definePairTwo => exact short_some _ hnone
  | defineOne => exact short_ite (short_some _ hnone) (short_some _ hnone)

theorem decodeByte_length_le {d : Decoder} {b : UInt8} {r : Decoder × List UInt16}
    (h : decodeByte d b = some r) : r.2.length ≤ 2 := short_decodeByte d b r.1 r.2 h
theorem decodeByte_readSingle (hmode : d.toUIsSingleByteMode = true)
    (hstate : d.toUState = .readCommand) (b : UInt8) :
    decodeByte d.rep b = decodeSingle d.rep b := by
  rw [decodeByte, Decoder.rep_toUState, hstate]
  rw [Decoder.rep_toUIsSingleByteMode, hmode, if_pos rfl]

theorem decodeByte_readUnicode (hmode : d.toUIsSingleByteMode = false)
    (hstate : d.toUState = .readCommand) (b : UInt8) :
    decodeByte d.rep b = decodeUnicode d.rep b := by
  rw [decodeByte, Decoder.rep_toUState, hstate]
  rw [Decoder.rep_toUIsSingleByteMode, hmode, if_neg Bool.false_ne_true]

theorem valid_of_single (h : d.toUIsSingleByteMode = true) : d.Valid := by
  intro hno
  rw [h] at hno
  cases hno
theorem decodeByte_defineOne (h : d.toUState = .defineOne) (b : UInt8) :
    decodeByte d b = if isReserved b.toNat then some ({ d with toUBytes := d.bytesWith b }, [])
      else some ((d.setOffset (definedOffset b.toNat)).ready, []) := by
  obtain ⟨offsets, mode, state, quoteWindow, window, byteOne, bytes⟩ := d
  subst h
  rfl

theorem decodeUnicode_lead {b : UInt8} (hb : ToLocals.isUnicodeLead b = true) : decodeUnicode d b =
      some ({ d with toUByteOne := b.toNat, toUState := .quotePairTwo, toUBytes := [b] }, []) := by
  rw [decodeUnicode, if_pos hb]

end Icu.Scsu
