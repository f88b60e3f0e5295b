import Icu.ErrorCode
import Icu.Utf8.Units
import Icu.Lib.Program
import Icu.Lib.Transducer
import Icu.StrTrans.ToUtf8Model

/-! # The UTF-8 and CESU-8 converters

The conversion functions of `ucnv_u8.c`, each with its variant that also stores offsets. The
labels of a function are explicit, and a step runs from one label to the next. A `source` is
the list of what is left to read, and a `target` is the list of what was written. The overflow
buffers are empty when a function is called.
-/

namespace Icu.UcnvU8

open Utf16 Utf8 Lib

def offsetsFromUTF8 : List UInt32 :=
  [0, 0x00000000, 0x00003080, 0x000E2080, 0x03C82080, 0xFA082080, 0x82082080]

def bytesFromUTF8 : List Nat :=
  List.replicate 0x80 1 ++ List.replicate 0x40 0 ++ List.replicate 0x20 2 ++
    List.replicate 0x10 3 ++ List.replicate 8 4 ++ [5, 5, 5, 5, 6, 6, 0, 0]

/-- Byte sequences of length N must encode code points of or above this. More than 4 bytes are
illegal, which is tested with impossible values for them. -/
def utf8MinChar32 : List UInt32 := [0, 0, 0x80, 0x800, 0x10000, 0xffffffff, 0xffffffff]

/-- The fields of the `UConverter` that the decoder uses. -/
structure ToConverter where
  toUnicodeStatus : UInt32
  mode : Nat
  toULength : Nat
  toUBytes : List UInt8
  deriving DecidableEq, Repr

/-- After a reset. The contents of `toUBytes` do not matter. -/
def ToConverter.initial : ToConverter := ⟨0, 0, 0, List.replicate 8 0⟩

structure ToLocals where
  cnv : ToConverter
  source : List UInt8
  target : List UInt16
  uCharErrorBuffer : List UInt16
  ch : UInt32
  i : Nat
  inBytes : Nat
  err : UErrorCode
  deriving DecidableEq

inductive ToLabel
  | loop
  | morebytes
  | donefornow
  deriving DecidableEq

/-- `ch<=MAXIMUM_UTF && ch>=utf8_minChar32[i] && (isCESU8 ? i<=3 : !U_IS_SURROGATE(ch))` behind
`i==inBytes`. -/
def isLegal (isCESU8 : Bool) (i inBytes : Nat) (ch : UInt32) : Bool :=
  i == inBytes && decide (ch ≤ 0x10ffff) && decide (utf8MinChar32.getD i 0 ≤ ch) &&
    (if isCESU8 then decide (i ≤ 3) else !uIsSurrogate ch.toNat)

/-- The surrogates of `ch-HALF_BASE`. -/
def leadOf (ch : UInt32) : UInt16 := ((ch >>> 10) + 0xd800).toUInt16

def trailOf (ch : UInt32) : UInt16 := ((ch &&& 0x3ff) + 0xdc00).toUInt16

namespace ToLocals

variable (isCESU8 : Bool) (targetLimit : Nat)

/-- Behind the loop over the trail bytes. -/
def putChar (l : ToLocals) : ToLabel × ToLocals :=
  -- remove the accumulated high bits
  let ch := l.ch - offsetsFromUTF8.getD l.inBytes 0
  if isLegal isCESU8 l.i l.inBytes ch then
    if ch ≤ 0xffff then (.loop, { l with ch, target := l.target ++ [ch.toUInt16] })
    else
      -- write out the surrogates
      let ch := ch - 0x10000
      let l : ToLocals := { l with ch, target := l.target ++ [leadOf ch] }
      if l.target.length < targetLimit then (.loop, { l with target := l.target ++ [trailOf ch] })
      else
        (.donefornow, { l with uCharErrorBuffer := [trailOf ch], err := .bufferOverflowError })
  else
    (.donefornow, { l with ch, cnv := { l.cnv with toULength := l.i }, err := .illegalCharFound })

/-- One round of the loop over the trail bytes. -/
def morebytes (l : ToLocals) : ToLabel × ToLocals :=
  if l.i < l.inBytes then
    match l.source with
    | b :: source =>
      let l : ToLocals := { l with cnv := { l.cnv with toUBytes := l.cnv.toUBytes.set l.i b } }
      if !u8IsTrail b.toNat then l.putChar isCESU8 targetLimit
      else (.morebytes, { l with source, ch := (l.ch <<< 6) + b.toUInt32, i := l.i + 1 })
    | [] =>
      -- stores a partially calculated target
      (.donefornow, { l with cnv := { l.cnv with toUnicodeStatus := l.ch, mode := l.inBytes,
                                                 toULength := l.i } })
  else l.putChar isCESU8 targetLimit

def loop (l : ToLocals) : ToLabel × ToLocals :=
  match l.source with
  | [] => (.donefornow, l)
  | b :: source =>
    if l.target.length < targetLimit then
      let l : ToLocals := { l with source, ch := b.toUInt32 }
      if l.ch < 0x80 then (.loop, { l with target := l.target ++ [l.ch.toUInt16] })
      else
        -- store the first char
        (.morebytes, { l with cnv := { l.cnv with toUBytes := l.cnv.toUBytes.set 0 b },
                              inBytes := bytesFromUTF8.getD b.toNat 0, i := 1 })
    else (.donefornow, l)

/-- One jump of `ucnv_toUnicode_UTF8`. -/
def step : ToLabel × ToLocals → Option (ToLabel × ToLocals)
  | (.loop, l) => some (l.loop targetLimit)
  | (.morebytes, l) => some (l.morebytes isCESU8 targetLimit)
  | (.donefornow, _) => none

/-- The sequence that an earlier call has stored. -/
def start (cnv : ToConverter) (source : List UInt8) : ToLabel × ToLocals :=
  if cnv.toUnicodeStatus ≠ 0 ∧ 0 < targetLimit then
    (.morebytes, ⟨{ cnv with toULength := 0, toUnicodeStatus := 0 }, source, [], [],
      cnv.toUnicodeStatus, cnv.toULength, cnv.mode, .zeroError⟩)
  else (.loop, ⟨cnv, source, [], [], 0, 0, 0, .zeroError⟩)

/-- Behind `donefornow`. -/
def finish (l : ToLocals) : ToLocals :=
  if l.source ≠ [] ∧ l.target.length ≥ targetLimit ∧ l.err.isSuccess then
    { l with err := .bufferOverflowError }
  else l

end ToLocals

/-- What a call of a conversion function changes. -/
structure ToResult where
  cnv : ToConverter
  source : List UInt8
  target : List UInt16
  uCharErrorBuffer : List UInt16
  err : UErrorCode
  deriving DecidableEq

def ToLocals.result (l : ToLocals) : ToResult :=
  ⟨l.cnv, l.source, l.target, l.uCharErrorBuffer, l.err⟩

/-- Each round reads a byte, or it leaves the loop over the trail bytes, or it is the last. -/
def toFuel (source : List UInt8) : Nat := 2 * source.length + 3

/-- `ucnv_toUnicode_UTF8(args, err)` -/
def toUnicodeUTF8 (isCESU8 : Bool) (cnv : ToConverter) (source : List UInt8) (targetLimit : Nat) :
    ToResult :=
  ((Program.exec (ToLocals.step isCESU8 targetLimit) (toFuel source)
    (ToLocals.start targetLimit cnv source)).2.finish targetLimit).result

/-- A call, with the overflow buffer flushed after it. -/
def ToResult.reply (r : ToResult) : Transducer.Reply ToConverter UInt8 UInt16 :=
  ⟨r.cnv, r.target ++ r.uCharErrorBuffer, r.source, r.err = .illegalCharFound⟩

structure ToOffsetLocals extends ToLocals where
  offsets : List Int
  offsetNum : Int
  deriving DecidableEq

namespace ToOffsetLocals

variable (isCESU8 : Bool) (targetLimit : Nat)

def putChar (l : ToOffsetLocals) : ToLabel × ToOffsetLocals :=
  -- remove the accumulated high bits
  let ch := l.ch - offsetsFromUTF8.getD l.inBytes 0
  if isLegal isCESU8 l.i l.inBytes ch then
    if ch ≤ 0xffff then
      (.loop, { l with ch, target := l.target ++ [ch.toUInt16], offsets :=
        l.offsets ++ [l.offsetNum],
                       offsetNum := l.offsetNum + l.i })
    else
      -- write out the surrogates
      let ch := ch - 0x10000
      let l : ToOffsetLocals := { l with ch, target := l.target ++ [leadOf ch],
                                         offsets := l.offsets ++ [l.offsetNum] }
      if l.target.length < targetLimit then
        (.loop, { l with target := l.target ++ [trailOf ch], offsets := l.offsets ++ [l.offsetNum],
                         offsetNum := l.offsetNum + l.i })
      else
        (.loop, { l with uCharErrorBuffer := [trailOf ch], err := .bufferOverflowError,
                         offsetNum := l.offsetNum + l.i })
  else
    (.donefornow, { l with ch, cnv := { l.cnv with toULength := l.i }, err := .illegalCharFound })

def morebytes (l : ToOffsetLocals) : ToLabel × ToOffsetLocals :=
  if l.i < l.inBytes then
    match l.source with
    | b :: source =>
      let l : ToOffsetLocals :=
        { l with cnv := { l.cnv with toUBytes := l.cnv.toUBytes.set l.i b } }
      if !u8IsTrail b.toNat then l.putChar isCESU8 targetLimit
      else (.morebytes, { l with source, ch := (l.ch <<< 6) + b.toUInt32, i := l.i + 1 })
    | [] =>
      (.donefornow, { l with cnv := { l.cnv with toUnicodeStatus := l.ch, mode := l.inBytes,
                                                 toULength := l.i } })
  else l.putChar isCESU8 targetLimit

def loop (l : ToOffsetLocals) : ToLabel × ToOffsetLocals :=
  match l.source with
  | [] => (.donefornow, l)
  | b :: source =>
    if l.target.length < targetLimit then
      let l : ToOffsetLocals := { l with source, ch := b.toUInt32 }
      if l.ch < 0x80 then
        (.loop, { l with target := l.target ++ [l.ch.toUInt16], offsets :=
          l.offsets ++ [l.offsetNum],
                         offsetNum := l.offsetNum + 1 })
      else
        (.morebytes, { l with cnv := { l.cnv with toUBytes := l.cnv.toUBytes.set 0 b },
                              inBytes := bytesFromUTF8.getD b.toNat 0, i := 1 })
    else (.donefornow, l)

/-- One jump of `ucnv_toUnicode_UTF8_OFFSETS_LOGIC`. -/
def step : ToLabel × ToOffsetLocals → Option (ToLabel × ToOffsetLocals)
  | (.loop, l) => some (l.loop targetLimit)
  | (.morebytes, l) => some (l.morebytes isCESU8 targetLimit)
  | (.donefornow, _) => none

def start (cnv : ToConverter) (source : List UInt8) : ToLabel × ToOffsetLocals :=
  if cnv.toUnicodeStatus ≠ 0 ∧ 0 < targetLimit then
    (.morebytes, ⟨⟨{ cnv with toULength := 0, toUnicodeStatus := 0 }, source, [], [],
      cnv.toUnicodeStatus, cnv.toULength, cnv.mode, .zeroError⟩, [], 0⟩)
  else (.loop, ⟨⟨cnv, source, [], [], 0, 0, 0, .zeroError⟩, [], 0⟩)

def finish (l : ToOffsetLocals) : ToOffsetLocals :=
  if l.source ≠ [] ∧ l.target.length ≥ targetLimit ∧ l.err.isSuccess then
    { l with err := .bufferOverflowError }
  else l

end ToOffsetLocals

/-- The offsets that a call has stored, beside what it changes. -/
structure Offsets (ρ : Type) where
  result : ρ
  offsets : List Int
  deriving DecidableEq

/-- `ucnv_toUnicode_UTF8_OFFSETS_LOGIC(args, err)` -/
def toUnicodeUTF8OffsetsLogic (isCESU8 : Bool) (cnv : ToConverter) (source : List UInt8)
    (targetLimit : Nat) : Offsets ToResult :=
  let l := (Program.exec (ToOffsetLocals.step isCESU8 targetLimit) (toFuel source)
    (ToOffsetLocals.start targetLimit cnv source)).2.finish targetLimit
  ⟨l.toToLocals.result, l.offsets⟩

/-- The field of the `UConverter` that the encoder uses. -/
structure FromConverter where
  fromUChar32 : Nat
  deriving DecidableEq, Repr

def FromConverter.initial : FromConverter := ⟨0⟩

structure FromLocals where
  cnv : FromConverter
  source : List UInt16
  target : List UInt8
  charErrorBuffer : List UInt8
  ch : Nat
  err : UErrorCode
  deriving DecidableEq

inductive FromLabel
  | loop
  | lowsurrogate
  | done
  deriving DecidableEq

open StrTrans (twoBytes threeBytes fourBytes u16IsSurrogateLead)

/-- What is stored through `tempPtr`. -/
def tempBuf (ch : Nat) : List UInt8 := if ch ≤ 0xffff then threeBytes ch else fourBytes ch

namespace FromLocals

variable (isCESU8 : Bool) (targetLimit : Nat)

/-- `for (; tempPtr <= (tempBuf + indexToWrite); tempPtr++)` -/
def writeSlowly : List UInt8 → FromLocals → FromLocals
  | [], l => l
  | b :: bytes, l =>
    if l.target.length < targetLimit then writeSlowly bytes { l with target := l.target ++ [b] }
    else writeSlowly bytes { l with charErrorBuffer := l.charErrorBuffer ++ [b],
                                    err := .bufferOverflowError }

def putBytes (l : FromLocals) : FromLabel × FromLocals :=
  -- Do we write the buffer directly for speed,
  -- or do we have to be careful about target buffer space?
  if targetLimit - l.target.length ≥ 4 then (.loop, { l with target := l.target ++ tempBuf l.ch })
  else (.loop, l.writeSlowly targetLimit (tempBuf l.ch))

def lowsurrogate (l : FromLocals) : FromLabel × FromLocals :=
  match l.source with
  | c :: source =>
    -- test both code units
    if u16IsSurrogateLead l.ch ∧ u16IsTrail c.toNat then
      { l with source, ch := u16GetSupplementary l.ch c.toNat }.putBytes targetLimit
    else (.done, { l with cnv := ⟨l.ch⟩, err := .illegalCharFound })
  | [] => (.done, { l with cnv := ⟨l.ch⟩ }) -- no more input

def loop (l : FromLocals) : FromLabel × FromLocals :=
  match l.source with
  | [] => (.done, l)
  | c :: source =>
    if l.target.length < targetLimit then
      let l : FromLocals := { l with source, ch := c.toNat }
      if l.ch < 0x80 then (.loop, { l with target := l.target ++ [UInt8.ofNat l.ch] })
      else if l.ch < 0x800 then
        let l : FromLocals :=
          { l with target := l.target ++ [UInt8.ofNat ((l.ch >>> 6) ||| 0xc0)] }
        if l.target.length < targetLimit then
          (.loop, { l with target := l.target ++ [UInt8.ofNat ((l.ch &&& 0x3f) ||| 0x80)] })
        else
          (.loop, { l with charErrorBuffer := [UInt8.ofNat ((l.ch &&& 0x3f) ||| 0x80)],
                           err := .bufferOverflowError })
      else if uIsSurrogate l.ch ∧ !isCESU8 then (.lowsurrogate, l)
      else l.putBytes targetLimit
    else (.done, l)

/-- One jump of `ucnv_fromUnicode_UTF8`. -/
def step : FromLabel × FromLocals → Option (FromLabel × FromLocals)
  | (.loop, l) => some (l.loop isCESU8 targetLimit)
  | (.lowsurrogate, l) => some (l.lowsurrogate targetLimit)
  | (.done, _) => none

def start (cnv : FromConverter) (source : List UInt16) : FromLabel × FromLocals :=
  if cnv.fromUChar32 ≠ 0 ∧ 0 < targetLimit then
    (.lowsurrogate, ⟨⟨0⟩, source, [], [], cnv.fromUChar32, .zeroError⟩)
  else (.loop, ⟨cnv, source, [], [], 0, .zeroError⟩)

def finish (l : FromLocals) : FromLocals :=
  if l.source ≠ [] ∧ l.target.length ≥ targetLimit ∧ l.err.isSuccess then
    { l with err := .bufferOverflowError }
  else l

end FromLocals

structure FromResult where
  cnv : FromConverter
  source : List UInt16
  target : List UInt8
  charErrorBuffer : List UInt8
  err : UErrorCode
  deriving DecidableEq

def FromLocals.result (l : FromLocals) : FromResult :=
  ⟨l.cnv, l.source, l.target, l.charErrorBuffer, l.err⟩

def fromFuel (source : List UInt16) : Nat := 2 * source.length + 3

/-- `ucnv_fromUnicode_UTF8(args, err)` -/
def fromUnicodeUTF8 (isCESU8 : Bool) (cnv : FromConverter) (source : List UInt16)
    (targetLimit : Nat) : FromResult :=
  ((Program.exec (FromLocals.step isCESU8 targetLimit) (fromFuel source)
    (FromLocals.start targetLimit cnv source)).2.finish targetLimit).result

/-- A call, with the overflow buffer flushed after it. -/
def FromResult.reply (r : FromResult) : Transducer.Reply FromConverter UInt16 UInt8 :=
  ⟨r.cnv, r.target ++ r.charErrorBuffer, r.source, r.err = .illegalCharFound⟩

structure FromOffsetLocals extends FromLocals where
  offsets : List Int
  offsetNum : Int
  nextSourceIndex : Int
  deriving DecidableEq

namespace FromOffsetLocals

variable (isCESU8 : Bool) (targetLimit : Nat)

def writeSlowly : List UInt8 → FromOffsetLocals → FromOffsetLocals
  | [], l => l
  | b :: bytes, l =>
    if l.target.length < targetLimit then
      writeSlowly bytes { l with target := l.target ++ [b],
                                 offsets := l.offsets ++ [l.offsetNum] }
    else writeSlowly bytes { l with charErrorBuffer := l.charErrorBuffer ++ [b],
                                    err := .bufferOverflowError }

def putBytes (l : FromOffsetLocals) : FromLabel × FromOffsetLocals :=
  let l : FromOffsetLocals :=
    if targetLimit - l.target.length ≥ 4 then
      { l with target := l.target ++ tempBuf l.ch,
               offsets := l.offsets ++ (tempBuf l.ch).map fun _ => l.offsetNum }
    else l.writeSlowly targetLimit (tempBuf l.ch)
  (.loop, { l with offsetNum := l.nextSourceIndex })

def lowsurrogate (l : FromOffsetLocals) : FromLabel × FromOffsetLocals :=
  match l.source with
  | c :: source =>
    if u16IsSurrogateLead l.ch ∧ u16IsTrail c.toNat then
      { l with source, ch := u16GetSupplementary l.ch c.toNat,
               nextSourceIndex := l.nextSourceIndex + 1 }.putBytes targetLimit
    else (.done, { l with cnv := ⟨l.ch⟩, err := .illegalCharFound })
  | [] => (.done, { l with cnv := ⟨l.ch⟩ })

def loop (l : FromOffsetLocals) : FromLabel × FromOffsetLocals :=
  match l.source with
  | [] => (.done, l)
  | c :: source =>
    if l.target.length < targetLimit then
      let l : FromOffsetLocals := { l with source, ch := c.toNat }
      if l.ch < 0x80 then
        (.loop, { l with target := l.target ++ [UInt8.ofNat l.ch], offsets :=
          l.offsets ++ [l.offsetNum],
                         offsetNum := l.offsetNum + 1 })
      else if l.ch < 0x800 then
        let l : FromOffsetLocals :=
          { l with target := l.target ++ [UInt8.ofNat ((l.ch >>> 6) ||| 0xc0)],
                   offsets := l.offsets ++ [l.offsetNum] }
        if l.target.length < targetLimit then
          (.loop, { l with target := l.target ++ [UInt8.ofNat ((l.ch &&& 0x3f) ||| 0x80)],
                           offsets := l.offsets ++ [l.offsetNum], offsetNum := l.offsetNum + 1 })
        else
          (.loop, { l with charErrorBuffer := [UInt8.ofNat ((l.ch &&& 0x3f) ||| 0x80)],
                           err := .bufferOverflowError })
      else
        let l : FromOffsetLocals := { l with nextSourceIndex := l.offsetNum + 1 }
        if uIsSurrogate l.ch ∧ !isCESU8 then (.lowsurrogate, l) else l.putBytes targetLimit
    else (.done, l)

/-- One jump of `ucnv_fromUnicode_UTF8_OFFSETS_LOGIC`. -/
def step : FromLabel × FromOffsetLocals → Option (FromLabel × FromOffsetLocals)
  | (.loop, l) => some (l.loop isCESU8 targetLimit)
  | (.lowsurrogate, l) => some (l.lowsurrogate targetLimit)
  | (.done, _) => none

def start (cnv : FromConverter) (source : List UInt16) : FromLabel × FromOffsetLocals :=
  if cnv.fromUChar32 ≠ 0 ∧ 0 < targetLimit then
    (.lowsurrogate, ⟨⟨⟨0⟩, source, [], [], cnv.fromUChar32, .zeroError⟩, [], -1, 0⟩)
  else (.loop, ⟨⟨cnv, source, [], [], 0, .zeroError⟩, [], 0, 0⟩)

def finish (l : FromOffsetLocals) : FromOffsetLocals :=
  if l.source ≠ [] ∧ l.target.length ≥ targetLimit ∧ l.err.isSuccess then
    { l with err := .bufferOverflowError }
  else l

end FromOffsetLocals

/-- `ucnv_fromUnicode_UTF8_OFFSETS_LOGIC(args, err)` -/
def fromUnicodeUTF8OffsetsLogic (isCESU8 : Bool) (cnv : FromConverter) (source : List UInt16)
    (targetLimit : Nat) : Offsets FromResult :=
  let l := (Program.exec (FromOffsetLocals.step isCESU8 targetLimit) (fromFuel source)
    (FromOffsetLocals.start targetLimit cnv source)).2.finish targetLimit
  ⟨l.toFromLocals.result, l.offsets⟩

end Icu.UcnvU8
