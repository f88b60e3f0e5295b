import Icu.ErrorCode
import Icu.Lib.Program
import Icu.Lib.Transducer

/-! # The UTF-7 converter

`_UTF7ToUnicodeWithOffsets` and `_UTF7FromUnicodeWithOffsets`, without offsets, as jumps between
their labels. Between two calls the state is packed into one status word.
-/

namespace Icu.Utf7

open Lib

def plus : Nat := 43
def minus : Nat := 45
def backslash : Nat := 92

def isCRLFTAB (c : Nat) : Bool := c == 13 || c == 10 || c == 9

/-- Legal byte values: all US-ASCII graphic characters from space to before tilde, and CR LF TAB.
`(uint8_t)((c)-32)<94` -/
def isLegalUTF7 (b : UInt8) : Bool :=
  (b - 32 < 94 && b.toNat != backslash) || isCRLFTAB b.toNat

/-- Encode directly sets D and O and CR LF SP TAB. -/
def encodeDirectlyMaximum : List Nat := [
    0, 0, 0, 0, 0, 0, 0, 0, 0, 1, 1, 0, 0, 1, 0, 0,
    0, 0, 0, 0, 0, 0, 0, 0, 0, 0, 0, 0, 0, 0, 0, 0,
    1, 1, 1, 1, 1, 1, 1, 1, 1, 1, 1, 0, 1, 1, 1, 1,
    1, 1, 1, 1, 1, 1, 1, 1, 1, 1, 1, 1, 1, 1, 1, 1,
    1, 1, 1, 1, 1, 1, 1, 1, 1, 1, 1, 1, 1, 1, 1, 1,
    1, 1, 1, 1, 1, 1, 1, 1, 1, 1, 1, 1, 0, 1, 1, 1,
    1, 1, 1, 1, 1, 1, 1, 1, 1, 1, 1, 1, 1, 1, 1, 1,
    1, 1, 1, 1, 1, 1, 1, 1, 1, 1, 1, 1, 1, 1, 0, 0]

/-- Encode directly set D and CR LF SP TAB but not set O. -/
def encodeDirectlyRestricted : List Nat := [
    0, 0, 0, 0, 0, 0, 0, 0, 0, 1, 1, 0, 0, 1, 0, 0,
    0, 0, 0, 0, 0, 0, 0, 0, 0, 0, 0, 0, 0, 0, 0, 0,
    1, 0, 0, 0, 0, 0, 0, 1, 1, 1, 0, 0, 1, 1, 1, 1,
    1, 1, 1, 1, 1, 1, 1, 1, 1, 1, 1, 0, 0, 0, 0, 1,
    0, 1, 1, 1, 1, 1, 1, 1, 1, 1, 1, 1, 1, 1, 1, 1,
    1, 1, 1, 1, 1, 1, 1, 1, 1, 1, 1, 0, 0, 0, 0, 0,
    0, 1, 1, 1, 1, 1, 1, 1, 1, 1, 1, 1, 1, 1, 1, 1,
    1, 1, 1, 1, 1, 1, 1, 1, 1, 1, 1, 0, 0, 0, 0, 0]

def toBase64Table : List Nat := [
    65, 66, 67, 68, 69, 70, 71, 72, 73, 74, 75, 76, 77,
    78, 79, 80, 81, 82, 83, 84, 85, 86, 87, 88, 89, 90,
    97, 98, 99, 100, 101, 102, 103, 104, 105, 106, 107, 108, 109,
    110, 111, 112, 113, 114, 115, 116, 117, 118, 119, 120, 121, 122,
    48, 49, 50, 51, 52, 53, 54, 55, 56, 57,
    43, 47]

/-- -1 for legal characters, -2 for the minus sign and -3 for illegal ones. -/
def fromBase64Table : List Int := [
    -3, -3, -3, -3, -3, -3, -3, -3, -3, -1, -1, -3, -3, -1, -3, -3,
    -3, -3, -3, -3, -3, -3, -3, -3, -3, -3, -3, -3, -3, -3, -3, -3,
    -1, -1, -1, -1, -1, -1, -1, -1, -1, -1, -1, 62, -1, -2, -1, 63,
    52, 53, 54, 55, 56, 57, 58, 59, 60, 61, -1, -1, -1, -1, -1, -1,
    -1,  0,  1,  2,  3,  4,  5,  6,  7,  8,  9, 10, 11, 12, 13, 14,
    15, 16, 17, 18, 19, 20, 21, 22, 23, 24, 25, -1, -3, -1, -1, -1,
    -1, 26, 27, 28, 29, 30, 31, 32, 33, 34, 35, 36, 37, 38, 39, 40,
    41, 42, 43, 44, 45, 46, 47, 48, 49, 50, 51, -1, -1, -1, -3, -3]

/-- `toBase64[bits]` -/
def toBase64 (bits : Nat) : UInt8 := UInt8.ofNat (toBase64Table.getD bits 0)

/-- `fromBase64[c]` -/
def fromBase64 (c : Nat) : Int := fromBase64Table.getD c (-3)

/-- `(int8_t)x` -/
def int8 (x : Nat) : Int := (x : Int).bmod 0x100

/-- `(uint32_t)inDirectMode` -/
def flag (inDirectMode : Bool) : Nat := if inDirectMode then 1 else 0

/-! ## From Unicode -/

/-- The locals. The version is in the status word of the converter. -/
structure FromLocals where
  fromUnicodeStatus : Nat
  source : List UInt16
  target : List UInt8
  length : Nat
  inDirectMode : Bool
  base64Counter : Int
  bits : Nat
  charErrorBuffer : List UInt8
  err : UErrorCode
  deriving DecidableEq

inductive FromLabel
  | directMode
  | directLoop
  | unicodeMode
  | done
  deriving DecidableEq

/-- `_UTF7Open` and `_UTF7Reset`: the status word for the version 0 or 1. -/
def initialFromUnicodeStatus (version : Nat) : Nat := version <<< 28 &&& 0xf0000000 ||| 0x1000000

namespace FromLocals

/-- `c<=127 && encodeDirectly[c]` -/
def encodeDirectly (l : FromLocals) (c : Nat) : Bool :=
  c ≤ 127 && (if l.fromUnicodeStatus < 0x10000000 then encodeDirectlyMaximum
    else encodeDirectlyRestricted).getD c 0 != 0

/-- `*target++=b;` -/
def put (l : FromLocals) (b : UInt8) : FromLocals := { l with target := l.target ++ [b] }

/-- A byte that may not fit into the target. -/
def putOrStore (targetLimit : Nat) (l : FromLocals) (b : UInt8) : FromLocals :=
  if l.target.length < targetLimit then l.put b
  else { l with charErrorBuffer := l.charErrorBuffer ++ [b], err := .bufferOverflowError }

/-- The label `directMode`: the loop counter. -/
def directMode (targetLimit : Nat) (l : FromLocals) : FromLabel × FromLocals :=
  (.directLoop, { l with length := Min.min l.source.length (targetLimit - l.target.length) })

/-- The end of the loop in direct mode. -/
def directEnd (targetLimit : Nat) (l : FromLocals) : FromLabel × FromLocals :=
  if l.source ≠ [] ∧ l.target.length ≥ targetLimit then
    (.done, { l with err := .bufferOverflowError }) -- target is full
  else (.done, l)

/-- One round of the loop in direct mode. -/
def directLoop (targetLimit : Nat) (l : FromLocals) : FromLabel × FromLocals :=
  match l.length, l.source with
  | length + 1, u :: source =>
    let c := u.toNat
    if l.encodeDirectly c then
      (.directLoop, { l.put (UInt8.ofNat c) with source, length })
    else if c = plus then
      -- output +- for +
      let l := { l.put (UInt8.ofNat plus) with source }
      if l.target.length < targetLimit then
        -- realign length and targetCapacity
        (.directMode, l.put (UInt8.ofNat minus))
      else
        { l with charErrorBuffer := [UInt8.ofNat minus], err := .bufferOverflowError }.directEnd
          targetLimit
    else
      -- un-read this character and switch to Unicode Mode
      (.unicodeMode, { l.put (UInt8.ofNat plus) with inDirectMode := false, base64Counter := 0 })
  | _, _ => l.directEnd targetLimit

/-- Terminate the base64 sequence before a character that is encoded directly. -/
def leaveUnicodeMode (targetLimit : Nat) (l : FromLocals) (c : Nat) : FromLabel × FromLocals :=
  let l := { l with inDirectMode := true }
  -- write remaining bits for the previous character
  let l := if l.base64Counter ≠ 0 then l.put (toBase64 l.bits) else l
  if fromBase64 c ≠ -1 then
    -- need to terminate with a minus
    if l.target.length < targetLimit then (.directMode, l.put (UInt8.ofNat minus))
    else
      (.done, { l with charErrorBuffer := [UInt8.ofNat minus], err := .bufferOverflowError })
  else (.directMode, l)

/-- Base64 this character. -/
def putBase64 (targetLimit : Nat) (l : FromLocals) (c : Nat) : FromLocals :=
  if l.base64Counter = 0 then
    let l := l.put (toBase64 (c >>> 10))
    { l.putOrStore targetLimit (toBase64 (c >>> 4 &&& 0x3f)) with
      bits := (c &&& 15) <<< 2, base64Counter := 1 }
  else if l.base64Counter = 1 then
    let l := l.put (toBase64 (l.bits ||| c >>> 14))
    let l := l.putOrStore targetLimit (toBase64 (c >>> 8 &&& 0x3f))
    { l.putOrStore targetLimit (toBase64 (c >>> 2 &&& 0x3f)) with
      bits := (c &&& 3) <<< 4, base64Counter := 2 }
  else if l.base64Counter = 2 then
    let l := l.put (toBase64 (l.bits ||| c >>> 12))
    let l := l.putOrStore targetLimit (toBase64 (c >>> 6 &&& 0x3f))
    { l.putOrStore targetLimit (toBase64 (c &&& 0x3f)) with bits := 0, base64Counter := 0 }
  else l -- will never occur

/-- One round of the loop in Unicode mode. -/
def unicodeMode (targetLimit : Nat) (l : FromLocals) : FromLabel × FromLocals :=
  match l.source with
  | [] => (.done, l)
  | u :: source =>
    if l.target.length < targetLimit then
      if l.encodeDirectly u.toNat then l.leaveUnicodeMode targetLimit u.toNat
      else (.unicodeMode, { l with source }.putBase64 targetLimit u.toNat)
    else (.done, { l with err := .bufferOverflowError }) -- target is full

/-- One jump of `_UTF7FromUnicodeWithOffsets`. -/
def step (targetLimit : Nat) : FromLabel × FromLocals → Option (FromLabel × FromLocals)
  | (.directMode, l) => some (l.directMode targetLimit)
  | (.directLoop, l) => some (l.directLoop targetLimit)
  | (.unicodeMode, l) => some (l.unicodeMode targetLimit)
  | (.done, _) => none

/-- Flush remaining bits to the target, with a final minus to terminate Unicode mode. -/
def flushBits (targetLimit : Nat) (l : FromLocals) : FromLocals :=
  if l.inDirectMode then l
  else
    let l := if l.base64Counter ≠ 0 then l.putOrStore targetLimit (toBase64 l.bits) else l
    l.putOrStore targetLimit (UInt8.ofNat minus)

/-- The end of the function: flush, and set the converter state back. -/
def finish (targetLimit : Nat) (flush : Bool) (l : FromLocals) : FromLocals :=
  if flush ∧ l.source = [] then
    -- reset the state for the next conversion
    { l.flushBits targetLimit with
      fromUnicodeStatus := l.fromUnicodeStatus &&& 0xf0000000 ||| 0x1000000 }
  else
    { l with fromUnicodeStatus := l.fromUnicodeStatus &&& 0xf0000000 ||| flag l.inDirectMode <<< 24
               ||| l.base64Counter.toNat <<< 16 ||| l.bits }

end FromLocals

/-- `_UTF7FromUnicodeWithOffsets(pArgs, pErrorCode)`: the locals at the end. -/
def fromUnicodeLocals (status : Nat) (source : List UInt16) (flush : Bool) (targetLimit : Nat) :
    FromLocals :=
  let inDirectMode := status >>> 24 &&& 1 == 1
  let l : FromLocals :=
    ⟨status, source, [], 0, inDirectMode, int8 (status >>> 16), status % 0x100, [], .zeroError⟩
  let l := (Program.exec (FromLocals.step targetLimit) (4 * source.length + 4)
    (if inDirectMode then .directMode else .unicodeMode, l)).2
  l.finish targetLimit flush

/-- A call with an empty overflow buffer, which is flushed after it. The `flush` argument is set if
the buffer goes to the end of the text. -/
def utf7FromUnicode (status : Nat) (source : List (Option UInt16)) (targetLimit : Nat) :
    Transducer.Reply Nat (Option UInt16) UInt8 :=
  let units := (Transducer.splitEnd source).1
  let rest := (Transducer.splitEnd source).2
  let l := fromUnicodeLocals status units (rest ≠ []) targetLimit
  ⟨l.fromUnicodeStatus, l.target ++ l.charErrorBuffer,
    l.source.map some ++ (if l.source = [] then rest.tail else rest), false⟩

/-! ## To Unicode -/

/-- The fields of the `UConverter` that the decoder uses. `toUBytes` has `toULength` bytes. -/
structure Decoder where
  toUnicodeStatus : Nat
  toUBytes : List UInt8
  deriving DecidableEq, Repr

/-- `_UTF7Reset(cnv, UCNV_RESET_TO_UNICODE)` -/
def Decoder.initial : Decoder := ⟨0x1000000, []⟩

structure ToLocals where
  source : List UInt8
  target : List UInt16
  length : Nat
  inDirectMode : Bool
  base64Counter : Int
  bits : Nat
  bytes : List UInt8
  err : UErrorCode
  deriving DecidableEq

inductive ToLabel
  | directMode
  | directLoop
  | unicodeMode
  | done
  deriving DecidableEq

namespace ToLocals

/-- `*target++=c;` -/
def put (l : ToLocals) (c : Nat) : ToLocals := { l with target := l.target ++ [UInt16.ofNat c] }

/-- The label `directMode`: the loop counter. -/
def directMode (targetLimit : Nat) (l : ToLocals) : ToLabel × ToLocals :=
  (.directLoop,
    { l with
      bytes := []
      length := Min.min l.source.length (targetLimit - l.target.length) })

/-- The end of the loop in direct mode. -/
def directEnd (targetLimit : Nat) (l : ToLocals) : ToLabel × ToLocals :=
  if l.source ≠ [] ∧ l.target.length ≥ targetLimit then
    (.done, { l with err := .bufferOverflowError }) -- target is full
  else (.done, l)

/-- One round of the loop in direct mode. -/
def directLoop (targetLimit : Nat) (l : ToLocals) : ToLabel × ToLocals :=
  match l.length, l.source with
  | length + 1, b :: source =>
    let l := { l with source }
    if !isLegalUTF7 b then
      { l with bytes := [b], err := .illegalCharFound }.directEnd targetLimit
    else if b.toNat ≠ plus then
      -- write directly encoded character
      (.directLoop, { l.put b.toNat with length })
    else
      -- switch to Unicode mode
      (.unicodeMode, { l with inDirectMode := false, bytes := [], bits := 0, base64Counter := -1 })
  | _, _ => l.directEnd targetLimit

/-- A character that is not in the base64 alphabet leaves Unicode mode. The byte is the last one of
`bytes`, and `source` is behind it. -/
def leaveUnicodeMode (l : ToLocals) (b : UInt8) (base64Value : Int) : ToLabel × ToLocals :=
  let l := { l with inDirectMode := true }
  if l.base64Counter = -1 then
    -- illegal: + immediately followed by something other than base64 or minus sign
    (.done, { l with source := b :: l.source, bytes := [UInt8.ofNat plus], err :=
      .illegalCharFound })
  else if l.bits ≠ 0 then
    -- bits are illegally left over, a UChar is incomplete
    (.done, { l with source := b :: l.source, bytes := l.bytes.dropLast, err := .illegalCharFound })
  else if base64Value = -3 then
    -- current character is illegal, deal with it here
    (.done, { l with err := .illegalCharFound })
  else
    -- un-read the current character in case it is a plus sign
    (.directMode, { l with source := b :: l.source })

/-- Collect base64 bytes into UChars. -/
def collect (l : ToLocals) (b : UInt8) (base64Value : Nat) : ToLocals :=
  if l.base64Counter = -1 ∨ l.base64Counter = 0 then
    { l with bits := base64Value, base64Counter := 1 }
  else if l.base64Counter = 1 ∨ l.base64Counter = 3 ∨ l.base64Counter = 4 ∨ l.base64Counter = 6 then
    { l with bits := (l.bits <<< 6 ||| base64Value) % 0x10000, base64Counter :=
      l.base64Counter + 1 }
  else if l.base64Counter = 2 then
    { l.put (l.bits <<< 4 ||| base64Value >>> 2) with
      bytes := [b], bits := base64Value &&& 3, base64Counter := 3 }
  else if l.base64Counter = 5 then
    { l.put (l.bits <<< 2 ||| base64Value >>> 4) with
      bytes := [b], bits := base64Value &&& 15, base64Counter := 6 }
  else if l.base64Counter = 7 then
    { l.put (l.bits <<< 6 ||| base64Value) with bytes := [], bits := 0, base64Counter := 0 }
  else l -- will never occur

/-- The minus sign terminates the base64 sequence. -/
def terminate (l : ToLocals) : ToLabel × ToLocals :=
  let l := { l with inDirectMode := true }
  -- +- i.e. a minus immediately following a plus
  if l.base64Counter = -1 then (.directMode, l.put plus)
  else if l.bits ≠ 0 then
    -- bits are illegally left over, a UChar is incomplete
    (.done, { l with err := .illegalCharFound })
  else (.directMode, l)

/-- One round of the loop in Unicode mode. -/
def unicodeMode (targetLimit : Nat) (l : ToLocals) : ToLabel × ToLocals :=
  match l.source with
  | [] => (.done, l)
  | b :: source =>
    if l.target.length < targetLimit then
      let l := { l with source, bytes := l.bytes ++ [b] }
      let base64Value := if b.toNat ≥ 126 then -3 else fromBase64 b.toNat
      if base64Value = -3 ∨ base64Value = -1 then l.leaveUnicodeMode b base64Value
      else if base64Value ≥ 0 then (.unicodeMode, l.collect b base64Value.toNat)
      else l.terminate
    else (.done, { l with err := .bufferOverflowError }) -- target is full

/-- One jump of `_UTF7ToUnicodeWithOffsets`. -/
def step (targetLimit : Nat) : ToLabel × ToLocals → Option (ToLabel × ToLocals)
  | (.directMode, l) => some (l.directMode targetLimit)
  | (.directLoop, l) => some (l.directLoop targetLimit)
  | (.unicodeMode, l) => some (l.unicodeMode targetLimit)
  | (.done, _) => none

/-- The state that is set back into the converter. -/
def toDecoder (flush : Bool) (l : ToLocals) : Decoder :=
  ⟨flag l.inDirectMode <<< 24 ||| (l.base64Counter % 0x100).toNat <<< 16 ||| l.bits,
    if l.err = .zeroError ∧ flush ∧ l.source = [] ∧ l.bits = 0 then [] else l.bytes⟩

end ToLocals

/-- `_UTF7ToUnicodeWithOffsets(pArgs, pErrorCode)`: the locals at the end. -/
def toUnicodeLocals (cnv : Decoder) (source : List UInt8) (targetLimit : Nat) : ToLocals :=
  let status := cnv.toUnicodeStatus
  let inDirectMode := status >>> 24 &&& 1 == 1
  (Program.exec (ToLocals.step targetLimit) (4 * source.length + 4)
    (if inDirectMode then .directMode else .unicodeMode,
      ⟨source, [], 0, inDirectMode, int8 (status >>> 16), status % 0x10000, cnv.toUBytes,
        .zeroError⟩)).2

/-- A call. The `flush` argument is set if the buffer goes to the end of the bytes. -/
def utf7ToUnicode (cnv : Decoder) (source : List (Option UInt8)) (targetLimit : Nat) :
    Transducer.Reply Decoder (Option UInt8) UInt16 :=
  let bytes := (Transducer.splitEnd source).1
  let rest := (Transducer.splitEnd source).2
  let l := toUnicodeLocals cnv bytes targetLimit
  ⟨l.toDecoder (rest ≠ []), l.target,
    l.source.map some ++ (if l.source = [] ∧ l.err = .zeroError then rest.tail else rest),
    decide (l.err = .illegalCharFound)⟩

end Icu.Utf7
