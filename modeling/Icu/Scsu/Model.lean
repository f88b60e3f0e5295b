import Icu.ErrorCode
import Icu.Lib.Program
import Icu.Lib.Transducer
import Icu.Utf16.CodePoints

/-! # The SCSU converter

`_SCSUToUnicode` and `_SCSUFromUnicode`, without offsets, as jumps between their labels. The
eight windows are indices, so that every access to the arrays of windows is inside of them.
-/

namespace Icu.Scsu

open Utf16 Lib

def sq0 : Nat := 0x01
def sq7 : Nat := 0x08
def sdx : Nat := 0x0b
def srs : Nat := 0x0c
def squ : Nat := 0x0e
def scu : Nat := 0x0f
def sc0 : Nat := 0x10
def sc7 : Nat := 0x17
def sd0 : Nat := 0x18

def uc0 : Nat := 0xe0
def uc7 : Nat := 0xe7
def ud0 : Nat := 0xe8
def ud7 : Nat := 0xef
def uqu : Nat := 0xf0
def udx : Nat := 0xf1
def urs : Nat := 0xf2

def gapThreshold : Nat := 0x68

def gapOffset : Nat := 0xac00

/-- Values between `reservedStart` and `fixedThreshold` are reserved. -/
def reservedStart : Nat := 0xa8

def fixedThreshold : Nat := 0xf9

/-- The number of a window, `int8_t`. -/
abbrev Window := Fin 8

/-- One instance for the window numbers of every module. -/
scoped instance neZero_window : NeZero 8 := inferInstance

abbrev Offsets := Vector Nat 8

/-- `array[window]=x;` -/
def setAt {α : Type} (array : Vector α 8) (window : Window) (x : α) :
    Vector α 8 := array.set window x

def staticOffsets : Offsets := #v[0x0000, 0x0080, 0x0100, 0x0300, 0x2000, 0x2080, 0x2100, 0x3000]

def initialDynamicOffsets : Offsets :=
  #v[0x0080, 0x00c0, 0x0400, 0x0600, 0x0900, 0x3040, 0x30a0, 0xff00]

def fixedOffsets : List Nat := [0x00c0, 0x0250, 0x0370, 0x0530, 0x3040, 0x30a0, 0xff60]

/-- `(1UL<<b)&0x2601`: CR, LF, TAB or NUL. -/
def isDirectControl (b : Nat) : Bool := 1 <<< b &&& 0x2601 != 0

/-- The window of a command byte. -/
@[irreducible] def windowOf (b first : Nat) : Window := Fin.ofNat 8 (b - first)

/-! ## To Unicode -/

inductive State
  | readCommand
  | quotePairOne
  | quotePairTwo
  | quoteOne
  | definePairOne
  | definePairTwo
  | defineOne
  deriving DecidableEq, Repr

/-- The members of `SCSUData` and of the `UConverter` that the decoder uses. `toUBytes` has
`toULength` bytes. -/
structure Decoder where
  toUDynamicOffsets : Offsets
  toUIsSingleByteMode : Bool
  toUState : State
  toUQuoteWindow : Window
  toUDynamicWindow : Window
  toUByteOne : Nat
  toUBytes : List UInt8
  deriving DecidableEq

/-- `_SCSUReset(cnv, UCNV_RESET_TO_UNICODE)` -/
def Decoder.initial : Decoder := ⟨initialDynamicOffsets, true, .readCommand, 0, 0, 0, []⟩

/-- The locals that are set back into the converter are kept in it. -/
structure ToLocals where
  cnv : Decoder
  source : List UInt8
  target : List UInt16
  uCharErrorBuffer : List UInt16
  err : UErrorCode
  deriving DecidableEq

inductive ToLabel
  | fastSingle
  | singleByteMode
  | fastUnicode
  | unicodeByteMode
  | endloop
  deriving DecidableEq

namespace ToLocals

/-- `*target++=(UChar)c;` -/
def put (l : ToLocals) (c : Nat) : ToLocals := { l with target := l.target ++ [UInt16.ofNat c] }

/-- Store the first byte of a multibyte sequence in `toUBytes[]`. -/
def storeFirst (l : ToLocals) (b : UInt8) :
    ToLocals := { l with cnv := { l.cnv with toUBytes := [b] } }

/-- `cnv->toUBytes[1]=b; cnv->toULength=2;` -/
def storeSecond (l : ToLocals) (b : UInt8) : ToLocals :=
  { l with cnv := { l.cnv with toUBytes := l.cnv.toUBytes.take 1 ++ [b] } }

/-- `state=...;` -/
def setState (l : ToLocals) (state : State) :
    ToLocals := { l with cnv := { l.cnv with toUState := state } }

def setWindow (l : ToLocals) (window : Window) : ToLocals :=
  { l with cnv := { l.cnv with toUDynamicWindow := window } }

def setMode (l : ToLocals) (isSingleByteMode : Bool) : ToLocals :=
  { l with cnv := { l.cnv with toUIsSingleByteMode := isSingleByteMode } }

def setByteOne (l : ToLocals) (byteOne : Nat) : ToLocals :=
  { l with cnv := { l.cnv with toUByteOne := byteOne } }

/-- `scsu->toUDynamicOffsets[dynamicWindow]=offset;` -/
def setOffset (l : ToLocals) (offset : Nat) : ToLocals :=
  { l with cnv := { l.cnv with
      toUDynamicOffsets := setAt l.cnv.toUDynamicOffsets l.cnv.toUDynamicWindow offset } }

/-- Write from a dynamic window. The trail surrogate goes into the overflow buffer if there is no
room for it: `false` stands for `goto endloop`. -/
def putCodePoint (targetLimit : Nat) (l : ToLocals) (c : Nat) : ToLocals × Bool :=
  if c ≤ 0xffff then (l.put c, true)
  else
    -- output surrogate pair
    let l := l.put (0xd7c0 + (c >>> 10))
    if l.target.length < targetLimit then (l.put (0xdc00 ||| (c &&& 0x3ff)), true)
    else
      -- target overflow
      ({ l with uCharErrorBuffer := [UInt16.ofNat (0xdc00 ||| (c &&& 0x3ff))],
                err := .bufferOverflowError }, false)

/-- One round of the fast path for single-byte mode. -/
def fastSingle (targetLimit : Nat) (l : ToLocals) : ToLabel × ToLocals :=
  match l.source with
  | [] => (.singleByteMode, l)
  | b :: source =>
    if l.target.length < targetLimit ∧ b.toNat ≥ 0x20 then
      let l := { l with source }
      if b.toNat ≤ 0x7f then (.fastSingle, l.put b.toNat)
      else
        let c := l.cnv.toUDynamicOffsets.get l.cnv.toUDynamicWindow + (b.toNat &&& 0x7f)
        let (l, go) := l.putCodePoint targetLimit c
        if go then (.fastSingle, l) else (.endloop, l)
    else (.singleByteMode, l)

/-- `case readCommand` in single-byte mode. -/
def singleCommand (l : ToLocals) (byte : UInt8) : ToLabel × ToLocals :=
  let b := byte.toNat
  if isDirectControl b then (.fastSingle, l.put b)
  else if sc0 ≤ b then
    if b ≤ sc7 then (.fastSingle, l.setWindow (windowOf b sc0))
    else (.singleByteMode, ((l.setWindow (windowOf b sd0)).setState .defineOne).storeFirst byte)
  else if b ≤ sq7 then
    let l := { l with cnv := { l.cnv with toUQuoteWindow := windowOf b sq0 } }
    (.singleByteMode, (l.setState .quoteOne).storeFirst byte)
  else if b = sdx then (.singleByteMode, (l.setState .definePairOne).storeFirst byte)
  else if b = squ then (.singleByteMode, (l.setState .quotePairOne).storeFirst byte)
  else if b = scu then (.fastUnicode, l.setMode false)
  else -- Srs
    (.endloop, { l with err := .illegalCharFound }.storeFirst byte)

/-- `case defineOne` -/
def defineOne (l : ToLocals) (byte : UInt8) : ToLabel × ToLocals :=
  let b := byte.toNat
  if b = 0 then
    -- callback(illegal): Reserved window offset value 0
    (.endloop, l.storeSecond byte)
  else if b < gapThreshold then (.fastSingle, (l.setOffset (b <<< 7)).setState .readCommand)
  else if b < reservedStart then
    (.fastSingle, (l.setOffset ((b <<< 7) + gapOffset)).setState .readCommand)
  else if b ≥ fixedThreshold then
    (.fastSingle, (l.setOffset (fixedOffsets.getD (b - fixedThreshold) 0)).setState .readCommand)
  else
    -- callback(illegal): Reserved window offset value 0xa8..0xf8
    (.endloop, l.storeSecond byte)

/-- `case quoteOne` -/
def quoteOne (targetLimit : Nat) (l : ToLocals) (byte : UInt8) : ToLabel × ToLocals :=
  let b := byte.toNat
  if b < 0x80 then
    (.fastSingle, (l.put (staticOffsets.get l.cnv.toUQuoteWindow + b)).setState .readCommand)
  else
    let c := l.cnv.toUDynamicOffsets.get l.cnv.toUQuoteWindow + (b &&& 0x7f)
    let (l, go) := l.putCodePoint targetLimit c
    if go then (.fastSingle, l.setState .readCommand) else (.endloop, l)

/-- The head and the body of the loop for single-byte mode. -/
def singleByteMode (targetLimit : Nat) (l : ToLocals) : ToLabel × ToLocals :=
  match l.source with
  | [] => (.endloop, l)
  | byte :: source =>
    if l.target.length ≥ targetLimit then
      (.endloop, { l with err := .bufferOverflowError }) -- target is full
    else
      let l := { l with source }
      let b := byte.toNat
      match l.cnv.toUState with
      | .readCommand => l.singleCommand byte
      | .quotePairOne =>
        (.singleByteMode, ((l.setByteOne b).storeSecond byte).setState .quotePairTwo)
      | .quotePairTwo =>
        (.fastSingle, (l.put (l.cnv.toUByteOne <<< 8 ||| b)).setState .readCommand)
      | .quoteOne => l.quoteOne targetLimit byte
      | .definePairOne =>
        (.singleByteMode, (((l.setWindow (Fin.ofNat 8 (b >>> 5 &&& 7))).setByteOne
          (b &&& 0x1f)).storeSecond byte).setState .definePairTwo)
      | .definePairTwo =>
        (.fastSingle, (l.setOffset (0x10000 + (l.cnv.toUByteOne <<< 15 ||| b <<< 7))).setState
          .readCommand)
      | .defineOne => l.defineOne byte

/-- `(uint8_t)(b-UC0)>(Urs-UC0)`: not a tag in Unicode mode. -/
def isUnicodeLead (b : UInt8) : Bool := b - UInt8.ofNat uc0 > UInt8.ofNat (urs - uc0)

/-- One round of the fast path for Unicode mode. -/
def fastUnicode (targetLimit : Nat) (l : ToLocals) : ToLabel × ToLocals :=
  match l.source with
  | b :: b2 :: source =>
    if l.target.length < targetLimit ∧ isUnicodeLead b then
      (.fastUnicode, { l.put (b.toNat <<< 8 ||| b2.toNat) with source })
    else (.unicodeByteMode, l)
  | _ => (.unicodeByteMode, l)

/-- `case readCommand` in Unicode mode. -/
def unicodeCommand (l : ToLocals) (byte : UInt8) : ToLabel × ToLocals :=
  let b := byte.toNat
  if isUnicodeLead byte then
    (.unicodeByteMode, ((l.setByteOne b).storeFirst byte).setState .quotePairTwo)
  else if b ≤ uc7 then (.fastSingle, (l.setWindow (windowOf b uc0)).setMode true)
  else if b ≤ ud7 then
    (.singleByteMode, (((l.setWindow (windowOf b ud0)).setMode true).storeFirst byte).setState
      .defineOne)
  else if b = udx then (.singleByteMode, ((l.setMode true).storeFirst byte).setState .definePairOne)
  else if b = uqu then (.unicodeByteMode, (l.storeFirst byte).setState .quotePairOne)
  else -- Urs
    (.endloop, { l with err := .illegalCharFound }.storeFirst byte)

/-- The head and the body of the loop for Unicode mode. -/
def unicodeByteMode (targetLimit : Nat) (l : ToLocals) : ToLabel × ToLocals :=
  match l.source with
  | [] => (.endloop, l)
  | byte :: source =>
    if l.target.length ≥ targetLimit then
      (.endloop, { l with err := .bufferOverflowError }) -- target is full
    else
      let l := { l with source }
      let b := byte.toNat
      match l.cnv.toUState with
      | .readCommand => l.unicodeCommand byte
      | .quotePairOne =>
        (.unicodeByteMode, ((l.setByteOne b).storeSecond byte).setState .quotePairTwo)
      | .quotePairTwo =>
        (.fastUnicode, (l.put (l.cnv.toUByteOne <<< 8 ||| b)).setState .readCommand)
      | _ => (.unicodeByteMode, l)

/-- One jump of `_SCSUToUnicode`. -/
def step (targetLimit : Nat) : ToLabel × ToLocals → Option (ToLabel × ToLocals)
  | (.fastSingle, l) => some (l.fastSingle targetLimit)
  | (.singleByteMode, l) => some (l.singleByteMode targetLimit)
  | (.fastUnicode, l) => some (l.fastUnicode targetLimit)
  | (.unicodeByteMode, l) => some (l.unicodeByteMode targetLimit)
  | (.endloop, _) => none

/-- The state that is set back into the converter. -/
def toDecoder (l : ToLocals) : Decoder :=
  if l.err ≠ .zeroError ∧ l.err ≠ .bufferOverflowError then
    -- reset to deal with the next character
    { l.cnv with toUState := .readCommand }
  else if l.cnv.toUState = .readCommand then { l.cnv with toUBytes := [] }
  else l.cnv

end ToLocals

/-- Where the conversion begins. -/
def Decoder.label (cnv : Decoder) : ToLabel :=
  if cnv.toUIsSingleByteMode then if cnv.toUState = .readCommand then .fastSingle
    else .singleByteMode
  else if cnv.toUState = .readCommand then .fastUnicode
  else .unicodeByteMode

/-- `_SCSUToUnicode(pArgs, pErrorCode)`: the locals at the end. -/
def toUnicodeLocals (cnv : Decoder) (source : List UInt8) (targetLimit : Nat) : ToLocals :=
  (Program.exec (ToLocals.step targetLimit) (2 * source.length + 3)
    (cnv.label, ⟨cnv, source, [], [], .zeroError⟩)).2

/-- A call with an empty overflow buffer, which is flushed after it. -/
def scsuToUnicode (cnv : Decoder) (source : List UInt8) (targetLimit : Nat) :
    Transducer.Reply Decoder UInt8 UInt16 :=
  let l := toUnicodeLocals cnv source targetLimit
  ⟨l.toDecoder, l.target ++ l.uCharErrorBuffer, l.source, decide (l.err = .illegalCharFound)⟩

/-- `(uint32_t)(c-x)` -/
def sub32 (c x : Nat) : Nat := (((c : Int) - x) % 0x100000000).toNat

def initialWindowUse : Vector Window 8 := #v[7, 0, 3, 2, 4, 5, 6, 1]

def initialWindowUseJa : Vector Window 8 := #v[3, 2, 4, 1, 0, 7, 5, 6]

inductive Locale
  | lGeneric
  | lJa
  deriving DecidableEq, Repr

/-- The members of `SCSUData` and of the `UConverter` that the encoder uses. -/
structure Encoder where
  fromUDynamicOffsets : Offsets
  fromUIsSingleByteMode : Bool
  fromUDynamicWindow : Window
  nextWindowUseIndex : Window
  windowUse : Vector Window 8
  fromUChar32 : Nat
  deriving DecidableEq

/-- `_SCSUReset(cnv, UCNV_RESET_FROM_UNICODE)` -/
def Encoder.initial (locale : Locale) : Encoder :=
  ⟨initialDynamicOffsets, true, 0, 0,
    match locale with
    | .lJa => initialWindowUseJa
    | .lGeneric => initialWindowUse, 0⟩

/-- Get the number of the window that this character is in. -/
def getWindow (offsets : Offsets) (c : Nat) : Option Window :=
  (List.finRange 8).find? fun i => sub32 c (offsets.get i) ≤ 0x7f

/-- Is the character in the dynamic window starting at the offset, or in the direct-encoded
range? -/
def isInOffsetWindowOrDirect (offset c : Nat) : Bool :=
  c ≤ offset + 0x7f && (c ≥ offset || (c ≤ 0x7f && (c ≥ 0x20 || isDirectControl c)))

/-- The next dynamic window to be redefined. -/
def Encoder.getNextDynamicWindow (scsu : Encoder) : Window × Encoder :=
  (scsu.windowUse.get scsu.nextWindowUseIndex,
    { scsu with nextWindowUseIndex := scsu.nextWindowUseIndex + 1 })

/-- Find the index of the window, backwards and in a wrapping manner. -/
def findUse (windowUse : Vector Window 8) (nextWindowUseIndex window : Window) : Window :=
  Program.exec (fun i => if windowUse.get i ≠ window then some (i - 1) else none) 8
    (nextWindowUseIndex - 1)

/-- `while(j!=scsu->nextWindowUseIndex)`: copy each `windowUse[j]` to `[i]`. -/
def moveUse (nextWindowUseIndex : Window) :
    Vector Window 8 × Window × Window → Option (Vector Window 8 × Window × Window)
  | (windowUse, i, j) =>
    if j ≠ nextWindowUseIndex then some (setAt windowUse i (windowUse.get j), j, j + 1) else none

/-- Move the existing window, which just became the most recently used one, up in `windowUse[]` to
`nextWindowUseIndex-1`. -/
def Encoder.useDynamicWindow (scsu : Encoder) (window : Window) : Encoder :=
  let i := findUse scsu.windowUse scsu.nextWindowUseIndex window
  let moved := Program.exec (moveUse scsu.nextWindowUseIndex) 8 (scsu.windowUse, i, i + 1)
  -- finally, set the window into the most recently used index
  { scsu with windowUse := setAt moved.1 moved.2.1 window }

/-- The offset code and the offset of a dynamic window that contains the character. -/
def getDynamicOffset (c : Nat) : Option (Nat × Nat) :=
  match (List.range 7).find? fun i => sub32 c (fixedOffsets.getD i 0) ≤ 0x7f with
  | some i => some (0xf9 + i, fixedOffsets.getD i 0)
  | none =>
    if c < 0x80 then none -- No dynamic window for US-ASCII.
    else if c < 0x3400 ∨ sub32 c 0x10000 < 0x14000 - 0x10000 ∨
      sub32 c 0x1d000 ≤ 0x1ffff - 0x1d000 then
      some (c >>> 7, c &&& 0x7fffff80)
    else if 0xe000 ≤ c ∧ c ≠ 0xfeff ∧ c < 0xfff0 then
      some ((c - gapOffset) >>> 7, c &&& 0x7fffff80)
    else none

/-- Change to a dynamic window. -/
def Encoder.changeWindow (scsu : Encoder) (window : Window) : Encoder :=
  { scsu with fromUDynamicWindow := window }.useDynamicWindow window

/-- Define the next dynamic window and change to it. -/
def Encoder.defineWindow (scsu : Encoder) (offset : Nat) : Encoder :=
  let window := scsu.getNextDynamicWindow.1
  let scsu := scsu.getNextDynamicWindow.2
  { scsu with fromUDynamicOffsets := setAt scsu.fromUDynamicOffsets window offset }.changeWindow
    window

/-! ## From Unicode -/

/-- The locals that are set back into the converter are kept in it, but for `c`. -/
structure FromLocals where
  cnv : Encoder
  source : List UInt16
  target : List UInt8
  targetCapacity : Nat
  c : Nat
  charErrorBuffer : List UInt8
  err : UErrorCode
  deriving DecidableEq

inductive FromLabel
  | loop
  | singleByteMode
  | getTrailSingle
  | unicodeByteMode
  | getTrailUnicode
  | endloop
  deriving DecidableEq

/-- `U16_IS_SURROGATE_LEAD(c)` -/
def u16IsSurrogateLead (c : Nat) : Bool := c &&& 0x400 == 0

/-- `(uint32_t)(c-0x3400)<(0xd800-0x3400)`: not compressible. -/
def isIdeograph (c : Nat) : Bool := sub32 c 0x3400 < 0xd800 - 0x3400

/-- `(uint32_t)(c-0x30)<10 || (uint32_t)(c-0x61)<26 || (uint32_t)(c-0x41)<26` -/
def isDigitOrLetter (c : Nat) : Bool := sub32 c 0x30 < 10 || sub32 c 0x61 < 26 || sub32 c 0x41 < 26

/-- The `switch` statements that write the low bytes of `c`. -/
def packedBytes (length c : Nat) : List UInt8 :=
  match length with
  | 4 => [UInt8.ofNat (c >>> 24), UInt8.ofNat (c >>> 16), UInt8.ofNat (c >>> 8), UInt8.ofNat c]
  | 3 => [UInt8.ofNat (c >>> 16), UInt8.ofNat (c >>> 8), UInt8.ofNat c]
  | 2 => [UInt8.ofNat (c >>> 8), UInt8.ofNat c]
  | 1 => [UInt8.ofNat c]
  | _ => []

namespace FromLocals

/-- The offset of the current window at every label. -/
def currentOffset (l : FromLocals) : Nat := l.cnv.fromUDynamicOffsets.get l.cnv.fromUDynamicWindow

/-- `*target++=(uint8_t)b; --targetCapacity;` -/
def putByte (l : FromLocals) (b : Nat) : FromLocals :=
  { l with target := l.target ++ [UInt8.ofNat b], targetCapacity := l.targetCapacity - 1 }

/-- Prepare for a new character. -/
def next (l : FromLocals) : FromLocals := { l with c := 0 }

def setMode (l : FromLocals) (isSingleByteMode : Bool) : FromLocals :=
  { l with cnv := { l.cnv with fromUIsSingleByteMode := isSingleByteMode } }

def changeWindow (l : FromLocals) (window : Window) : FromLocals :=
  { l with cnv := l.cnv.changeWindow window }

def defineWindow (l : FromLocals) (offset : Nat) : FromLocals :=
  { l with cnv := l.cnv.defineWindow offset }

/-- Write the output character bytes from `c` and `length`. -/
def outputBytes (l : FromLocals) (c length : Nat) : FromLabel × FromLocals :=
  if length ≤ l.targetCapacity then
    (.loop, { l with target := l.target ++ packedBytes length c,
                     targetCapacity := l.targetCapacity - length }.next)
  else
    -- output first to the overflow buffer what does not fit into the regular target
    let overflow := length - l.targetCapacity
    (.endloop, { l with charErrorBuffer := packedBytes overflow c,
                        target := l.target ++ packedBytes l.targetCapacity (c >>> (8 * overflow)),
                        targetCapacity := 0,
                        err := .bufferOverflowError }.next)

/-- The dynamic window and the byte in it: `...|(c-currentOffset)|0x80`. -/
def windowByte (l : FromLocals) (c : Nat) : Nat := sub32 c l.currentOffset ||| 0x80

/-- `((uint32_t)(tag+dynamicWindow)<<8)|(c-currentOffset)|0x80` -/
def outputChange (l : FromLocals) (tag c : Nat) : FromLabel × FromLocals :=
  l.outputBytes ((tag + l.cnv.fromUDynamicWindow) <<< 8 ||| l.windowByte c) 2

/-- `((uint32_t)(tag+dynamicWindow)<<16)|((uint32_t)code<<8)|(c-currentOffset)|0x80` -/
def outputDefine (l : FromLocals) (tag code c : Nat) : FromLabel × FromLocals :=
  l.outputBytes ((tag + l.cnv.fromUDynamicWindow) <<< 16 ||| code <<< 8 ||| l.windowByte c) 3

/--
`((uint32_t)tag<<24)|((uint32_t)dynamicWindow<<21)|((uint32_t)code<<8)|(c-currentOffset)|0x80` -/
def outputDefineExtended (l : FromLocals) (tag code c : Nat) : FromLabel × FromLocals :=
  l.outputBytes
    (tag <<< 24 ||| l.cnv.fromUDynamicWindow.val <<< 21 ||| (code - 0x200) <<< 8 ||| l.windowByte c)
      4

/-- Compress all other BMP characters in single-byte mode. -/
def compressBmp (l : FromLocals) (c : Nat) : FromLabel × FromLocals :=
  match getWindow l.cnv.fromUDynamicOffsets c with
  | some window =>
    -- there is a window defined that contains this character - switch to it or quote from it?
    let offset := l.cnv.fromUDynamicOffsets.get window
    if l.source.head?.all fun u => isInOffsetWindowOrDirect offset u.toNat then
      (l.changeWindow window).outputChange sc0 c
    else l.outputBytes ((sq0 + window) <<< 8 ||| sub32 c offset ||| 0x80) 2
  | none =>
    match getWindow staticOffsets c with
    | some window => l.outputBytes ((sq0 + window) <<< 8 ||| sub32 c (staticOffsets.get window)) 2
    | none =>
      match getDynamicOffset c with
      | some (code, offset) => (l.defineWindow offset).outputDefine sd0 code c
      | none =>
        if isIdeograph c ∧ l.source.head?.all fun u => isIdeograph u.toNat then
          -- switch to Unicode mode
          (l.setMode false).outputBytes (c ||| scu <<< 16) 3
        else l.outputBytes (c ||| squ <<< 16) 3

/-- The body of the loop for single-byte mode. -/
def singleUnit (l : FromLocals) (c : Nat) : FromLabel × FromLocals :=
  if sub32 c 0x20 ≤ 0x5f then (.singleByteMode, (l.putByte c).next)
  else if c < 0x20 then
    if isDirectControl c then (.singleByteMode, (l.putByte c).next)
    else l.outputBytes (c ||| sq0 <<< 8) 2
  else if sub32 c l.currentOffset ≤ 0x7f then (.singleByteMode, (l.putByte (l.windowByte c)).next)
  else if uIsSurrogate c then
    if u16IsSurrogateLead c then (.getTrailSingle, l)
    else (.endloop, { l with err := .illegalCharFound }) -- unmatched trail code unit
  else if c < 0xa0 then l.outputBytes ((c &&& 0x7f) ||| (sq0 + 1) <<< 8) 2
  else if c = 0xfeff ∨ c ≥ 0xfff0 then l.outputBytes (c ||| squ <<< 16) 3
  else l.compressBmp c

/-- The head of the loop for single-byte mode. -/
def singleByteMode (l : FromLocals) : FromLabel × FromLocals :=
  match l.source with
  | [] => (.endloop, l)
  | u :: source =>
    -- target is full
    if l.targetCapacity = 0 then (.endloop, { l with err := .bufferOverflowError })
    else { l with source, c := u.toNat }.singleUnit u.toNat

/-- Compress a supplementary character in single-byte mode. -/
def compressSupplementary (l : FromLocals) (lead trail c : Nat) : FromLabel × FromLocals :=
  if sub32 c l.currentOffset ≤ 0x7f then (.singleByteMode, (l.putByte (l.windowByte c)).next)
  else
    match getWindow l.cnv.fromUDynamicOffsets c with
    | some window => (l.changeWindow window).outputChange sc0 c
    | none =>
      match getDynamicOffset c with
      | some (code, offset) => (l.defineWindow offset).outputDefineExtended sdx code c
      | none =>
        -- change to Unicode mode and output this (lead, trail) pair
        ((l.setMode false).putByte scu).outputBytes (lead <<< 16 ||| trail) 4

/-- From the label `getTrailSingle`: test the following code unit. -/
def getTrailSingle (l : FromLocals) : FromLabel × FromLocals :=
  match l.source with
  | [] => (.endloop, l) -- no more input
  | trail :: source =>
    if u16IsTrail trail.toNat then
      { l with source }.compressSupplementary l.c trail.toNat (u16GetSupplementary l.c trail.toNat)
    else (.endloop, { l with err := .illegalCharFound }) -- unmatched lead code unit

/-- Compress a BMP character in Unicode mode if the following one is not an uncompressible
ideograph. -/
def compressUnicode (l : FromLocals) (c : Nat) : FromLabel × FromLocals :=
  if l.source.head?.any fun u => isIdeograph u.toNat then l.outputBytes c 2
  else if isDigitOrLetter c then
    (l.setMode true).outputBytes (c ||| ((uc0 + l.cnv.fromUDynamicWindow) <<< 8 ||| c)) 2
  else
    match getWindow l.cnv.fromUDynamicOffsets c with
    | some window => ((l.setMode true).changeWindow window).outputChange uc0 c
    | none =>
      match getDynamicOffset c with
      | some (code, offset) => ((l.setMode true).defineWindow offset).outputDefine ud0 code c
      | none => l.outputBytes c 2 -- don't know how to compress this character

/-- The body of the loop for Unicode mode. -/
def unicodeUnit (l : FromLocals) (c : Nat) : FromLabel × FromLocals :=
  if isIdeograph c then
    -- not compressible, write character directly
    if l.targetCapacity ≥ 2 then (.unicodeByteMode, ((l.putByte (c >>> 8)).putByte c).next)
    else l.outputBytes c 2
  else if sub32 c 0x3400 ≥ 0xf300 - 0x3400 then l.compressUnicode c
  else if c < 0xe000 then
    if u16IsSurrogateLead c then (.getTrailUnicode, l)
    else (.endloop, { l with err := .illegalCharFound }) -- unmatched trail code unit
  else l.outputBytes (c ||| uqu <<< 16) 3 -- quote to avoid SCSU tags

/-- The head of the loop for Unicode mode. -/
def unicodeByteMode (l : FromLocals) : FromLabel × FromLocals :=
  match l.source with
  | [] => (.endloop, l)
  | u :: source =>
    -- target is full
    if l.targetCapacity = 0 then (.endloop, { l with err := .bufferOverflowError })
    else { l with source, c := u.toNat }.unicodeUnit u.toNat

/-- Compress a supplementary character in Unicode mode. -/
def compressPair (l : FromLocals) (lead trail c : Nat) : FromLabel × FromLocals :=
  -- Here `none` stands for a window in which the character is not written, too.
  let window := if l.source.head?.any fun u => isIdeograph u.toNat then none
    else getWindow l.cnv.fromUDynamicOffsets c
  let dynamic := if l.source.head?.any fun u => lead == u.toNat then getDynamicOffset c else none
  match window with
  | some window => ((l.setMode true).changeWindow window).outputChange uc0 c
  | none =>
    match dynamic with
    | some (code, offset) => ((l.setMode true).defineWindow offset).outputDefineExtended udx code c
    | none => l.outputBytes (lead <<< 16 ||| trail) 4 -- write it directly

/-- From the label `getTrailUnicode`: test the following code unit. -/
def getTrailUnicode (l : FromLocals) : FromLabel × FromLocals :=
  match l.source with
  | [] => (.endloop, l) -- no more input
  | trail :: source =>
    if u16IsTrail trail.toNat then
      { l with source }.compressPair l.c trail.toNat (u16GetSupplementary l.c trail.toNat)
    else (.endloop, { l with err := .illegalCharFound }) -- unmatched lead code unit

/-- The label `loop`. -/
def loop (l : FromLocals) : FromLabel × FromLocals :=
  if l.cnv.fromUIsSingleByteMode then
    (if l.c ≠ 0 ∧ l.targetCapacity > 0 then .getTrailSingle else .singleByteMode, l)
  else (if l.c ≠ 0 ∧ l.targetCapacity > 0 then .getTrailUnicode else .unicodeByteMode, l)

/-- One jump of `_SCSUFromUnicode`. -/
def step : FromLabel × FromLocals → Option (FromLabel × FromLocals)
  | (.loop, l) => some l.loop
  | (.singleByteMode, l) => some l.singleByteMode
  | (.getTrailSingle, l) => some l.getTrailSingle
  | (.unicodeByteMode, l) => some l.unicodeByteMode
  | (.getTrailUnicode, l) => some l.getTrailUnicode
  | (.endloop, _) => none

/-- The state that is set back into the converter. -/
def toEncoder (l : FromLocals) : Encoder := { l.cnv with fromUChar32 := l.c }

end FromLocals

/-- `_SCSUFromUnicode(pArgs, pErrorCode)`: the locals at the end. -/
def fromUnicodeLocals (cnv : Encoder) (source : List UInt16) (targetCapacity : Nat) : FromLocals :=
  (Program.exec FromLocals.step (4 * source.length + 4)
    (.loop, ⟨cnv, source, [], targetCapacity, cnv.fromUChar32, [], .zeroError⟩)).2

/-- A call with an empty overflow buffer, which is flushed after it. -/
def scsuFromUnicode (cnv : Encoder) (source : List UInt16) (targetCapacity : Nat) :
    Transducer.Reply Encoder UInt16 UInt8 :=
  let l := fromUnicodeLocals cnv source targetCapacity
  ⟨l.toEncoder, l.target ++ l.charErrorBuffer, l.source, decide (l.err = .illegalCharFound)⟩

end Icu.Scsu
