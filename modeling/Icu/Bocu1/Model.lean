import Icu.ErrorCode
import Icu.Utf16
import Icu.Lib.Program
import Icu.Lib.Transducer

/-! # BOCU-1

The converter of `ucnvbocu.cpp`. Integers of type `int32_t` are unbounded here where all
their values are small, and `mode`, which also keeps values that nobody reads, has 32 bits.
The labels of the two conversion functions are explicit, and a step runs from one label to
the next. A `target` is the list of what was written.
-/

namespace Icu.Bocu1

open Utf16 Lib

/-- initial value for "prev": middle of the ASCII range -/
def asciiPrev : Int := 0x40

/-- bounding byte values for differences -/
def min : Int := 0x21

def middle : Int := 0x90

def reset : Int := 0xff

def trailControlsCount : Int := 20

def trailByteOffset : Int := min - trailControlsCount

/-- number of trail bytes -/
def trailCount : Int := (0xff - min + 1) + trailControlsCount

def single : Int := 64

def lead2 : Int := 43

def lead3 : Int := 3

def reachPos1 : Int := single - 1

def reachNeg1 : Int := -single

def reachPos2 : Int := reachPos1 + lead2 * trailCount

def reachNeg2 : Int := reachNeg1 - lead2 * trailCount

def reachPos3 : Int := reachPos2 + lead3 * trailCount * trailCount

def reachNeg3 : Int := reachNeg2 - lead3 * trailCount * trailCount

/-- The lead byte start values. -/
def startPos2 : Int := middle + reachPos1 + 1

def startPos3 : Int := startPos2 + lead2

def startPos4 : Int := startPos3 + lead3

def startNeg2 : Int := middle + reachNeg1

def startNeg3 : Int := startNeg2 - lead2

/-- from external byte values 0x00..0x20 to trail byte values 0..19 -/
def bocu1ByteToTrail : List Int :=
  [-1, 0x00, 0x01, 0x02, 0x03, 0x04, 0x05, -1,
   -1, -1, -1, -1, -1, -1, -1, -1,
   0x06, 0x07, 0x08, 0x09, 0x0a, 0x0b, 0x0c, 0x0d,
   0x0e, 0x0f, -1, -1, 0x10, 0x11, 0x12, 0x13,
   -1]

/-- from trail byte values 0..19 to external byte values 0x00..0x20 -/
def bocu1TrailToByte : List Int :=
  [0x01, 0x02, 0x03, 0x04, 0x05, 0x06, 0x10, 0x11,
   0x12, 0x13, 0x14, 0x15, 0x16, 0x17, 0x18, 0x19,
   0x1c, 0x1d, 0x1e, 0x1f]

/-- `BOCU1_TRAIL_TO_BYTE(t)` -/
def trailToByte (t : Int) : Int :=
  if t ≥ trailControlsCount then t + trailByteOffset else bocu1TrailToByte.getD t.toNat 0

/-- `NEGDIVMOD(n, d, m)`: the new `n`, and `m`. -/
def negDivMod (n d : Int) : Int × Int :=
  if n.tmod d < 0 then (n.tdiv d - 1, n.tmod d + d) else (n.tdiv d, n.tmod d)

def diffIsSingle (diff : Int) : Bool := reachNeg1 ≤ diff && diff ≤ reachPos1

def packSingleDiff (diff : Int) : Int := middle + diff

def diffIsDouble (diff : Int) : Bool := reachNeg2 ≤ diff && diff ≤ reachPos2

/-- `BOCU1_SIMPLE_PREV(c)`, with `c&~0x7f` as the multiple of 0x80 below `c`. -/
def simplePrev (c : Int) : Int := c / 0x80 * 0x80 + asciiPrev

/-- `bocu1Prev(c)`, for 0x3040..0xd7a3. -/
def bocu1Prev (c : Int) : Int :=
  if c ≤ 0x309f then 0x3070 -- Hiragana is not 128-aligned
  else if 0x4e00 ≤ c ∧ c ≤ 0x9fa5 then 0x4e00 - reachNeg2 -- CJK Unihan
  else if 0xac00 ≤ c then (0xd7a3 + 0xac00) / 2 -- Korean Hangul
  else simplePrev c -- mostly small scripts

/-- `BOCU1_PREV(c)` -/
def bocu1PREV (c : Int) : Int := if c < 0x3040 ∨ c > 0xd7a3 then simplePrev c else bocu1Prev c

/-- `packDiff(diff)`, as an unsigned 32-bit integer. -/
def packDiff (diff : Int) : Nat :=
  if diff ≥ reachNeg1 then
    -- mostly positive differences, and single-byte negative ones
    if diff ≤ reachPos2 then
      -- two bytes
      let diff := diff - (reachPos1 + 1)
      0x02000000 ||| (trailToByte (diff.tmod trailCount)).toNat
        ||| (startPos2 + diff.tdiv trailCount).toNat <<< 8
    else if diff ≤ reachPos3 then
      -- three bytes
      let diff := diff - (reachPos2 + 1)
      let m := diff.tmod trailCount
      let diff := diff.tdiv trailCount
      0x03000000 ||| (trailToByte m).toNat ||| (trailToByte (diff.tmod trailCount)).toNat <<< 8
        ||| (startPos3 + diff.tdiv trailCount).toNat <<< 16
    else
      -- four bytes
      let diff := diff - (reachPos3 + 1)
      let m := diff.tmod trailCount
      let diff := diff.tdiv trailCount
      -- We know that / and % would deliver quotient 0 and rest=diff.
      (trailToByte m).toNat ||| (trailToByte (diff.tmod trailCount)).toNat <<< 8
        ||| (trailToByte (diff.tdiv trailCount)).toNat <<< 16 ||| startPos4.toNat <<< 24
  else
    -- two- to four-byte negative differences
    if diff ≥ reachNeg2 then
      -- two bytes
      let (diff, m) := negDivMod (diff - reachNeg1) trailCount
      0x02000000 ||| (trailToByte m).toNat ||| (startNeg2 + diff).toNat <<< 8
    else if diff ≥ reachNeg3 then
      -- three bytes
      let (diff, m) := negDivMod (diff - reachNeg2) trailCount
      let (diff, m') := negDivMod diff trailCount
      0x03000000 ||| (trailToByte m).toNat ||| (trailToByte m').toNat <<< 8
        ||| (startNeg3 + diff).toNat <<< 16
    else
      -- four bytes
      let (diff, m) := negDivMod (diff - reachNeg3) trailCount
      let (diff, m') := negDivMod diff trailCount
      -- We know that NEGDIVMOD would deliver quotient -1 and rest=diff+BOCU1_TRAIL_COUNT.
      (trailToByte m).toNat ||| (trailToByte m').toNat <<< 8
        ||| (trailToByte (diff + trailCount)).toNat <<< 16 ||| min.toNat <<< 24

/-- `BOCU1_LENGTH_FROM_PACKED(packed)` -/
def lengthFromPacked (packed : Nat) : Nat := if packed < 0x04000000 then packed >>> 24 else 4

/-- `(uint8_t)x` -/
def toByte (x : Int) : UInt8 := UInt8.ofNat (x % 0x100).toNat

/-- `(UChar)x` -/
def toUnit (x : Int) : UInt16 := UInt16.ofNat (x % 0x10000).toNat

/-- The `switch` statements that write the low bytes of a packed difference. -/
def packedBytes (length : Nat) (packed : Nat) : List UInt8 :=
  match length with
  | 4 => [toByte (packed >>> 24), toByte (packed >>> 16), toByte (packed >>> 8), toByte packed]
  | 3 => [toByte (packed >>> 16), toByte (packed >>> 8), toByte packed]
  | 2 => [toByte (packed >>> 8), toByte packed]
  | 1 => [toByte packed]
  | _ => []

/-- The fields of the `UConverter` that the encoder uses. -/
structure Encoder where
  fromUChar32 : Int
  fromUnicodeStatus : Int
  deriving DecidableEq, Repr

def Encoder.initial : Encoder := ⟨0, 0⟩

structure FromLocals where
  source : List UInt16
  target : List UInt8
  targetCapacity : Nat
  prev : Int
  c : Int
  charErrorBuffer : List UInt8
  err : UErrorCode
  deriving DecidableEq

inductive FromLabel
  | fastSingle
  | loop
  | getTrail
  | done
  deriving DecidableEq

namespace FromLocals

/-- The fast loop for single-byte differences, with its loop counter. -/
def fastLoop : Nat → FromLocals → FromLocals
  | 0, l => l
  | targetCapacity + 1, l =>
    match l.source with
    | [] => l
    | u :: source =>
      let c : Int := u.toNat
      if c < 0x3000 then
        if c ≤ 0x20 then
          fastLoop targetCapacity
            { l with source, c, prev := if c ≠ 0x20 then asciiPrev else l.prev,
                     target := l.target ++ [toByte c] }
        else
          let diff := c - l.prev
          if diffIsSingle diff then
            fastLoop targetCapacity
              { l with source, c, prev := simplePrev c,
                       target := l.target ++ [toByte (packSingleDiff diff)] }
          else { l with c }
      else { l with c }

/-- From the label `fastSingle` to the regular loop. -/
def fastSingle (targetLimit : Nat) (l : FromLocals) : FromLocals :=
  let l := l.fastLoop (Min.min l.targetCapacity l.source.length)
  -- restore real values
  { l with targetCapacity := targetLimit - l.target.length }

/-- The rest of the loop body: encode the difference of `c`. -/
def putDiff (l : FromLocals) : FromLabel × FromLocals :=
  let diff := l.c - l.prev
  let l := { l with prev := bocu1PREV l.c }
  if diffIsSingle diff then
    let l := { l with target := l.target ++ [toByte (packSingleDiff diff)],
                      targetCapacity := l.targetCapacity - 1 }
    (if l.c < 0x3000 then .fastSingle else .loop, l)
  else if diffIsDouble diff ∧ 2 ≤ l.targetCapacity then
    -- optimize 2-byte case
    let (diff, m) :=
      if diff ≥ 0 then
        let diff := diff - (reachPos1 + 1)
        (diff.tdiv trailCount + startPos2, diff.tmod trailCount)
      else
        let (diff, m) := negDivMod (diff - reachNeg1) trailCount
        (diff + startNeg2, m)
    (.loop, { l with target := l.target ++ [toByte diff, toByte (trailToByte m)],
                     targetCapacity := l.targetCapacity - 2 })
  else
    let packed := packDiff diff
    let length := lengthFromPacked packed
    if length ≤ l.targetCapacity then
      -- case 2: handled above
      let bytes := if length ≥ 3 then packedBytes length packed else []
      (.loop, { l with target := l.target ++ bytes,
                       targetCapacity := l.targetCapacity - length })
    else
      -- we know that 1<=targetCapacity<length<=4
      let overflow := length - l.targetCapacity
      (.done, { l with charErrorBuffer := packedBytes overflow packed,
                       target := l.target ++
                         packedBytes l.targetCapacity (packed >>> (8 * overflow)),
                       targetCapacity := 0,
                       err := .bufferOverflowError })

/-- From the label `getTrail`: test the following code unit. -/
def getTrail (l : FromLocals) : FromLabel × FromLocals :=
  match l.source with
  | [] => (.done, { l with c := -l.c }) -- no more input
  | trail :: source =>
    if u16IsTrail trail.toNat then
      { l with source, c := u16GetSupplementary l.c.toNat trail.toNat }.putDiff
    else l.putDiff

/-- The head and the body of the regular loop for all cases. -/
def loop (l : FromLocals) : FromLabel × FromLocals :=
  match l.source with
  | [] => (.done, l)
  | u :: source =>
    if l.targetCapacity > 0 then
      let l := { l with source, c := u.toNat }
      if l.c ≤ 0x20 then
        (.loop, { l with prev := if l.c ≠ 0x20 then asciiPrev else l.prev,
                         target := l.target ++ [toByte l.c],
                         targetCapacity := l.targetCapacity - 1 })
      else if u16IsLead u.toNat then (.getTrail, l)
      else l.putDiff
    else (.done, { l with err := .bufferOverflowError }) -- target is full

/-- One jump of `_Bocu1FromUnicode`. -/
def step (targetLimit : Nat) : FromLabel × FromLocals → Option (FromLabel × FromLocals)
  | (.fastSingle, l) => some (.loop, l.fastSingle targetLimit)
  | (.loop, l) => some l.loop
  | (.getTrail, l) => some l.getTrail
  | (.done, _) => none

end FromLocals

/-- `_Bocu1FromUnicode(pArgs, pErrorCode)`: the locals at the end. -/
def fromUnicodeLocals (cnv : Encoder) (source : List UInt16) (targetCapacity : Nat) : FromLocals :=
  let prev := if cnv.fromUnicodeStatus = 0 then asciiPrev else cnv.fromUnicodeStatus
  let l : FromLocals := ⟨source, [], targetCapacity, prev, cnv.fromUChar32, [], .zeroError⟩
  let start : FromLabel := if l.c ≠ 0 ∧ targetCapacity > 0 then .getTrail else .fastSingle
  (Program.exec (FromLocals.step targetCapacity) (3 * source.length + 4) (start, l)).2

def FromLocals.toEncoder (l : FromLocals) : Encoder := ⟨if l.c < 0 then -l.c else 0, l.prev⟩

/-- A call with an empty overflow buffer, which is flushed after it. -/
def bocu1FromUnicode (cnv : Encoder) (source : List UInt16) (targetCapacity : Nat) :
    Transducer.Reply Encoder UInt16 UInt8 :=
  let l := fromUnicodeLocals cnv source targetCapacity
  ⟨l.toEncoder, l.target ++ l.charErrorBuffer, l.source, false⟩

/-! ## To Unicode -/

/-- `(diff<<2)|count` -/
def packState (diff count : Int) : BitVec 32 := BitVec.ofInt 32 diff <<< 2 ||| BitVec.ofInt 32 count

/-- `state&3` -/
def stateCount (state : BitVec 32) : Int := (state &&& 3).toNat

/-- `state>>2` -/
def stateDiff (state : BitVec 32) : Int := (state.sshiftRight 2).toInt

/-- `decodeBocu1LeadByte(b)` -/
def decodeBocu1LeadByte (b : Int) : BitVec 32 :=
  if b ≥ startNeg2 then
    -- positive difference
    if b < startPos3 then packState ((b - startPos2) * trailCount + reachPos1 + 1) 1
    else if b < startPos4 then
      packState ((b - startPos3) * trailCount * trailCount + reachPos2 + 1) 2
    else packState (reachPos3 + 1) 3
  else
    -- negative difference
    if b ≥ startNeg3 then packState ((b - startNeg2) * trailCount + reachNeg1) 1
    else if b > min then packState ((b - startNeg3) * trailCount * trailCount + reachNeg2) 2
    else packState (-trailCount * trailCount * trailCount + reachNeg3) 3

/-- `decodeBocu1TrailByte(count, b)`: a negative result indicates an error. -/
def decodeBocu1TrailByte (count b : Int) : Int :=
  -- skip some C0 controls and make the trail byte range contiguous
  let b := if b ≤ 0x20 then bocu1ByteToTrail.getD b.toNat (-1) else b - trailByteOffset
  if count = 1 then b
  else if count = 2 then b * trailCount
  else b * (trailCount * trailCount)

/-- The fields of the `UConverter` that the decoder uses. `toUBytes` has `toULength` bytes. -/
structure Decoder where
  toUnicodeStatus : Int
  mode : BitVec 32
  toUBytes : List UInt8
  deriving DecidableEq, Repr

def Decoder.initial : Decoder := ⟨0, 0, []⟩

structure ToLocals where
  source : List UInt8
  target : List UInt16
  prev : Int
  diff : Int
  count : Int
  c : Int
  bytes : List UInt8
  uCharErrorBuffer : List UInt16
  err : UErrorCode
  deriving DecidableEq

inductive ToLabel
  | fastSingle
  | loop
  | getTrail
  | done
  deriving DecidableEq

namespace ToLocals

/-- The fast loop for single-byte differences, with its loop counter `count`. -/
def fastLoop : Nat → ToLocals → ToLocals
  | 0, l => { l with count := 0 }
  | count + 1, l =>
    match l.source with
    | [] => { l with count := count + 1 }
    | b :: source =>
      let c : Int := b.toNat
      if startNeg2 ≤ c ∧ c < startPos2 then
        let c := l.prev + (c - middle)
        if c < 0x3000 then
          fastLoop count { l with source, c, target := l.target ++ [toUnit c],
                                  prev := simplePrev c }
        else { l with c, count := count + 1 }
      else if c ≤ 0x20 then
        fastLoop count { l with source, c, target := l.target ++ [toUnit c],
                                prev := if c ≠ 0x20 then asciiPrev else l.prev }
      else { l with c, count := count + 1 }

/-- From the label `fastSingle` to the loop over single and lead bytes. -/
def fastSingle (targetLimit : Nat) (l : ToLocals) : ToLocals :=
  let count := Min.min (targetLimit - l.target.length) l.source.length
  { l with diff := l.source.length }.fastLoop count

/-- The rest of the loop body: calculate the next prev and output c. -/
def putCodePoint (targetLimit : Nat) (l : ToLocals) : ToLabel × ToLocals :=
  let l : ToLocals := { l with prev := bocu1PREV l.c }
  if l.c ≤ 0xffff then (.loop, { l with target := l.target ++ [toUnit l.c] })
  else
    -- output surrogate pair
    let l : ToLocals := { l with target := l.target ++ [u16Lead l.c.toNat] }
    if l.target.length < targetLimit then
      (.loop, { l with target := l.target ++ [u16Trail l.c.toNat] })
    else
      -- target overflow
      (.done, { l with uCharErrorBuffer := [u16Trail l.c.toNat], err := .bufferOverflowError })

/-- From the label `getTrail`: one round of the loop over trail bytes. -/
def getTrail (targetLimit : Nat) (l : ToLocals) : ToLabel × ToLocals :=
  match l.source with
  | [] => (.done, l)
  | b :: source =>
    let l : ToLocals := { l with source, bytes := l.bytes ++ [b],
                                 c := decodeBocu1TrailByte l.count b.toNat }
    if l.c < 0 then (.done, { l with err := .illegalCharFound })
    else
      let l : ToLocals := { l with diff := l.diff + l.c, count := l.count - 1 }
      if l.count = 0 then
        -- final trail byte, deliver a code point
        let l : ToLocals := { l with bytes := [], c := l.prev + l.diff }
        if l.c < 0 ∨ l.c > 0x10ffff then (.done, { l with err := .illegalCharFound })
        else l.putCodePoint targetLimit
      else (.getTrail, l)

/-- The two-byte case, with its trail byte. -/
def doubleByte (targetLimit : Nat) (l : ToLocals) (lead trail : UInt8) : ToLabel × ToLocals :=
  let diff :=
    if (lead.toNat : Int) ≥ middle then (lead.toNat - startPos2) * trailCount + reachPos1 + 1
    else (lead.toNat - startNeg2) * trailCount + reachNeg1
  let t := decodeBocu1TrailByte 1 trail.toNat
  let c := if t < 0 then t else l.prev + diff + t
  let l : ToLocals := { l with diff, c }
  if t < 0 ∨ c < 0 ∨ c > 0x10ffff then
    (.done, { l with bytes := [lead, trail], err := .illegalCharFound })
  else l.putCodePoint targetLimit

/-- The head and the body of the loop over single and lead bytes. -/
def loop (targetLimit : Nat) (l : ToLocals) : ToLabel × ToLocals :=
  match l.source with
  | [] => (.done, l)
  | b :: source =>
    if l.target.length ≥ targetLimit then
      (.done, { l with err := .bufferOverflowError }) -- target is full
    else
      let l : ToLocals := { l with source, c := b.toNat }
      if startNeg2 ≤ l.c ∧ l.c < startPos2 then
        -- Write a code point directly from a single-byte difference.
        let l : ToLocals := { l with c := l.prev + (l.c - middle) }
        if l.c < 0x3000 then
          (.fastSingle, { l with target := l.target ++ [toUnit l.c], prev := simplePrev l.c })
        else l.putCodePoint targetLimit
      else if l.c ≤ 0x20 then
        -- Reset prev for C0 control codes but not for space.
        (.loop, { l with prev := if l.c ≠ 0x20 then asciiPrev else l.prev,
                         target := l.target ++ [toUnit l.c] })
      else
        match decide (startNeg3 ≤ l.c ∧ l.c < startPos3), source with
        | true, trail :: source => { l with source }.doubleByte targetLimit b trail
        | _, _ =>
          if l.c = reset then (.loop, { l with prev := asciiPrev })
          else
            let state := decodeBocu1LeadByte l.c
            (.getTrail, { l with bytes := [b], diff := stateDiff state,
                                 count := stateCount state })

/-- One jump of `_Bocu1ToUnicode`. -/
def step (targetLimit : Nat) : ToLabel × ToLocals → Option (ToLabel × ToLocals)
  | (.fastSingle, l) => some (.loop, l.fastSingle targetLimit)
  | (.loop, l) => some (l.loop targetLimit)
  | (.getTrail, l) => some (l.getTrail targetLimit)
  | (.done, _) => none

/-- The state that is set back into the converter. -/
def toDecoder (l : ToLocals) : Decoder :=
  if l.err = .illegalCharFound then ⟨asciiPrev, 0, l.bytes⟩
  else ⟨l.prev, packState l.diff l.count, l.bytes⟩

end ToLocals

/-- `_Bocu1ToUnicode(pArgs, pErrorCode)`: the locals at the end. -/
def toUnicodeLocals (cnv : Decoder) (source : List UInt8) (targetLimit : Nat) : ToLocals :=
  let prev := if cnv.toUnicodeStatus = 0 then asciiPrev else cnv.toUnicodeStatus
  let l : ToLocals := ⟨source, [], prev, stateDiff cnv.mode, stateCount cnv.mode, 0, cnv.toUBytes,
    [], .zeroError⟩
  let start : ToLabel :=
    if l.count > 0 ∧ l.bytes.length > 0 ∧ 0 < targetLimit then .getTrail else .fastSingle
  (Program.exec (ToLocals.step targetLimit) (2 * source.length + 3) (start, l)).2

/-- A call with an empty overflow buffer, which is flushed after it. -/
def bocu1ToUnicode (cnv : Decoder) (source : List UInt8) (targetLimit : Nat) :
    Transducer.Reply Decoder UInt8 UInt16 :=
  let l := toUnicodeLocals cnv source targetLimit
  ⟨l.toDecoder, l.target ++ l.uCharErrorBuffer, l.source, decide (l.err = .illegalCharFound)⟩

end Icu.Bocu1
