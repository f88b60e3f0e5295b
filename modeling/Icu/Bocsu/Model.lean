import Icu.Utf16

/-! # BOCSU

The identical level of sort keys, `bocsu.cpp`. The differences of code points are small, so that
integers of type `int32_t` are unbounded here.
-/

namespace Icu.Bocsu

open Utf16

/-- Do not use byte values 0, 1, 2 because they are separators in sort keys. -/
def slopeMin : Int := 3

def slopeMax : Int := 0xff

def slopeMiddle : Int := 0x81

def slopeTailCount : Int := slopeMax - slopeMin + 1

def slopeMaxBytes : Nat := 4

def slopeSingle : Int := 80

def slopeLead2 : Int := 42

def slopeLead3 : Int := 3

def slopeReachPos1 : Int := slopeSingle

def slopeReachNeg1 : Int := -slopeSingle

def slopeReachPos2 : Int := slopeLead2 * slopeTailCount + (slopeLead2 - 1)

def slopeReachNeg2 : Int := -slopeReachPos2 - 1

def slopeReachPos3 : Int :=
  slopeLead3 * slopeTailCount * slopeTailCount + (slopeLead3 - 1) * slopeTailCount +
    (slopeTailCount - 1)

def slopeReachNeg3 : Int := -slopeReachPos3 - 1

def slopeStartPos2 : Int := slopeMiddle + slopeSingle + 1

def slopeStartPos3 : Int := slopeStartPos2 + slopeLead2

def slopeStartNeg2 : Int := slopeMiddle + slopeReachNeg1

def slopeStartNeg3 : Int := slopeStartNeg2 - slopeLead2

/-- `NEGDIVMOD(n, d, m)`: `n` and `m`. -/
def negDivMod (n d : Int) : Int × Int :=
  let m := n.tmod d
  let n := n.tdiv d
  if m < 0 then (n - 1, m + d) else (n, m)

/-- `(uint8_t)x` -/
def toByte (x : Int) : UInt8 := UInt8.ofNat (x % 0x100).toNat

/-- `u_writeDiff` -/
def uWriteDiff (diff : Int) : List UInt8 :=
  if diff ≥ slopeReachNeg1 then
    if diff ≤ slopeReachPos1 then [toByte (slopeMiddle + diff)]
    else if diff ≤ slopeReachPos2 then
      [toByte (slopeStartPos2 + diff.tdiv slopeTailCount),
        toByte (slopeMin + diff.tmod slopeTailCount)]
    else if diff ≤ slopeReachPos3 then
      let p2 := toByte (slopeMin + diff.tmod slopeTailCount)
      let diff := diff.tdiv slopeTailCount
      let p1 := toByte (slopeMin + diff.tmod slopeTailCount)
      [toByte (slopeStartPos3 + diff.tdiv slopeTailCount), p1, p2]
    else
      let p3 := toByte (slopeMin + diff.tmod slopeTailCount)
      let diff := diff.tdiv slopeTailCount
      let p2 := toByte (slopeMin + diff.tmod slopeTailCount)
      let diff := diff.tdiv slopeTailCount
      let p1 := toByte (slopeMin + diff.tmod slopeTailCount)
      [toByte slopeMax, p1, p2, p3]
  else if diff ≥ slopeReachNeg2 then
    let (diff, m) := negDivMod diff slopeTailCount
    [toByte (slopeStartNeg2 + diff), toByte (slopeMin + m)]
  else if diff ≥ slopeReachNeg3 then
    let (diff, m2) := negDivMod diff slopeTailCount
    let (diff, m1) := negDivMod diff slopeTailCount
    [toByte (slopeStartNeg3 + diff), toByte (slopeMin + m1), toByte (slopeMin + m2)]
  else
    let (diff, m3) := negDivMod diff slopeTailCount
    let (diff, m2) := negDivMod diff slopeTailCount
    let (_, m1) := negDivMod diff slopeTailCount
    [toByte slopeMin, toByte (slopeMin + m1), toByte (slopeMin + m2), toByte (slopeMin + m3)]

/-- `prev` in the middle of its block, or of the Unihan area. `prev&~0x7f` rounds down. -/
def movePrev (prev : Int) : Int :=
  if prev < 0x4e00 ∨ prev ≥ 0xa000 then prev / 0x80 * 0x80 - slopeReachNeg1
  else 0x9fff - slopeReachPos2

/-- The new `prev` and the bytes of a code point, with the merge separator for U+FFFE. -/
def writeCodePoint (prev : Int) (c : Nat) : Int × List UInt8 :=
  let prev := movePrev prev
  if c = 0xfffe then (0, [2]) else (c, uWriteDiff (c - prev))

/-- The inner loop: `prev`, `i` and the bytes in the buffer. Each round moves `i`, so that the
length of the string is enough fuel. -/
def fillBuffer (s : List UInt16) (capacity : Int) :
    Nat → Int → Nat → List UInt8 → Option (Int × Nat × List UInt8)
  | 0, _, _, _ => none
  | fuel + 1, prev, i, buffer =>
    if i < s.length ∧ (buffer.length : Int) ≤ capacity - slopeMaxBytes then do
      let (c, i) ← u16Next s i s.length
      let (prev, bytes) := writeCodePoint prev c
      fillBuffer s capacity fuel prev i (buffer ++ bytes)
    else some (prev, i, buffer)

/-- The outer loop. `capacities` are the capacities that `sink.GetAppendBuffer` returns, one for
each call, and `sink` is what was appended. -/
def fillBuffers (s : List UInt16) (capacities : Nat → Int) :
    Nat → Nat → Int → Nat → List UInt8 → Option (Int × List UInt8)
  | 0, _, _, _, _ => none
  | fuel + 1, call, prev, i, sink =>
    if i < s.length then do
      let capacity := capacities call
      let capacity := if capacity < 16 then 64 else capacity
      let (prev, i, buffer) ← fillBuffer s capacity (s.length + 1) prev i []
      fillBuffers s capacities fuel (call + 1) prev i (sink ++ buffer)
    else some (prev, sink)

/-- `u_writeIdenticalLevelRun`: the last `prev` and what is appended to the sink. -/
def uWriteIdenticalLevelRun (capacities : Nat → Int) (prev : Int) (s : List UInt16) :
    Option (Int × List UInt8) :=
  fillBuffers s capacities (s.length + 1) 0 prev 0 []

end Icu.Bocsu
