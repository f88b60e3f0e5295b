import Icu.ErrorCode
import Icu.UnicodeSet.Algebra
import Icu.UnicodeSet.Span
import Mathlib.Data.List.TakeWhile

/-! # Serialized sets

A set without strings is serialized as its list: one unit with the number of array units,
one with the number of BMP units if there are supplementary values, then one unit for each
BMP value and two for each supplementary value, without the sentinel. The reader searches
the array in place. It computes with signed indexes, and a read outside of the array has
no result.
-/

namespace Icu

open UnicodeSet Utf16 Lib

/-- The return value of `serialize`, the units that it writes, and the error code. -/
structure SerializeResult where
  destLength : Nat
  dest : List UInt16
  ec : UErrorCode
  deriving DecidableEq

/-- `for (bmpLength=0; bmpLength<length && list[bmpLength]<=0xffff; ++bmpLength) {}` -/
def countBmp : List Int → Nat → Nat
  | x :: xs, length + 1 => if x ≤ 0xffff then countBmp xs length + 1 else 0
  | _, _ => 0

def lowUnit (x : Int) : UInt16 := UInt16.ofNat (x.toNat % 0x10000)

def highUnit (x : Int) : UInt16 := UInt16.ofNat (x.toNat / 0x10000)

/-- `serialize(dest, destCapacity, ec)`, with an error code that is not yet a failure. -/
def UnicodeSet.serialize (set : UnicodeSet) (destCapacity : Nat) : Option SerializeResult := do
  let length := set.list.length - 1 -- Subtract 1 to ignore final UNICODESET_HIGH
  if length = 0 then
    -- empty set
    if destCapacity > 0 then return ⟨1, [0], .zeroError⟩
    else return ⟨1, [], .bufferOverflowError⟩
  else
    let last ← set.list[length - 1]?
    let first ← set.list[0]?
    let (bmpLength, length) :=
      if last ≤ 0xffff then (length, length) -- all BMP
      else if first ≥ 0x10000 then (0, length * 2) -- all supplementary
      else
        let bmpLength := countBmp set.list length
        (bmpLength, bmpLength + 2 * (length - bmpLength))
    if length > 0x7fff then return ⟨0, [], .indexOutOfBoundsError⟩
    else
      let destLength := length + (if length > bmpLength then 2 else 1)
      if destLength ≤ destCapacity then
        let header :=
          if length > bmpLength then [UInt16.ofNat (length ||| 0x8000), UInt16.ofNat bmpLength]
          else [UInt16.ofNat length]
        let bmp := (set.list.take bmpLength).map lowUnit
        let supplementary :=
          ((set.list.drop bmpLength).take ((length - bmpLength) / 2)).flatMap fun x =>
            [highUnit x, lowUnit x]
        return ⟨destLength, header ++ bmp ++ supplementary, .zeroError⟩
      else return ⟨destLength, [], .bufferOverflowError⟩

structure USerializedSet where
  array : List UInt16
  bmpLength : Nat
  length : Nat
  deriving DecidableEq

/-- `uset_getSerializedSet(fillSet, src, srcLength)`; `none` stands for `FALSE`. -/
def usetGetSerializedSet (src : List UInt16) : Option USerializedSet :=
  match src with
  | [] => none
  | first :: rest =>
    if first.toNat &&& 0x8000 ≠ 0 then
      -- there are supplementary values
      let length := first.toNat &&& 0x7fff
      if src.length < 2 + length then none
      else
        match rest with
        | [] => none
        | bmpLength :: array => some ⟨array, bmpLength.toNat, length⟩
    else if src.length < 1 + first.toNat then none
    else some ⟨rest, first.toNat, first.toNat⟩

namespace USerializedSet

variable (set : USerializedSet)

/-- `array[i]`, only for an index inside of the array. -/
def read (i : Int) : Option Nat :=
  if 0 ≤ i ∧ i < set.length then set.array[i.toNat]?.map (·.toNat) else none

/-- Is `c`, given by its halves, below the supplementary value at array index `i`? The
second unit is read only when the first ones are equal. -/
def belowPair (high low : Nat) (i : Int) : Option Bool := do
  let x ← set.read i
  if high < x then return true
  else if high = x then
    let y ← set.read (i + 1)
    return decide (low < y)
  else return false

def searchBmp (c : Nat) : Nat → Int → Int → Option Int
  | 0, _, _ => none
  | fuel + 1, lo, hi =>
    let i := (lo + hi) / 2
    if i = lo then some hi
    else
      match set.read i with
      | none => none
      | some x => if c < x then searchBmp c fuel lo i else searchBmp c fuel i hi

def searchSupplementary (high low : Nat) (base : Int) : Nat → Int → Int → Option Int
  | 0, _, _ => none
  | fuel + 1, lo, hi =>
    let i := (lo + hi) / 2 / 2 * 2 -- Guarantee even result
    if i = lo then some hi
    else
      match set.belowPair high low (i + base) with
      | none => none
      | some true => searchSupplementary high low base fuel lo i
      | some false => searchSupplementary high low base fuel i hi

end USerializedSet

/-- `uset_serializedContains(set, c)`. -/
def usetSerializedContains (set : USerializedSet) (c : Nat) : Option Bool :=
  if c > 0x10ffff then some false
  else if c ≤ 0xffff then do
    -- find c in the BMP part
    let hi : Int := set.bmpLength - 1
    let first ← set.read 0
    let hi ←
      if c < first then pure 0
      else do
        let last ← set.read hi
        if c < last then set.searchBmp c (set.length + 1) 0 hi else pure (hi + 1)
    return decide (hi % 2 = 1)
  else do
    -- find c in the supplementary part
    let high := c >>> 16
    let low := c % 0x10000
    let base : Int := set.bmpLength
    let hi : Int := set.length - 2 - base
    let below ← set.belowPair high low base
    let hi ←
      if below then pure 0
      else do
        let below ← set.belowPair high low (base + hi)
        if below then set.searchSupplementary high low base (set.length + 1) 0 hi
        else pure (hi + 2)
    -- count pairs of 16-bit units even per BMP and check if the number of pairs is odd
    return decide ((hi + base * 2) / 2 % 2 = 1)

def usetGetSerializedRangeCount (set : USerializedSet) : Nat :=
  (set.bmpLength + (set.length - set.bmpLength) / 2 + 1) / 2

def USerializedSet.readPair (set : USerializedSet) (i : Int) : Option Int := do
  let x ← set.read i
  let y ← set.read (i + 1)
  return ((((x <<< 16) ||| y : Nat)) : Int)

/-- `uset_getSerializedRange(set, rangeIndex, pStart, pEnd)`: the outer `none` is a read
outside of the array, the inner one stands for `FALSE`. -/
def usetGetSerializedRange (set : USerializedSet) (rangeIndex : Nat) :
    Option (Option (Int × Int)) := do
  let rangeIndex := rangeIndex * 2 -- address start/limit pairs
  if rangeIndex < set.bmpLength then
    let start ← set.read rangeIndex
    let rangeIndex := rangeIndex + 1
    if rangeIndex < set.bmpLength then
      return some (start, (((← set.read rangeIndex) : Nat) : Int) - 1)
    else if rangeIndex < set.length then
      return some (start, (← set.readPair rangeIndex) - 1)
    else return some (start, 0x10ffff)
  else
    let rangeIndex := (rangeIndex - set.bmpLength) * 2 -- address pairs of pairs of units
    let length := set.length - set.bmpLength
    if rangeIndex < length then
      let start ← set.readPair (set.bmpLength + rangeIndex : Nat)
      let rangeIndex := rangeIndex + 2
      if rangeIndex < length then
        return some (start, (← set.readPair (set.bmpLength + rangeIndex : Nat)) - 1)
      else return some (start, 0x10ffff)
    else return none

end Icu
