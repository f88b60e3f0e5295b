import Icu.ErrorCode
import Icu.Lib.Int32

/-! # `uprv_sortArray`

The sorting functions of `uarrsort.c`. An array is the list of its items, of `itemSize` bytes each.
The comparator gets its context by being a function of it. A loop that would not end, a read outside
the part of the array that is sorted, and an `int32_t` expression that overflows have no result.
-/

namespace Icu.ArraySort

open Lib

def minQSort : Nat := 9
def stackItemSize : Int := 200

variable {α : Type} (cmp : α → α → Int) (itemSize : Int)

/-- The item at `array+i*itemSize`. -/
def itemAt (array : List α) (i : Nat) : Option α := do
  let _ ← checked32 (i * itemSize)
  array[i]?

/-- `(start+limit)/2` -/
def middle (start limit : Nat) : Option Nat := do
  let sum ← checked32 (start + limit)
  return sum.toNat / 2

/-- Binary search until we get down to a tiny sub-array: `start`, `limit` and `found`. -/
def searchHalves (array : List α) (item : α) :
    Nat → Nat → Nat → Bool → Option (Nat × Nat × Bool)
  | 0, _, _, _ => none
  | fuel + 1, start, limit, found =>
    if minQSort ≤ limit - start then do
      let i ← middle start limit
      let diff := cmp item (← itemAt itemSize array i)
      if diff = 0 then searchHalves array item fuel (i + 1) limit true
      else if diff < 0 then searchHalves array item fuel start i found
      else searchHalves array item fuel i limit found
    else some (start, limit, found)

/-- Linear search over the remaining tiny sub-array: `start` and `found`. -/
def searchLinear (array : List α) (item : α) (limit : Nat) :
    Nat → Nat → Bool → Option (Nat × Bool)
  | 0, _, _ => none
  | fuel + 1, start, found =>
    if start < limit then do
      let diff := cmp item (← itemAt itemSize array start)
      if diff < 0 then some (start, found)
      else searchLinear array item limit fuel (start + 1) (found || decide (diff = 0))
    else some (start, found)

/-- `uprv_stableBinarySearch` -/
def uprvStableBinarySearch (array : List α) (limit : Nat) (item : α) : Option Int := do
  let (start, limit, found) ← searchHalves cmp itemSize array item (limit + 1) 0 limit false
  let (start, found) ← searchLinear cmp itemSize array item limit (limit + 1) start found
  return if found then (start : Int) - 1 else -(start : Int) - 1

/-- `array[insertionPoint]=v` after the items from there to `j` have been moved. -/
def moveItem (array : List α) (insertionPoint j : Nat) (v : α) : Option (List α) := do
  let _ ← checked32 (insertionPoint * itemSize)
  let _ ← checked32 ((j - insertionPoint) * itemSize)
  return array.take insertionPoint ++ v :: (array.drop insertionPoint).take (j - insertionPoint) ++
    array.drop (j + 1)

/-- The loop of `doInsertionSort` over `j`. -/
def insertItems : Nat → Nat → List α → Option (List α)
  | 0, _, array => some array
  | n + 1, j, array => do
    let item ← itemAt itemSize array j
    let insertionPoint ← uprvStableBinarySearch cmp itemSize array j item
    let insertionPoint :=
      if insertionPoint < 0 then -insertionPoint - 1 else insertionPoint + 1
    let array ← (if insertionPoint < j then moveItem itemSize array insertionPoint.toNat j item
      else some array)
    insertItems n (j + 1) array

/-- `doInsertionSort` of the items of a sub-array. -/
def doInsertionSort (array : List α) : Option (List α) :=
  insertItems cmp itemSize (array.length - 1) 1 array

/-- `insertionSort`. `malloc` tells whether memory can be allocated for the intermediate item, which
is only needed for large items. -/
def insertionSort (array : List α) (malloc : Bool) (errorCode : UErrorCode) :
    Option (UErrorCode × List α) :=
  if stackItemSize < itemSize && !malloc then some (.memoryAllocationError, array)
  else do return (errorCode, ← doInsertionSort cmp itemSize array)

/-- An item of the sub-array. -/
def partItem (array : List α) (start limit i : Nat) : Option α :=
  if start ≤ i ∧ i < limit then itemAt itemSize array i else none

/-- `while(array[left]<x) ++left` -/
def scanLeft (array : List α) (start limit : Nat) (x : α) : Nat → Nat → Option Nat
  | 0, _ => none
  | fuel + 1, left => do
    if cmp (← partItem itemSize array start limit left) x < 0 then
      scanLeft array start limit x fuel (left + 1)
    else some left

/-- `while(x<array[right-1]) --right` -/
def scanRight (array : List α) (start limit : Nat) (x : α) : Nat → Option Nat
  | 0 => none
  | right + 1 => do
    if cmp x (← partItem itemSize array start limit right) < 0 then
      scanRight array start limit x right
    else some (right + 1)

/-- Swap `array[left]` and `array[right-1]` via `w`; `++left`; `--right`. -/
def exchange (array : List α) (left right : Nat) : Option (List α × Nat × Nat) :=
  if left < right then do
    let right := right - 1
    if left < right then do
      let w ← itemAt itemSize array left
      return ((array.set left (← itemAt itemSize array right)).set right w, left + 1, right)
    else return (array, left + 1, right)
  else return (array, left, right)

/-- The loop of the partition. -/
def partitionLoop (start limit : Nat) (x : α) :
    Nat → List α → Nat → Nat → Option (List α × Nat × Nat)
  | 0, _, _, _ => none
  | fuel + 1, array, left, right => do
    let left ← scanLeft cmp itemSize array start limit x (array.length + 1) left
    let right ← scanRight cmp itemSize array start limit x right
    let (array, left, right) ← exchange itemSize array left right
    if left < right then partitionLoop start limit x fuel array left right
    else some (array, left, right)

/-- `subQuickSort`. A round of its loop ends with the next round. -/
def subQuickSort : Nat → List α → Nat → Nat → Option (List α)
  | 0, _, _, _ => none
  | fuel + 1, array, start, limit => do
    let sum ← checked32 (start + minQSort)
    if sum ≥ limit then do
      let _ ← checked32 (start * itemSize)
      let items ← doInsertionSort cmp itemSize ((array.drop start).take (limit - start))
      return array.take start ++ items ++ array.drop limit
    else do
      let x ← itemAt itemSize array (← middle start limit)
      let (array, left, right) ←
        partitionLoop cmp itemSize start limit x (limit - start) array start limit
      -- sub-arrays of one item are left alone
      let sortPart := fun (array : List α) (start limit : Nat) =>
        if start + 1 < limit then subQuickSort fuel array start limit else some array
      if right - start < limit - left then do
        let array ← sortPart array start right
        sortPart array left limit
      else do
        let array ← sortPart array left limit
        sortPart array start right

/-- `quickSort`. Large items need memory for two of them. -/
def quickSort (array : List α) (malloc : Bool) (errorCode : UErrorCode) :
    Option (UErrorCode × List α) := do
  let p ← (if itemSize ≤ stackItemSize then some true
    else (checked32 (2 * itemSize)).map fun _ => malloc)
  if p then return (errorCode, ← subQuickSort cmp itemSize (array.length + 1) array 0 array.length)
  else return (.memoryAllocationError, array)

/-- `uprv_sortArray`: the error code and the array. -/
def uprvSortArray (array : List α) (sortStable malloc : Bool) (errorCode : UErrorCode) :
    Option (UErrorCode × List α) :=
  if !errorCode.isSuccess then some (errorCode, array)
  else if itemSize ≤ 0 then some (.illegalArgumentError, array)
  else if array.length ≤ 1 then some (errorCode, array)
  else if array.length < minQSort || sortStable then
    insertionSort cmp itemSize array malloc errorCode
  else quickSort cmp itemSize array malloc errorCode

end Icu.ArraySort
