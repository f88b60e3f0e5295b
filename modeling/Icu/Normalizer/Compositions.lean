import Mathlib.Data.Int.DivMod
import Icu.Lib.Bits

/-! # Compositions lists

`Normalizer2DataBuilder::writeCompositions` writes the pairs of a starter into 16-bit units, two or
three for each pair, and `Normalizer2Impl::combine` and `addComposites` read them. A list is the
units from a pointer to the end of the written data, and a read behind it has no result.
-/

namespace Icu.Normalizer

def comp1LastTuple : Nat := 0x8000
def comp1Triple : Nat := 1
def comp1TrailLimit : Nat := 0x3400
def comp1TrailMask : Nat := 0x7ffe
def comp1TrailShift : Nat := 9
def comp2TrailShift : Nat := 6
def comp2TrailMask : Nat := 0xffc0

structure CompositionPair where
  trail : Nat
  composite : Nat
  deriving DecidableEq, Repr

/-- `Norm`, as far as `writeCompositions` reads it. -/
structure Norm where
  cc : Nat
  compositions : List CompositionPair

/-- `(UChar)unit` -/
def toUChar (unit : Nat) : Nat := unit % 0x10000

namespace Normalizer2DataBuilder

variable (combinesForward : Nat → Bool)

/-- 22 bits for the composite character and whether it combines forward.
`combinesForward` is `getNormRef(composite).compositions!=NULL`. -/
def compositeAndFwd (pair : CompositionPair) : Nat :=
  let compositeAndFwd := pair.composite <<< 1
  if combinesForward pair.composite then compositeAndFwd ||| 1 else compositeAndFwd

def tuple (pair : CompositionPair) (last : Bool) : List Nat :=
  let compositeAndFwd := compositeAndFwd combinesForward pair
  let (firstUnit, secondUnit, thirdUnit) : Nat × Nat × Option Nat :=
    if pair.trail < comp1TrailLimit then
      if compositeAndFwd ≤ 0xffff then (pair.trail <<< 1, compositeAndFwd, none)
      else (pair.trail <<< 1 ||| comp1Triple, compositeAndFwd >>> 16, some compositeAndFwd)
    else
      (comp1TrailLimit + pair.trail >>> comp1TrailShift ||| comp1Triple,
        pair.trail <<< comp2TrailShift ||| compositeAndFwd >>> 16, some compositeAndFwd)
  let firstUnit := if last then firstUnit ||| comp1LastTuple else firstUnit
  toUChar firstUnit :: toUChar secondUnit :: (thirdUnit.map toUChar).toList

/-- The loop of `writeCompositions`. -/
def tuples : List CompositionPair → List Nat
  | [] => []
  | pair :: pairs => tuple combinesForward pair pairs.isEmpty ++ tuples pairs

/-- `writeCompositions`, which exits for a character that has a combining class. -/
def writeCompositions (p : Norm) : Option (List Nat) :=
  if p.cc ≠ 0 then none else some (tuples combinesForward p.compositions)

end Normalizer2DataBuilder

namespace Normalizer2Impl

/-- `((int32_t)high<<16)|low` -/
def joinUnits (high low : Nat) : Int := Int.bmod ((high <<< 16 ||| low : Nat) : Int) 0x100000000

/-- The loop of `combine` for a trail character in 0..33FF. -/
def skipTuples (key1 : Nat) : Nat → List Nat → Option (List Nat)
  | 0, _ => none
  | fuel + 1, list => do
    let firstUnit ← list[0]?
    if firstUnit < key1 then skipTuples key1 fuel (list.drop (2 + (firstUnit &&& comp1Triple)))
    else some list

/-- The loop of `combine` for a trail character in 3400..10FFFF. -/
def searchTriples (key1 key2 : Nat) : Nat → List Nat → Option Int
  | 0, _ => none
  | fuel + 1, list => do
    let firstUnit ← list[0]?
    if firstUnit < key1 then
      searchTriples key1 key2 fuel (list.drop (2 + (firstUnit &&& comp1Triple)))
    else if key1 = firstUnit &&& comp1TrailMask then do
      let secondUnit ← list[1]?
      if secondUnit < key2 then
        if firstUnit &&& comp1LastTuple ≠ 0 then return -1
        else searchTriples key1 key2 fuel (list.drop 3)
      else if key2 = secondUnit &&& comp2TrailMask then
        return joinUnits (secondUnit &&& (0xffffffff ^^^ comp2TrailMask)) (← list[2]?)
      else return -1
    else return -1

/-- `combine` -/
def combine (list : List Nat) (trail : Nat) : Option Int :=
  if trail < comp1TrailLimit then do
    -- result entry may have 2 or 3 units
    let key1 := toUChar (trail <<< 1)
    let list ← skipTuples key1 (list.length + 1) list
    let firstUnit ← list[0]?
    if key1 = firstUnit &&& comp1TrailMask then
      if firstUnit &&& comp1Triple ≠ 0 then return joinUnits (← list[1]?) (← list[2]?)
      else do
        let secondUnit : Nat ← list[1]?
        return secondUnit
    else return -1
  else
    -- result entry has 3 units
    let key1 := toUChar (comp1TrailLimit +
      (trail >>> comp1TrailShift &&& (0xffffffff ^^^ comp1Triple)))
    searchTriples key1 (toUChar (trail <<< comp2TrailShift)) (list.length + 1) list

/-- `compositeAndFwd` of the first tuple of a list, and the list behind it. -/
def nextTuple (firstUnit : Nat) (list : List Nat) : Option (Nat × List Nat) :=
  if firstUnit &&& comp1Triple = 0 then do
    return ((← list[1]?), list.drop 2)
  else do
    return (((← list[1]?) &&& (0xffffffff ^^^ comp2TrailMask)) <<< 16 ||| (← list[2]?),
      list.drop 3)

/-- The loop of `addComposites`. `addForward` is the recursive call for a composite that combines
forward, and a set is the list of the code points that were added to it. -/
def addTuples (addForward : Nat → List Nat → Option (List Nat)) :
    Nat → List Nat → List Nat → Option (List Nat)
  | 0, _, _ => none
  | fuel + 1, list, set => do
    let firstUnit ← list[0]?
    let (compositeAndFwd, list) ← nextTuple firstUnit list
    let composite := compositeAndFwd >>> 1
    let set ← if compositeAndFwd &&& 1 ≠ 0 then addForward composite set else some set
    let set := set ++ [composite]
    if firstUnit &&& comp1LastTuple = 0 then addTuples addForward fuel list set else some set

/-- `addComposites`. `depth` bounds the calls that are inside each other. -/
def addComposites (getCompositionsListForComposite : Nat → List Nat) :
    Nat → List Nat → List Nat → Option (List Nat)
  | 0, _, _ => none
  | depth + 1, list, set =>
    addTuples (fun composite => addComposites getCompositionsListForComposite depth
      (getCompositionsListForComposite composite)) (list.length + 1) list set

end Normalizer2Impl

end Icu.Normalizer
