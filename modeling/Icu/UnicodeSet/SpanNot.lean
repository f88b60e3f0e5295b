import Icu.UnicodeSet.StringSpanProof

/-! # `USET_SPAN_NOT_CONTAINED`

`UnicodeSetStringSpan::spanNot` and `spanNotBack`. A second set has the code points that strings
start or end with, in addition to those of the set, so that a span of code points outside of it
stops before any string. Where it stops, the code point and the strings are tried.
-/

namespace Icu

open UnicodeSet Utf16

/-- The variants with a set for `USET_SPAN_NOT_CONTAINED`. -/
inductive WhichNot
  | fwdUtf16NotContained
  | backUtf16NotContained
  | all
  deriving DecidableEq, Repr

/-- `which&FWD` -/
def WhichNot.fwd : WhichNot → Bool
  | fwdUtf16NotContained => true
  | backUtf16NotContained => false
  | all => true

/-- `which&BACK` -/
def WhichNot.back : WhichNot → Bool
  | fwdUtf16NotContained => false
  | backUtf16NotContained => true
  | all => true

structure UnicodeSetSpanNot extends UnicodeSetStringSpan where
  spanNotSet : UnicodeSet

/-- `cloneAsThawed()` of a set without strings. -/
def UnicodeSet.cloneAsThawed (set : UnicodeSet) : UnicodeSet := { set with bmpSet := none }

namespace UnicodeSetStringSpan

/-- The byte of a string for one variant: only a relevant/irrelevant flag. -/
def flagByte (spanSet : UnicodeSet) (s16 : List UInt16) : Option Nat :=
  spanLengthByte spanSet (fun _ => some 0) s16

/-- The fields that all variants have. Those with `NOT_CONTAINED` alone store flags instead of span
lengths. -/
def newFor (set : UnicodeSet) (which : WhichNot) : Option UnicodeSetStringSpan :=
  if which = .all then new set .all
  else do
    let stringSpan ← new set .fwdUtf16Contained
    if stringSpan.needsStringSpanUTF16 then
      let flags ← set.strings.mapM (flagByte stringSpan.spanSet)
      return { stringSpan with spanLengths := flags, spanBackLengths := flags }
    else return stringSpan

/-- `addToSpanNotSet(c)`. There is no set of its own as long as `pSpanNotSet==&spanSet`. -/
def addToSpanNotSet (spanSet : UnicodeSet) (pSpanNotSet : Option UnicodeSet) (c : Nat) :
    Option (Option UnicodeSet) :=
  match pSpanNotSet with
  | none => do
    if ← spanSet.contains c then return none -- Nothing to do.
    else return some (← spanSet.cloneAsThawed.add c)
  | some set => do return some (← set.add c)

/-- `if(which&FWD) { … addToSpanNotSet(c); }`, or the same for `BACK`. -/
def addEnd (wanted : Bool) (spanSet : UnicodeSet) (pSpanNotSet : Option UnicodeSet)
    (c : Option (Nat × Nat)) : Option (Option UnicodeSet) :=
  if wanted then do addToSpanNotSet spanSet pSpanNotSet (← c).1 else some pSpanNotSet

def addStringEnds (which : WhichNot) (spanSet : UnicodeSet) (pSpanNotSet : Option UnicodeSet)
    (s16 : List UInt16) : Option (Option UnicodeSet) := do
  if ← isRelevant spanSet s16 then
    let pSpanNotSet ← addEnd which.fwd spanSet pSpanNotSet (u16Next s16 0 s16.length)
    addEnd which.back spanSet pSpanNotSet (u16Prev s16 0 s16.length)
  else return pSpanNotSet

/-- `if(all) { pSpanNotSet->freeze(); }` -/
def frozenNotFor (which : WhichNot) (spanNotSet : UnicodeSet) : Option UnicodeSet :=
  if which = .all then spanNotSet.freeze else some spanNotSet

/-- The constructor `UnicodeSetStringSpan(set, setStrings, which)` for a variant with
`NOT_CONTAINED`. -/
def newNot (set : UnicodeSet) (which : WhichNot) : Option UnicodeSetSpanNot := do
  let stringSpan ← newFor set which
  if stringSpan.needsStringSpanUTF16 then
    let pSpanNotSet ← set.strings.foldlM (addStringEnds which stringSpan.spanSet) none
    let spanNotSet ← frozenNotFor which (pSpanNotSet.getD stringSpan.spanSet)
    return { stringSpan with spanNotSet }
  else return { stringSpan with spanNotSet := stringSpan.spanSet }

/-- What the loops of `spanNot` and `spanNotBack` do with the text. Positions are counted in the
direction in which they move. -/
structure NotDirection where
  length : Nat
  /-- the span of code points outside of `spanNotSet` -/
  skip : Nat → Option Nat
  one : Nat → Option Int
  isMatch : Nat → List UInt16 → Option Bool

namespace NotDirection

variable (d : NotDirection)

/-- `length16<=rest && matches16CPB(s, pos, length, s16, length16)` -/
def matchAt (pos : Nat) (s16 : List UInt16) : Option Bool :=
  if s16.length ≤ d.length - pos then d.isMatch pos s16 else some false

/-- Try to match the strings at `pos`. -/
def matchStrings (pos : Nat) : List (List UInt16 × Nat) → Option Bool
  | [] => some false
  | (s16, spanLength) :: strings =>
    if spanLength = allCpContained then matchStrings pos strings -- Irrelevant string.
    else do
      if ← d.matchAt pos s16 then return true else matchStrings pos strings

/-- `do { } while(rest!=0);`, with the number of units that were passed in the end. -/
def loop (strings : List (List UInt16 × Nat)) : Nat → Nat → Option Nat
  | 0, _ => none
  | fuel + 1, pos => do
    let i ← d.skip pos
    if i = d.length - pos then return d.length
    else
      let pos := pos + i
      let cpLength ← d.one pos
      if cpLength > 0 then return pos
      else if ← d.matchStrings pos strings then return pos
      else
        -- skip this code point
        let pos := pos + (-cpLength).toNat
        if d.length - pos = 0 then return d.length else loop strings fuel pos

end NotDirection

end UnicodeSetStringSpan

namespace UnicodeSetSpanNot

open UnicodeSetStringSpan

variable (stringSpan : UnicodeSetSpanNot) (s : List UInt16)

def forwardNot : NotDirection where
  length := s.length
  skip pos := stringSpan.spanNotSet.span (s.drop pos) .notContained
  one pos := spanOne stringSpan.spanSet s pos
  isMatch start s16 := matches16CPB s start s16

/-- `spanNot(s, length)` -/
def spanNot : Option Nat :=
  (stringSpan.forwardNot s).loop (stringSpan.strings.zip stringSpan.spanLengths) (s.length + 1) 0

def backwardNot : NotDirection where
  length := s.length
  skip pos := (stringSpan.spanNotSet.spanBack (s.take (s.length - pos)) .notContained).map fun n =>
    s.length - pos - n
  one pos := spanOneBack stringSpan.spanSet s (s.length - pos)
  isMatch start s16 := matches16CPB s (s.length - start - s16.length) s16

/-- `spanNotBack(s, length)`. It uses `spanLengths` for the flags. -/
def spanNotBack : Option Nat :=
  ((stringSpan.backwardNot s).loop (stringSpan.strings.zip stringSpan.spanLengths)
    (s.length + 1) 0).map fun n => s.length - n

end UnicodeSetSpanNot

end Icu
