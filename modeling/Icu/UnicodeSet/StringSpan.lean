import Icu.UnicodeSet.OffsetList
import Icu.UnicodeSet.Span
import Icu.Lib.Sweep

/-! # `UnicodeSetStringSpan`

`span()` and `spanBack()` with `USET_SPAN_CONTAINED`, for sets with strings and UTF-16 text. The
two functions are one loop that moves away from the start or from the end of the text: `pos` is
the number of units that it has passed, and `rest` the number that is left. The UTF-8 forms, the
set for `USET_SPAN_NOT_CONTAINED` and the storage of the lengths are left out.
-/

namespace Icu

open UnicodeSet Utf16

/-- The variants that are built for one of these functions, or for all of them. -/
inductive Which
  | fwdUtf16Contained
  | backUtf16Contained
  | all
  deriving DecidableEq, Repr

structure UnicodeSetStringSpan where
  spanSet : UnicodeSet
  strings : List (List UInt16)
  spanLengths : List Nat
  spanBackLengths : List Nat
  maxLength16 : Nat

namespace UnicodeSetStringSpan

def longSpan : Nat := 0xfe

def allCpContained : Nat := 0xff

def makeSpanLengthByte (spanLength : Nat) : Nat := if spanLength < 0xfe then spanLength else 0xfe

/-- The byte for a string, where `length` is the length of the span in a relevant string. -/
def spanLengthByte (spanSet : UnicodeSet) (length : List UInt16 → Option Nat) (s16 : List UInt16) :
    Option Nat := do
  let spanLength ← spanSet.span s16 .contained
  if spanLength < s16.length then return makeSpanLengthByte (← length s16)
  else return allCpContained

/-- The byte of `spanLengths`. -/
def fwdByte (spanSet : UnicodeSet) (s16 : List UInt16) : Option Nat :=
  spanLengthByte spanSet (fun s16 => spanSet.span s16 .contained) s16

/-- The byte of `spanBackLengths`. -/
def backByte (spanSet : UnicodeSet) (s16 : List UInt16) : Option Nat :=
  spanLengthByte spanSet
    (fun s16 => (spanSet.spanBack s16 .contained).map fun n => s16.length - n) s16

def isRelevant (spanSet : UnicodeSet) (s16 : List UInt16) : Option Bool :=
  (spanSet.span s16 .contained).map fun spanLength => decide (spanLength < s16.length)

/-- `if(all) { spanSet.freeze(); }` -/
def frozenFor (which : Which) (spanSet : UnicodeSet) : Option UnicodeSet :=
  if which = .all then spanSet.freeze else some spanSet

/-- The constructor `UnicodeSetStringSpan(set, setStrings, which)`. The two arrays are one unless
the object is for all variants. -/
def new (set : UnicodeSet) (which : Which) : Option UnicodeSetStringSpan := do
  let spanSet ← UnicodeSet.empty.complementRange 0 0x10ffff
  let spanSet ← spanSet.retainAll set
  let relevant ← set.strings.mapM (isRelevant spanSet)
  if true ∈ relevant then
    let spanSet ← frozenFor which spanSet
    let fwd ← set.strings.mapM (fwdByte spanSet)
    let back ← set.strings.mapM (backByte spanSet)
    return {
      spanSet := spanSet
      strings := set.strings
      spanLengths := if which = .backUtf16Contained then back else fwd
      spanBackLengths := if which = .fwdUtf16Contained then fwd else back
      maxLength16 := (set.strings.map List.length).foldl max 0 }
  else return ⟨spanSet, set.strings, [], [], 0⟩

def needsStringSpanUTF16 (stringSpan : UnicodeSetStringSpan) : Bool := stringSpan.maxLength16 != 0

/-- `inside && U16_IS_LEAD(s[i-1]) && U16_IS_TRAIL(s[i])` -/
def splitsPair (inside : Bool) (s : List UInt16) (i : Nat) : Option Bool :=
  if inside then do
    if u16IsLead (← unitAt s (i - 1)) then return u16IsTrail (← unitAt s i) else return false
  else some false

/-- `matches16CPB(s, start, limit, t, length)` with the length of the text for `limit`. -/
def matches16CPB (s : List UInt16) (start : Nat) (t : List UInt16) : Option Bool :=
  let limit := start + t.length
  if limit ≤ s.length then
    if (s.drop start).take t.length = t then do
      if ← splitsPair (decide (0 < start)) s start then return false
      else return !(← splitsPair (decide (limit < s.length)) s limit)
    else some false
  else none

/-- `spanOne(set, s, length)` for the text from `pos` on. -/
def spanOne (set : UnicodeSet) (s : List UInt16) (pos : Nat) : Option Int := do
  let c ← unitAt s pos
  let single : Option Int := do return if ← set.contains c then 1 else -1
  if c ≥ 0xd800 ∧ c ≤ 0xdbff ∧ s.length - pos ≥ 2 then
    let c2 ← unitAt s (pos + 1)
    if u16IsTrail c2 then return if ← set.contains (u16GetSupplementary c c2) then 2 else -2
    else single
  else single

/-- `spanOneBack(set, s, length)` -/
def spanOneBack (set : UnicodeSet) (s : List UInt16) (length : Nat) : Option Int := do
  let c ← unitAt s (length - 1)
  let single : Option Int := do return if ← set.contains c then 1 else -1
  if c ≥ 0xdc00 ∧ c ≤ 0xdfff ∧ length ≥ 2 then
    let c2 ← unitAt s (length - 2)
    if u16IsLead c2 then return if ← set.contains (u16GetSupplementary c2 c) then 2 else -2
    else single
  else single

/-! ## The loop -/

/-- What the loop does with the text. Positions are counted in the direction in which it moves. -/
structure Direction where
  length : Nat
  /-- the length of an unlimited code point span -/
  span : Nat → Option Nat
  one : Nat → Option Int
  /-- the overlap for `LONG_SPAN` -/
  longOverlap : List UInt16 → Option Nat
  isMatch : Nat → List UInt16 → Option Bool

/-- How the attempt to match at one overlap ends: the string is too long for the rest, the match
reaches the end of the text, or the next overlap is tried. -/
inductive Attempt
  | tooLong
  | reached
  | next (offsets : OffsetList)

namespace Direction

variable (d : Direction)

/-- Try to match at `pos-overlap`, if the increment is not listed already. -/
def tryOverlap (s16 : List UInt16) (pos overlap : Nat) (offsets : OffsetList) : Option Attempt :=
  let rest := d.length - pos
  let inc := s16.length - overlap
  if inc > rest then some .tooLong
  else do
    if ← offsets.containsOffset inc then return .next offsets
    else if ← d.isMatch (pos - overlap) s16 then
      if inc = rest then return .reached
      else return .next (← offsets.addOffset inc)
    else return .next offsets

/-- All overlaps of one string, down to 0. The result is empty if the end was reached. -/
def overlapLoop (s16 : List UInt16) (pos : Nat) : Nat → OffsetList → Option (Option OffsetList)
  | 0, offsets => do
    match ← d.tryOverlap s16 pos 0 offsets with
    | .tooLong => return some offsets
    | .reached => return none
    | .next offsets => return some offsets
  | overlap + 1, offsets => do
    match ← d.tryOverlap s16 pos (overlap + 1) offsets with
    | .tooLong => return some offsets
    | .reached => return none
    | .next offsets => overlapLoop s16 pos overlap offsets

/-- All strings, with their bytes. -/
def stringsLoop (pos spanLength : Nat) :
    List (List UInt16 × Nat) → OffsetList → Option (Option OffsetList)
  | [], offsets => some (some offsets)
  | (s16, overlap) :: strings, offsets =>
    if overlap = allCpContained then stringsLoop pos spanLength strings offsets
    else do
      let overlap ← if overlap ≥ longSpan then d.longOverlap s16 else some overlap
      match ← d.overlapLoop s16 pos (min overlap spanLength) offsets with
      | none => return none
      | some offsets => stringsLoop pos spanLength strings offsets

/-- `for(;;)`, with the number of units that were passed in the end. -/
def loop (strings : List (List UInt16 × Nat)) : Nat → Nat → Nat → OffsetList → Option Nat
  | 0, _, _, _ => none
  | fuel + 1, pos, spanLength, offsets => do
    match ← d.stringsLoop pos spanLength strings offsets with
    | none => return d.length
    | some offsets =>
      -- match strings from after the next string match
      let pop : Option Nat := do
        let (minOffset, offsets) ← offsets.popMinimum
        loop strings fuel (pos + minOffset) 0 offsets
      if spanLength ≠ 0 ∨ pos = 0 then
        if offsets.isEmpty then return pos else pop
      else if offsets.isEmpty then
        let spanLength ← d.span pos
        if spanLength = d.length - pos ∨ spanLength = 0 then return pos + spanLength
        else loop strings fuel (pos + spanLength) spanLength offsets
      else
        let spanLength ← d.one pos
        if spanLength > 0 then
          if spanLength.toNat = d.length - pos then return d.length
          else
            let offsets ← offsets.shift spanLength.toNat
            loop strings fuel (pos + spanLength.toNat) 0 offsets
        else pop

/-- The function, from the first code point span on. -/
def run (strings : List (List UInt16 × Nat)) (maxLength16 : Nat) : Option Nat := do
  let spanLength ← d.span 0
  if spanLength = d.length then return d.length
  else d.loop strings (d.length + 1) spanLength spanLength (OffsetList.setMaxLength maxLength16)

end Direction

variable (stringSpan : UnicodeSetStringSpan) (s : List UInt16)

def forward : Direction where
  length := s.length
  span pos := stringSpan.spanSet.span (s.drop pos) .contained
  one pos := spanOne stringSpan.spanSet s pos
  longOverlap s16 := (u16Prev s16 0 s16.length).map (·.2)
  isMatch start s16 := matches16CPB s start s16

/-- `span(s, length, USET_SPAN_CONTAINED)` -/
def span : Option Nat :=
  (stringSpan.forward s).run (stringSpan.strings.zip stringSpan.spanLengths) stringSpan.maxLength16

/-- A string that is matched `start` units from the end of the text ends there. -/
def backward : Direction where
  length := s.length
  span pos := (stringSpan.spanSet.spanBack (s.take (s.length - pos)) .contained).map fun n =>
    s.length - pos - n
  one pos := spanOneBack stringSpan.spanSet s (s.length - pos)
  longOverlap s16 := some (s16.length - u16Fwd1 s16 0 s16.length)
  isMatch start s16 := matches16CPB s (s.length - start - s16.length) s16

/-- `spanBack(s, length, USET_SPAN_CONTAINED)` -/
def spanBack : Option Nat :=
  ((stringSpan.backward s).run (stringSpan.strings.zip stringSpan.spanBackLengths)
    stringSpan.maxLength16).map fun n => s.length - n

end UnicodeSetStringSpan

end Icu
