import Icu.UnicodeSet.CodePointList

/-! # The merge loops of the fundamental operators

`exclusiveOr`, `add` and `retain` walk two lists at once. The unread parts are the
suffixes `list[i..]` and `other[j..]`, the output is kept last entry first, and the
two polarity bits say whether `a` and `b` are limits ("second") or starts.
-/

namespace Icu.UnicodeSet

open Lib Lib.InversionList

structure MergeState where
  a : Int
  list : List Int
  b : Int
  other : List Int
  buffer : List Int
  aSecond : Bool
  bSecond : Bool

namespace MergeState

/-- `a = list[i++]; polarity ^= 1`. -/
def nextA (st : MergeState) : Option MergeState :=
  match st.list with
  | [] => none
  | x :: xs => some { st with a := x, list := xs, aSecond := !st.aSecond }

/-- `b = other[j++]; polarity ^= 2`. -/
def nextB (st : MergeState) : Option MergeState :=
  match st.other with
  | [] => none
  | y :: ys => some { st with b := y, other := ys, bSecond := !st.bSecond }

/-- `buffer[k++] = x`. -/
def push (st : MergeState) (x : Int) : MergeState := { st with buffer := x :: st.buffer }

/-- Unread entries; every turn of a merge loop reads at least one. -/
def unread (st : MergeState) : Nat := st.list.length + st.other.length

end MergeState

/-- A merge loop: a turn is `none` when it reads past the end of a list and
`some none` when it leaves the loop. -/
def mergeLoop (step : MergeState → Option (Option MergeState)) :
    Nat → MergeState → Option (List Int)
  | 0, _ => none
  | fuel + 1, st =>
    match step st with
    | none => none
    | some none => some (unicodesetHigh :: st.buffer).reverse
    | some (some st') => mergeLoop step fuel st'

def startMerge (list other : List Int) (aSecond bSecond : Bool) : Option MergeState :=
  match list, other with
  | a :: as, b :: bs => some ⟨a, as, b, bs, [], aSecond, bSecond⟩
  | _, _ => none

def runMerge (step : MergeState → Option (Option MergeState)) (st : MergeState) :
    Option (List Int) :=
  mergeLoop step (st.unread + 1) st

/-- Sort the values, discarding identicals. -/
def exclusiveOrStep (st : MergeState) : Option (Option MergeState) :=
  if st.a < st.b then (st.push st.a).nextA.map some
  else if st.b < st.a then (st.push st.b).nextB.map some
  else if st.a ≠ unicodesetHigh then (st.nextA.bind (·.nextB)).map some
  else some none

/-- `exclusiveOr(other, otherLen, polarity)`. With polarity 1 or 2 the other list is
complemented by its first entry; when that entry is dropped the second one is
loaded without advancing. -/
def exclusiveOr (list other : List Int) (aSecond bSecond : Bool) : Option (List Int) :=
  if aSecond != bSecond then
    match list, other with
    | a :: as, b :: bs =>
      if b = unicodesetLow then
        match bs with
        | [] => none
        | b' :: bs' => runMerge exclusiveOrStep ⟨a, as, b', b' :: bs', [], aSecond, bSecond⟩
      else runMerge exclusiveOrStep ⟨a, as, unicodesetLow, b :: bs, [], aSecond, bSecond⟩
    | _, _ => none
  else (startMerge list other aSecond bSecond).bind (runMerge exclusiveOrStep)

/-- Take the start `x` of a range with the given limit: back up over an overlapping
range in the buffer, picking the later end value, or write the start. The pair is the
new limit and the new buffer. -/
def takeStart (x limit : Int) (buffer : List Int) : Int × List Int :=
  match buffer with
  | [] => (limit, [x])
  | e :: rest => if x ≤ e then (max limit e, rest) else (limit, x :: e :: rest)

/-- Take `a`; `polarity ^= 1`. -/
def takeStartA (st : MergeState) : Option MergeState :=
  match st.list with
  | [] => none
  | x :: xs =>
    let (a, buffer) := takeStart st.a x st.buffer
    some { st with a := a, list := xs, aSecond := !st.aSecond, buffer := buffer }

/-- Take `b`; `polarity ^= 2`. -/
def takeStartB (st : MergeState) : Option MergeState :=
  match st.other with
  | [] => none
  | y :: ys =>
    let (b, buffer) := takeStart st.b y st.buffer
    some { st with b := b, other := ys, bSecond := !st.bSecond, buffer := buffer }

/-- One turn of `add(other, otherLen, polarity)`. -/
def addStep (st : MergeState) : Option (Option MergeState) :=
  match st.aSecond, st.bSecond with
  | false, false => -- both first; take lower if unequal
      if st.a < st.b then (takeStartA st).map some
      else if st.b < st.a then (takeStartB st).map some
      else if st.a = unicodesetHigh then some none
      else ((takeStartA st).bind (·.nextB)).map some
  | true, true => -- both second; take higher if unequal, and drop other
      if st.b ≤ st.a then
        if st.a = unicodesetHigh then some none
        else ((st.push st.a).nextA.bind (·.nextB)).map some
      else if st.b = unicodesetHigh then some none
      else ((st.push st.b).nextA.bind (·.nextB)).map some
  | true, false => -- a second, b first; if b < a, overlap
      if st.a < st.b then (st.push st.a).nextA.map some
      else if st.b < st.a then st.nextB.map some
      else if st.a = unicodesetHigh then some none
      else (st.nextA.bind (·.nextB)).map some
  | false, true => -- a first, b second; if a < b, overlap
      if st.b < st.a then (st.push st.b).nextB.map some
      else if st.a < st.b then st.nextA.map some
      else if st.a = unicodesetHigh then some none
      else (st.nextA.bind (·.nextB)).map some

/-- `add(other, otherLen, polarity)`: x union y when both bits are clear. -/
def addMerge (list other : List Int) (aSecond bSecond : Bool) : Option (List Int) :=
  (startMerge list other aSecond bSecond).bind (runMerge addStep)

/-- One turn of `retain(other, otherLen, polarity)`. -/
def retainStep (st : MergeState) : Option (Option MergeState) :=
  match st.aSecond, st.bSecond with
  | false, false => -- both first; drop the smaller
      if st.a < st.b then st.nextA.map some
      else if st.b < st.a then st.nextB.map some
      else if st.a = unicodesetHigh then some none
      else ((st.push st.a).nextA.bind (·.nextB)).map some
  | true, true => -- both second; take lower if unequal
      if st.a < st.b then (st.push st.a).nextA.map some
      else if st.b < st.a then (st.push st.b).nextB.map some
      else if st.a = unicodesetHigh then some none
      else ((st.push st.a).nextA.bind (·.nextB)).map some
  | true, false => -- a second, b first
      if st.a < st.b then st.nextA.map some
      else if st.b < st.a then (st.push st.b).nextB.map some
      else if st.a = unicodesetHigh then some none
      else (st.nextA.bind (·.nextB)).map some
  | false, true => -- a first, b second; if a < b, overlap
      if st.b < st.a then st.nextB.map some
      else if st.a < st.b then (st.push st.a).nextA.map some
      else if st.a = unicodesetHigh then some none
      else (st.nextA.bind (·.nextB)).map some

/-- `retain(other, otherLen, polarity)`: x intersect y when both bits are clear, x minus
y when the second one is set. -/
def retainMerge (list other : List Int) (aSecond bSecond : Bool) : Option (List Int) :=
  (startMerge list other aSecond bSecond).bind (runMerge retainStep)

end Icu.UnicodeSet
