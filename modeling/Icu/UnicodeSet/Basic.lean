import Icu.UnicodeSet.MergeProof
import Icu.BmpSet.Model

/-! # Sets of code points and strings

The mutable part of `UnicodeSet`: the code point list, the sorted vector of strings, the
frozen form and the bogus flag. A frozen or bogus set ignores modifications. `none` is
the result of an operation that would read outside of a list; allocation succeeds.
-/

namespace Icu

open UnicodeSet Lib Lib.InversionList

structure UnicodeSet where
  list : List Int
  /-- Strings of at least two code points, in code unit order. -/
  strings : List (List UInt16)
  bmpSet : Option BMPSet
  bogus : Bool

namespace UnicodeSet

/-- Equality of strings, one instance for every module that looks a string up. -/
scoped instance lawfulBEq_string : LawfulBEq (List UInt16) := inferInstance

/-- The constructor `UnicodeSet()`. -/
def empty : UnicodeSet := ⟨[unicodesetHigh], [], none, false⟩

def isFrozen (set : UnicodeSet) : Bool := set.bmpSet.isSome

def isBogus (set : UnicodeSet) : Bool := set.bogus

def clear (set : UnicodeSet) : UnicodeSet :=
  if set.isFrozen then set else { set with list := [unicodesetHigh], strings := [], bogus := false }

/-- `operator==`: the lists and the strings, whatever the other members. -/
def beq (set o : UnicodeSet) : Bool := set.list == o.list && set.strings == o.strings

/-- `contains(c)`. -/
def contains (set : UnicodeSet) (c : Int) : Option Bool :=
  match set.bmpSet with
  | some bmpSet => bmpSet.contains c
  | none =>
    if c ≥ unicodesetHigh then some false
    else (findCodePoint set.list c).map fun i => i &&& 1 == 1

def getRangeCount (set : UnicodeSet) : Nat := set.list.length / 2

def getRangeStart (set : UnicodeSet) (index : Nat) : Option Int := set.list[index * 2]?

def getRangeEnd (set : UnicodeSet) (index : Nat) : Option Int :=
  set.list[index * 2 + 1]?.map (· - 1)

/-- `compareUnicodeString`: code unit order. -/
def compareUnicodeString (a b : List UInt16) : Ordering :=
  if a < b then .lt else if a = b then .eq else .gt

/-- The search of `UVector::sortedInsert`. -/
def sortedInsertIndex (strings : List (List UInt16)) (e : List UInt16) :
    Nat → Nat → Nat → Option Nat
  | 0, min, _ => some min
  | fuel + 1, min, max =>
    if min = max then some min
    else
      let probe := (min + max) / 2
      match strings[probe]? with
      | none => none
      | some s =>
        if compareUnicodeString s e = .gt then sortedInsertIndex strings e fuel min probe
        else sortedInsertIndex strings e fuel (probe + 1) max

/-- `UVector::sortedInsert`. -/
def sortedInsert (strings : List (List UInt16)) (e : List UInt16) : Option (List (List UInt16)) :=
  (sortedInsertIndex strings e strings.length 0 strings.length).map fun min =>
    strings.take min ++ e :: strings.drop min

/-- `_add(s)`. -/
def addToStrings (set : UnicodeSet) (s : List UInt16) : Option UnicodeSet :=
  if set.isFrozen || set.isBogus then some set
  else (sortedInsert set.strings s).map fun strings => { set with strings := strings }

/-- `add(other, otherLen, polarity)`. -/
def addList (set : UnicodeSet) (other : List Int) : Option UnicodeSet :=
  if set.isFrozen || set.isBogus then some set
  else (addMerge set.list other false false).map fun list => { set with list := list }

/-- `retain(other, otherLen, polarity)`, with polarity 0 or 2. -/
def retainList (set : UnicodeSet) (other : List Int) (bSecond : Bool) : Option UnicodeSet :=
  if set.isFrozen || set.isBogus then some set
  else (retainMerge set.list other false bSecond).map fun list => { set with list := list }

/-- `exclusiveOr(other, otherLen, polarity)`. -/
def exclusiveOrList (set : UnicodeSet) (other : List Int) : Option UnicodeSet :=
  if set.isFrozen || set.isBogus then some set
  else (exclusiveOr set.list other false false).map fun list => { set with list := list }

/-- The list edit of `add(c)`, where `i` is the smallest index with `c < list[i]`. -/
def insertCodePoint (list : List Int) (c : Int) (i : Nat) : Option (List Int) :=
  match list[i]? with
  | none => none
  | some next =>
    if c = next - 1 then
      -- `c` is before start of next range
      let list := list.set i c
      -- if we touched the HIGH mark, then add a new one
      let list := if c = unicodesetHigh - 1 then list ++ [unicodesetHigh] else list
      if i > 0 ∧ list[i - 1]? = some c then
        -- collapse adjacent ranges
        some (list.take (i - 1) ++ list.drop (i + 1))
      else some list
    else if i > 0 ∧ list[i - 1]? = some c then
      -- `c` is after end of prior range
      some (list.set (i - 1) (c + 1))
    else some (list.take i ++ c :: (c + 1) :: list.drop i)

/-- `add(c)`. -/
def add (set : UnicodeSet) (c : Int) : Option UnicodeSet :=
  let c := pinCodePoint c
  match findCodePoint set.list c with
  | none => none
  | some i =>
    if i &&& 1 ≠ 0 ∨ set.isFrozen ∨ set.isBogus then some set
    else (insertCodePoint set.list c i).map fun list => { set with list := list }

/-- `add(start, end)`. -/
def addRange (set : UnicodeSet) (start stop : Int) : Option UnicodeSet :=
  let start := pinCodePoint start
  let stop := pinCodePoint stop
  if start < stop then set.addList [start, stop + 1, unicodesetHigh]
  else if start = stop then set.add start
  else some set

/-- `retain(start, end)`. -/
def retainRange (set : UnicodeSet) (start stop : Int) : Option UnicodeSet :=
  let start := pinCodePoint start
  let stop := pinCodePoint stop
  if start ≤ stop then set.retainList [start, stop + 1, unicodesetHigh] false
  else some set.clear

/-- `remove(start, end)`. -/
def removeRange (set : UnicodeSet) (start stop : Int) : Option UnicodeSet :=
  let start := pinCodePoint start
  let stop := pinCodePoint stop
  if start ≤ stop then set.retainList [start, stop + 1, unicodesetHigh] true
  else some set

/-- `complement(start, end)`. -/
def complementRange (set : UnicodeSet) (start stop : Int) : Option UnicodeSet :=
  if set.isFrozen || set.isBogus then some set
  else
    let start := pinCodePoint start
    let stop := pinCodePoint stop
    if start ≤ stop then set.exclusiveOrList [start, stop + 1, unicodesetHigh]
    else some set

/-- `complement()`. -/
def complement (set : UnicodeSet) : Option UnicodeSet :=
  if set.isFrozen || set.isBogus then some set
  else
    match set.list with
    | [] => none
    | x :: xs =>
      if x = unicodesetLow then some { set with list := xs }
      else some { set with list := unicodesetLow :: x :: xs }

/-- The loop of `addAll` over the strings of the other set. -/
def addStrings (set : UnicodeSet) : List (List UInt16) → Option UnicodeSet
  | [] => some set
  | s :: rest =>
    if s ∈ set.strings then set.addStrings rest
    else
      match set.addToStrings s with
      | none => none
      | some set => set.addStrings rest

/-- `addAll(c)`. -/
def addAll (set c : UnicodeSet) : Option UnicodeSet := do
  let set ← if c.list.length > 0 then set.addList c.list else some set
  set.addStrings c.strings

/-- `retainAll(c)`. -/
def retainAll (set c : UnicodeSet) : Option UnicodeSet :=
  if set.isFrozen || set.isBogus then some set
  else (set.retainList c.list false).map fun set =>
    { set with strings := set.strings.filter (· ∈ c.strings) }

/-- `removeAll(c)`. -/
def removeAll (set c : UnicodeSet) : Option UnicodeSet :=
  if set.isFrozen || set.isBogus then some set
  else (set.retainList c.list true).map fun set =>
    { set with strings := set.strings.filter (· ∉ c.strings) }

/-- The loop of `complementAll` over the strings of the other set. -/
def complementStrings (set : UnicodeSet) : List (List UInt16) → Option UnicodeSet
  | [] => some set
  | s :: rest =>
    if s ∈ set.strings then
      complementStrings { set with strings := set.strings.erase s } rest
    else
      match set.addToStrings s with
      | none => none
      | some set => set.complementStrings rest

/-- `complementAll(c)`. -/
def complementAll (set c : UnicodeSet) : Option UnicodeSet :=
  if set.isFrozen || set.isBogus then some set
  else do
    let set ← set.exclusiveOrList c.list
    set.complementStrings c.strings

end UnicodeSet

end Icu
