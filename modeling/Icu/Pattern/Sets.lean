import Icu.Pattern.Model

/-! # Patterns of sets

`_generatePattern` writes a set as a pattern, and `applyPattern` reads one, without a symbol
table, with `USET_IGNORE_SPACE` and without a case closure. The pattern that a set caches is
not modelled. Property patterns are read by a function outside of this model.
-/

namespace Icu.Pattern

open Utf16 UnicodeSet

/-- `ICU_Utility::isUnprintable(c)` -/
def isUnprintable (c : Nat) : Bool := !(c ≥ 0x20 && c ≤ 0x7e)

def digits : List UInt16 :=
  [48, 49, 50, 51, 52, 53, 54, 55, 56, 57, 65, 66, 67, 68, 69, 70]

/-- `DIGITS[0xF&(c>>shift)]` -/
def hexDigit (c shift : Nat) : UInt16 := digits.getD (0xf &&& c >>> shift) 0

/-- `ICU_Utility::escapeUnprintable(result, c)` -/
def escapeUnprintable (c : Nat) : List UInt16 :=
  0x5c ::
    ((if c > 0xffff then [0x55, hexDigit c 28, hexDigit c 24, hexDigit c 20, hexDigit c 16]
      else [0x75]) ++
      [hexDigit c 12, hexDigit c 8, hexDigit c 4, hexDigit c 0])

/-- The characters of the switch in `_appendToPat`: `[ ] - ^ & \ { } : $` -/
def syntaxChars : List Nat := [0x5b, 0x5d, 0x2d, 0x5e, 0x26, 0x5c, 0x7b, 0x7d, 0x3a, 0x24]

/-- `_appendToPat(buf, c, escapeUnprintable)` -/
def appendToPat (escape : Bool) (c : Nat) : List UInt16 :=
  if escape && isUnprintable c then escapeUnprintable c
  else if c ∈ syntaxChars ∨ isWhiteSpace c then 0x5c :: unitsOf c
  else unitsOf c

/-- `_appendToPat(buf, s, escapeUnprintable)`, from index `i` on. -/
def appendStringToPat (escape : Bool) (s : List UInt16) : Nat → Nat → List UInt16
  | 0, _ => []
  | fuel + 1, i =>
    if i < s.length then
      let cp := (u16Get s i s.length).getD 0xffff
      appendToPat escape cp ++ appendStringToPat escape s fuel (i + u16Length cp)
    else []

/-- The pattern for one range. -/
def appendRange (escape : Bool) (start stop : Int) : List UInt16 :=
  appendToPat escape start.toNat ++
    if start ≠ stop then
      (if start + 1 ≠ stop then [0x2d] else []) ++ appendToPat escape stop.toNat
    else []

/-- The loop over the gaps between the ranges, from index `i` on. -/
def appendGaps (escape : Bool) (set : UnicodeSet) (i : Nat) : Nat → Option (List UInt16)
  | 0 => some []
  | fuel + 1 => do
    let start ← set.getRangeEnd (i - 1)
    let stop ← set.getRangeStart i
    let rest ← appendGaps escape set (i + 1) fuel
    return appendRange escape (start + 1) (stop - 1) ++ rest

/-- The loop over the ranges, from index `i` on. -/
def appendRanges (escape : Bool) (set : UnicodeSet) (i : Nat) : Nat → Option (List UInt16)
  | 0 => some []
  | fuel + 1 => do
    let start ← set.getRangeStart i
    let stop ← set.getRangeEnd i
    let rest ← appendRanges escape set (i + 1) fuel
    return appendRange escape start stop ++ rest

/-- The inverse representation is more economical. -/
def isInverted (set : UnicodeSet) : Bool :=
  set.getRangeCount > 1 && set.getRangeStart 0 == some minValue &&
    set.getRangeEnd (set.getRangeCount - 1) == some maxValue

def appendStrings (escape : Bool) (strings : List (List UInt16)) : List UInt16 :=
  strings.flatMap fun s => 0x7b :: appendStringToPat escape s s.length 0 ++ [0x7d]

/-- `_generatePattern(result, escapeUnprintable)` -/
def generatePattern (set : UnicodeSet) (escape : Bool) : Option (List UInt16) :=
  if isInverted set then
    (appendGaps escape set 1 (set.getRangeCount - 1)).map fun gaps =>
      0x5b :: 0x5e :: gaps ++ appendStrings escape set.strings ++ [0x5d]
  else
    (appendRanges escape set 0 set.getRangeCount).map fun ranges =>
      0x5b :: ranges ++ appendStrings escape set.strings ++ [0x5d]

/-! ## Reading -/

/-- `getSingleCP(s)` -/
def getSingleCP (s : List UInt16) : Int :=
  if s.length > 2 then -1
  else if s.length = 1 then ((unitAt s 0).getD 0xffff : Nat)
  else
    let cp := (u16Get s 0 s.length).getD 0xffff
    if cp > 0xffff then cp else -1

/-- `add(s)` for a string. -/
def addString (set : UnicodeSet) (s : List UInt16) : Option UnicodeSet :=
  if s.length = 0 ∨ set.isFrozen ∨ set.isBogus then some set
  else if getSingleCP s < 0 then
    if s ∈ set.strings then some set else set.addToStrings s
  else set.add (getSingleCP s)

/-- `buf.append(c)` -/
def appendChar (buf : List UInt16) (c : Int) : List UInt16 :=
  if 0 ≤ c ∧ c ≤ 0x10ffff then buf ++ unitsOf c.toNat else buf

/-- `0=before [, 1=between [...], 2=after ]` -/
inductive Mode
  | before
  | between
  | after
  deriving DecidableEq

/-- `0=none, 1=char, 2=set` -/
inductive LastItem
  | none
  | char
  | set
  deriving DecidableEq

inductive Op
  | none
  | hyphen
  | intersection
  deriving DecidableEq

structure ParseState where
  pos : Nat
  mode : Mode
  lastItem : LastItem
  lastChar : Int
  op : Op
  invert : Bool
  set : UnicodeSet

/-- An operation on the set that would read outside of a list fails. -/
def lift {α : Type} : Option α → Except Failure α
  | some x => .ok x
  | none => .error .badRead

/-- `ec = U_MALFORMED_SET; return;` -/
def malformed {α : Type} (pos : Nat) : Except Failure α := .error (.error .malformedSet pos)

/-- `if (lastItem == 1) add(lastChar, lastChar);` -/
def addLastChar (s : ParseState) : Except Failure UnicodeSet :=
  if s.lastItem = .char then lift (s.set.addRange s.lastChar s.lastChar) else .ok s.set

/-- The loop that reads a string up to its closing brace. -/
def readString (text : List UInt16) : Nat → Nat → List UInt16 → Except Failure (List UInt16 × Nat)
  | 0, pos, _ => malformed pos
  | fuel + 1, pos, buf =>
    if atEnd text pos then malformed pos
    else do
      let x ← next text pos
      if x.c = 0x7d ∧ !x.isEscaped then
        if buf.length < 1 then malformed x.pos else .ok (buf, x.pos)
      else readString text fuel x.pos (appendChar buf x.c)

/-- Parse literal characters. -/
def parseLiteral (s : ParseState) (c : Int) : Except Failure ParseState :=
  match s.lastItem with
  | .none => .ok { s with lastItem := .char, lastChar := c }
  | .char =>
    if s.op = .hyphen then
      -- Don't allow redundant (a-a) or empty (b-a) ranges.
      if s.lastChar ≥ c then malformed s.pos
      else do
        let set ← lift (s.set.addRange s.lastChar c)
        return { s with set, lastItem := .none, op := .none }
    else do
      let set ← lift (s.set.addRange s.lastChar s.lastChar)
      return { s with set, lastChar := c }
  | .set =>
    if s.op ≠ .none then malformed s.pos
    else .ok { s with lastChar := c, lastItem := .char }

/-- Parse special (syntax) characters, other characters are literal. -/
def parseChar (text : List UInt16) (s : ParseState) (c : Int) : Except Failure ParseState :=
  if c = 0x5d then do
    let set ← addLastChar s
    -- Treat final trailing '-' as a literal
    if s.op = .hyphen then
      let set ← lift (set.addRange 0x2d 0x2d)
      return { s with set, mode := .after }
    else if s.op = .intersection then malformed s.pos
    else return { s with set, mode := .after }
  else if c = 0x2d then
    if s.op = .none then
      if s.lastItem ≠ .none then .ok { s with op := .hyphen }
      else do
        let set ← lift (s.set.addRange c c)
        let x ← next text s.pos
        if x.c = 0x5d ∧ !x.isEscaped then return { s with set, pos := x.pos, mode := .after }
        else malformed x.pos
    else malformed s.pos
  else if c = 0x26 then
    if s.lastItem = .set ∧ s.op = .none then .ok { s with op := .intersection } else malformed s.pos
  else if c = 0x5e then malformed s.pos
  else if c = 0x7b then
    if s.op ≠ .none then malformed s.pos
    else do
      let set ← addLastChar s
      let (buf, pos) ← readString text (text.length + 1) s.pos []
      let set ← lift (addString set buf)
      return { s with set, pos, lastItem := .none }
  else if c = 0x24 then do
    let x ← next text s.pos
    let anchor := x.c = 0x5d ∧ !x.isEscaped
    if ¬ anchor then parseLiteral s c
    else if s.op = .none then
      let set ← addLastChar s
      let set ← lift (set.add 0xffff) -- U_ETHER
      return { s with set, pos := x.pos, mode := .after }
    else malformed x.pos
  else parseLiteral s c

/-- `resemblesPropertyPattern(chars, iterOpts)` -/
def resemblesPropertyPattern (text : List UInt16) (pos : Nat) : Bool :=
  let (c, pos) := nextChar text true (text.length + 1) pos
  if c = 0x5b ∨ c = 0x5c then
    let (d, _) := nextChar text false (text.length + 1) pos
    if c = 0x5b then d = 0x3a else d = 0x4e || d = 0x70 || d = 0x50
  else false

/-- `*this = *nested` -/
def assign (set nested : UnicodeSet) : UnicodeSet :=
  if set.isFrozen then set
  else if nested.isBogus then { set.clear with bogus := true }
  else nested

section Apply

-- `applyPropertyPattern(pattern, pos, ec)` from position 0 on: the set and the new position.
variable (propertyPattern : List UInt16 → Except UErrorCode (UnicodeSet × Nat))

/-- `nested->applyPropertyPattern(chars, patLocal, ec)` -/
def applyPropertyPattern (text : List UInt16) (pos : Nat) : Except Failure (UnicodeSet × Nat) :=
  match propertyPattern (text.drop pos) with
  | .error code => .error (.error code pos)
  | .ok (set, count) => if count = 0 then malformed pos else .ok (set, advance text pos count)

/-- What a nested set does to the set. -/
def applyNested (s : ParseState) (nested : UnicodeSet) : Except Failure ParseState :=
  if s.mode = .before then
    -- Entire pattern is a category; leave parse loop
    .ok { s with set := assign s.set nested, mode := .after }
  else do
    let set ← lift (match s.op with
      | .hyphen => s.set.removeAll nested
      | .intersection => s.set.retainAll nested
      | .none => s.set.addAll nested)
    return { s with set, op := .none, lastItem := .set }

/-- Before a nested set. -/
def beforeNested (s : ParseState) : Except Failure ParseState :=
  if s.lastItem = .char then
    if s.op ≠ .none then malformed s.pos
    else do
      let set ← lift (s.set.addRange s.lastChar s.lastChar)
      return { s with set, lastItem := .none, op := .none }
  else .ok s

/-- One round of the parse loop. -/
def parseStep (nestedPattern : Nat → Except Failure (UnicodeSet × Nat)) (text : List UInt16)
    (s : ParseState) : Except Failure ParseState :=
  if resemblesPropertyPattern text s.pos then do
    let s ← beforeNested s
    let pos := skipIgnored text (text.length + 1) s.pos
    let (nested, pos) ← applyPropertyPattern propertyPattern text pos
    applyNested { s with pos } nested
  else do
    let x ← next text s.pos
    if x.c = 0x5b ∧ !x.isEscaped then
      if s.mode = .between then
        let s ← beforeNested s
        match nestedPattern s.pos with
        | .error (.error code pos) =>
          -- The error is noticed by the next round, if there is one.
          if atEnd text pos then malformed pos else .error (.error code pos)
        | .error .badRead => .error .badRead
        | .ok (nested, pos) => applyNested { s with pos } nested
      else
        -- Handle opening '[' delimiter
        let s := { s with mode := .between }
        let y ← next text x.pos
        let (s, backup, y) ←
          if y.c = 0x5e ∧ !y.isEscaped then do
            let z ← next text y.pos
            pure ({ s with invert := true }, y.pos, z)
          else pure (s, x.pos, y)
        -- Fall through to handle special leading '-'; otherwise restart loop.
        if y.c = 0x2d then parseLiteral { s with pos := y.pos } y.c
        else return { s with pos := backup }
    else if s.mode = .before then malformed x.pos
    else if x.isEscaped then parseLiteral { s with pos := x.pos } x.c
    else parseChar text { s with pos := x.pos } x.c

/-- `while (mode != 2 && !chars.atEnd())` -/
def parseLoop (nestedPattern : Nat → Except Failure (UnicodeSet × Nat)) (text : List UInt16) :
    Nat → ParseState → Except Failure ParseState
  | 0, s => .ok s
  | fuel + 1, s =>
    if s.mode = .after ∨ atEnd text s.pos then .ok s
    else do
      let s ← parseStep propertyPattern nestedPattern text s
      parseLoop nestedPattern text fuel s

/-- `applyPattern(chars, symbols, rebuiltPat, options, caseClosure, ec)` at a position. Each nested
call has read an opening bracket more. -/
def applyPatternAt (text : List UInt16) : Nat → UnicodeSet → Nat → Except Failure (UnicodeSet × Nat)
  | 0, _, _ => .error .badRead
  | depth + 1, set, pos => do
    let s ← parseLoop propertyPattern (applyPatternAt text depth .empty) text (text.length + 1)
      ⟨pos, .before, .none, 0, .none, false, set.clear⟩
    if s.mode ≠ .after then malformed s.pos
    else
      let pos := skipIgnored text (text.length + 1) s.pos
      let set ← if s.invert then lift s.set.complement else .ok s.set
      if set.isBogus then .error (.error .memoryAllocationError pos) else .ok (set, pos)

/-- `ICU_Utility::skipWhitespace(pattern, i, TRUE)` -/
def skipWhiteSpace (text : List UInt16) (pos : Nat) : Nat :=
  pos + ((text.drop pos).takeWhile fun u => isWhiteSpace u.toNat).length

/-- `applyPattern(pattern, status)` -/
def applyPattern (set : UnicodeSet) (text : List UInt16) : Except Failure UnicodeSet :=
  if set.isFrozen then .error (.error .noWritePermission 0)
  else do
    let (set, pos) ← applyPatternAt propertyPattern text (text.length + 1) set 0
    if skipWhiteSpace text pos ≠ text.length then .error (.error .illegalArgumentError pos)
    else return set

end Apply

end Icu.Pattern
