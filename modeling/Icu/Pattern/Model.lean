import Icu.ErrorCode
import Icu.Utf16
import Icu.UnicodeSet.Basic
import Icu.Utf16.CodePoints

/-! # Characters of a pattern

`RuleCharacterIterator` without a symbol table, and `u_unescapeAt`, which it uses for what
follows a backslash. A position is an offset into the text, and a character is a `UChar32`,
with -1 (`DONE`) behind the end.
-/

namespace Icu.Pattern

open Utf16

/-- A function stops with an error code, at a position of the iterator, or because it would
read outside of a list. -/
inductive Failure
  | error (code : UErrorCode) (pos : Nat)
  | badRead
  deriving DecidableEq

def latin1 : List Nat :=
  [0, 0, 0, 0, 0, 0, 0, 0, 0, 5, 5, 5, 5, 5, 0, 0,
   0, 0, 0, 0, 0, 0, 0, 0, 0, 0, 0, 0, 0, 0, 0, 0,
   5, 3, 3, 3, 3, 3, 3, 3, 3, 3, 3, 3, 3, 3, 3, 3,
   0, 0, 0, 0, 0, 0, 0, 0, 0, 0, 3, 3, 3, 3, 3, 3,
   3, 0, 0, 0, 0, 0, 0, 0, 0, 0, 0, 0, 0, 0, 0, 0,
   0, 0, 0, 0, 0, 0, 0, 0, 0, 0, 0, 3, 3, 3, 3, 0,
   3, 0, 0, 0, 0, 0, 0, 0, 0, 0, 0, 0, 0, 0, 0, 0,
   0, 0, 0, 0, 0, 0, 0, 0, 0, 0, 0, 3, 3, 3, 3, 0,
   0, 0, 0, 0, 0, 5, 0, 0, 0, 0, 0, 0, 0, 0, 0, 0,
   0, 0, 0, 0, 0, 0, 0, 0, 0, 0, 0, 0, 0, 0, 0, 0,
   0, 3, 3, 3, 3, 3, 3, 3, 0, 3, 0, 3, 3, 0, 3, 0,
   3, 3, 0, 0, 0, 0, 3, 0, 0, 0, 0, 3, 0, 0, 0, 3,
   0, 0, 0, 0, 0, 0, 0, 0, 0, 0, 0, 0, 0, 0, 0, 0,
   0, 0, 0, 0, 0, 0, 0, 3, 0, 0, 0, 0, 0, 0, 0, 0,
   0, 0, 0, 0, 0, 0, 0, 0, 0, 0, 0, 0, 0, 0, 0, 0,
   0, 0, 0, 0, 0, 0, 0, 3, 0, 0, 0, 0, 0, 0, 0, 0]

/-- `PatternProps::isWhiteSpace(c)` -/
def isWhiteSpace (c : Int) : Bool :=
  if c < 0 then false
  else if c ≤ 0xff then latin1.getD c.toNat 0 >>> 2 &&& 1 == 1
  else if 0x200e ≤ c ∧ c ≤ 0x2029 then c ≤ 0x200f || 0x2028 ≤ c
  else false

/-! ## Escapes -/

/-- `_digit8(c)` -/
def digit8 (c : Nat) : Int := if 0x30 ≤ c ∧ c ≤ 0x37 then c - 0x30 else -1

/-- `_digit16(c)` -/
def digit16 (c : Nat) : Int :=
  if 0x30 ≤ c ∧ c ≤ 0x39 then c - 0x30
  else if 0x41 ≤ c ∧ c ≤ 0x46 then c - (0x41 - 10)
  else if 0x61 ≤ c ∧ c ≤ 0x66 then c - (0x61 - 10)
  else -1

/-- `UNESCAPE_MAP`, in ascending order of the escape code. -/
def unescapeMap : List (Nat × Nat) :=
  [(0x61, 0x07), (0x62, 0x08), (0x65, 0x1b), (0x66, 0x0c), (0x6e, 0x0a), (0x72, 0x0d), (0x74, 0x09),
   (0x76, 0x0b)]

/-- Convert C-style escapes in table. -/
def lookupEscape (c : Nat) : List (Nat × Nat) → Option Nat
  | [] => none
  | (escape, result) :: map =>
    if c = escape then some result else if c < escape then none else lookupEscape c map

/-- `charAt(offset, context)` -/
def charAt (s : List UInt16) (offset : Nat) : Nat := (unitAt s offset).getD 0xffff

/-- What the first unit after the backslash says about the digits. -/
structure EscapeForm where
  minDig : Nat
  maxDig : Nat
  bitsPerDigit : Nat
  n : Nat
  result : Nat
  offset : Nat
  braces : Bool

def escapeForm (s : List UInt16) (c offset : Nat) : EscapeForm :=
  if c = 0x75 then ⟨4, 4, 4, 0, 0, offset, false⟩
  else if c = 0x55 then ⟨8, 8, 4, 0, 0, offset, false⟩
  else if c = 0x78 then
    if offset < s.length ∧ charAt s offset = 0x7b then ⟨1, 8, 4, 0, 0, offset + 1, true⟩
    else ⟨1, 2, 4, 0, 0, offset, false⟩
  else if digit8 c ≥ 0 then ⟨1, 3, 3, 1, (digit8 c).toNat, offset, false⟩
  else ⟨0, 0, 4, 0, 0, offset, false⟩

structure DigitState where
  offset : Nat
  n : Nat
  result : Nat
  c : Nat

/-- `while (*offset < length && n < maxDig)`, where the fuel is `maxDig - n`. -/
def readDigits (s : List UInt16) (bitsPerDigit : Nat) : Nat → DigitState → DigitState
  | 0, d => d
  | fuel + 1, d =>
    if d.offset < s.length then
      let c := charAt s d.offset
      let dig := if bitsPerDigit = 3 then digit8 c else digit16 c
      if dig < 0 then { d with c }
      else
        readDigits s bitsPerDigit fuel
          ⟨d.offset + 1, d.n + 1, d.result <<< bitsPerDigit ||| dig.toNat, c⟩
    else d

/-- See if there is a trail surrogate, either as an escape or as a literal: the unit and the offset
behind it. -/
def peekTrail (unescapeAt : Nat → Option (Nat × Nat)) (s : List UInt16) (offset : Nat) :
    Nat × Nat :=
  let c := charAt s offset
  if c = 0x5c ∧ offset + 1 < s.length then
    match unescapeAt (offset + 1) with
    | some (c, ahead) => (c % 0x10000, ahead)
    | none => (0xffff, offset + 1)
  else (c, offset + 1)

/-- `u_unescapeAt`: the code point and the offset behind the escape sequence, `none` for an
invalid one. -/
def uUnescapeAt (s : List UInt16) : Nat → Nat → Option (Nat × Nat)
  | 0, _ => none
  | fuel + 1, offset =>
    if offset ≥ s.length then none
    else
      let c := charAt s offset
      let offset := offset + 1
      let form := escapeForm s c offset
      if form.minDig ≠ 0 then
        let d := readDigits s form.bitsPerDigit (form.maxDig - form.n)
          ⟨form.offset, form.n, form.result, c⟩
        let offset := if form.braces then d.offset + 1 else d.offset
        if d.n < form.minDig then none
        else if form.braces ∧ d.c ≠ 0x7d then none
        else if d.result ≥ 0x110000 then none
        else if offset < s.length ∧ u16IsLead d.result then
          let (c, ahead) := peekTrail (uUnescapeAt s fuel) s offset
          if u16IsTrail c then some (u16GetSupplementary d.result c, ahead)
          else some (d.result, offset)
        else some (d.result, offset)
      else
        match lookupEscape c unescapeMap with
        | some result => some (result, offset)
        | none =>
          if c = 0x63 ∧ offset < s.length then
            -- Map \cX to control-X: X & 0x1F
            let c := charAt s offset
            let offset := offset + 1
            if u16IsLead c ∧ offset < s.length ∧ u16IsTrail (charAt s offset) then
              some (0x1f &&& u16GetSupplementary c (charAt s offset) % 0x10000, offset + 1)
            else some (0x1f &&& c, offset)
          else if u16IsLead c ∧ offset < s.length ∧ u16IsTrail (charAt s offset) then
            some (u16GetSupplementary c (charAt s offset), offset + 1)
          else some (c, offset)

/-- `\U87654321 or \ud800\udc00` -/
def maxUNotationLen : Nat := 12

/-- `_current()` -/
def current (text : List UInt16) (pos : Nat) : Int :=
  if pos < text.length then (u16Get text pos text.length).getD 0xffff else -1

/-- `U16_LENGTH(c)` of a `UChar32`. -/
def charLength (c : Int) : Nat := if 0 ≤ c ∧ c ≤ 0xffff then 1 else 2

/-- `_advance(count)` -/
def advance (text : List UInt16) (pos count : Nat) : Nat :=
  if pos + count > text.length then text.length else pos + count

def atEnd (text : List UInt16) (pos : Nat) : Bool := pos == text.length

/-- The next character, without a look at escapes, and the position behind it. -/
def nextChar (text : List UInt16) (skipWhiteSpace : Bool) : Nat → Nat → Int × Nat
  | 0, pos => (-1, pos)
  | fuel + 1, pos =>
    let c := current text pos
    let pos := advance text pos (charLength c)
    if skipWhiteSpace && isWhiteSpace c then nextChar text skipWhiteSpace fuel pos else (c, pos)

structure NextChar where
  c : Int
  isEscaped : Bool
  pos : Nat
  deriving DecidableEq

/-- `next(options, isEscaped, ec)`, with `PARSE_ESCAPES` and `SKIP_WHITESPACE`. -/
def next (text : List UInt16) (pos : Nat) : Except Failure NextChar :=
  let (c, pos) := nextChar text true (text.length + 1) pos
  if c = 0x5c then
    let lookahead := (text.drop pos).take maxUNotationLen
    match uUnescapeAt lookahead (lookahead.length + 1) 0 with
    | none => .error (.error .malformedUnicodeEscape pos)
    | some (c, offset) => .ok ⟨c, true, advance text pos offset⟩
  else .ok ⟨c, false, pos⟩

/-- `skipIgnored(options)` -/
def skipIgnored (text : List UInt16) : Nat → Nat → Nat
  | 0, pos => pos
  | fuel + 1, pos =>
    let a := current text pos
    if isWhiteSpace a then skipIgnored text fuel (advance text pos (charLength a)) else pos

end Icu.Pattern
