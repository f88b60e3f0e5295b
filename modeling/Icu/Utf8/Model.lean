import Icu.Utf16
import Mathlib.Tactic.IntervalCases
import Mathlib.Tactic.Ring

/-! # UTF-8 code units

The macros of `utf8.h` and the functions behind them, on counted strings. A string is its list of
bytes. Reads are partial: a function that would read outside of the string has no result. Offsets
are unbounded: the sums `i+1` and `i+count` of the source are `int32_t`, and overflow only within
five bytes of the largest one.
-/

namespace Icu.Utf8

open Utf16

/-- The byte at an offset, as an integer. -/
def byteAt (s : List UInt8) (i : Nat) : Option Nat := s[i]?.map (·.toNat)

def u8CountTrailBytes (leadByte : Nat) : Nat :=
  if leadByte < 0xf0 then
    (if leadByte ≥ 0xc0 then 1 else 0) + (if leadByte ≥ 0xe0 then 1 else 0)
  else if leadByte < 0xfe then
    3 + (if leadByte ≥ 0xf8 then 1 else 0) + (if leadByte ≥ 0xfc then 1 else 0)
  else 0

def u8MaskLeadByte (leadByte countTrailBytes : Nat) : Nat :=
  leadByte &&& ((1 <<< (6 - countTrailBytes)) - 1)

/-- `(uint8_t)(c-0xc0)<0x3e`. -/
def u8IsLead (c : Nat) : Bool := (c + 0x40) % 0x100 < 0x3e

def u8IsTrail (c : Nat) : Bool := c &&& 0xc0 == 0x80

/-- `(uint8_t)(b-0x80)`, at most `0x3f` for a trail byte. -/
def trailValue (b : Nat) : Nat := (b + 0x80) % 0x100

def uIsUnicodeNonchar (c : Nat) : Bool :=
  decide (c ≥ 0xfdd0) && (decide (c ≤ 0xfdef) || (c &&& 0xfffe == 0xfffe)) && decide (c ≤ 0x10ffff)

def utf8MinLegal (count : Nat) : Nat :=
  match count with
  | 0 => 0
  | 1 => 0x80
  | 2 => 0x800
  | _ => 0x10000

def utf8ErrorValue (count : Nat) : Int :=
  match count with
  | 0 => 0x15
  | 1 => 0x9f
  | 2 => 0xffff
  | 3 => 0x10ffff
  | 4 => 0x3ffffff
  | _ => 0x7fffffff

/-- `strict` is -1 for `U_SENTINEL`, -3 for U+FFFD, -2 to be lenient about surrogates. -/
def errorValue (count : Nat) (strict : Int) : Int :=
  if strict ≥ 0 then utf8ErrorValue count
  else if strict = -3 then 0xfffd
  else -1

/-- `while(count>0 && U8_IS_TRAIL(s[i])) { ++i; --count; }` -/
def skipTrails (s : List UInt8) : Nat → Nat → Option Nat
  | 0, i => some i
  | count + 1, i => do
    let b ← byteAt s i
    if u8IsTrail b then skipTrails s count (i + 1) else return i

section NextCharSafeBody

-- Each case of the `switch` falls through to the one with fewer bytes. The result of a
-- case that breaks is `some none`.
variable (s : List UInt8) (strict : Int)

def nextCase1 (minLegal c i : Nat) : Option (Option (Nat × Nat)) := do
  let trail := trailValue (← byteAt s i)
  let c := (c <<< 6) ||| trail
  if trail > 0x3f then return none
  if c ≥ minLegal ∧ (strict ≤ 0 ∨ !uIsUnicodeNonchar c) then return some (c, i + 1)
  return none

def nextCase2 (minLegal c i : Nat) : Option (Option (Nat × Nat)) := do
  let trail := trailValue (← byteAt s i)
  let c := (c <<< 6) ||| trail
  -- before the last shift, a surrogate is 360..37f
  if (c &&& 0xffe0 = 0x360 ∧ strict ≠ -2) ∨ trail > 0x3f then return none
  nextCase1 s strict minLegal c (i + 1)

def nextCase3 (minLegal c i : Nat) : Option (Option (Nat × Nat)) := do
  let trail := trailValue (← byteAt s i)
  let c := (c <<< 6) ||| trail
  if c ≥ 0x110 ∨ trail > 0x3f then return none
  nextCase2 s strict minLegal c (i + 1)

def nextSwitch (count c i : Nat) : Option (Option (Nat × Nat)) :=
  match count with
  | 1 => nextCase1 s strict (utf8MinLegal count) c i
  | 2 => nextCase2 s strict (utf8MinLegal count) c i
  | 3 => nextCase3 s strict (utf8MinLegal count) c i
  | _ => some none -- illegally leading trail bytes, 0xfe and 0xff, and more than 3 trail bytes

end NextCharSafeBody

/-- The error handling of `utf8_nextCharSafeBody`. -/
def nextError (s : List UInt8) (i count : Nat) (strict : Int) : Option (Int × Nat) := do
  let j ← skipTrails s count i
  return (errorValue (j - i) strict, j)

def utf8NextCharSafeBody (s : List UInt8) (i length c : Nat) (strict : Int) :
    Option (Int × Nat) := do
  let count := u8CountTrailBytes c
  if i + count ≤ length then
    match ← nextSwitch s strict count (u8MaskLeadByte c count) i with
    | some (c, j) => return (c, j)
    | none => nextError s i count strict
  else nextError s i (length - i) strict -- too few bytes left

/-- Handle U+1000..U+CFFF inline, if the lead byte `c` before offset `i` allows it. -/
def nextInline3 (s : List UInt8) (i length c : Nat) : Option (Option (Int × Nat)) :=
  if 0xe0 < c ∧ c ≤ 0xec ∧ i + 1 < length then do
    let t1 := trailValue (← byteAt s i)
    if t1 ≤ 0x3f then
      let t2 := trailValue (← byteAt s (i + 1))
      if t2 ≤ 0x3f then
        return some (((((c <<< 12) ||| (t1 <<< 6) ||| t2) % 0x10000 : Nat) : Int), i + 2)
      else return none
    else return none
  else some none

/-- Handle U+0080..U+07FF inline. -/
def nextInline2 (s : List UInt8) (i length c : Nat) : Option (Option (Int × Nat)) :=
  if c < 0xe0 ∧ c ≥ 0xc2 ∧ i ≠ length then do
    let t1 := trailValue (← byteAt s i)
    if t1 ≤ 0x3f then return some (((((c &&& 0x1f) <<< 6) ||| t1 : Nat) : Int), i + 1)
    else return none
  else some none

/-- `U8_NEXT` and `U8_NEXT_OR_FFFD`, which differ in the value of `strict`: the code point
at the offset, and the offset behind it. -/
def u8NextStrict (strict : Int) (s : List UInt8) (i length : Nat) : Option (Int × Nat) := do
  let c ← byteAt s i
  let i := i + 1
  if c ≥ 0x80 then
    match ← nextInline3 s i length c with
    | some result => return result
    | none =>
      match ← nextInline2 s i length c with
      | some result => return result
      | none => utf8NextCharSafeBody s i length c strict
  else return (c, i)

def u8Next (s : List UInt8) (i length : Nat) : Option (Int × Nat) := u8NextStrict (-1) s i length

def u8NextOrFFFD (s : List UInt8) (i length : Nat) : Option (Int × Nat) :=
  u8NextStrict (-3) s i length

def u8Fwd1 (s : List UInt8) (i length : Nat) : Option Nat := do
  let b ← byteAt s i
  let i := i + 1
  if u8IsLead b then
    let count := u8CountTrailBytes b
    let count := if i + count > length then length - i else count
    skipTrails s count i
  else return i

/-- The loop of `utf8_prevCharSafeBody`, where `pos` is the offset of the last byte. The
value is built from the trail bytes that were read so far. -/
def prevLoop (s : List UInt8) (start pos : Nat) (strict : Int) :
    Nat → Nat → Nat → Nat → Nat → Option (Int × Nat)
  | 0, _, _, _, _ => none
  | fuel + 1, i, c, count, shift =>
    if i ≤ start then some (errorValue 0 strict, pos) -- no lead byte at all
    else
      match byteAt s (i - 1) with
      | none => none
      | some b =>
        let i := i - 1
        if 0x80 ≤ b ∧ b < 0xfe then
          if b &&& 0x40 ≠ 0 then
            -- lead byte, this will always end the loop
            let shouldCount := u8CountTrailBytes b
            if count = shouldCount then
              let c := c ||| (u8MaskLeadByte b count <<< shift)
              if count ≥ 4 ∨ c > 0x10ffff ∨ c < utf8MinLegal count ∨
                  (uIsSurrogate c ∧ strict ≠ -2) ∨
                  (strict > 0 ∧ uIsUnicodeNonchar c) then
                some (errorValue (if count ≥ 4 then 3 else count) strict, i)
              else some (c, i)
            else if count < shouldCount then some (errorValue count strict, i)
            else some (errorValue 0 strict, pos)
          else if count < 5 then
            prevLoop s start pos strict fuel i (c ||| ((b &&& 0x3f) <<< shift)) (count + 1)
              (shift + 6)
          else some (errorValue 0 strict, pos) -- more than 5 trail bytes is illegal
        else some (errorValue 0 strict, pos) -- single-byte character precedes trailing bytes

/-- The code point that ends with the byte `c` at offset `i`. -/
def utf8PrevCharSafeBody (s : List UInt8) (start i c : Nat) (strict : Int) :
    Option (Int × Nat) :=
  if !u8IsTrail c then some (errorValue 0 strict, i)
  else prevLoop s start i strict 6 i (c &&& 0x3f) 1 6

/-- `U8_PREV` and `U8_PREV_OR_FFFD`: the code point before the offset, and its offset. -/
def u8PrevStrict (strict : Int) (s : List UInt8) (start i : Nat) : Option (Int × Nat) := do
  let i := i - 1
  let c ← byteAt s i
  if c ≥ 0x80 then utf8PrevCharSafeBody s start i c strict else return (c, i)

def u8Prev (s : List UInt8) (start i : Nat) : Option (Int × Nat) := u8PrevStrict (-1) s start i

def u8PrevOrFFFD (s : List UInt8) (start i : Nat) : Option (Int × Nat) :=
  u8PrevStrict (-3) s start i

/-- The loop of `utf8_back1SafeBody` at offset `j`, for the byte at `i`. -/
def back1Loop (s : List UInt8) (i z : Nat) : Nat → Nat → Option Nat
  | 0, _ => none
  | fuel + 1, j => do
    let b ← byteAt s j
    if ¬ (0x80 ≤ b ∧ b < 0xfe) then return i
    else if b ≥ 0xc0 then
      if u8CountTrailBytes b ≥ i - j then return j else return i
    else if z < j then back1Loop s i z fuel (j - 1)
    else return i

def utf8Back1SafeBody (s : List UInt8) (start i : Nat) : Option Nat :=
  back1Loop s i (if i > start + 5 then i - 5 else start) 6 i

def u8SetCpStart (s : List UInt8) (start i : Nat) : Option Nat := do
  let b ← byteAt s i
  if u8IsTrail b then utf8Back1SafeBody s start i else return i

def u8Back1 (s : List UInt8) (start i : Nat) : Option Nat := do
  let i := i - 1
  let b ← byteAt s i
  if u8IsTrail b then utf8Back1SafeBody s start i else return i

end Icu.Utf8
