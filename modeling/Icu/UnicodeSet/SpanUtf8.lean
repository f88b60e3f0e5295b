import Icu.UnicodeSet.Span
import Icu.Utf8.Backward

/-! # Spans of UTF-8 text

`UnicodeSet::spanUTF8` and `spanBackUTF8` for sets without strings. The loops of a set that
can be modified read one unit at a time and give an ill-formed one the value of U+FFFD. The
loop of a frozen set decodes from the lead byte, through table positions that were
overridden for illegal sequences, and goes over an ill-formed sequence byte by byte.
-/

namespace Icu

open UnicodeSet Utf8 Lib Lib.InversionList Lib.Scan

namespace BMPSet

variable (set : BMPSet) (s : List UInt8)

/-! ## Forward -/

/-- The initial all-ASCII span: an early return of the function, or the offset of the
first byte that is not ASCII. -/
def spanAscii (wanted : Bool) (limit : Nat) : Nat → Nat → Option (Except Nat Nat)
  | 0, _ => none
  | fuel + 1, i => do
    let b ← byteAt s i
    if b < 0x80 then
      if set.asciiBytes b ≠ wanted then return .error i
      else if i + 1 = limit then return .error (i + 1)
      else spanAscii wanted limit fuel (i + 1)
    else return .ok i

/-- Cut off `n` bytes of a trailing illegal sequence: the new `limit` and `limit0`. -/
def trim (wanted : Bool) (limit n : Nat) : Nat × Nat :=
  (limit - n, if set.asciiBytes 0x80 ≠ wanted then limit - n else limit)

/-- Make sure that the last 1/2/3/4-byte sequence before the limit is complete or runs into
a lead byte. `length` is the number of bytes behind the initial ASCII span. -/
def trimLimit (wanted : Bool) (limit length : Nat) : Option (Nat × Nat) := do
  let b ← byteAt s (limit - 1)
  if b < 0x80 then return (limit, limit)
  else if b < 0xc0 then
    -- single trail byte, check for preceding 3- or 4-byte lead byte
    if length ≥ 2 then
      let b2 ← byteAt s (limit - 2)
      if b2 ≥ 0xe0 then return set.trim wanted limit 2
      else if b2 < 0xc0 ∧ b2 ≥ 0x80 ∧ length ≥ 3 then
        let b3 ← byteAt s (limit - 3)
        -- 4-byte lead byte with only two trail bytes
        if b3 ≥ 0xf0 then return set.trim wanted limit 3 else return (limit, limit)
      else return (limit, limit)
    else return (limit, limit)
  else return set.trim wanted limit 1 -- lead byte with no trail bytes

/-- A trail byte at the offset, without its marker bits. -/
def trail? (i : Nat) : Option (Option Nat) := do
  let t := trailValue (← byteAt s i)
  return if t ≤ 0x3f then some t else none

/-- A three-byte sequence with lead byte `b` before offset `i`, if it is complete. -/
def spanUTF8Three (b i : Nat) : Option (Option Bool) := do
  match ← trail? s i with
  | none => return none
  | some t1 =>
    match ← trail? s (i + 1) with
    | none => return none
    | some t2 =>
      let b := b &&& 0xf
      return some (← set.containsBMP ((b <<< 12) ||| (t1 <<< 6) ||| t2) t1 b)

def spanUTF8Four (b i : Nat) : Option (Option Bool) := do
  match ← trail? s i with
  | none => return none
  | some t1 =>
    match ← trail? s (i + 1) with
    | none => return none
    | some t2 =>
      match ← trail? s (i + 2) with
      | none => return none
      | some t3 =>
        let c := ((b - 0xf0) <<< 18) ||| (t1 <<< 12) ||| (t2 <<< 6) ||| t3
        -- Give an illegal sequence the same value as the result of contains(FFFD).
        if 0x10000 ≤ c ∧ c ≤ 0x10ffff then return some (← set.containsSupplementary c)
        else return some (set.asciiBytes 0x80)

def spanUTF8Two (b i : Nat) : Option (Option Bool) := do
  match ← trail? s i with
  | none => return none
  | some t1 => return some (set.table7FF t1 &&& (1#32 <<< (b &&& 0x1f)) != 0#32)

/-- The body of the loop of `spanUTF8`: the value of the bytes at `i`, and where the next
ones are. Each byte of an illegal sequence is handled separately. -/
def spanUTF8Unit (i : Nat) : Option (Bool × Nat) := do
  let b ← byteAt s i
  if b < 0xc0 then return (set.asciiBytes b, i + 1)
  else if b ≥ 0xe0 then
    if b < 0xf0 then
      match ← set.spanUTF8Three s b (i + 1) with
      | some has => return (has, i + 3)
      | none => return (set.asciiBytes 0x80, i + 1)
    else
      match ← set.spanUTF8Four s b (i + 1) with
      | some has => return (has, i + 4)
      | none => return (set.asciiBytes 0x80, i + 1)
  else
    match ← set.spanUTF8Two s b (i + 1) with
    | some has => return (has, i + 2)
    | none => return (set.asciiBytes 0x80, i + 1)

/-- `while(s<limit) ...; return limit0;` -/
def spanUTF8Loop (wanted : Bool) (limit limit0 : Nat) : Nat → Nat → Option Nat
  | 0, _ => none
  | fuel + 1, i =>
    if i < limit then
      match set.spanUTF8Unit s i with
      | none => none
      | some (has, next) =>
        if has ≠ wanted then some i else spanUTF8Loop wanted limit limit0 fuel next
    else some limit0

/-- `BMPSet::spanUTF8`, for a string that is not empty. -/
def spanUTF8 (cond : USetSpanCondition) : Option Nat := do
  match ← set.spanAscii s cond.holds s.length s.length 0 with
  | .error n => return n
  | .ok i =>
    let (limit, limit0) ← set.trimLimit s cond.holds s.length (s.length - i)
    set.spanUTF8Loop s cond.holds limit limit0 (s.length + 1) i

/-- The value of a code point that is neither ASCII nor a surrogate. -/
def containsNonAscii (c : Nat) : Option Bool :=
  if c ≤ 0x7ff then some (set.testTable7FF c)
  else if c ≤ 0xffff then set.containsBMP c ((c >>> 6) &&& 0x3f) (c >>> 12)
  else set.containsSupplementary c

/-- The body of the loop of `spanBackUTF8`, which optimizes only for ASCII. -/
def spanBackUTF8Unit (i : Nat) : Option (Bool × Nat) := do
  let length := i - 1
  let b ← byteAt s length
  if b < 0x80 then return (set.asciiBytes b, length)
  else
    let (c, prev) ← utf8PrevCharSafeBody s 0 length b (-3)
    return (← set.containsNonAscii c.toNat, prev)

/-- `BMPSet::spanBackUTF8`, for a string that is not empty. -/
def spanBackUTF8 (cond : USetSpanCondition) : Option Nat :=
  scanBack (set.spanBackUTF8Unit s) cond.holds s.length s.length

end BMPSet

namespace UnicodeSet

variable (set : UnicodeSet) (s : List UInt8)

def spanUTF8Unit (i : Nat) : Option (Bool × Nat) := do
  let (c, next) ← u8NextOrFFFD s i s.length
  return (← set.contains c, next)

/-- `UnicodeSet::spanUTF8(s, length, spanCondition)` for a set without strings. -/
def spanUTF8 (cond : USetSpanCondition) : Option Nat :=
  match set.bmpSet, s with
  | _, [] => some 0
  | some bmpSet, s => bmpSet.spanUTF8 s cond
  | none, s => scan (set.spanUTF8Unit s) cond.holds s.length s.length 0

def spanBackUTF8Unit (i : Nat) : Option (Bool × Nat) := do
  let (c, prev) ← u8PrevOrFFFD s 0 i
  return (← set.contains c, prev)

/-- `UnicodeSet::spanBackUTF8(s, length, spanCondition)` for a set without strings. -/
def spanBackUTF8 (cond : USetSpanCondition) : Option Nat :=
  match set.bmpSet, s with
  | _, [] => some 0
  | some bmpSet, s => bmpSet.spanBackUTF8 s cond
  | none, s => scanBack (set.spanBackUTF8Unit s) cond.holds s.length s.length

end UnicodeSet

end Icu
