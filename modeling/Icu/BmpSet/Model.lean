import Icu.UnicodeSet.CodePointList
import Icu.Utf16
import Mathlib.Logic.Function.Basic
import Mathlib.Data.BitVec

/-! # The frozen form of a set of code points

`BMPSet` answers most queries from tables: a byte for each ASCII character, a bit for
each code point below `0x800`, two bits for each block of 64 code points of the rest of
the BMP. Mixed blocks and supplementary code points are searched for in the parent list,
between two indexes that were found once for all. Tables are functions of the index, and
list entries are used as table positions, so the builder works on natural numbers.
-/

namespace Icu

open UnicodeSet Utf16

inductive USetSpanCondition
  | notContained
  | contained
  | simple
  deriving DecidableEq, Repr

/-- `spanCondition != USET_SPAN_NOT_CONTAINED`, which is also how the code pins the
condition to 0 or 1. -/
def USetSpanCondition.holds : USetSpanCondition → Bool
  | notContained => false
  | contained => true
  | simple => true

structure BMPSet where
  /-- One byte for each ASCII character, or trail byte in lead position. -/
  asciiBytes : Nat → Bool
  /-- One bit for each code point below `0x800`, organized vertically. -/
  table7FF : Nat → BitVec 32
  /-- One bit for each 64 BMP code points, and one that marks a mixed block. -/
  bmpBlockBits : Nat → BitVec 32
  /-- List indexes for restricted searches. -/
  list4kStarts : Nat → Nat
  /-- The list of the parent set. -/
  list : List Int

namespace BMPSet

/-! ## Building the tables -/

/-- `table[trail] |= bits`. -/
def orAt (table : Nat → BitVec 32) (trail : Nat) (bits : BitVec 32) : Nat → BitVec 32 :=
  Function.update table trail (table trail ||| bits)

/-- `table[trail++] |= bits`, a number of times. -/
def orRange (bits : BitVec 32) : Nat → Nat → (Nat → BitVec 32) → (Nat → BitVec 32)
  | 0, _, table => table
  | count + 1, trail, table => orRange bits count (trail + 1) (orAt table trail bits)

/-- Set bits in a bit rectangle in vertical organization, `start < limit ≤ 0x800`. -/
def set32x64Bits (table : Nat → BitVec 32) (start limit : Nat) : Nat → BitVec 32 :=
  let lead := start >>> 6
  let trail := start &&& 0x3f
  let bits := 1#32 <<< lead
  if start + 1 = limit then orAt table trail bits -- single-character shortcut
  else
    let limitLead := limit >>> 6
    let limitTrail := limit &&& 0x3f
    if lead = limitLead then orRange bits (limitTrail - trail) trail table
    else
      -- A partial column, a rectangle and another partial column.
      let table₁ := if trail > 0 then orRange bits (64 - trail) trail table else table
      let lead₁ := if trail > 0 then lead + 1 else lead
      let table₂ :=
        if lead₁ < limitLead then
          let bits := ~~~((1#32 <<< lead₁) - 1#32)
          let bits := if limitLead < 0x20 then bits &&& ((1#32 <<< limitLead) - 1#32) else bits
          orRange bits 64 0 table₁
        else table₁
      let bits := 1#32 <<< (if limitLead = 0x20 then limitLead - 1 else limitLead)
      orRange bits limitTrail 0 table₂

/-- `start=list[listIndex++]` and the limit behind it, or `0x110000` at the end. -/
def nextRange : List Int → Option (Nat × Nat × List Int)
  | [] => none
  | [start] => some (start.toNat, 0x110000, [])
  | start :: limit :: rest => some (start.toNat, limit.toNat, rest)

/-- `do { asciiBytes[start++]=1; } while(start<limit && start<0x80);` -/
def fillAscii (limit : Nat) : Nat → Nat → (Nat → Bool) → (Nat → Bool) × Nat
  | 0, start, bytes => (bytes, start)
  | fuel + 1, start, bytes =>
    let bytes := Function.update bytes start true
    if start + 1 < limit ∧ start + 1 < 0x80 then fillAscii limit fuel (start + 1) bytes
    else (bytes, start + 1)

/-- The first loop of `initBits`: set `asciiBytes`. The result also holds the current
range and the rest of the list. -/
def initAscii : Nat → List Int → (Nat → Bool) → Option ((Nat → Bool) × Nat × Nat × List Int)
  | 0, _, _ => none
  | fuel + 1, rest, bytes =>
    match nextRange rest with
    | none => none
    | some (start, limit, rest) =>
      if start ≥ 0x80 then some (bytes, start, limit, rest)
      else
        let (bytes, start) := fillAscii limit 0x80 start bytes
        if limit ≤ 0x80 then initAscii fuel rest bytes else some (bytes, start, limit, rest)

/-- The second loop of `initBits`: set `table7FF`. -/
def initTable7FF : Nat → (Nat → BitVec 32) → Nat → Nat → List Int →
    Option ((Nat → BitVec 32) × Nat × Nat × List Int)
  | 0, _, _, _, _ => none
  | fuel + 1, table, start, limit, rest =>
    if start < 0x800 then
      let table := set32x64Bits table start (if limit ≤ 0x800 then limit else 0x800)
      if limit > 0x800 then some (table, 0x800, limit, rest)
      else
        match nextRange rest with
        | none => none
        | some (start, limit, rest) => initTable7FF fuel table start limit rest
    else some (table, start, limit, rest)

/-- Mark the block of 64 code points that `c` is in as mixed. -/
def setMixed (bits : Nat → BitVec 32) (c : Nat) : Nat → BitVec 32 :=
  orAt bits ((c >>> 6) &&& 0x3f) (0x10001#32 <<< ((c >>> 6) >>> 6))

/-- One range of the third loop: the new bits, `minStart` and the limit as modified. -/
def initBlockRange (bits : Nat → BitVec 32) (minStart start limit : Nat) :
    (Nat → BitVec 32) × Nat × Nat :=
  if start < limit then -- else: another range entirely in a known mixed-value block
    let mixed := start &&& 0x3f ≠ 0
    let bits₁ := if mixed then setMixed bits start else bits
    let start₁ := if mixed then (start >>> 6 + 1) <<< 6 else start
    let minStart₁ := if mixed then start₁ else minStart
    if start₁ < limit then
      -- `limit & ~0x3f`
      let bits₂ :=
        if start₁ < (limit >>> 6) <<< 6 then set32x64Bits bits₁ (start₁ >>> 6) (limit >>> 6)
        else bits₁
      if limit &&& 0x3f ≠ 0 then
        let limit₁ := (limit >>> 6 + 1) <<< 6
        (setMixed bits₂ limit, limit₁, limit₁)
      else (bits₂, minStart₁, limit)
    else (bits₁, minStart₁, limit)
  else (bits, minStart, limit)

/-- The third loop of `initBits`: set `bmpBlockBits`. -/
def initBlocks : Nat → (Nat → BitVec 32) → Nat → Nat → Nat → List Int →
    Option (Nat → BitVec 32)
  | 0, _, _, _, _, _ => none
  | fuel + 1, bits, minStart, start, limit, rest =>
    if start < 0x10000 then
      let limit := if limit > 0x10000 then 0x10000 else limit
      let start := if start < minStart then minStart else start
      let (bits, minStart, limit) := initBlockRange bits minStart start limit
      if limit = 0x10000 then some bits
      else
        match nextRange rest with
        | none => none
        | some (start, limit, rest) => initBlocks fuel bits minStart start limit rest
    else some bits

/-- `findCodePoint(c, lo, hi)`. -/
def findCodePoint (list : List Int) (c : Int) (lo hi : Nat) : Option Nat :=
  searchCodePoint list c lo hi

def containsSlow (list : List Int) (c : Int) (lo hi : Nat) : Option Bool :=
  (findCodePoint list c lo hi).map fun i => i &&& 1 == 1

/-- `list4kStarts[i]=findCodePoint(i<<12, list4kStarts[i-1], listLength-1)`, a number of
times. -/
def fill4kStarts (list : List Int) : Nat → Nat → (Nat → Nat) → Option (Nat → Nat)
  | 0, _, starts => some starts
  | count + 1, i, starts =>
    match findCodePoint list (i <<< 12 : Nat) (starts (i - 1)) (list.length - 1) with
    | none => none
    | some x => fill4kStarts list count (i + 1) (Function.update starts i x)

def init4kStarts (list : List Int) : Option (Nat → Nat) := do
  let first ← findCodePoint list 0x800 0 (list.length - 1)
  let starts ← fill4kStarts list 0x10 1 (Function.update (fun _ => 0) 0 first)
  return Function.update starts 0x11 (list.length - 1)

/-- Override some bits and bytes to the result of `contains(FFFD)` for faster validity
checking at runtime. -/
def overrideIllegal (set : BMPSet) : Option BMPSet := do
  let fffd ← containsSlow set.list 0xfffd (set.list4kStarts 0xf) (set.list4kStarts 0x10)
  let mask := ~~~(0x10001#32 <<< 0xd) -- lead byte 0xED
  if fffd then
    return { set with
      asciiBytes := fun i => if 0x80 ≤ i ∧ i < 0xc0 then true else set.asciiBytes i
      table7FF := fun i => if i < 64 then set.table7FF i ||| 3#32 else set.table7FF i
      bmpBlockBits := fun i =>
        if i < 32 then set.bmpBlockBits i ||| 1#32
        else if i < 64 then (set.bmpBlockBits i &&& mask) ||| (1#32 <<< 0xd)
        else set.bmpBlockBits i }
  else
    return { set with
      bmpBlockBits := fun i =>
        if 32 ≤ i ∧ i < 64 then set.bmpBlockBits i &&& mask else set.bmpBlockBits i }

/-- The three tables, from cleared ones. -/
def initBits (list : List Int) :
    Option ((Nat → Bool) × (Nat → BitVec 32) × (Nat → BitVec 32)) := do
  let (asciiBytes, start, limit, rest) ← initAscii (list.length + 1) list fun _ => false
  let (table7FF, start, limit, rest) ← initTable7FF (list.length + 1) (fun _ => 0#32) start limit
    rest
  let bmpBlockBits ← initBlocks (list.length + 1) (fun _ => 0#32) 0x800 start limit rest
  return (asciiBytes, table7FF, bmpBlockBits)

/-- The constructor `BMPSet(parentList, parentListLength)`. -/
def new (list : List Int) : Option BMPSet := do
  let list4kStarts ← init4kStarts list
  let (asciiBytes, table7FF, bmpBlockBits) ← initBits list
  overrideIllegal ⟨asciiBytes, table7FF, bmpBlockBits, list4kStarts, list⟩

/-- `(table7FF[c&0x3f]&((uint32_t)1<<(c>>6)))!=0`. -/
def testTable7FF (set : BMPSet) (c : Nat) : Bool :=
  set.table7FF (c &&& 0x3f) &&& (1#32 <<< (c >>> 6)) != 0#32

/-- `(bmpBlockBits[(c>>6)&0x3f]>>lead)&0x10001`. -/
def twoBits (set : BMPSet) (t1 lead : Nat) : BitVec 32 :=
  (set.bmpBlockBits t1 >>> lead) &&& 0x10001#32

/-- A BMP code point from `0x800` on that is not a surrogate: from its block, or from its
4k part of the list when the block is mixed. -/
def containsBMP (set : BMPSet) (c t1 lead : Nat) : Option Bool :=
  if set.twoBits t1 lead ≤ 1#32 then some (set.twoBits t1 lead != 0#32)
  else containsSlow set.list c (set.list4kStarts lead) (set.list4kStarts (lead + 1))

/-- `BMPSet::contains(c)`; a negative `c` is a large unsigned one. -/
def contains (set : BMPSet) (c : Int) : Option Bool :=
  if 0 ≤ c ∧ c ≤ 0x7f then some (set.asciiBytes c.toNat)
  else if 0 ≤ c ∧ c ≤ 0x7ff then some (set.testTable7FF c.toNat)
  else if (0 ≤ c ∧ c < 0xd800) ∨ (c ≥ 0xe000 ∧ c ≤ 0xffff) then
    set.containsBMP c.toNat ((c.toNat >>> 6) &&& 0x3f) (c.toNat >>> 12)
  else if 0 ≤ c ∧ c ≤ 0x10ffff then
    -- surrogate or supplementary code point
    containsSlow set.list c (set.list4kStarts 0xd) (set.list4kStarts 0x11)
  else some false

end BMPSet

end Icu
