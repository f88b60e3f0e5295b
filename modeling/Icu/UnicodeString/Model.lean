import Icu.Lib.Overwrite

/-! # `UnicodeString`

Strings in their storage forms, and the memory that they share: the reference-counted arrays, and
the union inside of each object that holds either the stack buffer or the fields for an array. The
text of a read-only alias belongs to the caller, who does not change it.

`none` is the result of a read or write outside of an array. Allocation succeeds, and lengths do
not overflow.
-/

namespace Icu

open Lib

/-- What the language leaves open: the size of a pointer, the units of new memory, and the units of
the stack buffer after `fArray` and `fCapacity` are written over it. -/
structure Machine where
  pointerSize : Nat
  newUnits : Nat → List UInt16
  length_newUnits : ∀ n, (newUnits n).length = n
  overlay : List UInt16 → Nat → Nat → List UInt16
  length_overlay : ∀ fBuffer fArray fCapacity,
    (overlay fBuffer fArray fCapacity).length = fBuffer.length

/-- `US_STACKBUF_SIZE` -/
def Machine.usStackbufSize (m : Machine) : Nat := if m.pointerSize = 4 then 13 else 15

def kGrowSize : Nat := 128

def kMaxShortLength : Nat := 0x3ff

/-- The storage flags, with the fields that are used with them. -/
inductive Storage
  | bogus
  | shortString
  | longString (fArray fCapacity : Nat)
  /-- `fArray` is the text from the pointer on. -/
  | readonlyAlias (fArray : List UInt16) (fCapacity : Nat)
  deriving DecidableEq, Repr

structure UnicodeString where
  storage : Storage
  openGetBuffer : Bool
  /-- the bits of `fLengthAndFlags` above the storage flags -/
  lengthBits : Nat
  fLength : Nat
  fBuffer : List UInt16
  deriving DecidableEq, Repr

/-- An array with its reference count. -/
structure RefCounted where
  refCount : Nat
  units : List UInt16
  deriving DecidableEq, Repr

/-- All objects and arrays. A freed array is `none`. -/
structure Memory where
  strings : List UnicodeString
  arrays : List (Option RefCounted)
  deriving DecidableEq, Repr

/-- A `const UChar *`. -/
inductive Pointer
  | null
  | stackBuffer (string : Nat)
  | array (fArray : Nat)
  | text (units : List UInt16)
  deriving DecidableEq, Repr

namespace UnicodeString

variable (str : UnicodeString)

/-- The sign bit is not set. -/
def hasShortLength : Bool := str.lengthBits < 0x400

def length : Nat := if str.hasShortLength then str.lengthBits else str.fLength

def isWritable : Bool := !(str.openGetBuffer || str.storage == .bogus)

def isReadonly : Bool :=
  match str.storage with
  | .readonlyAlias _ _ => true
  | _ => false

def getCapacity (m : Machine) : Nat :=
  match str.storage with
  | .bogus => 0
  | .shortString => m.usStackbufSize
  | .longString _ fCapacity => fCapacity
  | .readonlyAlias _ fCapacity => fCapacity

/-- `getArrayStart()` of the object `i`. -/
def getArrayStart (i : Nat) : Pointer :=
  match str.storage with
  | .bogus => .null
  | .shortString => .stackBuffer i
  | .longString fArray _ => .array fArray
  | .readonlyAlias fArray _ => .text fArray

/-- Whether the string refers to the array. -/
def refersTo (fArray : Nat) : Bool :=
  match str.storage with
  | .longString a _ => a == fArray
  | _ => false

/-- `setLength(len)`, which sets all the bits to mark a large length. -/
def setLength (len : Nat) : UnicodeString :=
  if len ≤ kMaxShortLength then { str with lengthBits := len }
  else { str with lengthBits := 0x7ff, fLength := len }

/-- `pinIndex(start)` for a string of the length. -/
def pinIndex (len : Nat) (start : Int) : Nat :=
  if start < 0 then 0 else if start > len then len else start.toNat

/-- `pinIndices(start, length)` -/
def pinIndices (len : Nat) (start length : Int) : Nat × Nat :=
  let start := pinIndex len start
  (start, if length < 0 then 0 else if length > (len - start : Nat) then len - start
    else length.toNat)

/-- `optimize (read-only alias).remove(0, start) and .remove(start, end)`: the new string, if the
characters stay where they are, or the start for the rest of the function. -/
def trimAlias (start length : Int) : UnicodeString ⊕ Int :=
  match str.storage with
  | .readonlyAlias fArray fCapacity =>
    let oldLength := str.length
    if start = 0 then
      -- remove prefix by adjusting the array pointer
      let length := pinIndex oldLength length
      let trimmed :=
        { str with storage := .readonlyAlias (fArray.drop length) (fCapacity - length) }
      .inl (trimmed.setLength (oldLength - length))
    else
      let start := pinIndex oldLength start
      if length ≥ (oldLength - start : Nat) then
        -- remove suffix by reducing the length (like truncate())
        .inl { str.setLength start with storage := .readonlyAlias fArray start }
      else .inr start
  | _ => .inr start

end UnicodeString

namespace Memory

variable (mem : Memory)

def array (fArray : Nat) : Option RefCounted := mem.arrays[fArray]?.join

/-- The units that a pointer points to, up to the end of the array. -/
def read : Pointer → Option (List UInt16)
  | .null => none
  | .stackBuffer i => mem.strings[i]?.map (·.fBuffer)
  | .array fArray => (mem.array fArray).map (·.units)
  | .text units => some units

/-- Replace all the units. -/
def write (units : List UInt16) : Pointer → Option Memory
  | .null => none
  | .stackBuffer i => mem.strings[i]?.map fun str =>
    { mem with strings := mem.strings.set i { str with fBuffer := units } }
  | .array fArray => (mem.array fArray).map fun a =>
    { mem with arrays := mem.arrays.set fArray (some { a with units := units }) }
  | .text _ => none

/-- `us_arrayCopy(src, srcStart, dst, dstStart, count)` -/
def usArrayCopy (src : Pointer) (srcStart : Nat) (dst : Pointer) (dstStart count : Nat) :
    Option Memory :=
  if count > 0 then do
    let srcUnits ← mem.read src
    let dstUnits ← mem.read dst
    if srcStart + count ≤ srcUnits.length ∧ dstStart + count ≤ dstUnits.length then
      mem.write (overwrite dstUnits dstStart ((srcUnits.drop srcStart).take count)) dst
    else none
  else some mem

/-- Change the object `i`. -/
def setString (i : Nat) (str : UnicodeString) : Memory :=
  { mem with strings := mem.strings.set i str }

def refCount (str : UnicodeString) : Option Nat :=
  match str.storage with
  | .longString fArray _ => (mem.array fArray).map (·.refCount)
  | _ => some 0

/-- `isBufferWritable()` -/
def isBufferWritable (str : UnicodeString) : Option Bool :=
  match str.storage with
  | .longString fArray _ => (mem.array fArray).map fun a => str.isWritable && a.refCount == 1
  | _ => some (str.isWritable && !str.isReadonly)

/-- The contents of the object `i`. -/
def contents (i : Nat) : Option (List UInt16) := do
  let str ← mem.strings[i]?
  let units ← mem.read (str.getArrayStart i)
  if str.length ≤ units.length then return units.take str.length else none

variable (m : Machine)

/-- `words`: count bytes for the refCounter and the string capacity, and round up to a multiple
of 16; then divide by 4. -/
def allocatedWords (capacity : Nat) : Nat := (4 + (capacity + 1) * 2 + 15) / 16 * 16 / 4

/-- `allocate(capacity)` for the object `i` -/
def allocate (i : Nat) (capacity : Nat) : Option Memory := do
  let str ← mem.strings[i]?
  if capacity ≤ m.usStackbufSize then
    return mem.setString i { str with storage := .shortString, openGetBuffer := false, lengthBits :=
      0 }
  else
    let fArray := mem.arrays.length
    let fCapacity := (allocatedWords capacity - 1) * 2
    return {
      strings := mem.strings.set i { str with
        storage := .longString fArray fCapacity
        openGetBuffer := false
        lengthBits := 0
        fBuffer := m.overlay str.fBuffer fArray fCapacity }
      arrays := mem.arrays ++ [some ⟨1, m.newUnits fCapacity⟩] }

/-- Release the old array: decrement, and the array to delete if the count is 0. -/
def releaseOld (str : UnicodeString) : Option (Memory × Option Nat) :=
  match str.storage with
  | .longString fArray _ => (mem.array fArray).map fun a =>
    ({ mem with arrays := mem.arrays.set fArray (some { a with refCount := a.refCount - 1 }) },
      if a.refCount - 1 = 0 then some fArray else none)
  | _ => some (mem, none)

/-- We need to make a copy of the array if the buffer is read-only, or the buffer is refCounted
(shared), and refCount>1, or the buffer is too small. -/
def needsClone (str : UnicodeString) (newCapacity : Nat) : Option Bool :=
  (mem.refCount str).map fun refCount =>
    str.isReadonly || decide (refCount > 1) || decide (newCapacity > str.getCapacity m)

/-- `cloneArrayIfNeeded(newCapacity, growCapacity, FALSE, &bufferToDelete)` for a writable
string -/
def cloneArrayIfNeeded (i : Nat) (newCapacity growCapacity : Nat) :
    Option (Memory × Option Nat) := do
  let str ← mem.strings[i]?
  if ← mem.needsClone m str newCapacity then
    let growCapacity :=
      if newCapacity ≤ m.usStackbufSize ∧ growCapacity > m.usStackbufSize then m.usStackbufSize
      else growCapacity
    let mem ← mem.allocate m i growCapacity
    mem.releaseOld str
  else return (mem, none)

/-- Free the array. -/
def deleteBuffer (bufferToDelete : Option Nat) : Memory :=
  match bufferToDelete with
  | some fArray => { mem with arrays := mem.arrays.set fArray none }
  | none => mem

/-- `setLength(newLength)` for the object `i` -/
def setLengthOf (i : Nat) (newLength : Nat) : Option Memory :=
  mem.strings[i]?.map fun str => mem.setString i (str.setLength newLength)

/-- Copy the parts around the hole, unless they are in place already. -/
def copyAround (oldArray newArray : Pointer) (oldLength start length srcLength : Nat) :
    Option Memory :=
  if newArray ≠ oldArray then do
    -- if fArray changed, then we need to copy everything except what will change
    let mem ← mem.usArrayCopy oldArray 0 newArray 0 start
    mem.usArrayCopy oldArray (start + length) newArray (start + srcLength)
      (oldLength - (start + length))
  else if length ≠ srcLength then
    -- fArray did not change; copy only the portion that isn't changing, leaving a hole
    mem.usArrayCopy oldArray (start + length) newArray (start + srcLength)
      (oldLength - (start + length))
  else some mem

/-- The part of `doReplace` from the pinned indices on. -/
def replaceRange (i start length : Nat) (srcChars : Pointer) (srcStart srcLength : Nat) :
    Option Memory := do
  let str ← mem.strings[i]?
  let oldLength := str.length
  let newLength := oldLength - length + srcLength
  -- copy the stack buffer contents because it will be overwritten with fUnion.fFields values
  let oldArray :=
    if str.storage = .shortString ∧ newLength > m.usStackbufSize then
      .text (str.fBuffer.take oldLength)
    else str.getArrayStart i
  let (mem, bufferToDelete) ←
    mem.cloneArrayIfNeeded m i newLength (newLength + newLength / 4 + kGrowSize)
  let newStr ← mem.strings[i]?
  let newArray := newStr.getArrayStart i
  let mem ← mem.copyAround oldArray newArray oldLength start length srcLength
  -- now fill in the hole with the new string
  let mem ← mem.usArrayCopy srcChars srcStart newArray start srcLength
  let mem ← mem.setLengthOf i newLength
  return mem.deleteBuffer bufferToDelete

/-- `optimize append() onto a large-enough, owned string` -/
def appendInPlace (i : Nat) (str : UnicodeString) (start : Int) (srcChars : Pointer)
    (srcStart srcLength : Nat) : Option Memory := do
  let oldArray := str.getArrayStart i
  let oldLength := str.length
  -- the characters may be there already, after getAppendBuffer()
  let mem ←
    if ¬ (srcChars = oldArray ∧ (srcStart : Int) = start) ∨ start > oldLength then
      mem.usArrayCopy srcChars srcStart oldArray oldLength srcLength
    else some mem
  mem.setLengthOf i (oldLength + srcLength)

/-- The part of `doReplace` after the shortcuts for an alias. -/
def replaceChars (i : Nat) (str : UnicodeString) (start length : Int) (srcChars : Pointer)
    (srcStart srcLength : Nat) : Option Memory :=
  let oldLength := str.length
  if start ≥ oldLength then
    if srcLength = 0 then some mem
    else do
      let writable ← mem.isBufferWritable str
      if oldLength + srcLength ≤ str.getCapacity m ∧ writable then
        mem.appendInPlace i str start srcChars srcStart srcLength
      else mem.replaceRange m i oldLength 0 srcChars srcStart srcLength
  else
    let (start, length) := UnicodeString.pinIndices oldLength start length
    mem.replaceRange m i start length srcChars srcStart srcLength

/-- `doReplace(start, length, srcChars, srcStart, srcLength)` for the object `i`, with a source
length that is not negative. -/
def doReplaceChars (i : Nat) (start length : Int) (srcChars : Pointer) (srcStart srcLength : Nat) :
    Option Memory := do
  let str ← mem.strings[i]?
  if !str.isWritable then return mem
  else
    match if srcLength = 0 then str.trimAlias start length else .inr start with
    | .inl trimmed => return mem.setString i trimmed
    | .inr start =>
      if srcChars = .null then mem.replaceChars m i str start length srcChars 0 0
      else mem.replaceChars m i str start length srcChars srcStart srcLength

/-- `doReplace(start, length, src, srcStart, srcLength)` for the objects `i` and `j` -/
def doReplace (i : Nat) (start length : Int) (j : Nat) (srcStart srcLength : Int) :
    Option Memory := do
  let src ← mem.strings[j]?
  if src.storage ≠ .bogus then
    -- pin the indices to legal values
    let (srcStart, srcLength) := UnicodeString.pinIndices src.length srcStart srcLength
    mem.doReplaceChars m i start length (src.getArrayStart j) srcStart srcLength
  else
    -- remove the range
    mem.doReplaceChars m i start length .null 0 0

end Memory

end Icu
