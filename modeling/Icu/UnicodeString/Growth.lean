import Icu.Lib.Int32
import Mathlib.Algebra.Ring.Int.Defs
import Mathlib.Order.Basic
import Mathlib.Tactic.Common

/-! # The sizes of a growing string

`doReplace` with its lengths, capacities and indexes as `int32_t` values that wrap around, and the
sizes in `allocate` as `size_t` values of 32 or 64 bits. Only the indexes of the copies are
modelled.
-/

namespace Icu.Growth

open Lib (int32)

def int32Max : Int := 0x7fffffff

def kGrowSize : Int := 128

/-- Where the units are. A `shared` array has more than one reference, and an `alias` is
read-only. -/
inductive Storage
  | stackBuffer
  | owned
  | shared
  | alias
  deriving DecidableEq

/-- `uprv_malloc`, by whether a request for so many bytes succeeds, and the size of a pointer. -/
structure Platform where
  wide : Bool
  malloc : Int → Bool

structure Str where
  isWritable : Bool
  storage : Storage
  length : Int
  capacity : Int

/-- Some units were written into an array, from an index on. -/
structure Write where
  arraySize : Int
  start : Int
  count : Int

inductive Result
  | unchanged
  | bogus
  | replaced (newLength : Int)

structure Outcome where
  result : Result
  writes : List Write

section Model

variable (p : Platform)

/-- `US_STACKBUF_SIZE` -/
def Platform.stackbufSize : Int := if p.wide then 15 else 13

def Platform.sizeT (x : Int) : Int := x % if p.wide then 2 ^ 64 else 2 ^ 32

/-- `words`: count bytes for the refCounter and the string capacity, and round up to a multiple
of 16; then divide by 4. -/
def words (capacity : Int) : Int :=
  int32 (p.sizeT (4 + int32 (int32 (capacity + 1) * 2) + 15) / 16 * 16 / 4)

/-- The size of the array that `allocate(capacity)` gets. `uprv_malloc(0)` always succeeds. -/
def allocate (capacity : Int) : Option Int :=
  if capacity ≤ p.stackbufSize then some p.stackbufSize
  else
    let bytes := p.sizeT (4 * words p capacity)
    if bytes = 0 ∨ p.malloc bytes then some ((bytes - 4) / 2) else none

/-- `us_arrayCopy` to an array of the size -/
def usArrayCopy (arraySize dstStart count : Int) : List Write :=
  if count > 0 then [⟨arraySize, dstStart, count⟩] else []

variable (str : Str)

def Str.isBufferWritable : Bool := str.storage == .stackBuffer || str.storage == .owned

def Str.pinIndex (start : Int) : Int :=
  if start < 0 then 0 else if start > str.length then str.length else start

/-- The length that `pinIndices(start, length)` leaves, for a pinned start. -/
def Str.pinLength (start length : Int) : Int :=
  if length < 0 then 0 else if length > str.length - start then str.length - start else length

/-- We need to make a copy of the array if the buffer is read-only, or shared, or too small. -/
def Str.needsClone (newCapacity : Int) : Bool :=
  str.storage == .alias || str.storage == .shared || decide (newCapacity > str.capacity)

/-- The new array of `cloneArrayIfNeeded(newCapacity, growCapacity, FALSE, ...)`, when it needs
one -/
def cloneArray (newCapacity growCapacity : Int) : Option Int :=
  let growCapacity :=
    if growCapacity < 0 then newCapacity
    else if newCapacity ≤ p.stackbufSize ∧ growCapacity > p.stackbufSize then p.stackbufSize
    else growCapacity
  (allocate p growCapacity).or
    (if newCapacity < growCapacity then allocate p newCapacity else none)

/-- `doReplace` from the new length on -/
def replaceRange (start length srcLength newLength : Int) : Outcome :=
  let saved :=
    if str.storage = .stackBuffer ∧ newLength > p.stackbufSize then
      usArrayCopy p.stackbufSize 0 str.length
    else []
  let tailStart := int32 (start + srcLength)
  let tailLength := int32 (str.length - int32 (start + length))
  let newCapacity := if newLength = -1 then str.capacity else newLength
  if str.needsClone newCapacity then
    match cloneArray p newCapacity (int32 (int32 (newLength + newLength / 4) + kGrowSize)) with
    | none => ⟨.bogus, saved⟩
    | some size =>
      -- if fArray changed, then we need to copy everything except what will change
      ⟨.replaced newLength, saved ++ usArrayCopy size 0 start ++
        usArrayCopy size tailStart tailLength ++ usArrayCopy size start srcLength⟩
  else
    -- fArray did not change; copy only the portion that isn't changing, leaving a hole
    ⟨.replaced newLength, saved ++
      (if length ≠ srcLength then usArrayCopy str.capacity tailStart tailLength else []) ++
      usArrayCopy str.capacity start srcLength⟩

/-- `optimize (read-only alias).remove(0, start) and .remove(start, end)`: the new length, or the
start for the rest of the function -/
def Str.trimAlias (start length : Int) : Int ⊕ Int :=
  if start = 0 then .inl (str.length - str.pinIndex length)
  else
    let start := str.pinIndex start
    if length ≥ str.length - start then .inl start else .inr start

/-- `doReplace` after the shortcuts for an alias. `inPlace`: the characters are at the start of the
range already. -/
def replaceFrom (start length srcLength : Int) (inPlace : Bool) : Outcome :=
  -- optimize append() onto a large-enough, owned string
  if start ≥ str.length then
    if srcLength = 0 then ⟨.unchanged, []⟩
    else
      let newLength := int32 (str.length + srcLength)
      if newLength ≤ str.capacity ∧ str.isBufferWritable then
        ⟨.replaced newLength, if inPlace ∧ start ≤ str.length then []
          else usArrayCopy str.capacity str.length srcLength⟩
      else replaceRange p str str.length 0 srcLength newLength
  else
    let start := str.pinIndex start
    let length := str.pinLength start length
    replaceRange p str start length srcLength (int32 (int32 (str.length - length) + srcLength))

/-- `doReplace(start, length, srcChars, srcStart, srcLength)`, with a source length that is not
negative and is 0 for a `NULL` source -/
def doReplace (start length srcLength : Int) (inPlace : Bool) : Outcome :=
  if !str.isWritable then ⟨.unchanged, []⟩
  else if str.storage = .alias ∧ srcLength = 0 then
    match str.trimAlias start length with
    | .inl newLength => ⟨.replaced newLength, []⟩
    | .inr start => replaceFrom p str start length srcLength inPlace
  else replaceFrom p str start length srcLength inPlace

end Model

structure Str.Valid (p : Platform) (str : Str) : Prop where
  length : 0 ≤ str.length
  capacity : str.length ≤ str.capacity
  int32 : str.capacity ≤ int32Max
  stackBuffer : str.storage = .stackBuffer → str.capacity = p.stackbufSize

def Write.InBounds (w : Write) : Prop := 0 ≤ w.start ∧ w.start + w.count ≤ w.arraySize

/-- The length after the replacement, without a bound. -/
def Str.newLength (str : Str) (start length srcLength : Int) : Int :=
  str.length - str.pinLength (str.pinIndex start) length + srcLength

/-- The string is bogus or unchanged or has the new length, and all writes are inside of arrays. -/
structure Outcome.Safe (o : Outcome) (newLength : Int) : Prop where
  result : ∀ n, o.result = .replaced n → n = newLength
  writes : ∀ w ∈ o.writes, w.InBounds

/-- Nothing is removed behind the end, or the range at the start or the end of an alias. -/
def Str.Trivial (str : Str) (start length srcLength : Int) : Prop :=
  srcLength = 0 ∧ (start ≥ str.length ∨ str.storage = .alias ∧
    (start = 0 ∨ length ≥ str.length - str.pinIndex start ∨ str.length = 0))

/-- A capacity for which the number of bytes wraps around to 0 or 16. -/
def WrapsToFew (p : Platform) (capacity : Int) : Prop :=
  int32Max - 9 ≤ capacity ∧ capacity ≤ int32Max ∧ (int32Max - 1 ≤ capacity → p.malloc 16 = true)

/-- The new length is an `int32_t` value, and a new array is not too small for it. -/
structure Str.Fits (p : Platform) (str : Str) (newLength : Int) : Prop where
  int32 : newLength ≤ int32Max
  array : str.needsClone newLength = true →
    ¬ WrapsToFew p newLength ∧ ¬ WrapsToFew p (newLength + newLength / 4 + kGrowSize)

variable {p : Platform} {str : Str} {x capacity size : Int}

theorem int32_eq (hlow : -0x80000000 ≤ x) (hhigh : x ≤ int32Max) : int32 x = x :=
  Lib.int32_eq hlow hhigh

theorem int32_wrap (hlow : int32Max < x) (hhigh : x ≤ 2 * int32Max) :
    int32 x = x - 2 ^ 32 ∧ int32 x ≤ -2 := by
  unfold int32Max at hlow hhigh
  rw [int32, Int.bmod_def]
  omega

theorem bytes_ge (h : 0 ≤ capacity) (hle : capacity < int32Max - 9) :
    2 * capacity + 4 ≤ p.sizeT (4 * words p capacity) := by
  unfold int32Max at hle
  cases hwide : p.wide
  all_goals
    simp only [words, Platform.sizeT, hwide, Bool.false_eq_true, if_false, if_true, int32,
      Int.bmod_def]
    omega

theorem bytes_few (h : int32Max - 9 ≤ capacity) (hle : capacity ≤ int32Max) :
    p.sizeT (4 * words p capacity) = if capacity < int32Max - 1 then 0 else 16 := by
  unfold int32Max at *
  cases hwide : p.wide
  all_goals
    simp only [words, Platform.sizeT, hwide, Bool.false_eq_true, if_false, if_true, int32,
      Int.bmod_def]
    split <;> omega

theorem stackbufSize_le (p : Platform) : 13 ≤ p.stackbufSize ∧ p.stackbufSize ≤ 15 := by
  unfold Platform.stackbufSize
  split <;> omega

theorem allocate_few (h : int32Max - 9 ≤ capacity) (hle : capacity ≤ int32Max) :
    (WrapsToFew p capacity → ∃ size : Int, size ≤ 6 ∧ allocate p capacity = some size) ∧
      (¬ WrapsToFew p capacity → allocate p capacity = none) := by
  have hstack := stackbufSize_le p
  have hlarge : ¬ capacity ≤ p.stackbufSize := by
    unfold int32Max at h
    omega
  by_cases hzero : capacity < int32Max - 1
  · refine ⟨fun _ => ⟨-2, by omega, ?_⟩, fun hno => absurd ⟨h, hle, fun hge => by omega⟩ hno⟩
    simp [allocate, hlarge, bytes_few h hle, hzero]
  constructor
  · intro hwraps
    exact ⟨6, by omega, by
      simp [allocate, hlarge, bytes_few h hle, hzero, hwraps.2.2 (by omega)]⟩
  intro hno
  have hmalloc : p.malloc 16 = false := by
    rw [← Bool.not_eq_true]
    exact fun hm => hno ⟨h, hle, fun _ => hm⟩
  simp [allocate, hlarge, bytes_few h hle, hzero, hmalloc]

theorem le_of_allocate (h : 0 ≤ capacity) (hle : capacity ≤ int32Max)
    (hwraps : ¬ WrapsToFew p capacity) (halloc : allocate p capacity = some size) :
    capacity ≤ size := by
  by_cases hfew : int32Max - 9 ≤ capacity
  · rw [(allocate_few hfew hle).2 hwraps] at halloc
    cases halloc
  have hbytes := @bytes_ge p capacity h (by omega)
  rw [allocate] at halloc
  split at halloc
  · have := Option.some.inj halloc
    omega
  dsimp only at halloc
  split at halloc
  · have := Option.some.inj halloc
    omega
  · cases halloc

section Clone

variable {newLength : Int}

theorem cloneArray_grow (h : p.stackbufSize < newLength)
    (hle : newLength + newLength / 4 + kGrowSize ≤ int32Max) :
    cloneArray p newLength (int32 (int32 (newLength + newLength / 4) + kGrowSize)) =
      (allocate p (newLength + newLength / 4 + kGrowSize)).or (allocate p newLength) := by
  have hstack := stackbufSize_le p
  unfold kGrowSize at hle ⊢
  rw [int32_eq (x := newLength + newLength / 4) (by omega) (by omega),
    int32_eq (by omega) hle, cloneArray, if_neg (by omega), if_neg (by omega), if_pos (by omega)]

/-- The growth does not fit, and its sum is negative. -/
theorem cloneArray_wrapped (h : 0 ≤ newLength) (hle : newLength ≤ int32Max)
    (hwrap : int32Max < newLength + newLength / 4 + kGrowSize) :
    cloneArray p newLength (int32 (int32 (newLength + newLength / 4) + kGrowSize)) =
      allocate p newLength := by
  have hgrow : int32 (int32 (newLength + newLength / 4) + kGrowSize) < 0 := by
    unfold kGrowSize int32Max at *
    simp only [int32, Int.bmod_def]
    omega
  rw [cloneArray, if_pos hgrow, if_neg (Int.lt_irrefl _), Option.or_none]

theorem cloneArray_small (h : newLength ≤ p.stackbufSize) (growCapacity : Int) :
    cloneArray p newLength growCapacity = some p.stackbufSize := by
  simp only [cloneArray]
  by_cases hneg : growCapacity < 0
  · rw [if_pos hneg, allocate, if_pos h]
    rfl
  rw [if_neg hneg]
  split
  · rw [allocate, if_pos (Int.le_refl _)]
    rfl
  · rw [allocate, if_pos (by omega)]
    rfl

theorem le_of_cloneArray (h : 0 ≤ newLength) (hle : newLength ≤ int32Max)
    (hwraps : ¬ WrapsToFew p newLength)
    (hgrow : ¬ WrapsToFew p (newLength + newLength / 4 + kGrowSize))
    (hclone : cloneArray p newLength (int32 (int32 (newLength + newLength / 4) + kGrowSize)) =
      some size) : newLength ≤ size := by
  by_cases hsmall : newLength ≤ p.stackbufSize
  · rw [cloneArray_small hsmall] at hclone
    exact hsmall.trans_eq (Option.some.inj hclone)
  by_cases hfits : newLength + newLength / 4 + kGrowSize ≤ int32Max
  · rw [cloneArray_grow (by omega) hfits] at hclone
    have hmore : newLength ≤ newLength + newLength / 4 + kGrowSize := by
      unfold kGrowSize
      omega
    rcases Option.or_eq_some_iff.mp hclone with hfirst | ⟨-, hsecond⟩
    · exact hmore.trans (le_of_allocate (h.trans hmore) hfits hgrow hfirst)
    · exact le_of_allocate h hle hwraps hsecond
  · rw [cloneArray_wrapped h hle (by omega)] at hclone
    exact le_of_allocate h hle hwraps hclone

theorem cloneArray_few (hle : newLength ≤ int32Max)
    (hwraps : WrapsToFew p newLength ∨ WrapsToFew p (newLength + newLength / 4 + kGrowSize)) :
    0x60000000 ≤ newLength ∧ ∃ size : Int, size ≤ 6 ∧
      cloneArray p newLength (int32 (int32 (newLength + newLength / 4) + kGrowSize)) =
      some size := by
  have hstack := stackbufSize_le p
  rcases hwraps with hw | hw
  all_goals
    have hlow := hw.1
    have hhigh := hw.2.1
    obtain ⟨size, hsize, halloc⟩ := (allocate_few hlow hhigh).1 hw
    have hlarge : 0x60000000 ≤ newLength := by
      unfold kGrowSize int32Max at *
      omega
    refine ⟨hlarge, size, hsize, ?_⟩
  · rw [cloneArray_wrapped (by omega) hle (by unfold kGrowSize int32Max at *; omega), halloc]
  rw [cloneArray_grow (by omega) hhigh, halloc]
  rfl

end Clone

section Replace

variable {start length srcLength n : Int}

theorem usArrayCopy_inBounds {dstStart count : Int} :
    (∀ w ∈ usArrayCopy size dstStart count, w.InBounds) ↔
      (0 < count → 0 ≤ dstStart ∧ dstStart + count ≤ size) := by
  unfold usArrayCopy
  by_cases h : 0 < count <;> simp [h, Write.InBounds]

theorem safe_replaced {ws : List Write} :
    Outcome.Safe ⟨.replaced x, ws⟩ n ↔ x = n ∧ ∀ w ∈ ws, w.InBounds := by
  constructor
  · intro h
    exact ⟨h.result x rfl, h.writes⟩
  · rintro ⟨rfl, h⟩
    exact ⟨fun m hm => (Result.replaced.inj hm).symm, h⟩

theorem safe_unchanged : Outcome.Safe ⟨.unchanged, []⟩ n :=
  ⟨fun _ h => (nomatch h), fun _ h => (nomatch h)⟩

theorem saved_inBounds (hstr : str.Valid p) (m : Int) :
    ∀ w ∈ (if str.storage = .stackBuffer ∧ m > p.stackbufSize then
      usArrayCopy p.stackbufSize 0 str.length else []), w.InBounds := by
  split
  · next hstack =>
    rw [usArrayCopy_inBounds]
    have := hstr.capacity
    rw [hstr.stackBuffer hstack.1] at this
    omega
  · exact fun _ h => (nomatch h)

section Copies

variable {tailLength : Int}

theorem copies_inBounds (hstart : 0 ≤ start) (hsrc : 0 ≤ srcLength) (htail : 0 ≤ tailLength)
    (h : start + srcLength + tailLength ≤ size) :
    ∀ w ∈ usArrayCopy size 0 start ++ usArrayCopy size (start + srcLength) tailLength ++
      usArrayCopy size start srcLength, w.InBounds := by
  simp only [List.forall_mem_append, usArrayCopy_inBounds]
  exact ⟨⟨fun _ => by omega, fun _ => by omega⟩, fun _ => by omega⟩

theorem le_of_copies_inBounds (hstart : 0 ≤ start) (hsrc : 0 ≤ srcLength) (htail : 0 ≤ tailLength)
    (hn : 0 < start + srcLength + tailLength)
    (h : ∀ w ∈ usArrayCopy size 0 start ++ usArrayCopy size (start + srcLength) tailLength ++
      usArrayCopy size start srcLength, w.InBounds) : start + srcLength + tailLength ≤ size := by
  simp only [List.forall_mem_append, usArrayCopy_inBounds] at h
  obtain ⟨⟨hhead, htails⟩, hmid⟩ := h
  by_cases ht : 0 < tailLength
  · exact (htails ht).2
  by_cases hs : 0 < srcLength
  · have := (hmid hs).2
    omega
  · have := (hhead (by omega)).2
    omega

end Copies

theorem replaceRange_wrapped (hwrap : int32Max < n) (hhigh : n ≤ 2 * int32Max) :
    ¬ (replaceRange p str start length srcLength (int32 n)).Safe n := by
  have hstack := stackbufSize_le p
  have hneg := (int32_wrap hwrap hhigh).2
  unfold replaceRange
  simp only [if_neg (show int32 n ≠ -1 by omega), @cloneArray_small p (int32 n) (by omega)]
  have hn : int32 n ≠ n := by
    unfold int32Max at hwrap
    omega
  split
  · exact fun h => hn (safe_replaced.mp h).1
  · exact fun h => hn (safe_replaced.mp h).1

theorem replaceRange_safe (hstr : str.Valid p) (hstart : 0 ≤ start) (hlength : 0 ≤ length)
    (hend : start + length ≤ str.length) (hsrc : 0 ≤ srcLength) (hmax : srcLength ≤ int32Max) :
    (replaceRange p str start length srcLength (int32 (str.length - length + srcLength))).Safe
      (str.length - length + srcLength) ↔ str.Fits p (str.length - length + srcLength) := by
  have hcap := hstr.capacity
  have hint := hstr.int32
  generalize hn : str.length - length + srcLength = n
  by_cases hwrap : int32Max < n
  · constructor
    · exact fun h => absurd h (replaceRange_wrapped hwrap (by omega))
    · exact fun h => absurd h.int32 (by omega)
  have h0 : 0 ≤ n := by omega
  have hle : n ≤ int32Max := by omega
  have htail : int32 (str.length - int32 (start + length)) = str.length - (start + length) := by
    unfold int32Max at *
    rw [int32_eq (x := start + length) (by omega) (by unfold int32Max; omega),
      int32_eq (by omega) (by unfold int32Max; omega)]
  have htailStart : int32 (start + srcLength) = start + srcLength := by
    rw [int32_eq (by omega) (by omega)]
  unfold replaceRange
  simp only [int32_eq (x := n) (by omega) hle, if_neg (show n ≠ -1 by omega), htail, htailStart]
  by_cases hclone : str.needsClone n = true
  · rw [if_pos hclone]
    by_cases hfew : WrapsToFew p n ∨ WrapsToFew p (n + n / 4 + kGrowSize)
    · obtain ⟨hlarge, size, hsize, hsome⟩ := cloneArray_few hle hfew
      rw [hsome]
      constructor
      · intro h
        rw [safe_replaced, List.append_assoc, List.append_assoc, List.forall_mem_append,
          ← List.append_assoc] at h
        have := le_of_copies_inBounds hstart hsrc (by omega) (by omega) h.2.2
        omega
      · intro h
        exact absurd hfew (not_or.mpr (h.array hclone))
    · have hfits : str.Fits p n := ⟨hle, fun _ => not_or.mp hfew⟩
      refine iff_of_true ?_ hfits
      cases hsome : cloneArray p n (int32 (int32 (n + n / 4) + kGrowSize)) with
      | none => exact ⟨fun _ hm => (nomatch hm), saved_inBounds hstr n⟩
      | some size =>
        have hsize := le_of_cloneArray h0 hle (fun h => hfew (.inl h)) (fun h => hfew (.inr h))
          hsome
        rw [safe_replaced, List.append_assoc, List.append_assoc, List.forall_mem_append,
          ← List.append_assoc]
        exact ⟨rfl, saved_inBounds hstr n, copies_inBounds hstart hsrc (by omega) (by omega)⟩
  · refine iff_of_true ?_ ⟨hle, fun h => absurd h hclone⟩
    have hroom : n ≤ str.capacity := by
      simp only [Str.needsClone, Bool.or_eq_true, decide_eq_true_eq, not_or] at hclone
      omega
    rw [if_neg hclone, safe_replaced, List.forall_mem_append, List.forall_mem_append,
      usArrayCopy_inBounds]
    refine ⟨rfl, ⟨saved_inBounds hstr n, ?_⟩, fun _ => by omega⟩
    split
    · rw [usArrayCopy_inBounds]
      exact fun _ => by omega
    · exact fun _ h => (nomatch h)

theorem pinIndex_bounds (h : 0 ≤ str.length) (start : Int) :
    0 ≤ str.pinIndex start ∧ str.pinIndex start ≤ str.length := by
  unfold Str.pinIndex
  split
  · omega
  · split <;> omega

theorem pinIndex_of_ge (h : 0 ≤ str.length) (hstart : start ≥ str.length) :
    str.pinIndex start = str.length := by
  unfold Str.pinIndex
  split
  · omega
  · split <;> omega

theorem pinIndex_pinned (h : 0 ≤ str.length) (start : Int) :
    str.pinIndex (str.pinIndex start) = str.pinIndex start := by
  have := pinIndex_bounds h start
  conv_lhs => rw [Str.pinIndex]
  rw [if_neg (by omega), if_neg (by omega)]

theorem pinLength_bounds (hend : start ≤ str.length) (length : Int) :
    0 ≤ str.pinLength start length ∧ start + str.pinLength start length ≤ str.length := by
  unfold Str.pinLength
  split
  · omega
  · split <;> omega

theorem replaceFrom_safe (hstr : str.Valid p) (hsrc : 0 ≤ srcLength) (hmax : srcLength ≤ int32Max)
    (inPlace : Bool) (hsome : ¬ (start ≥ str.length ∧ srcLength = 0)) :
    (replaceFrom p str start length srcLength inPlace).Safe (str.newLength start length srcLength) ↔
      str.Fits p (str.newLength start length srcLength) := by
  have h0 := hstr.length
  have hcap := hstr.capacity
  have hint := hstr.int32
  obtain ⟨hpin, hpinEnd⟩ := pinIndex_bounds h0 start
  obtain ⟨hlength, hend⟩ := pinLength_bounds hpinEnd length
  unfold replaceFrom Str.newLength
  by_cases happend : start ≥ str.length
  · have hzero : str.pinLength (str.pinIndex start) length = 0 := by
      rw [pinIndex_of_ge h0 happend] at hlength hend ⊢
      omega
    rw [if_pos happend, if_neg (fun h => hsome ⟨happend, h⟩), hzero, Int.sub_zero]
    dsimp only
    split
    · next hroom =>
      -- the wrapped sum may seem to be small enough
      by_cases hwrap : int32Max < str.length + srcLength
      · have := int32_wrap hwrap (by omega)
        refine iff_of_false (fun h => ?_) (fun h => absurd h.int32 (by omega))
        have := (safe_replaced.mp h).1
        omega
      have hsum := int32_eq (x := str.length + srcLength) (by omega) (by omega)
      rw [hsum] at hroom ⊢
      refine iff_of_true (safe_replaced.mpr ⟨rfl, ?_⟩) ⟨by omega, fun h => ?_⟩
      · split
        · exact fun _ h => (nomatch h)
        rw [usArrayCopy_inBounds]
        exact fun _ => ⟨h0, hroom.1⟩
      · have hown := hroom.2
        simp only [Str.isBufferWritable, Bool.or_eq_true, beq_iff_eq] at hown
        simp only [Str.needsClone, Bool.or_eq_true, beq_iff_eq, decide_eq_true_eq] at h
        rcases hown with hown | hown <;> rw [hown] at h <;> simp at h <;> omega
    · have := replaceRange_safe hstr h0 (Int.le_refl 0) (by omega) hsrc hmax
      rwa [Int.sub_zero] at this
  · rw [if_neg happend]
    dsimp only
    rw [int32_eq (x := str.length - _) (by omega) (by omega)]
    exact replaceRange_safe hstr hpin hlength hend hsrc hmax

theorem trimAlias_length (h : 0 ≤ str.length) {length : Int}
    (htrim : str.trimAlias start length = .inl x) : x = str.newLength start length 0 := by
  obtain ⟨hpin, hpinEnd⟩ := pinIndex_bounds h start
  unfold Str.trimAlias at htrim
  unfold Str.newLength
  split at htrim
  · next hstart =>
    subst hstart
    have hzero : str.pinIndex 0 = 0 := by
      rw [Str.pinIndex, if_neg (by omega), if_neg (by omega)]
    rw [← Sum.inl.inj htrim, hzero, Str.pinIndex, Str.pinLength, Int.sub_zero, Int.add_zero]
  · dsimp only at htrim
    split at htrim
    · rw [← Sum.inl.inj htrim, Str.pinLength, if_neg (by omega)]
      split <;> omega
    · cases htrim

/-- An alias that is not trimmed goes on with the pinned start. -/
theorem trimAlias_rest {length : Int} (htrim : str.trimAlias start length = .inr x) :
    x = str.pinIndex start ∧ start ≠ 0 ∧ length < str.length - str.pinIndex start := by
  unfold Str.trimAlias at htrim
  split at htrim
  · cases htrim
  · next hstart =>
    dsimp only at htrim
    split at htrim
    · cases htrim
    · next hlength => exact ⟨(Sum.inr.inj htrim).symm, hstart, not_le.mp hlength⟩

end Replace

theorem doReplace_safe_iff (hstr : str.Valid p) {srcLength : Int} (hsrc : 0 ≤ srcLength)
    (hmax : srcLength ≤ int32Max) (start length : Int) (inPlace : Bool) :
    (doReplace p str start length srcLength inPlace).Safe (str.newLength start length srcLength) ↔
      str.isWritable = false ∨ str.Trivial start length srcLength ∨
        str.Fits p (str.newLength start length srcLength) := by
  have h0 := hstr.length
  unfold doReplace
  cases hwritable : str.isWritable with
  | false => exact iff_of_true safe_unchanged (.inl rfl)
  | true =>
  simp only [Bool.not_true, Bool.false_eq_true, if_false, Bool.true_eq_false, false_or]
  split
  · next halias =>
    obtain ⟨halias, rfl⟩ := halias
    cases htrim : str.trimAlias start length with
    | inl newLength =>
      refine iff_of_true (safe_replaced.mpr ⟨trimAlias_length h0 htrim, by simp⟩) (.inl ⟨rfl, ?_⟩)
      by_contra hno
      rw [Str.trimAlias, if_neg (fun h => hno (.inr ⟨halias, .inl h⟩))] at htrim
      simp only at htrim
      rw [if_neg (fun h => hno (.inr ⟨halias, .inr (.inl h)⟩))] at htrim
      cases htrim
    | inr pinned =>
      obtain ⟨rfl, hstart, hlength⟩ := trimAlias_rest htrim
      have hsame : str.newLength (str.pinIndex start) length 0 = str.newLength start length 0 := by
        rw [Str.newLength, pinIndex_pinned h0, Str.newLength]
      dsimp only
      by_cases hnone : str.pinIndex start ≥ str.length
      · rw [replaceFrom, if_pos hnone, if_pos rfl]
        refine iff_of_true safe_unchanged (.inl ⟨rfl, ?_⟩)
        unfold Str.pinIndex at hnone
        split at hnone
        · exact .inr ⟨halias, .inr (.inr (by omega))⟩
        · exact .inl (by split at hnone <;> omega)
      rw [← hsame, replaceFrom_safe hstr hsrc hmax inPlace (fun h => hnone h.1), hsame,
        or_iff_right]
      rintro ⟨-, hge | ⟨-, hzero | hall | hempty⟩⟩
      · exact hnone (pinIndex_of_ge h0 hge).ge
      · exact hstart hzero
      · omega
      · have := (pinIndex_bounds h0 start).1
        omega
  · next halias =>
    by_cases hnone : start ≥ str.length ∧ srcLength = 0
    · rw [replaceFrom, if_pos hnone.1, if_pos hnone.2]
      exact iff_of_true safe_unchanged (.inl ⟨hnone.2, .inl hnone.1⟩)
    rw [replaceFrom_safe hstr hsrc hmax inPlace hnone, or_iff_right]
    rintro ⟨hzero, hge | htrim⟩
    · exact hnone ⟨hge, hzero⟩
    · exact halias ⟨htrim.1, hzero⟩

theorem doReplace_safe_append :
    (doReplace ⟨true, fun _ => true⟩ ⟨true, .stackBuffer, 1, 15⟩ 1 0 14 false).Safe 15 :=
  (@doReplace_safe_iff ⟨true, fun _ => true⟩ ⟨true, .stackBuffer, 1, 15⟩
    ⟨by decide, by decide, by decide, fun _ => rfl⟩ 14 (by decide) (by decide) 1 0 false).mpr
    (.inr (.inr ⟨by decide, fun h => absurd h (by decide)⟩))

/-- The new length wraps around to a negative one, for which the stack buffer seems to have room. -/
theorem doReplace_append_wraps :
    doReplace ⟨true, fun _ => true⟩ ⟨true, .stackBuffer, 1, 15⟩ 1 0 int32Max false =
        ⟨.replaced (-0x80000000), [⟨15, 1, 0x7fffffff⟩]⟩ ∧
      Str.Valid ⟨true, fun _ => true⟩ ⟨true, .stackBuffer, 1, 15⟩ ∧
      Str.newLength ⟨true, .stackBuffer, 1, 15⟩ 1 0 int32Max = 0x80000000 ∧
      ¬ (doReplace ⟨true, fun _ => true⟩ ⟨true, .stackBuffer, 1, 15⟩ 1 0 int32Max false).Safe
        0x80000000 := by
  have h : doReplace ⟨true, fun _ => true⟩ ⟨true, .stackBuffer, 1, 15⟩ 1 0 int32Max false =
      ⟨.replaced (-0x80000000), [⟨15, 1, 0x7fffffff⟩]⟩ := rfl
  refine ⟨h, ⟨by decide, by decide, by decide, fun _ => rfl⟩, rfl, ?_⟩
  rw [h, safe_replaced]
  exact fun hno => absurd hno.1 (by decide)

end Icu.Growth
