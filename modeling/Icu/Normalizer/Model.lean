import Icu.Utf16.CodePoints

/-! # `Normalizer2Impl::decompose`

The data of a `Normalizer2Impl` as far as decomposition reads it, the `ReorderingBuffer` and
`decompose()` with a buffer or without. A buffer is the text that has been written to it, and
it always has enough capacity. Loops that would not end have no result.
-/

namespace Icu.Normalizer

open Utf16

/-- `UTRIE2_GET16(normTrie, c)` is `getNorm16`, and `leadNorm16` is the value of a lead surrogate
code unit. -/
structure Normalizer2Impl where
  minDecompNoCP : Nat
  minYesNo : Nat
  limitNoNo : Nat
  minMaybeYes : Nat
  getNorm16 : Nat → Nat
  leadNorm16 : Nat → Nat
  extraData : Nat → UInt16

def minCccLcccCP : Nat := 0x300
def jamoVT : Nat := 0xff00
def minNormalMaybeYes : Nat := 0xfe00
def maxDelta : Nat := 0x40

def getCCFromYesOrMaybe (norm16 : Nat) : Nat :=
  if norm16 ≥ minNormalMaybeYes then norm16 % 0x100 else 0

namespace Hangul

def jamoLBase : Nat := 0x1100
def jamoVBase : Nat := 0x1161
def jamoTBase : Nat := 0x11a7
def hangulBase : Nat := 0xac00
def jamoVCount : Nat := 21
def jamoTCount : Nat := 28

/-- `Hangul::decompose(c, buffer)`: the units that are written to the buffer. -/
def decompose (c : Nat) : List UInt16 :=
  let c := c - hangulBase
  let c2 := c % jamoTCount
  let c := c / jamoTCount
  [UInt16.ofNat (jamoLBase + c / jamoVCount), UInt16.ofNat (jamoVBase + c % jamoVCount)] ++
    if c2 = 0 then [] else [UInt16.ofNat (jamoTBase + c2)]

end Hangul

namespace Normalizer2Impl

variable (impl : Normalizer2Impl)

/-- `UTRIE2_GET16_FROM_U16_SINGLE_LEAD(normTrie, c)` -/
def singleLead (c : Nat) : Nat := if u16IsLead c then impl.leadNorm16 c else impl.getNorm16 c

def isDecompYes (norm16 : Nat) : Bool := norm16 < impl.minYesNo || impl.minMaybeYes ≤ norm16

def isHangul (norm16 : Nat) : Bool := norm16 == impl.minYesNo

def isMostDecompYesAndZeroCC (norm16 : Nat) : Bool :=
  norm16 < impl.minYesNo || norm16 == minNormalMaybeYes || norm16 == jamoVT

def isDecompNoAlgorithmic (norm16 : Nat) : Bool := norm16 ≥ impl.limitNoNo

def mapAlgorithmic (c norm16 : Nat) : Nat := c + norm16 - (impl.minMaybeYes - maxDelta - 1)

/-- The first unit of `getMapping(norm16)`. -/
def firstUnit (norm16 : Nat) : Nat := (impl.extraData norm16).toNat

/-- `firstUnit&MAPPING_LENGTH_MASK` -/
def mappingLength (norm16 : Nat) : Nat := impl.firstUnit norm16 % 0x20

def mappingTrailCC (norm16 : Nat) : Nat := impl.firstUnit norm16 / 0x100

/-- With `MAPPING_HAS_CCC_LCCC_WORD`, the unit before the first one has the value. -/
def mappingLeadCC (norm16 : Nat) : Nat :=
  if impl.firstUnit norm16 / 0x80 % 2 = 1 then (impl.extraData (norm16 - 1)).toNat / 0x100 else 0

def mappingText (norm16 : Nat) : List UInt16 :=
  (List.range (impl.mappingLength norm16)).map fun i => impl.extraData (norm16 + 1 + i)

end Normalizer2Impl

/-- `text` is what is between `start` and `limit`. -/
structure ReorderingBuffer where
  text : List UInt16
  reorderStart : Nat
  lastCC : Nat
  deriving DecidableEq, Repr

namespace ReorderingBuffer

variable (impl : Normalizer2Impl) (b : ReorderingBuffer)

/-- An empty buffer after `init()`. -/
def empty : ReorderingBuffer := ⟨[], 0, 0⟩

def unitAt (i : Nat) : Nat := (b.text.getD i 0).toNat

/-- `skipPrevious()`: the new `codePointStart`. -/
def skipPrevious (codePointStart : Nat) : Nat :=
  let codePointStart := codePointStart - 1
  if u16IsTrail (b.unitAt codePointStart) ∧ 0 < codePointStart ∧
      u16IsLead (b.unitAt (codePointStart - 1)) then
    codePointStart - 1
  else codePointStart

/-- `previousCC()`: the result and the new `codePointStart`. The old one is `codePointLimit`. -/
def previousCC (codePointStart : Nat) : Nat × Nat :=
  if b.reorderStart ≥ codePointStart then (0, codePointStart)
  else
    let codePointStart := codePointStart - 1
    let c := b.unitAt codePointStart
    if c < minCccLcccCP then (0, codePointStart)
    else
      let c2 := b.unitAt (codePointStart - 1)
      if u16IsTrail c ∧ 0 < codePointStart ∧ u16IsLead c2 then
        (getCCFromYesOrMaybe (impl.getNorm16 (u16GetSupplementary c2 c)), codePointStart - 1)
      else (getCCFromYesOrMaybe (impl.getNorm16 c), codePointStart)

/-- `for(; previousCC()>cc;) {}`: the final `codePointLimit`. -/
def findPrevious (cc : Nat) : Nat → Nat → Nat
  | 0, codePointStart => codePointStart
  | fuel + 1, codePointStart =>
    let (previous, codePointStart') := b.previousCC impl codePointStart
    if previous > cc then findPrevious cc fuel codePointStart' else codePointStart

/-- `insert(c, cc)` -/
def insert (c cc : Nat) : ReorderingBuffer :=
  let codePointLimit := b.findPrevious impl cc b.text.length (b.skipPrevious b.text.length)
  { b with
    text := b.text.take codePointLimit ++ unitsOf c ++ b.text.drop codePointLimit
    reorderStart := if cc ≤ 1 then codePointLimit + u16Length c else b.reorderStart }

/-- `append(c, cc)`, with `appendBMP` and `appendSupplementary`. -/
def append (c cc : Nat) : ReorderingBuffer :=
  if b.lastCC ≤ cc ∨ cc = 0 then
    { text := b.text ++ unitsOf c
      reorderStart := if cc ≤ 1 then b.text.length + u16Length c else b.reorderStart
      lastCC := cc }
  else b.insert impl c cc

/-- The loop of `append(s, length, leadCC, trailCC)` over the code points behind the first. -/
def appendRest (trailCC : Nat) : List Nat → ReorderingBuffer → ReorderingBuffer
  | [], b => b
  | [c], b => b.append impl c trailCC
  | c :: cs, b => appendRest trailCC cs (b.append impl c (getCCFromYesOrMaybe (impl.getNorm16 c)))

/-- `append(s, length, leadCC, trailCC)` -/
def appendText (s : List UInt16) (leadCC trailCC : Nat) : ReorderingBuffer :=
  if s.length = 0 then b
  else if b.lastCC ≤ leadCC ∨ leadCC = 0 then
    { text := b.text ++ s
      reorderStart :=
        if trailCC ≤ 1 then b.text.length + s.length
        else if leadCC ≤ 1 then b.text.length + 1
        else b.reorderStart
      lastCC := trailCC }
  else
    match codePoints s with
    | [] => b
    | c :: cs => appendRest impl trailCC cs (b.insert impl c leadCC)

/-- `appendZeroCC(s, sLimit)` -/
def appendZeroCC (s : List UInt16) : ReorderingBuffer :=
  if s.length = 0 then b
  else { text := b.text ++ s, reorderStart := b.text.length + s.length, lastCC := 0 }

end ReorderingBuffer

namespace Normalizer2Impl

variable (impl : Normalizer2Impl)

/-- `decompose(c, norm16, buffer)` -/
def decomposeChar (b : ReorderingBuffer) : Nat → Nat → Nat → Option ReorderingBuffer
  | 0, _, _ => none
  | fuel + 1, c, norm16 =>
    if impl.isDecompYes norm16 then some (b.append impl c (getCCFromYesOrMaybe norm16))
    else if impl.isHangul norm16 then some (b.appendZeroCC (Hangul.decompose c))
    else if impl.isDecompNoAlgorithmic norm16 then
      let c := impl.mapAlgorithmic c norm16
      decomposeChar b fuel c (impl.getNorm16 c)
    else
      some (b.appendText impl (impl.mappingText norm16) (impl.mappingLeadCC norm16)
        (impl.mappingTrailCC norm16))

/-- More than all mappings to single code points. -/
def mappingFuel : Nat := 0x110001

section

variable (s : List UInt16)

def srcAt (i : Nat) : Nat := (s.getD i 0).toNat

/-- Count code units below the minimum or with irrelevant data: the new `src`, `c` and
`norm16`. -/
def quickCheck (prevSrc : Nat) : Nat → Nat → Nat → Nat → Option (Nat × Nat × Nat)
  | 0, _, _, _ => none
  | fuel + 1, src, c, norm16 =>
    if src ≠ s.length then
      let c := srcAt s src
      if c < impl.minDecompNoCP then quickCheck prevSrc fuel (src + 1) c norm16
      else
        let norm16 := impl.singleLead c
        if impl.isMostDecompYesAndZeroCC norm16 then quickCheck prevSrc fuel (src + 1) c norm16
        else if ¬ uIsSurrogate c then some (src, c, norm16)
        else
          let (src, c) :=
            if u16IsLead c then
              if src + 1 ≠ s.length ∧ u16IsTrail (srcAt s (src + 1)) then
                (src, u16GetSupplementary c (srcAt s (src + 1)))
              else (src, c)
            else
              if prevSrc < src ∧ u16IsLead (srcAt s (src - 1)) then
                (src - 1, u16GetSupplementary (srcAt s (src - 1)) c)
              else (src, c)
          let norm16 := impl.getNorm16 c
          if impl.isMostDecompYesAndZeroCC norm16 then
            quickCheck prevSrc fuel (src + u16Length c) c norm16
          else some (src, c, norm16)
    else some (src, c, norm16)

/-- The loop of `decompose(src, limit, buffer)` with a buffer. -/
def decomposeLoop : Nat → Nat → Nat → Nat → ReorderingBuffer → Option ReorderingBuffer
  | 0, _, _, _, _ => none
  | fuel + 1, prevSrc, c, norm16, b => do
    let (src, c, norm16) ← impl.quickCheck s prevSrc (s.length + 1) prevSrc c norm16
    let b := if src ≠ prevSrc then b.appendZeroCC ((s.drop prevSrc).take (src - prevSrc)) else b
    if src = s.length then return b
    else
      let b ← impl.decomposeChar b mappingFuel c norm16
      decomposeLoop fuel (src + u16Length c) c norm16 b

/-- The same loop for the quick check: the offset that is returned. -/
def spanLoop : Nat → Nat → Nat → Nat → Nat → Nat → Option Nat
  | 0, _, _, _, _, _ => none
  | fuel + 1, prevSrc, c, norm16, prevBoundary, prevCC => do
    let (src, c, norm16) ← impl.quickCheck s prevSrc (s.length + 1) prevSrc c norm16
    let prevCC := if src ≠ prevSrc then 0 else prevCC
    let prevBoundary := if src ≠ prevSrc then src else prevBoundary
    if src = s.length then return src
    else
      let src := src + u16Length c
      let cc := getCCFromYesOrMaybe norm16
      if impl.isDecompYes norm16 ∧ (prevCC ≤ cc ∨ cc = 0) then
        spanLoop fuel src c norm16 (if cc ≤ 1 then src else prevBoundary) cc
      else return prevBoundary -- "no" or cc out of order

/-- `decompose(src, limit, &buffer)` -/
def decompose (b : ReorderingBuffer) : Option ReorderingBuffer :=
  impl.decomposeLoop s (s.length + 1) 0 0 0 b

/-- `decompose(src, limit, NULL)` -/
def decomposeSpan : Option Nat := impl.spanLoop s (s.length + 1) 0 0 0 0 0

/-- `copyLowPrefixFromNulTerminated(src, minNeedDataCP, ...)`: the length of the prefix. -/
def lowPrefixLength (minNeedDataCP : Nat) : List UInt16 → Nat
  | [] => 0
  | u :: s => if u.toNat < minNeedDataCP ∧ u ≠ 0 then lowPrefixLength minNeedDataCP s + 1 else 0

/-- `decompose(src, NULL, &buffer)`, where `s` has a NUL. -/
def decomposeTerminated (b : ReorderingBuffer) : Option ReorderingBuffer :=
  let src := lowPrefixLength impl.minDecompNoCP s
  let limit := src + ((s.drop src).takeWhile (· ≠ 0)).length
  impl.decomposeLoop (s.take limit) (limit + 1) src 0 0 (b.appendZeroCC (s.take src))

/-- `decompose(src, NULL, NULL)` -/
def decomposeSpanTerminated : Option Nat :=
  let src := lowPrefixLength impl.minDecompNoCP s
  let limit := src + ((s.drop src).takeWhile (· ≠ 0)).length
  impl.spanLoop (s.take limit) (limit + 1) src 0 0 src 0

end

end Normalizer2Impl

end Icu.Normalizer
