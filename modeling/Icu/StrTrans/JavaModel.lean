import Icu.StrTrans.Model

/-! # `u_strFromJavaModifiedUTF8WithSub`

The function of `ustrtrns.cpp`. In Java modified UTF-8 the code points U+0000..U+FFFF, with the
surrogates, are sequences of one to three bytes, and there are no longer ones. As before, a read
behind the memory of the source, and a write behind the capacity of the destination, have no
result.
-/

namespace Icu.StrTrans

open Lib Utf16 Utf8

variable (s : List UInt8) (destCapacity : Nat) (subchar : Int)

/-- Handle U+0080..U+FFFF inline, with `room n` for `(pSrcLimit - pSrc) >= n` where a loop
tests it. -/
def javaInlineChar (room : Nat → Bool) (ch pSrc : Nat) : Option (Option (UInt16 × Nat)) :=
  if ch ≥ 0xe0 then
    if ch ≤ 0xef ∧ room 3 then inline3 s ch pSrc else some none
  else if ch ≥ 0xc0 ∧ room 2 then inline2 s ch pSrc
  else some none

namespace Conversion

/-- Write the substitution character for the ill-formed sequence with the lead byte `ch`. Only
the new `pSrc` of the helper function is used. `checked` is for the loop that tests
`pDest<pDestLimit` before the second surrogate. -/
def javaPutSubstitution (checked : Bool) (pSrcLimit ch : Nat) (st : Conversion) : Option Step :=
  if subchar < 0 then some (.invalid st)
  else do
    let (_, p) ← utf8NextCharSafeBodyPointer s (st.pSrc + 1) pSrcLimit ch
    let st := { st with pSrc := p, numSubstitutions := int32 (st.numSubstitutions + 1) }
    if subchar ≤ 0xffff then (put destCapacity (UInt16.ofNat subchar.toNat) st).map .go
    else
      let st ← put destCapacity (u16Lead subchar.toNat) st
      if checked = false ∨ st.dest.length < destCapacity then
        (put destCapacity (u16Trail subchar.toNat) st).map .go
      else return .stop { st with reqLength := int32 (st.reqLength + 1) }

/-- The body of the loop that writes with checks, for the byte `ch` at `pSrc`. -/
def javaWriteStep (pSrcLimit ch : Nat) (st : Conversion) : Option Step :=
  if ch ≤ 0x7f then (put destCapacity (UInt16.ofNat ch) { st with pSrc := st.pSrc + 1 }).map .go
  else do
    match ← javaInlineChar s (fun n => decide (pSrcLimit - st.pSrc ≥ n)) ch st.pSrc with
    | some (u, p) => (put destCapacity u { st with pSrc := p }).map .go
    | none => javaPutSubstitution s destCapacity subchar true pSrcLimit ch st

/-- The body of the loop that only counts. For a substitution it adds `U16_LENGTH(ch)`, where
`ch` is still the lead byte. -/
def javaCountStep (pSrcLimit ch : Nat) (st : Conversion) : Option Step :=
  if ch ≤ 0x7f then
    some (.go { st with pSrc := st.pSrc + 1, reqLength := int32 (st.reqLength + 1) })
  else do
    match ← javaInlineChar s (fun n => decide (pSrcLimit - st.pSrc ≥ n)) ch st.pSrc with
    | some (_, p) => return .go { st with pSrc := p, reqLength := int32 (st.reqLength + 1) }
    | none =>
      if subchar < 0 then return .invalid st
      else
        let (_, p) ← utf8NextCharSafeBodyPointer s (st.pSrc + 1) pSrcLimit ch
        return .go { st with
          pSrc := p
          numSubstitutions := int32 (st.numSubstitutions + 1)
          reqLength := int32 (st.reqLength + u16Length ch) }

/-- `while(((ch = *pSrc) != 0) && ch <= 0x7f && (pDest < pDestLimit))`, with the last `ch`. -/
def javaStartLoop : Nat → Conversion → Option (Nat × Conversion)
  | 0, _ => none
  | fuel + 1, st => do
    let ch ← byteAt s st.pSrc
    if ch ≠ 0 ∧ ch ≤ 0x7f ∧ st.dest.length < destCapacity then
      let st ← put destCapacity (UInt16.ofNat ch) { st with pSrc := st.pSrc + 1 }
      javaStartLoop fuel st
    else return (ch, st)

/-- `while(pSrc < pSrcLimit && (ch = *pSrc) <= 0x7f)` -/
def javaAsciiLoop (pSrcLimit : Nat) : Nat → Conversion → Option Conversion
  | 0, _ => none
  | fuel + 1, st =>
    if st.pSrc < pSrcLimit then do
      let ch ← byteAt s st.pSrc
      if ch ≤ 0x7f then
        let st ← put destCapacity (UInt16.ofNat ch) { st with pSrc := st.pSrc + 1 }
        javaAsciiLoop pSrcLimit fuel st
      else return st
    else some st

/-- `do { ... } while(--count > 0);`, from the test of `count` on. -/
def javaFastInnerLoop (pSrcLimit : Nat) :
    Nat → Nat → Conversion → Option (Except Conversion Conversion)
  | 0, _, _ => none
  | fuel + 1, count, st =>
    if count > 0 then do
      let ch ← byteAt s st.pSrc
      if ch ≤ 0x7f then
        let st ← put destCapacity (UInt16.ofNat ch) { st with pSrc := st.pSrc + 1 }
        javaFastInnerLoop pSrcLimit fuel (count - 1) st
      else
        match ← javaInlineChar s (fun _ => true) ch st.pSrc with
        | some (u, p) =>
          let st ← put destCapacity u { st with pSrc := p }
          javaFastInnerLoop pSrcLimit fuel (count - 1) st
        | none =>
          -- two units take two iterations
          let count := if subchar > 0xffff then count - 1 else count
          if count = 0 then return .ok st
          else
            match ← javaPutSubstitution s destCapacity subchar false pSrcLimit ch st with
            | .go st => javaFastInnerLoop pSrcLimit fuel (count - 1) st
            | .stop st => return .ok st
            | .invalid st => return .error st
    else some (.ok st)

/-- The fast ASCII loop, if the destination has room for the rest of the source. -/
def javaAsciiRun (pSrcLimit : Nat) (st : Conversion) : Option Conversion :=
  if destCapacity - st.dest.length ≥ pSrcLimit - st.pSrc ∧ pSrcLimit - st.pSrc > 0 then do
    let ch ← byteAt s st.pSrc
    if ch ≤ 0x7f then javaAsciiLoop s destCapacity pSrcLimit (s.length + 1) st else return st
  else some st

/-- `for(;;)`, without ongoing checking for `pSrcLimit` and `pDestLimit`. If `pSrc` is behind
`pSrcLimit` then `srcLength` is negative in the source, and no round is made either. -/
def javaFastLoop (pSrcLimit : Nat) : Nat → Conversion → Option (Except Conversion Conversion)
  | 0, _ => none
  | fuel + 1, st => do
    let st ← javaAsciiRun s destCapacity pSrcLimit st
    let count := min (destCapacity - st.dest.length) ((pSrcLimit - st.pSrc) / 3)
    if count < 3 then return .ok st
    else
      match ← javaFastInnerLoop s destCapacity subchar pSrcLimit (count + 1) count st with
      | .ok st => javaFastLoop pSrcLimit fuel st
      | .error st => return .error st

/-- `while((pSrc<pSrcLimit) && (pDest<pDestLimit))` -/
def javaWriteLoop (pSrcLimit : Nat) : Nat → Conversion → Option (Except Conversion Conversion)
  | 0, _ => none
  | fuel + 1, st =>
    if st.pSrc < pSrcLimit ∧ st.dest.length < destCapacity then do
      let ch ← byteAt s st.pSrc
      match ← javaWriteStep s destCapacity subchar pSrcLimit ch st with
      | .go st => javaWriteLoop pSrcLimit fuel st
      | .stop st => return .ok st
      | .invalid st => return .error st
    else some (.ok st)

/-- `while(pSrc < pSrcLimit)` -/
def javaCountLoop (pSrcLimit : Nat) : Nat → Conversion → Option (Except Conversion Conversion)
  | 0, _ => none
  | fuel + 1, st =>
    if st.pSrc < pSrcLimit then do
      let ch ← byteAt s st.pSrc
      match ← javaCountStep s subchar pSrcLimit ch st with
      | .go st => javaCountLoop pSrcLimit fuel st
      | .stop st => return .ok st
      | .invalid st => return .error st
    else some (.ok st)

def javaLoops (pSrcLimit : Nat) (st : Conversion) : Option (Except Conversion Conversion) :=
  andThen
    (andThen (javaFastLoop s destCapacity subchar pSrcLimit (s.length + 1) st)
      (javaWriteLoop s destCapacity subchar pSrcLimit (s.length + 1)))
    (javaCountLoop s subchar pSrcLimit (s.length + 1))

end Conversion

/-- `uprv_strlen(pSrc)` -/
def strlen (pSrc : Nat) : Option Nat :=
  let length := (s.drop pSrc).findIdx (· == 0)
  if pSrc + length < s.length then some length else none

/-- The part of the function behind the start of a NUL-terminated string. -/
def javaConvert (destCapacity srcLength : Int) (error : UErrorCode) (st : Conversion) :
    Option Result := do
  match ← Conversion.javaLoops s destCapacity.toNat subchar (st.pSrc + srcLength).toNat st with
  | .error st => return ⟨st.dest, none, some 0, .invalidCharFound⟩
  | .ok st =>
    let reqLength := int32 (st.reqLength + st.dest.length)
    let (dest, error) := uTerminateUChars st.dest destCapacity reqLength error
    return ⟨dest, some reqLength, some st.numSubstitutions, error⟩

/-- `u_strFromJavaModifiedUTF8WithSub(dest, destCapacity, pDestLength, src, srcLength, subchar,
pNumSubstitutions, pErrorCode)`, where `none` is a `NULL` source. -/
def uStrFromJavaModifiedUTF8WithSub (destIsNull : Bool) (destCapacity : Int)
    (src : Option (List UInt8)) (srcLength subchar : Int) (error : UErrorCode) : Option Result :=
  if ¬ error.isSuccess then some ⟨[], none, none, error⟩
  else if (src = none ∧ srcLength ≠ 0) ∨ srcLength < -1 ∨ (destIsNull ∧ destCapacity ≠ 0) ∨
      destCapacity < 0 ∨ subchar > 0x10ffff ∨ (0 ≤ subchar ∧ uIsSurrogate subchar.toNat) then
    some ⟨[], none, none, .illegalArgumentError⟩
  else
    let s := src.getD []
    let st : Conversion := ⟨0, [], 0, 0⟩
    if srcLength < 0 then do
      let (ch, st) ← Conversion.javaStartLoop s destCapacity.toNat (s.length + 1) st
      if ch = 0 then
        let reqLength := int32 st.dest.length
        let (dest, error) := uTerminateUChars st.dest destCapacity reqLength error
        return ⟨dest, some reqLength, some 0, error⟩
      else
        let length ← strlen s st.pSrc
        javaConvert s subchar destCapacity (int32 length) error st
    else javaConvert s subchar destCapacity srcLength error st

end Icu.StrTrans
