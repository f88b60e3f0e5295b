import Icu.ErrorCode
import Icu.Lib.Int32
import Icu.Utf8.Units

/-! # `u_strFromUTF8WithSub`

The function of `ustrtrns.cpp`, with its two decoders and its five loops. `src` is what can be
read from the source pointer on: the bytes of a counted string, or a string with its NUL.
A read behind it, and a write behind the capacity of the destination, have no result.
-/

namespace Icu.StrTrans

open Lib Utf16 Utf8

/-! ## Decoders

Each case of a `switch` falls through to the one with fewer bytes. The results are the flag
`illegal`, the value and the offset.
-/

section Decoders

variable (s : List UInt8)

def terminatedCase1 (c i : Nat) : Option (Bool × Nat × Nat) := do
  let trail := trailValue (← byteAt s i)
  return (decide (trail > 0x3f), (c <<< 6) ||| trail, i + 1)

def terminatedCase2 (c i : Nat) : Option (Bool × Nat × Nat) := do
  let trail := trailValue (← byteAt s i)
  if trail > 0x3f then return (true, c, i + 1)
  terminatedCase1 s ((c <<< 6) ||| trail) (i + 1)

def terminatedCase3 (c i : Nat) : Option (Bool × Nat × Nat) := do
  let trail := trailValue (← byteAt s i)
  let c := (c <<< 6) ||| trail
  if trail > 0x3f ∨ c ≥ 0x110 then return (true, c, i + 1)
  terminatedCase2 s c (i + 1)

def terminatedSwitch (count c i : Nat) : Option (Bool × Nat × Nat) :=
  match count with
  | 1 => terminatedCase1 s c i
  | 2 => terminatedCase2 s c i
  | 3 => terminatedCase3 s c i
  | _ => some (true, c, i)

/-- `utf8_nextCharSafeBodyTerminated(ps, c)`: the code point or `U_SENTINEL`, and the new `*ps`. -/
def utf8NextCharSafeBodyTerminated (ps c : Nat) : Option (Int × Nat) :=
  let count := u8CountTrailBytes c
  if count = 0 then some (-1, ps)
  else do
    let (illegal, c, i) ← terminatedSwitch s count (u8MaskLeadByte c count) ps
    if illegal ∨ c < utf8MinLegal count ∨ uIsSurrogate c then
      return (-1, ← skipTrails s count ps)
    else return (c, i)

/-- `(trail&0xc0)^0x80` is not 0. -/
def isIllegalTrail (trail : Nat) : Bool := (trail &&& 0xc0) ^^^ 0x80 != 0

def pointerCase1 (illegal : Bool) (c i : Nat) : Option (Bool × Nat × Nat) := do
  let trail ← byteAt s i
  return (illegal || isIllegalTrail trail, (c <<< 6) ||| (trail &&& 0x3f), i + 1)

def pointerCase2 (illegal : Bool) (c i : Nat) : Option (Bool × Nat × Nat) := do
  let trail ← byteAt s i
  pointerCase1 s (illegal || isIllegalTrail trail) ((c <<< 6) ||| (trail &&& 0x3f)) (i + 1)

def pointerCase3 (illegal : Bool) (c i : Nat) : Option (Bool × Nat × Nat) := do
  let trail ← byteAt s i
  let c := (c <<< 6) ||| (trail &&& 0x3f)
  if c < 0x110 then pointerCase2 s (illegal || isIllegalTrail trail) c (i + 1)
  else return (true, c, i + 1)

def pointerSwitch (count c i : Nat) : Option (Bool × Nat × Nat) :=
  match count with
  | 1 => pointerCase1 s false c i
  | 2 => pointerCase2 s false c i
  | 3 => pointerCase3 s false c i
  | _ => some (true, c, i)

/-- `while(count>0 && s<limit && U8_IS_TRAIL(*s)) { ++s; --count; }` -/
def skipTrailsTo (limit : Nat) : Nat → Nat → Option Nat
  | 0, i => some i
  | count + 1, i =>
    if i < limit then do
      let b ← byteAt s i
      if u8IsTrail b then skipTrailsTo limit count (i + 1) else return i
    else some i

/-- `utf8_nextCharSafeBodyPointer(ps, limit, c)` -/
def utf8NextCharSafeBodyPointer (ps limit c : Nat) : Option (Int × Nat) :=
  let count := u8CountTrailBytes c
  if limit - ps ≥ count then
    if count = 0 then some (-1, ps)
    else do
      let (illegal, c, i) ← pointerSwitch s count (u8MaskLeadByte c count) ps
      if illegal ∨ c < utf8MinLegal count ∨ uIsSurrogate c then
        return (-1, ← skipTrailsTo s limit count ps)
      else return (c, i)
  else do return (-1, ← skipTrailsTo s limit count ps) -- too few bytes left

/-- Handle U+1000..U+CFFF inline. -/
def inline3 (ch pSrc : Nat) : Option (Option (UInt16 × Nat)) := do
  let t1 := trailValue (← byteAt s (pSrc + 1))
  if t1 ≤ 0x3f then
    let t2 := trailValue (← byteAt s (pSrc + 2))
    if t2 ≤ 0x3f then return some (UInt16.ofNat ((ch <<< 12) ||| (t1 <<< 6) ||| t2), pSrc + 3)
    else return none
  else return none

/-- Handle U+0080..U+07FF inline. -/
def inline2 (ch pSrc : Nat) : Option (Option (UInt16 × Nat)) := do
  let t1 := trailValue (← byteAt s (pSrc + 1))
  if t1 ≤ 0x3f then return some (UInt16.ofNat (((ch &&& 0x1f) <<< 6) ||| t1), pSrc + 2)
  else return none

/-- The tests for inline processing, with `room n` for `(pSrcLimit - pSrc) >= n` where a loop
tests it. -/
def inlineChar (room : Nat → Bool) (ch pSrc : Nat) : Option (Option (UInt16 × Nat)) :=
  if ch > 0xe0 then
    if ch ≤ 0xec ∧ room 3 then inline3 s ch pSrc else some none
  else if ch < 0xe0 then
    if ch ≥ 0xc2 ∧ room 2 then inline2 s ch pSrc else some none
  else some none

end Decoders

/-! ## Loops -/

/-- The local variables. `dest` is what has been written. -/
structure Conversion where
  pSrc : Nat
  dest : List UInt16
  reqLength : Int
  numSubstitutions : Int
  deriving DecidableEq, Repr

/-- How an iteration ends: with the next one, with a `break`, or with `U_INVALID_CHAR_FOUND`. -/
inductive Step
  | go (st : Conversion)
  | stop (st : Conversion)
  | invalid (st : Conversion)

namespace Conversion

variable (s : List UInt8) (destCapacity : Nat) (subchar : Int)

/-- `*pDest++=u` -/
def put (u : UInt16) (st : Conversion) : Option Conversion :=
  if st.dest.length < destCapacity then some { st with dest := st.dest ++ [u] } else none

/-- `if(ch<0 && (++numSubstitutions, ch = subchar) < 0)`: the new `ch`. -/
def substitute (ch : Int) (st : Conversion) : Int × Conversion :=
  if ch < 0 then (subchar, { st with numSubstitutions := int32 (st.numSubstitutions + 1) })
  else (ch, st)

/-- Write what a decoder returned. `checked` is for the loops that test `pDest<pDestLimit`
before the second surrogate. -/
def putChar (checked : Bool) (ch : Int) (st : Conversion) : Option Step :=
  let (ch, st) := substitute subchar ch st
  if ch < 0 then some (.invalid st)
  else if ch ≤ 0xffff then (put destCapacity (UInt16.ofNat ch.toNat) st).map .go
  else do
    let st ← put destCapacity (u16Lead ch.toNat) st
    if checked = false ∨ st.dest.length < destCapacity then
      (put destCapacity (u16Trail ch.toNat) st).map .go
    else return .stop { st with reqLength := int32 (st.reqLength + 1) }

/-- Count what a decoder returned. -/
def countChar (ch : Int) (st : Conversion) : Step :=
  let (ch, st) := substitute subchar ch st
  if ch < 0 then .invalid st
  else .go { st with reqLength := int32 (st.reqLength + u16Length ch.toNat) }

section

variable (room : Nat → Nat → Bool) (body : Nat → Nat → Option (Int × Nat))

/-- The body of a loop that writes, for the byte `ch` at `pSrc`. -/
def writeStep (ch : Nat) (st : Conversion) : Option Step :=
  if ch ≤ 0x7f then
    (put destCapacity (UInt16.ofNat ch) { st with pSrc := st.pSrc + 1 }).map .go
  else do
    match ← inlineChar s (room st.pSrc) ch st.pSrc with
    | some (u, p) => (put destCapacity u { st with pSrc := p }).map .go
    | none =>
      let (c, p) ← body (st.pSrc + 1) ch
      putChar destCapacity subchar true c { st with pSrc := p }

/-- The body of a loop that only counts. -/
def countStep (ch : Nat) (st : Conversion) : Option Step :=
  if ch ≤ 0x7f then
    some (.go { st with pSrc := st.pSrc + 1, reqLength := int32 (st.reqLength + 1) })
  else do
    match ← inlineChar s (room st.pSrc) ch st.pSrc with
    | some (_, p) => return .go { st with pSrc := p, reqLength := int32 (st.reqLength + 1) }
    | none =>
      let (c, p) ← body (st.pSrc + 1) ch
      return countChar subchar c { st with pSrc := p }

end

/-- The loops over a NUL-terminated string do not test for its end. -/
def terminatedWriteStep (ch : Nat) (st : Conversion) : Option Step :=
  writeStep s destCapacity subchar (fun _ _ => true) (utf8NextCharSafeBodyTerminated s) ch st

def terminatedCountStep (ch : Nat) (st : Conversion) : Option Step :=
  countStep s subchar (fun _ _ => true) (utf8NextCharSafeBodyTerminated s) ch st

def countedWriteStep (pSrcLimit ch : Nat) (st : Conversion) : Option Step :=
  writeStep s destCapacity subchar (fun pSrc n => decide (pSrcLimit - pSrc ≥ n))
    (fun ps c => utf8NextCharSafeBodyPointer s ps pSrcLimit c) ch st

def countedCountStep (pSrcLimit ch : Nat) (st : Conversion) : Option Step :=
  countStep s subchar (fun pSrc n => decide (pSrcLimit - pSrc ≥ n))
    (fun ps c => utf8NextCharSafeBodyPointer s ps pSrcLimit c) ch st

/-- `while(((ch = *pSrc) != 0) && (pDest < pDestLimit))`. The result is an error if the
function returned from the loop. -/
def terminatedWriteLoop : Nat → Conversion → Option (Except Conversion Conversion)
  | 0, _ => none
  | fuel + 1, st => do
    let ch ← byteAt s st.pSrc
    if ch ≠ 0 ∧ st.dest.length < destCapacity then
      match ← terminatedWriteStep s destCapacity subchar ch st with
      | .go st => terminatedWriteLoop fuel st
      | .stop st => return .ok st
      | .invalid st => return .error st
    else return .ok st

/-- `while((ch = *pSrc) != 0)` -/
def terminatedCountLoop : Nat → Conversion → Option (Except Conversion Conversion)
  | 0, _ => none
  | fuel + 1, st => do
    let ch ← byteAt s st.pSrc
    if ch ≠ 0 then
      match ← terminatedCountStep s subchar ch st with
      | .go st => terminatedCountLoop fuel st
      | .stop st => return .ok st
      | .invalid st => return .error st
    else return .ok st

/-- `do { ... } while(--count > 0);` for a positive `count`. -/
def fastInnerLoop (pSrcLimit : Nat) : Nat → Conversion → Option (Except Conversion Conversion)
  | 0, st => some (.ok st)
  | count + 1, st => do
    let ch ← byteAt s st.pSrc
    if ch ≤ 0x7f then
      let st ← put destCapacity (UInt16.ofNat ch) { st with pSrc := st.pSrc + 1 }
      fastInnerLoop pSrcLimit count st
    else
      match ← inlineChar s (fun _ => true) ch st.pSrc with
      | some (u, p) => do
        let st ← put destCapacity u { st with pSrc := p }
        fastInnerLoop pSrcLimit count st
      | none =>
        if ch ≥ 0xf0 ∨ subchar > 0xffff then
          -- up to six bytes and two units
          match count with
          | 0 => return .ok st
          | count + 1 => do
            let (c, p) ← utf8NextCharSafeBodyPointer s (st.pSrc + 1) pSrcLimit ch
            match ← putChar destCapacity subchar false c { st with pSrc := p } with
            | .go st => fastInnerLoop pSrcLimit count st
            | .stop st => return .ok st
            | .invalid st => return .error st
        else
          let (c, p) ← utf8NextCharSafeBodyPointer s (st.pSrc + 1) pSrcLimit ch
          match ← putChar destCapacity subchar false c { st with pSrc := p } with
          | .go st => fastInnerLoop pSrcLimit count st
          | .stop st => return .ok st
          | .invalid st => return .error st

/-- `for(;;)`, without ongoing checking for `pSrcLimit` and `pDestLimit`. -/
def fastLoop (pSrcLimit : Nat) : Nat → Conversion → Option (Except Conversion Conversion)
  | 0, _ => none
  | fuel + 1, st =>
    let count := min (destCapacity - st.dest.length) ((pSrcLimit - st.pSrc) / 3)
    if count < 3 then some (.ok st)
    else do
      match ← fastInnerLoop s destCapacity subchar pSrcLimit count st with
      | .ok st => fastLoop pSrcLimit fuel st
      | .error st => return .error st

/-- `while((pSrc<pSrcLimit) && (pDest<pDestLimit))` -/
def countedWriteLoop (pSrcLimit : Nat) :
    Nat → Conversion → Option (Except Conversion Conversion)
  | 0, _ => none
  | fuel + 1, st =>
    if st.pSrc < pSrcLimit ∧ st.dest.length < destCapacity then do
      let ch ← byteAt s st.pSrc
      match ← countedWriteStep s destCapacity subchar pSrcLimit ch st with
      | .go st => countedWriteLoop pSrcLimit fuel st
      | .stop st => return .ok st
      | .invalid st => return .error st
    else some (.ok st)

/-- `while(pSrc < pSrcLimit)` -/
def countedCountLoop (pSrcLimit : Nat) :
    Nat → Conversion → Option (Except Conversion Conversion)
  | 0, _ => none
  | fuel + 1, st =>
    if st.pSrc < pSrcLimit then do
      let ch ← byteAt s st.pSrc
      match ← countedCountStep s subchar pSrcLimit ch st with
      | .go st => countedCountLoop pSrcLimit fuel st
      | .stop st => return .ok st
      | .invalid st => return .error st
    else some (.ok st)

/-- Go on after a loop, unless the function has returned. -/
def andThen (r : Option (Except Conversion Conversion))
    (next : Conversion → Option (Except Conversion Conversion)) :
    Option (Except Conversion Conversion) := do
  match ← r with
  | .ok st => next st
  | .error st => return .error st

/-- Transform a NUL-terminated string. -/
def terminatedLoops (st : Conversion) : Option (Except Conversion Conversion) :=
  andThen (terminatedWriteLoop s destCapacity subchar (s.length + 1) st)
    (terminatedCountLoop s subchar (s.length + 1))

/-- Transform a string with its length. -/
def countedLoops (pSrcLimit : Nat) (st : Conversion) : Option (Except Conversion Conversion) :=
  andThen
    (andThen (fastLoop s destCapacity subchar pSrcLimit (s.length + 1) st)
      (countedWriteLoop s destCapacity subchar pSrcLimit (s.length + 1)))
    (countedCountLoop s subchar pSrcLimit (s.length + 1))

end Conversion

/-- What the caller gets. An output parameter that is not set is `none`. -/
structure Result where
  dest : List UInt16
  destLength : Option Int
  numSubstitutions : Option Int
  error : UErrorCode
  deriving DecidableEq, Repr

/-- `u_terminateUChars(dest, destCapacity, length, pErrorCode)` -/
def uTerminateUChars (dest : List UInt16) (destCapacity length : Int) (error : UErrorCode) :
    List UInt16 × UErrorCode :=
  if error.isSuccess then
    if length < 0 then (dest, error)
    else if length < destCapacity then
      (dest.take length.toNat ++ [0] ++ dest.drop (length.toNat + 1),
        if error = .stringNotTerminatedWarning then .zeroError else error)
    else if length = destCapacity then (dest, .stringNotTerminatedWarning)
    else (dest, .bufferOverflowError)
  else (dest, error)

/-- `u_strFromUTF8WithSub(dest, destCapacity, pDestLength, src, srcLength, subchar,
pNumSubstitutions, pErrorCode)`, where `none` is a `NULL` source. -/
def uStrFromUTF8WithSub (destIsNull : Bool) (destCapacity : Int) (src : Option (List UInt8))
    (srcLength subchar : Int) (error : UErrorCode) : Option Result :=
  if ¬ error.isSuccess then some ⟨[], none, none, error⟩
  else if (src = none ∧ srcLength ≠ 0) ∨ srcLength < -1 ∨ destCapacity < 0 ∨
      (destIsNull ∧ destCapacity > 0) ∨ subchar > 0x10ffff ∨
      (0 ≤ subchar ∧ uIsSurrogate subchar.toNat) then
    some ⟨[], none, none, .illegalArgumentError⟩
  else do
    let s := src.getD []
    let st : Conversion := ⟨0, [], 0, 0⟩
    let loops :=
      if srcLength < 0 then Conversion.terminatedLoops s destCapacity.toNat subchar st
      else Conversion.countedLoops s destCapacity.toNat subchar srcLength.toNat st
    match ← loops with
    | .error st => return ⟨st.dest, none, some 0, .invalidCharFound⟩
    | .ok st =>
      let reqLength := int32 (st.reqLength + st.dest.length)
      let (dest, error) := uTerminateUChars st.dest destCapacity reqLength error
      return ⟨dest, some reqLength, some st.numSubstitutions, error⟩

end Icu.StrTrans
