import Icu.StrTrans.Model
import Icu.Utf16.CodePoints

/-! # `u_strToUTF8WithSub`

The function of `ustrtrns.cpp`, with its five loops. `pSrc` is an offset in what can be read
from the source pointer on: the units of a counted string, or a string with its NUL. A read
behind it, and a write behind the capacity of the destination, have no result.
-/

namespace Icu.StrTrans

open Lib Utf16

/-- `U16_IS_SURROGATE_LEAD(c)`, for a surrogate. -/
def u16IsSurrogateLead (c : Nat) : Bool := c &&& 0x400 == 0

/-- `U8_LENGTH(c)` -/
def u8Length (c : Nat) : Nat :=
  if c ≤ 0x7f then 1
  else if c ≤ 0x7ff then 2
  else if c ≤ 0xd7ff then 3
  else if c ≤ 0xdfff ∨ c > 0x10ffff then 0
  else if c ≤ 0xffff then 3
  else 4

def twoBytes (c : Nat) : List UInt8 :=
  [UInt8.ofNat ((c >>> 6) ||| 0xc0), UInt8.ofNat ((c &&& 0x3f) ||| 0x80)]

def threeBytes (c : Nat) : List UInt8 :=
  [UInt8.ofNat ((c >>> 12) ||| 0xe0), UInt8.ofNat (((c >>> 6) &&& 0x3f) ||| 0x80),
    UInt8.ofNat ((c &&& 0x3f) ||| 0x80)]

def fourBytes (c : Nat) : List UInt8 :=
  [UInt8.ofNat ((c >>> 18) ||| 0xf0), UInt8.ofNat (((c >>> 12) &&& 0x3f) ||| 0x80),
    UInt8.ofNat (((c >>> 6) &&& 0x3f) ||| 0x80), UInt8.ofNat ((c &&& 0x3f) ||| 0x80)]

/-- The bytes that `_appendUTF8(pDest, c)` stores. -/
def appendUTF8 (c : Nat) : List UInt8 :=
  if c ≤ 0x7f then [UInt8.ofNat c]
  else if c ≤ 0x7ff then twoBytes c
  else if c ≤ 0xffff then threeBytes c
  else fourBytes c

/-! ## Loops -/

/-- The local variables. `dest` is what has been written. -/
structure Encoding where
  pSrc : Nat
  dest : List UInt8
  reqLength : Int
  numSubstitutions : Int
  deriving DecidableEq, Repr

/-- How an iteration ends: with the next one, with a `break`, or with `U_INVALID_CHAR_FOUND`. -/
inductive EncodingStep
  | go (st : Encoding)
  | stop (st : Encoding)
  | invalid (st : Encoding)

namespace Encoding

variable (s : List UInt16) (destCapacity : Nat) (subchar : Int)

/-- Store bytes at `pDest`. -/
def put (bytes : List UInt8) (st : Encoding) : Option Encoding :=
  if st.dest.length + bytes.length ≤ destCapacity then some { st with dest := st.dest ++ bytes }
  else none

/-- The second unit of a pair, if there is one: `U16_IS_TRAIL(ch2=*pSrc)`, with `room` for the
test `pSrc<pSrcLimit` where a loop has it. -/
def pairAt (room : Nat → Bool) (ch pSrc : Nat) : Option (Option Nat) :=
  if u16IsSurrogateLead ch ∧ room pSrc then do
    let ch2 ← unitAt s pSrc
    if u16IsTrail ch2 then return some (u16GetSupplementary ch ch2) else return none
  else some none

/-- The code point for a surrogate, which is the pair, the substitution or nothing. `pSrc` is
behind the surrogate already. -/
def surrogate (room : Nat → Bool) (ch : Nat) (st : Encoding) : Option (Option Nat × Encoding) := do
  match ← pairAt s room ch st.pSrc with
  | some c => return (some c, { st with pSrc := st.pSrc + 1 })
  | none =>
    if subchar ≥ 0 then
      return (some subchar.toNat, { st with numSubstitutions := int32 (st.numSubstitutions + 1) })
    else return (none, st)

/-- Store the bytes of a character if there is room for them, or else begin to count. -/
def putOrStop (length : Nat) (bytes : List UInt8) (st : Encoding) : Option EncodingStep :=
  if destCapacity - st.dest.length ≥ length then (put destCapacity bytes st).map .go
  else some (.stop { st with reqLength := length })

def writeStep (room : Nat → Bool) (ch : Nat) (st : Encoding) : Option EncodingStep :=
  let st := { st with pSrc := st.pSrc + 1 }
  if ch ≤ 0x7f then putOrStop destCapacity 1 [UInt8.ofNat ch] st
  else if ch ≤ 0x7ff then putOrStop destCapacity 2 (twoBytes ch) st
  else if ch ≤ 0xd7ff ∨ ch ≥ 0xe000 then putOrStop destCapacity 3 (threeBytes ch) st
  else do
    match ← surrogate s subchar room ch st with
    | (some c, st) => putOrStop destCapacity (u8Length c) (appendUTF8 c) st
    | (none, st) => return .invalid st

def countStep (room : Nat → Bool) (ch : Nat) (st : Encoding) : Option EncodingStep :=
  let st := { st with pSrc := st.pSrc + 1 }
  if ch ≤ 0x7f then some (.go { st with reqLength := int32 (st.reqLength + 1) })
  else if ch ≤ 0x7ff then some (.go { st with reqLength := int32 (st.reqLength + 2) })
  else if !uIsSurrogate ch then some (.go { st with reqLength := int32 (st.reqLength + 3) })
  else do
    match ← pairAt s room ch st.pSrc with
    | some _ => return .go { st with pSrc := st.pSrc + 1, reqLength := int32 (st.reqLength + 4) }
    | none =>
      if subchar ≥ 0 then
        return .go { st with
          reqLength := int32 (st.reqLength + u8Length subchar.toNat)
          numSubstitutions := int32 (st.numSubstitutions + 1) }
      else return .invalid st

/-- `while((ch=*pSrc)!=0)`. The result is an error if the function returned from the loop. -/
def terminatedLoop (step : Nat → Encoding → Option EncodingStep) :
    Nat → Encoding → Option (Except Encoding Encoding)
  | 0, _ => none
  | fuel + 1, st => do
    let ch ← unitAt s st.pSrc
    if ch ≠ 0 then
      match ← step ch st with
      | .go st => terminatedLoop step fuel st
      | .stop st => return .ok st
      | .invalid st => return .error st
    else return .ok st

/-- `while(pSrc<pSrcLimit)` -/
def countedLoop (pSrcLimit : Nat) (step : Nat → Encoding → Option EncodingStep) :
    Nat → Encoding → Option (Except Encoding Encoding)
  | 0, _ => none
  | fuel + 1, st =>
    if st.pSrc < pSrcLimit then do
      let ch ← unitAt s st.pSrc
      match ← step ch st with
      | .go st => countedLoop pSrcLimit step fuel st
      | .stop st => return .ok st
      | .invalid st => return .error st
    else some (.ok st)

/-- `do { ... } while(--count > 0);` for a positive `count`. -/
def fastInnerLoop : Nat → Encoding → Option (Except Encoding Encoding)
  | 0, st => some (.ok st)
  | count + 1, st => do
    let ch ← unitAt s st.pSrc
    let next := { st with pSrc := st.pSrc + 1 }
    if ch ≤ 0x7f then
      let st ← put destCapacity [UInt8.ofNat ch] next
      fastInnerLoop count st
    else if ch ≤ 0x7ff then
      let st ← put destCapacity (twoBytes ch) next
      fastInnerLoop count st
    else if ch ≤ 0xd7ff ∨ ch ≥ 0xe000 then
      let st ← put destCapacity (threeBytes ch) next
      fastInnerLoop count st
    else
      match count with
      | 0 => return .ok st -- recompute count
      | count + 1 => do
        match ← pairAt s (fun _ => true) ch next.pSrc with
        | some c => do
          let st ← put destCapacity (fourBytes c) { next with pSrc := next.pSrc + 1 }
          fastInnerLoop count st
        | none =>
          if subchar ≥ 0 then do
            let st ← put destCapacity (appendUTF8 subchar.toNat)
              { next with numSubstitutions := int32 (next.numSubstitutions + 1) }
            fastInnerLoop count st
          else return .error next

/-- `for(;;)`, without ongoing checking for `pSrcLimit` and `pDestLimit`. -/
def fastLoop (pSrcLimit : Nat) : Nat → Encoding → Option (Except Encoding Encoding)
  | 0, _ => none
  | fuel + 1, st =>
    let count := min ((destCapacity - st.dest.length) / 3) (pSrcLimit - st.pSrc)
    if count < 3 then some (.ok st)
    else do
      match ← fastInnerLoop s destCapacity subchar count st with
      | .ok st => fastLoop pSrcLimit fuel st
      | .error st => return .error st

/-- Go on after a loop, unless the function has returned. -/
def andThen (r : Option (Except Encoding Encoding))
    (next : Encoding → Option (Except Encoding Encoding)) : Option (Except Encoding Encoding) := do
  match ← r with
  | .ok st => next st
  | .error st => return .error st

def terminatedLoops (st : Encoding) : Option (Except Encoding Encoding) :=
  andThen (terminatedLoop s (writeStep s destCapacity subchar fun _ => true) (s.length + 1) st)
    (terminatedLoop s (countStep s subchar fun _ => true) (s.length + 1))

def countedLoops (pSrcLimit : Nat) (st : Encoding) : Option (Except Encoding Encoding) :=
  let room := fun pSrc => decide (pSrc < pSrcLimit)
  andThen
    (andThen (fastLoop s destCapacity subchar pSrcLimit (s.length + 1) st)
      (countedLoop s pSrcLimit (writeStep s destCapacity subchar room) (s.length + 1)))
    (countedLoop s pSrcLimit (countStep s subchar room) (s.length + 1))

end Encoding

/-- What the caller gets. An output parameter that is not set is `none`. -/
structure EncodingResult where
  dest : List UInt8
  destLength : Option Int
  numSubstitutions : Option Int
  error : UErrorCode
  deriving DecidableEq, Repr

/-- `u_terminateChars(dest, destCapacity, length, pErrorCode)` -/
def uTerminateChars (dest : List UInt8) (destCapacity length : Int) (error : UErrorCode) :
    List UInt8 × UErrorCode :=
  if error.isSuccess then
    if length < 0 then (dest, error)
    else if length < destCapacity then
      (dest.take length.toNat ++ [0] ++ dest.drop (length.toNat + 1),
        if error = .stringNotTerminatedWarning then .zeroError else error)
    else if length = destCapacity then (dest, .stringNotTerminatedWarning)
    else (dest, .bufferOverflowError)
  else (dest, error)

/-- `u_strToUTF8WithSub(dest, destCapacity, pDestLength, pSrc, srcLength, subchar,
pNumSubstitutions, pErrorCode)`, where `none` is a `NULL` source. -/
def uStrToUTF8WithSub (destIsNull : Bool) (destCapacity : Int) (pSrc : Option (List UInt16))
    (srcLength subchar : Int) (error : UErrorCode) : Option EncodingResult :=
  if ¬ error.isSuccess then some ⟨[], none, none, error⟩
  else if (pSrc = none ∧ srcLength ≠ 0) ∨ srcLength < -1 ∨ destCapacity < 0 ∨
      (destIsNull ∧ destCapacity > 0) ∨ subchar > 0x10ffff ∨
      (0 ≤ subchar ∧ uIsSurrogate subchar.toNat) then
    some ⟨[], none, none, .illegalArgumentError⟩
  else do
    let s := pSrc.getD []
    let st : Encoding := ⟨0, [], 0, 0⟩
    let loops :=
      if srcLength = -1 then Encoding.terminatedLoops s destCapacity.toNat subchar st
      else Encoding.countedLoops s destCapacity.toNat subchar srcLength.toNat st
    match ← loops with
    | .error st => return ⟨st.dest, none, some 0, .invalidCharFound⟩
    | .ok st =>
      let reqLength := int32 (st.reqLength + st.dest.length)
      let (dest, error) := uTerminateChars st.dest destCapacity reqLength error
      return ⟨dest, some reqLength, some st.numSubstitutions, error⟩

/-- `u_strToUTF8(dest, destCapacity, pDestLength, pSrc, srcLength, pErrorCode)` -/
def uStrToUTF8 (destIsNull : Bool) (destCapacity : Int) (pSrc : Option (List UInt16))
    (srcLength : Int) (error : UErrorCode) : Option EncodingResult :=
  (uStrToUTF8WithSub destIsNull destCapacity pSrc srcLength (-1) error).map fun r =>
    { r with numSubstitutions := none }

/-- `u_strFromUTF8(dest, destCapacity, pDestLength, src, srcLength, pErrorCode)` -/
def uStrFromUTF8 (destIsNull : Bool) (destCapacity : Int) (src : Option (List UInt8))
    (srcLength : Int) (error : UErrorCode) : Option Result :=
  (uStrFromUTF8WithSub destIsNull destCapacity src srcLength (-1) error).map fun r =>
    { r with numSubstitutions := none }

end Icu.StrTrans
