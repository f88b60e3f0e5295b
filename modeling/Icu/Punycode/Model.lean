import Icu.ErrorCode
import Icu.Lib.Int32
import Icu.Utf16

/-! # Punycode

The functions of `punycode.cpp`, without case flags and for strings with a given length.
All integers are natural numbers, and a computation whose result does not fit into an
`int32_t` is a failure of its own.
-/

namespace Icu.Punycode

open Utf16

def base : Nat := 36

def tMin : Nat := 1

def tMax : Nat := 26

def skew : Nat := 38

def damp : Nat := 700

def initialBias : Nat := 72

def initialN : Nat := 0x80

def delimiter : UInt16 := 0x2d

def maxCpCount : Nat := 200

def int32Max : Nat := 0x7fffffff

/-- A function stops with an error code, or because of an integer overflow. -/
inductive Failure
  | error (code : UErrorCode)
  | overflow
  deriving DecidableEq

/-- The result of a computation with `int32_t`. -/
def checked (x : Nat) : Except Failure Nat := if x ≤ int32Max then .ok x else .error .overflow

/-- The values are never negative, so only the upper bound of `int32_t` is checked. -/
theorem checked_eq (x : Nat) :
    checked x = (Lib.checked32 x).elim (.error .overflow) fun _ => .ok x := by
  unfold checked Lib.checked32 int32Max
  by_cases hle : x ≤ 0x7fffffff
  · rw [if_pos hle, if_pos ⟨by omega, by omega⟩]
    rfl
  · rw [if_neg hle, if_neg (by omega)]
    rfl

/-- `IS_BASIC(c)` -/
def isBasic (c : UInt16) : Bool := c.toNat < 0x80

/-- `digitToBasic(digit, FALSE)` -/
def digitToBasic (digit : Nat) : UInt16 :=
  if digit < 26 then UInt16.ofNat (0x61 + digit) else UInt16.ofNat (0x30 - 26 + digit)

def basicToDigit : List Int :=
  [-1, -1, -1, -1, -1, -1, -1, -1, -1, -1, -1, -1, -1, -1, -1, -1,
   -1, -1, -1, -1, -1, -1, -1, -1, -1, -1, -1, -1, -1, -1, -1, -1,
   -1, -1, -1, -1, -1, -1, -1, -1, -1, -1, -1, -1, -1, -1, -1, -1,
   26, 27, 28, 29, 30, 31, 32, 33, 34, 35, -1, -1, -1, -1, -1, -1,
   -1,  0,  1,  2,  3,  4,  5,  6,  7,  8,  9, 10, 11, 12, 13, 14,
   15, 16, 17, 18, 19, 20, 21, 22, 23, 24, 25, -1, -1, -1, -1, -1,
   -1,  0,  1,  2,  3,  4,  5,  6,  7,  8,  9, 10, 11, 12, 13, 14,
   15, 16, 17, 18, 19, 20, 21, 22, 23, 24, 25, -1, -1, -1, -1, -1,
   -1, -1, -1, -1, -1, -1, -1, -1, -1, -1, -1, -1, -1, -1, -1, -1,
   -1, -1, -1, -1, -1, -1, -1, -1, -1, -1, -1, -1, -1, -1, -1, -1,
   -1, -1, -1, -1, -1, -1, -1, -1, -1, -1, -1, -1, -1, -1, -1, -1,
   -1, -1, -1, -1, -1, -1, -1, -1, -1, -1, -1, -1, -1, -1, -1, -1,
   -1, -1, -1, -1, -1, -1, -1, -1, -1, -1, -1, -1, -1, -1, -1, -1,
   -1, -1, -1, -1, -1, -1, -1, -1, -1, -1, -1, -1, -1, -1, -1, -1,
   -1, -1, -1, -1, -1, -1, -1, -1, -1, -1, -1, -1, -1, -1, -1, -1,
   -1, -1, -1, -1, -1, -1, -1, -1, -1, -1, -1, -1, -1, -1, -1, -1]

/-- `for(count=0; delta>((BASE-TMIN)*TMAX)/2; count+=BASE) { delta/=(BASE-TMIN); }` -/
def adaptLoop : Nat → Nat → Nat → Nat × Nat
  | 0, delta, count => (delta, count)
  | fuel + 1, delta, count =>
    if delta > ((base - tMin) * tMax) / 2 then
      adaptLoop fuel (delta / (base - tMin)) (count + base)
    else (delta, count)

/-- Bias adaptation function. -/
def adaptBias (delta length : Nat) (firstTime : Bool) : Nat :=
  let delta := if firstTime then delta / damp else delta / 2
  let delta := delta + delta / length
  let (delta, count) := adaptLoop delta delta 0
  count + ((base - tMin + 1) * delta) / (delta + skew)

/-- The threshold `t` at `k`. -/
def threshold (k bias : Nat) : Nat :=
  let t : Int := k - bias
  if t < tMin then tMin else if k ≥ bias + tMax then tMax else t.toNat

/-- A result with a destination buffer. -/
structure Converted where
  dest : List UInt16
  destLength : Nat
  err : UErrorCode
  deriving DecidableEq

/-- `u_terminateUChars(dest, destCapacity, length, pErrorCode)` -/
def uTerminateUChars (dest : List UInt16) (destCapacity length : Nat) : Converted :=
  ⟨dest, length,
    if length < destCapacity then .zeroError
    else if length = destCapacity then .stringNotTerminatedWarning
    else .bufferOverflowError⟩

/-- The first loop: `cpBuffer`, with 0 for a basic code point, and the basic string. -/
def readSource : List UInt16 → Nat → Except Failure (List Nat × List UInt16)
  | [], _ => .ok ([], [])
  | c :: src, srcCPCount =>
    if srcCPCount = maxCpCount then .error (.error .indexOutOfBoundsError)
    else if isBasic c then
      (readSource src (srcCPCount + 1)).map fun r => (0 :: r.1, c :: r.2)
    else if !uIsSurrogate c.toNat then
      (readSource src (srcCPCount + 1)).map fun r => (c.toNat :: r.1, r.2)
    else
      match src with
      | [] => .error (.error .invalidCharFound)
      | c2 :: src =>
        if u16IsLead c.toNat && u16IsTrail c2.toNat then
          (readSource src (srcCPCount + 1)).map fun r =>
            (u16GetSupplementary c.toNat c2.toNat :: r.1, r.2)
        else .error (.error .invalidCharFound) -- unmatched surrogate

/-- Represent delta as a generalized variable-length integer. -/
def writeDelta (bias : Nat) : Nat → Nat → Nat → List UInt16
  | 0, _, _ => []
  | fuel + 1, q, k =>
    let t := threshold k bias
    if q < t then [digitToBasic q]
    else
      digitToBasic (t + (q - t) % (base - t)) ::
        writeDelta bias fuel ((q - t) / (base - t)) (k + base)

structure ToState where
  n : Nat
  delta : Nat
  bias : Nat
  handledCPCount : Nat
  dest : List UInt16
  deriving DecidableEq

/-- Encode a sequence of same code points n. -/
def encodePass (basicLength : Nat) : List Nat → ToState → Except Failure ToState
  | [], s => .ok s
  | q :: cpBuffer, s =>
    if q < s.n then
      match checked (s.delta + 1) with
      | .error e => .error e
      | .ok delta => encodePass basicLength cpBuffer { s with delta }
    else if q = s.n then
      encodePass basicLength cpBuffer
        { s with dest := s.dest ++ writeDelta s.bias (s.delta + 1) s.delta base,
                 bias := adaptBias s.delta (s.handledCPCount + 1)
                   (s.handledCPCount == basicLength),
                 delta := 0,
                 handledCPCount := s.handledCPCount + 1 }
    else encodePass basicLength cpBuffer s

/-- Find the next larger code point. -/
def nextLarger (n : Nat) (cpBuffer : List Nat) : Nat :=
  cpBuffer.foldl (fun m q => if n ≤ q ∧ q < m then q else m) int32Max

/-- One round of the main encoding loop. -/
def encodeRound (basicLength : Nat) (cpBuffer : List Nat) (s : ToState) : Except Failure ToState :=
  let m := nextLarger s.n cpBuffer
  if (m : Int) - s.n > ((int32Max : Int) - maxCpCount - s.delta).tdiv (s.handledCPCount + 1) then
    .error (.error .internalProgramError)
  else
    match checked (s.delta + (m - s.n) * (s.handledCPCount + 1)) with
    | .error e => .error e
    | .ok delta =>
      match encodePass basicLength cpBuffer { s with n := m, delta } with
      | .error e => .error e
      | .ok s =>
        match checked (s.delta + 1), checked (s.n + 1) with
        | .ok delta, .ok n => .ok { s with delta, n }
        | _, _ => .error .overflow

/-- Main encoding loop. -/
def encodeLoop (basicLength : Nat) (cpBuffer : List Nat) : Nat → ToState → Except Failure ToState
  | 0, s => .ok s
  | fuel + 1, s =>
    if s.handledCPCount < cpBuffer.length then
      match encodeRound basicLength cpBuffer s with
      | .error e => .error e
      | .ok s => encodeLoop basicLength cpBuffer fuel s
    else .ok s

/-- `u_strToPunycode(src, srcLength, dest, destCapacity, NULL, pErrorCode)`: everything is
written in order, as far as it fits. -/
def uStrToPunycode (src : List UInt16) (destCapacity : Nat) : Except Failure Converted :=
  match readSource src 0 with
  | .error e => .error e
  | .ok (cpBuffer, basic) =>
    let basicLength := basic.length
    -- Finish the basic string - if it is not empty - with a delimiter.
    let dest := if basicLength > 0 then basic ++ [delimiter] else basic
    match encodeLoop basicLength cpBuffer (cpBuffer.length + 1)
      ⟨initialN, 0, initialBias, basicLength, dest⟩ with
    | .error e => .error e
    | .ok s => .ok (uTerminateUChars (s.dest.take destCapacity) destCapacity s.dest.length)

/-- `for(j=srcLength; j>0;) { if(src[--j]==DELIMITER) { break; } }` -/
def findDelimiter (src : List UInt16) : Nat → Nat
  | 0 => 0
  | j + 1 => if src[j]? = some delimiter then j else findDelimiter src j

/-- Decode a generalized variable-length integer, which gets added to i. -/
def readDelta (bias : Nat) : List UInt16 → Nat → Nat → Nat → Except Failure (Nat × List UInt16)
  | [], _, _, _ => .error (.error .illegalCharFound)
  | b :: src, i, w, k =>
    let digit := basicToDigit.getD (b.toNat % 0x100) (-1)
    if digit < 0 then .error (.error .invalidCharFound)
    else
      let digit := digit.toNat
      if digit > (int32Max - i) / w then .error (.error .illegalCharFound) -- integer overflow
      else
        match checked (i + digit * w) with
        | .error e => .error e
        | .ok i =>
          let t := threshold k bias
          if digit < t then .ok (i, src)
          else if w > int32Max / (base - t) then
            .error (.error .illegalCharFound) -- integer overflow
          else
            match checked (w * (base - t)) with
            | .error e => .error e
            | .ok w => readDelta bias src i w (k + base)

structure FromState where
  n : Nat
  i : Nat
  bias : Nat
  firstSupplementaryIndex : Nat
  dest : List UInt16
  destLength : Nat
  destCPCount : Nat
  deriving DecidableEq

/-- The code unit index for the code point index i, and the new `firstSupplementaryIndex`. -/
def codeUnitIndex (s : FromState) (cpLength : Nat) : Nat × Nat :=
  if s.i ≤ s.firstSupplementaryIndex then
    (s.i, if cpLength > 1 then s.i else s.firstSupplementaryIndex + 1)
  else
    (u16FwdN s.dest s.destLength s.firstSupplementaryIndex (s.i - s.firstSupplementaryIndex),
      s.firstSupplementaryIndex)

/-- Insert n at position i of the output. -/
def insertCodePoint (destCapacity : Nat) (s : FromState) : FromState :=
  let cpLength := u16Length s.n
  let s :=
    if s.destLength + cpLength ≤ destCapacity then
      let (index, firstSupplementaryIndex) := codeUnitIndex s cpLength
      let units := if cpLength = 1 then [UInt16.ofNat s.n] else [u16Lead s.n, u16Trail s.n]
      { s with firstSupplementaryIndex, dest := s.dest.take index ++ units ++ s.dest.drop index }
    else s
  { s with destLength := s.destLength + cpLength, i := s.i + 1 }

/-- One round of the main decoding loop. -/
def decodeRound (destCapacity : Nat) (src : List UInt16) (s : FromState) :
    Except Failure (FromState × List UInt16) :=
  match readDelta s.bias src s.i 1 base with
  | .error e => .error e
  | .ok (i, src) =>
    let destCPCount := s.destCPCount + 1
    let bias := adaptBias (i - s.i) destCPCount (s.i == 0)
    -- i was supposed to wrap around from destCPCount to 0, incrementing n each time
    if i / destCPCount > int32Max - s.n then .error (.error .illegalCharFound)
    else
      match checked (s.n + i / destCPCount) with
      | .error e => .error e
      | .ok n =>
        if n > 0x10ffff || uIsSurrogate n then .error (.error .illegalCharFound)
        else
          .ok (insertCodePoint destCapacity
            { s with n, i := i % destCPCount, bias, destCPCount }, src)

/-- Main decoding loop. -/
def decodeLoop (destCapacity : Nat) : Nat → List UInt16 → FromState → Except Failure FromState
  | 0, _, s => .ok s
  | fuel + 1, src, s =>
    if src = [] then .ok s
    else
      match decodeRound destCapacity src s with
      | .error e => .error e
      | .ok (s, src) => decodeLoop destCapacity fuel src s

/-- `u_strFromPunycode(src, srcLength, dest, destCapacity, NULL, pErrorCode)` -/
def uStrFromPunycode (src : List UInt16) (destCapacity : Nat) : Except Failure Converted :=
  let basicLength := findDelimiter src src.length
  if !(src.take basicLength).all isBasic then .error (.error .invalidCharFound)
  else
    -- Start just after the last delimiter if any basic code points were copied.
    let start := if basicLength > 0 then basicLength + 1 else 0
    match decodeLoop destCapacity src.length (src.drop start)
      ⟨initialN, 0, initialBias, 1000000000, (src.take basicLength).take destCapacity, basicLength,
        basicLength⟩ with
    | .error e => .error e
    | .ok s => .ok (uTerminateUChars s.dest destCapacity s.destLength)

end Icu.Punycode
