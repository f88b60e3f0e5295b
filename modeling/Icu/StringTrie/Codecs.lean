import Icu.Lib.Bits
import Icu.Lib.Int32

/-! # The compact integers of the string tries

The builders write a trie from its end, each integer in front of what they have written. A reader
gets the bytes or units from its position on, and a jump is how far it moves. Final values are
read in full for every `int32_t`. The jump deltas of a `BytesTrie` are written in full up to three
bytes only: the builder stores bytes of a longer one over each other, and leaves others as they
were.
-/

namespace Icu.StringTrie

open Lib

/-- `(uint32_t)i` -/
def uint32 (i : Int) : Nat := (i % 0x100000000).toNat

/-- The `int32_t` with these bits. -/
def int32 (bits : Nat) : Int := Lib.int32 bits

theorem uint32_spec {i : Int} (hlow : -0x80000000 ≤ i) (hhigh : i < 0x80000000) :
    uint32 i < 0x100000000 ∧ int32 (uint32 i) = i ∧ (0 ≤ i → (uint32 i : Int) = i) := by
  rw [int32, Lib.int32, uint32, Int.bmod_def]
  omega

theorem int32_of_lt {n : Nat} (h : n < 0x80000000) : int32 n = n := Lib.int32_of_lt h

namespace BytesTrie

def kMinValueLead : Nat := 0x20
def kValueIsFinal : Nat := 1
def kMinOneByteValueLead : Nat := kMinValueLead / 2
def kMaxOneByteValue : Nat := 0x40
def kMinTwoByteValueLead : Nat := kMinOneByteValueLead + kMaxOneByteValue + 1
def kMaxTwoByteValue : Nat := 0x1aff
def kMinThreeByteValueLead : Nat := kMinTwoByteValueLead + (kMaxTwoByteValue >>> 8) + 1
def kFourByteValueLead : Nat := 0x7e
def kMaxThreeByteValue : Nat := ((kFourByteValueLead - kMinThreeByteValueLead) <<< 16) - 1
def kFiveByteValueLead : Nat := 0x7f

def kMaxOneByteDelta : Nat := 0xbf
def kMinTwoByteDeltaLead : Nat := kMaxOneByteDelta + 1
def kMinThreeByteDeltaLead : Nat := 0xf0
def kFourByteDeltaLead : Nat := 0xfe
def kFiveByteDeltaLead : Nat := 0xff
def kMaxTwoByteDelta : Nat := ((kMinThreeByteDeltaLead - kMinTwoByteDeltaLead) <<< 8) - 1
def kMaxThreeByteDelta : Nat := ((kFourByteDeltaLead - kMinThreeByteDeltaLead) <<< 16) - 1

def byteAt (pos : List UInt8) (k : Nat) : Nat := (pos.getD k 0).toNat

/-- `BytesTrie::readValue(pos, leadByte)`, where `pos` is behind the lead byte. -/
def readValue (pos : List UInt8) (leadByte : Nat) : Int :=
  if leadByte < kMinTwoByteValueLead then int32 (leadByte - kMinOneByteValueLead)
  else if leadByte < kMinThreeByteValueLead then
    int32 (((leadByte - kMinTwoByteValueLead) <<< 8) ||| byteAt pos 0)
  else if leadByte < kFourByteValueLead then
    int32 (((leadByte - kMinThreeByteValueLead) <<< 16) ||| (byteAt pos 0 <<< 8) ||| byteAt pos 1)
  else if leadByte = kFourByteValueLead then
    int32 ((byteAt pos 0 <<< 16) ||| (byteAt pos 1 <<< 8) ||| byteAt pos 2)
  else
    int32 ((byteAt pos 0 <<< 24) ||| (byteAt pos 1 <<< 16) ||| (byteAt pos 2 <<< 8) ||| byteAt pos
      3)

/-- `BytesTrie::getValue()` at this position. -/
def getValue (pos : List UInt8) : Int := readValue pos.tail (byteAt pos 0 >>> 1)

/-- `BytesTrie::skipValue(pos)` -/
def skipValue (pos : List UInt8) : Nat :=
  let leadByte := byteAt pos 0
  if leadByte ≥ kMinTwoByteValueLead <<< 1 then
    if leadByte < kMinThreeByteValueLead <<< 1 then 1 + 1
    else if leadByte < kFourByteValueLead <<< 1 then 1 + 2
    else 1 + (3 + ((leadByte >>> 1) &&& 1))
  else 1

/-- `BytesTrie::jumpByDelta(pos)` -/
def jumpByDelta (pos : List UInt8) : Int :=
  let delta := byteAt pos 0
  if delta < kMinTwoByteDeltaLead then 1 + delta
  else if delta < kMinThreeByteDeltaLead then
    2 + int32 (((delta - kMinTwoByteDeltaLead) <<< 8) ||| byteAt pos 1)
  else if delta < kFourByteDeltaLead then
    3 + int32 (((delta - kMinThreeByteDeltaLead) <<< 16) ||| (byteAt pos 1 <<< 8) ||| byteAt pos 2)
  else if delta = kFourByteDeltaLead then
    4 + int32 ((byteAt pos 1 <<< 16) ||| (byteAt pos 2 <<< 8) ||| byteAt pos 3)
  else
    5 + int32 ((byteAt pos 1 <<< 24) ||| (byteAt pos 2 <<< 16) ||| (byteAt pos 3 <<< 8) |||
      byteAt pos 4)

/-- `BytesTrie::skipDelta(pos)` -/
def skipDelta (pos : List UInt8) : Nat :=
  let delta := byteAt pos 0
  if delta ≥ kMinTwoByteDeltaLead then
    if delta < kMinThreeByteDeltaLead then 1 + 1
    else if delta < kFourByteDeltaLead then 1 + 2
    else 1 + (3 + (delta &&& 1))
  else 1

end BytesTrie

namespace BytesTrieBuilder

open BytesTrie

/-- `BytesTrieBuilder::writeValueAndFinal(i, isFinal)` in front of `bytes` -/
def writeValueAndFinal (i : Int) (isFinal : Bool) (bytes : List UInt8) : List UInt8 :=
  let u := uint32 i
  if 0 ≤ i ∧ i ≤ kMaxOneByteValue then
    UInt8.ofNat (((kMinOneByteValueLead + u) <<< 1) ||| isFinal.toNat) :: bytes
  else
    let intBytes : Nat × List UInt8 :=
      if i < 0 ∨ i > 0xffffff then
        (kFiveByteValueLead, [.ofNat (u >>> 24), .ofNat (u >>> 16), .ofNat (u >>> 8), .ofNat u])
      else if i ≤ kMaxTwoByteValue then (kMinTwoByteValueLead + (u >>> 8), [.ofNat u])
      else if i ≤ kMaxThreeByteValue then
        (kMinThreeByteValueLead + (u >>> 16), [.ofNat (u >>> 8), .ofNat u])
      else (kFourByteValueLead, [.ofNat (u >>> 16), .ofNat (u >>> 8), .ofNat u])
    UInt8.ofNat ((intBytes.1 <<< 1) ||| isFinal.toNat) :: (intBytes.2 ++ bytes)

/-- `BytesTrieBuilder::writeDeltaTo(jumpTarget)`, where the array `intBytes` is as the stack has
left it -/
def writeDeltaTo (intBytes : List UInt8) (jumpTarget : Nat) (bytes : List UInt8) : List UInt8 :=
  let i := bytes.length - jumpTarget
  if i ≤ kMaxOneByteDelta then UInt8.ofNat i :: bytes
  else
    let stored : List UInt8 × Nat :=
      if i ≤ kMaxTwoByteDelta then (intBytes.set 0 (.ofNat (kMinTwoByteDeltaLead + (i >>> 8))), 1)
      else
        let stored : List UInt8 × Nat :=
          if i ≤ kMaxThreeByteDelta then
            (intBytes.set 0 (.ofNat (kMinThreeByteDeltaLead + (i >>> 16))), 2)
          else
            let stored : List UInt8 × Nat :=
              if i ≤ 0xffffff then (intBytes.set 0 (.ofNat kFourByteDeltaLead), 3)
              else ((intBytes.set 0 (.ofNat kFiveByteDeltaLead)).set 1 (.ofNat (i >>> 24)), 4)
            (stored.1.set 1 (.ofNat (i >>> 16)), stored.2)
        -- the same element again
        (stored.1.set 1 (.ofNat (i >>> 8)), stored.2)
    (stored.1.set stored.2 (.ofNat i)).take (stored.2 + 1) ++ bytes

end BytesTrieBuilder

namespace UCharsTrie

def kMinValueLead : Nat := 0x40
def kNodeTypeMask : Nat := kMinValueLead - 1
def kValueIsFinal : Nat := 0x8000
def kMaxOneUnitValue : Nat := 0x3fff
def kMinTwoUnitValueLead : Nat := kMaxOneUnitValue + 1
def kThreeUnitValueLead : Nat := 0x7fff
def kMaxTwoUnitValue : Nat := ((kThreeUnitValueLead - kMinTwoUnitValueLead) <<< 16) - 1
def kMaxOneUnitNodeValue : Nat := 0xff
def kMinTwoUnitNodeValueLead : Nat := kMinValueLead + ((kMaxOneUnitNodeValue + 1) <<< 6)
def kThreeUnitNodeValueLead : Nat := 0x7fc0
def kMaxTwoUnitNodeValue : Nat := ((kThreeUnitNodeValueLead - kMinTwoUnitNodeValueLead) <<< 10) - 1

def kMaxOneUnitDelta : Nat := 0xfbff
def kMinTwoUnitDeltaLead : Nat := kMaxOneUnitDelta + 1
def kThreeUnitDeltaLead : Nat := 0xffff
def kMaxTwoUnitDelta : Nat := ((kThreeUnitDeltaLead - kMinTwoUnitDeltaLead) <<< 16) - 1

def unitAt (pos : List UInt16) (k : Nat) : Nat := (pos.getD k 0).toNat

/-- `UCharsTrie::readValue(pos, leadUnit)`, where `pos` is behind the lead unit. -/
def readValue (pos : List UInt16) (leadUnit : Nat) : Int :=
  if leadUnit < kMinTwoUnitValueLead then int32 leadUnit
  else if leadUnit < kThreeUnitValueLead then
    int32 (((leadUnit - kMinTwoUnitValueLead) <<< 16) ||| unitAt pos 0)
  else int32 ((unitAt pos 0 <<< 16) ||| unitAt pos 1)

/-- `UCharsTrie::skipValue(pos, leadUnit)` -/
def skipValue (leadUnit : Nat) : Nat :=
  if leadUnit ≥ kMinTwoUnitValueLead then if leadUnit < kThreeUnitValueLead then 1 else 2 else 0

/-- `UCharsTrie::readNodeValue(pos, leadUnit)`, where `pos` is behind the lead unit. -/
def readNodeValue (pos : List UInt16) (leadUnit : Nat) : Int :=
  if leadUnit < kMinTwoUnitNodeValueLead then int32 (leadUnit >>> 6) - 1
  else if leadUnit < kThreeUnitNodeValueLead then
    int32 ((((leadUnit &&& 0x7fc0) - kMinTwoUnitNodeValueLead) <<< 10) ||| unitAt pos 0)
  else int32 ((unitAt pos 0 <<< 16) ||| unitAt pos 1)

/-- `UCharsTrie::skipNodeValue(pos, leadUnit)` -/
def skipNodeValue (leadUnit : Nat) : Nat :=
  if leadUnit ≥ kMinTwoUnitNodeValueLead then if leadUnit < kThreeUnitNodeValueLead then 1 else 2
  else 0

/-- `UCharsTrie::jumpByDelta(pos)` -/
def jumpByDelta (pos : List UInt16) : Int :=
  let delta := unitAt pos 0
  if delta ≥ kMinTwoUnitDeltaLead then
    if delta = kThreeUnitDeltaLead then 3 + int32 ((unitAt pos 1 <<< 16) ||| unitAt pos 2)
    else 2 + int32 (((delta - kMinTwoUnitDeltaLead) <<< 16) ||| unitAt pos 1)
  else 1 + delta

/-- `UCharsTrie::skipDelta(pos)` -/
def skipDelta (pos : List UInt16) : Nat :=
  let delta := unitAt pos 0
  if delta ≥ kMinTwoUnitDeltaLead then if delta = kThreeUnitDeltaLead then 1 + 2 else 1 + 1 else 1

end UCharsTrie

namespace UCharsTrieBuilder

open UCharsTrie

/-- `UCharsTrieBuilder::writeValueAndFinal(i, isFinal)` in front of `uchars` -/
def writeValueAndFinal (i : Int) (isFinal : Bool) (uchars : List UInt16) : List UInt16 :=
  let u := uint32 i
  if 0 ≤ i ∧ i ≤ kMaxOneUnitValue then UInt16.ofNat (u ||| (isFinal.toNat <<< 15)) :: uchars
  else
    let intUnits : Nat × List UInt16 :=
      if i < 0 ∨ i > kMaxTwoUnitValue then (kThreeUnitValueLead, [.ofNat (u >>> 16), .ofNat u])
      else (kMinTwoUnitValueLead + (u >>> 16), [.ofNat u])
    UInt16.ofNat (intUnits.1 ||| (isFinal.toNat <<< 15)) :: (intUnits.2 ++ uchars)

/-- `UCharsTrieBuilder::writeValueAndType(hasValue, value, node)` in front of `uchars` -/
def writeValueAndType (hasValue : Bool) (value : Int) (node : Nat) (uchars : List UInt16) :
    List UInt16 :=
  if !hasValue then UInt16.ofNat node :: uchars
  else
    let u := uint32 value
    let intUnits : Nat × List UInt16 :=
      if value < 0 ∨ value > kMaxTwoUnitNodeValue then
        (kThreeUnitNodeValueLead, [.ofNat (u >>> 16), .ofNat u])
      else if value ≤ kMaxOneUnitNodeValue then ((u + 1) <<< 6, [])
      else (kMinTwoUnitNodeValueLead + ((u >>> 10) &&& 0x7fc0), [.ofNat u])
    UInt16.ofNat (intUnits.1 ||| node) :: (intUnits.2 ++ uchars)

/-- `UCharsTrieBuilder::writeDeltaTo(jumpTarget)` in front of `uchars` -/
def writeDeltaTo (jumpTarget : Nat) (uchars : List UInt16) : List UInt16 :=
  let i := uchars.length - jumpTarget
  if i ≤ kMaxOneUnitDelta then UInt16.ofNat i :: uchars
  else if i ≤ kMaxTwoUnitDelta then
    .ofNat (kMinTwoUnitDeltaLead + (i >>> 16)) :: .ofNat i :: uchars
  else .ofNat kThreeUnitDeltaLead :: .ofNat (i >>> 16) :: .ofNat i :: uchars

end UCharsTrieBuilder

section Joined

variable {w x y z : Nat}

theorem join_two (hz : z < 0x100) : (y <<< 8) ||| z = y * 0x100 + z :=
  Bits.or_low (k := 8) hz

theorem join_three (hy : y < 0x100) (hz : z < 0x100) :
    (x <<< 16) ||| (y <<< 8) ||| z = x * 0x10000 + y * 0x100 + z := by
  have hshift : y <<< 8 = y * 0x100 := Nat.shiftLeft_eq y 8
  rw [Bits.or_low (k := 16) (by omega), hshift,
    show x * 2 ^ 16 + y * 0x100 = (x * 0x100 + y) * 2 ^ 8 by omega, Bits.or_mul (by omega)]
  omega

theorem join_four (hx : x < 0x100) (hy : y < 0x100) (hz : z < 0x100) :
    (w <<< 24) ||| (x <<< 16) ||| (y <<< 8) ||| z =
      w * 0x1000000 + x * 0x10000 + y * 0x100 + z := by
  have hsplit : (w <<< 24) ||| (x <<< 16) = (w * 0x100 + x) <<< 16 := by
    have hshift : x <<< 16 = x * 0x10000 := Nat.shiftLeft_eq x 16
    rw [Bits.or_low (k := 24) (by omega), hshift, Nat.shiftLeft_eq]
    omega
  rw [hsplit, join_three hy hz]
  omega

theorem join_units (hz : z < 0x10000) : (y <<< 16) ||| z = y * 0x10000 + z :=
  Bits.or_low (k := 16) hz

theorem shift_eight (n : Nat) : n >>> 8 = n / 0x100 := Nat.shiftRight_eq_div_pow n 8

theorem shift_sixteen (n : Nat) : n >>> 16 = n / 0x10000 := Nat.shiftRight_eq_div_pow n 16

theorem shift_twentyfour (n : Nat) : n >>> 24 = n / 0x1000000 := Nat.shiftRight_eq_div_pow n 24

@[simp] theorem byteAt_zero (n : Nat) (bytes : List UInt8) :
    BytesTrie.byteAt (UInt8.ofNat n :: bytes) 0 = n % 0x100 := by
  rw [BytesTrie.byteAt, List.getD_cons_zero, UInt8.toNat_ofNat']

@[simp] theorem byteAt_succ (b : UInt8) (bytes : List UInt8) (k : Nat) :
    BytesTrie.byteAt (b :: bytes) (k + 1) = BytesTrie.byteAt bytes k := by
  rw [BytesTrie.byteAt, List.getD_cons_succ, BytesTrie.byteAt]

theorem byteAt_lt (bytes : List UInt8) (k : Nat) : BytesTrie.byteAt bytes k < 0x100 :=
  (bytes.getD k 0).toNat_lt

@[simp] theorem unitAt_zero (n : Nat) (uchars : List UInt16) :
    UCharsTrie.unitAt (UInt16.ofNat n :: uchars) 0 = n % 0x10000 := by
  rw [UCharsTrie.unitAt, List.getD_cons_zero, UInt16.toNat_ofNat']

@[simp] theorem unitAt_succ (u : UInt16) (uchars : List UInt16) (k : Nat) :
    UCharsTrie.unitAt (u :: uchars) (k + 1) = UCharsTrie.unitAt uchars k := by
  rw [UCharsTrie.unitAt, List.getD_cons_succ, UCharsTrie.unitAt]

theorem unitAt_lt (uchars : List UInt16) (k : Nat) : UCharsTrie.unitAt uchars k < 0x10000 :=
  (uchars.getD k 0).toNat_lt

end Joined

namespace BytesTrie

open BytesTrieBuilder

section Values

variable {lead f : Nat} {rest : List UInt8}

theorem shifted_lead (hlead : lead < 0x80) (hf : f < 2) :
    byteAt (UInt8.ofNat ((lead <<< 1) ||| f) :: rest) 0 = 2 * lead + f := by
  rw [byteAt_zero, Bits.or_low (k := 1) hf]
  omega

theorem getValue_cons (hlead : lead < 0x80) (hf : f < 2) :
    getValue (UInt8.ofNat ((lead <<< 1) ||| f) :: rest) = readValue rest lead := by
  rw [getValue, shifted_lead hlead hf, Nat.shiftRight_eq_div_pow]
  exact congrArg _ (by omega)

theorem skipValue_cons (hlead : lead < 0x80) (hf : f < 2) :
    skipValue (UInt8.ofNat ((lead <<< 1) ||| f) :: rest) =
      if lead < 0x51 then 1 else if lead < 0x6c then 2 else if lead < 0x7e then 3
      else if lead < 0x7f then 4 else 5 := by
  rw [skipValue, shifted_lead hlead hf, Nat.shiftRight_eq_div_pow, Nat.and_one_is_mod]
  change (if 2 * lead + f ≥ 0xa2 then if 2 * lead + f < 0xd8 then 2 else if 2 * lead + f < 0xfc then
    3
    else 1 + (3 + (2 * lead + f) / 2 ^ 1 % 2) else 1) = _
  split_ifs <;> omega

theorem isFinal_cons (hlead : lead < 0x80) (hf : f < 2) :
    byteAt (UInt8.ofNat ((lead <<< 1) ||| f) :: rest) 0 &&& kValueIsFinal = f := by
  rw [shifted_lead hlead hf, kValueIsFinal, Nat.and_one_is_mod]
  omega

theorem readValue_eq (rest : List UInt8) (lead : Nat) : readValue rest lead =
    if lead < 0x51 then int32 (lead - 0x10)
    else if lead < 0x6c then int32 ((lead - 0x51) * 0x100 + byteAt rest 0)
    else if lead < 0x7e then
      int32 ((lead - 0x6c) * 0x10000 + byteAt rest 0 * 0x100 + byteAt rest 1)
    else if lead = 0x7e then
      int32 (byteAt rest 0 * 0x10000 + byteAt rest 1 * 0x100 + byteAt rest 2)
    else
      int32 (byteAt rest 0 * 0x1000000 + byteAt rest 1 * 0x10000 + byteAt rest 2 * 0x100 +
        byteAt rest 3) := by
  rw [readValue, join_two (byteAt_lt _ _), join_three (byteAt_lt _ _) (byteAt_lt _ _),
    join_three (byteAt_lt _ _) (byteAt_lt _ _),
    join_four (byteAt_lt _ _) (byteAt_lt _ _) (byteAt_lt _ _)]
  rfl

end Values

/-- What is written for a value is read as this value, over its whole length, with its flag. -/
def Reads (i : Int) (isFinal : Bool) (bytes written : List UInt8) : Prop :=
  getValue written = i ∧ skipValue written = written.length - bytes.length ∧
    byteAt written 0 &&& kValueIsFinal = isFinal.toNat

theorem reads_of_lead {i : Int} {isFinal : Bool} {bytes : List UInt8} (rest : List UInt8)
    (lead : Nat)
    (hlead : lead < 0x80) (hread : readValue (rest ++ bytes) lead = i)
    (hlength : rest.length + 1 = if lead < 0x51 then 1 else if lead < 0x6c then 2
      else if lead < 0x7e then 3 else if lead < 0x7f then 4 else 5) :
    Reads i isFinal bytes (UInt8.ofNat ((lead <<< 1) ||| isFinal.toNat) :: (rest ++ bytes)) := by
  have hf : isFinal.toNat < 2 := isFinal.toNat_lt
  refine ⟨(getValue_cons hlead hf).trans hread, ?_, isFinal_cons hlead hf⟩
  rw [skipValue_cons hlead hf, ← hlength, List.length_cons, List.length_append]
  omega

theorem writeValueAndFinal_reads {i : Int} (hlow : -0x80000000 ≤ i) (hhigh : i < 0x80000000)
    (isFinal : Bool) (bytes : List UInt8) :
    Reads i isFinal bytes (writeValueAndFinal i isFinal bytes) := by
  obtain ⟨hu, hint, hnat⟩ := uint32_spec hlow hhigh
  rw [writeValueAndFinal]
  generalize uint32 i = u at hint hu hnat
  simp only [kMaxOneByteValue, kMaxTwoByteValue, show kMaxThreeByteValue = 0x11ffff from rfl,
    show kMinTwoByteValueLead = 0x51 from rfl, show kMinThreeByteValueLead = 0x6c from rfl,
    show kMinOneByteValueLead = 0x10 from rfl, kFourByteValueLead, kFiveByteValueLead,
    shift_eight, shift_sixteen, shift_twentyfour]
  split_ifs with hone hfive htwo hthree <;> try dsimp only
  · refine reads_of_lead [] _ (by omega) ?_ (if_pos (by omega)).symm
    rw [readValue_eq, if_pos (by omega), ← hint]
    exact congrArg int32 (by omega)
  · refine reads_of_lead _ 0x7f (by decide) ?_ rfl
    rw [readValue_eq, if_neg (by decide), if_neg (by decide), if_neg (by decide),
      if_neg (by decide), ← hint]
    simp only [List.cons_append, byteAt_zero, byteAt_succ]
    exact congrArg int32 (by omega)
  · refine reads_of_lead _ _ (by omega) ?_ ?_
    · rw [readValue_eq, if_neg (by omega), if_pos (by omega), ← hint]
      simp only [List.cons_append, byteAt_zero]
      exact congrArg int32 (by omega)
    · rw [if_neg (by omega), if_pos (by omega)]
      rfl
  · refine reads_of_lead _ _ (by omega) ?_ ?_
    · rw [readValue_eq, if_neg (by omega), if_neg (by omega), if_pos (by omega), ← hint]
      simp only [List.cons_append, byteAt_zero, byteAt_succ]
      exact congrArg int32 (by omega)
    · rw [if_neg (by omega), if_neg (by omega), if_pos (by omega)]
      rfl
  · refine reads_of_lead _ 0x7e (by decide) ?_ rfl
    rw [readValue_eq, if_neg (by decide), if_neg (by decide), if_neg (by decide), if_pos rfl,
      ← hint]
    simp only [List.cons_append, byteAt_zero, byteAt_succ]
    exact congrArg int32 (by omega)

/-! ## Jumps of a `BytesTrie` -/

/-- The bytes in front of the others. Two or three of a long delta stay as they were. -/
theorem writeDeltaTo_eq (a b c d e : UInt8) (jumpTarget : Nat) (bytes : List UInt8) :
    writeDeltaTo [a, b, c, d, e] jumpTarget bytes =
      let i := bytes.length - jumpTarget
      (if i ≤ 0xbf then [.ofNat i]
      else if i ≤ 0x2fff then [.ofNat (0xc0 + i / 0x100), .ofNat i]
      else if i ≤ 0xdffff then [.ofNat (0xf0 + i / 0x10000), .ofNat (i / 0x100), .ofNat i]
      else if i ≤ 0xffffff then [.ofNat 0xfe, .ofNat (i / 0x100), c, .ofNat i]
      else [.ofNat 0xff, .ofNat (i / 0x100), c, d, .ofNat i]) ++ bytes := by
  rw [writeDeltaTo]
  simp only [shift_eight, shift_sixteen, kMaxOneByteDelta, show kMaxTwoByteDelta = 0x2fff from rfl,
    show kMaxThreeByteDelta = 0xdffff from rfl]
  split_ifs <;> rfl

theorem jumpByDelta_eq (pos : List UInt8) : jumpByDelta pos =
    if byteAt pos 0 < 0xc0 then 1 + (byteAt pos 0 : Int)
    else if byteAt pos 0 < 0xf0 then 2 + int32 ((byteAt pos 0 - 0xc0) * 0x100 + byteAt pos 1)
    else if byteAt pos 0 < 0xfe then
      3 + int32 ((byteAt pos 0 - 0xf0) * 0x10000 + byteAt pos 1 * 0x100 + byteAt pos 2)
    else if byteAt pos 0 = 0xfe then
      4 + int32 (byteAt pos 1 * 0x10000 + byteAt pos 2 * 0x100 + byteAt pos 3)
    else
      5 + int32 (byteAt pos 1 * 0x1000000 + byteAt pos 2 * 0x10000 + byteAt pos 3 * 0x100 +
        byteAt pos 4) := by
  rw [jumpByDelta, join_two (byteAt_lt _ _), join_three (byteAt_lt _ _) (byteAt_lt _ _),
    join_three (byteAt_lt _ _) (byteAt_lt _ _),
    join_four (byteAt_lt _ _) (byteAt_lt _ _) (byteAt_lt _ _)]
  rfl

theorem five_bytes {intBytes : List UInt8} (hsize : intBytes.length = 5) :
    ∃ a b c d e, intBytes = [a, b, c, d, e] := by
  match intBytes, hsize with
  | [a, b, c, d, e], _ => exact ⟨a, b, c, d, e, rfl⟩

theorem skipDelta_writeDeltaTo {intBytes bytes : List UInt8} {jumpTarget : Nat}
    (hsize : intBytes.length = 5) : skipDelta (writeDeltaTo intBytes jumpTarget bytes) =
      (writeDeltaTo intBytes jumpTarget bytes).length - bytes.length := by
  obtain ⟨a, b, c, d, e, rfl⟩ := five_bytes hsize
  have hskip : ∀ pos, skipDelta pos = if byteAt pos 0 ≥ 0xc0 then if byteAt pos 0 < 0xf0 then 2
      else if byteAt pos 0 < 0xfe then 3 else 1 + (3 + byteAt pos 0 % 2) else 1 := fun pos => by
    rw [← Nat.and_one_is_mod]
    rfl
  rw [writeDeltaTo_eq]
  dsimp only
  generalize bytes.length - jumpTarget = i
  rw [List.length_append, Nat.add_sub_cancel]
  split_ifs with h1 h2 h3 h4
  all_goals
    rw [hskip]
    simp only [List.cons_append, byteAt_zero, List.length_cons, List.length_nil]
  · rw [if_neg (by omega)]
  · rw [if_pos (by omega), if_pos (by omega)]
  · rw [if_pos (by omega), if_neg (by omega), if_pos (by omega)]
  · rfl
  · rfl

theorem jumpByDelta_writeDeltaTo {intBytes bytes : List UInt8} {jumpTarget : Nat}
    (hsize : intBytes.length = 5) (hjump : jumpTarget ≤ bytes.length)
    (hshort : bytes.length - jumpTarget ≤ kMaxThreeByteDelta) :
    jumpByDelta (writeDeltaTo intBytes jumpTarget bytes) =
      (writeDeltaTo intBytes jumpTarget bytes).length - jumpTarget := by
  obtain ⟨a, b, c, d, e, rfl⟩ := five_bytes hsize
  have hi : (bytes.length - jumpTarget : Nat) + (jumpTarget : Int) = bytes.length := by omega
  rw [show kMaxThreeByteDelta = 0xdffff from rfl] at hshort
  rw [writeDeltaTo_eq]
  dsimp only
  generalize bytes.length - jumpTarget = i at hi hshort
  rw [List.length_append]
  split_ifs with h1 h2
  all_goals
    rw [jumpByDelta_eq]
    simp only [List.cons_append, byteAt_zero, byteAt_succ, List.length_cons, List.length_nil]
  · rw [if_pos (by omega)]
    omega
  · rw [if_neg (by omega), if_pos (by omega), int32_of_lt (by omega)]
    omega
  · rw [if_neg (by omega), if_neg (by omega), if_pos (by omega), int32_of_lt (by omega)]
    omega

theorem jumpByDelta_stale {bytes : List UInt8} {jumpTarget : Nat}
    (hlong : kMaxThreeByteDelta < bytes.length - jumpTarget) :
    ∃ intBytes : List UInt8, intBytes.length = 5 ∧
      jumpByDelta (writeDeltaTo intBytes jumpTarget bytes) ≠
        (writeDeltaTo intBytes jumpTarget bytes).length - jumpTarget := by
  have hi : (bytes.length - jumpTarget : Nat) + (jumpTarget : Int) = bytes.length := by
    omega
  rw [show kMaxThreeByteDelta = 0xdffff from rfl] at hlong
  have hint : ∀ n i : Nat, n / 0x100 % 0x100 ≠ i / 0x100 % 0x100 → int32 n ≠ i := fun n i hn => by
    rw [int32, Lib.int32, Int.bmod_def]
    omega
  refine ⟨List.replicate 5 (.ofNat ((bytes.length - jumpTarget) / 0x100 + 1)), rfl, ?_⟩
  simp only [List.replicate]
  rw [writeDeltaTo_eq]
  dsimp only
  generalize bytes.length - jumpTarget = i at hi hlong
  rw [List.length_append, if_neg (by omega), if_neg (by omega), if_neg (by omega)]
  split_ifs with h1
  all_goals
    rw [jumpByDelta_eq]
    simp only [List.cons_append, byteAt_zero, byteAt_succ, List.length_cons, List.length_nil]
  · have hne := hint (i / 0x100 % 0x100 * 0x10000 + (i / 0x100 + 1) % 0x100 * 0x100 + i % 0x100) i
      (by omega)
    rw [if_neg (by decide), if_neg (by decide), if_neg (by decide), if_pos trivial]
    omega
  · have hne := hint (i / 0x100 % 0x100 * 0x1000000 + (i / 0x100 + 1) % 0x100 * 0x10000 +
      (i / 0x100 + 1) % 0x100 * 0x100 + i % 0x100) i (by omega)
    rw [if_neg (by decide), if_neg (by decide), if_neg (by decide), if_neg (by decide)]
    omega

end BytesTrie

namespace UCharsTrie

open UCharsTrieBuilder

/-! ## Values of a `UCharsTrie` -/

/-- As for a `BytesTrie`. The flag is in the highest bit of the lead unit. -/
def Reads (i : Int) (isFinal : Bool) (uchars written : List UInt16) : Prop :=
  readValue written.tail (unitAt written 0 &&& 0x7fff) = i ∧
    1 + skipValue (unitAt written 0 &&& 0x7fff) = written.length - uchars.length ∧
    unitAt written 0 &&& kValueIsFinal = isFinal.toNat <<< 15

/-- The value in front of a node. The type of the node is in the low bits of the lead unit. -/
def ReadsNode (value : Int) (node : Nat) (uchars written : List UInt16) : Prop :=
  readNodeValue written.tail (unitAt written 0) = value ∧
    1 + skipNodeValue (unitAt written 0) = written.length - uchars.length ∧
    unitAt written 0 &&& kNodeTypeMask = node ∧ kMinValueLead ≤ unitAt written 0 ∧
    unitAt written 0 < kValueIsFinal

theorem reads_of_lead {i : Int} {isFinal : Bool} {uchars : List UInt16} (rest : List UInt16)
    (lead : Nat)
    (hlead : lead < 0x8000) (hread : readValue (rest ++ uchars) lead = i)
    (hlength : skipValue lead = rest.length) :
    Reads i isFinal uchars (UInt16.ofNat (lead ||| (isFinal.toNat <<< 15)) ::
    (rest ++ uchars)) := by
  have hf : isFinal.toNat < 2 := isFinal.toNat_lt
  have hunit : (lead ||| (isFinal.toNat <<< 15)) % 0x10000 = isFinal.toNat * 0x8000 + lead := by
    rw [Nat.or_comm, Bits.or_low (k := 15) hlead]
    omega
  rw [Reads, unitAt_zero, hunit, Bits.and_low _ 15 0x7fff rfl,
    Bits.and_high (n := 16) (k := 15) (by omega) (by decide) (show kValueIsFinal = _ from rfl),
    show (isFinal.toNat * 0x8000 + lead) % 2 ^ 15 = lead by omega]
  refine ⟨hread, ?_, by omega⟩
  rw [hlength, List.length_cons, List.length_append]
  omega

theorem writeValueAndFinal_reads {i : Int} (hlow : -0x80000000 ≤ i) (hhigh : i < 0x80000000)
    (isFinal : Bool) (uchars : List UInt16) :
    Reads i isFinal uchars (writeValueAndFinal i isFinal uchars) := by
  obtain ⟨hu, hint, hnat⟩ := uint32_spec hlow hhigh
  rw [writeValueAndFinal]
  generalize uint32 i = u at hint hu hnat
  have htwo : kMinTwoUnitValueLead = 0x4000 := rfl
  have hthree : kThreeUnitValueLead = 0x7fff := rfl
  simp only [kMaxOneUnitValue, show kMaxTwoUnitValue = 0x3ffeffff from rfl, shift_sixteen]
  split_ifs with hone hlong
  · refine reads_of_lead [] _ (by omega) ?_ (if_neg (by omega))
    rw [readValue, if_pos (by omega), hint]
  · refine reads_of_lead _ 0x7fff (by decide) ?_ rfl
    rw [readValue, if_neg (by decide), if_neg (by decide), join_units (unitAt_lt _ _), ← hint]
    simp only [List.cons_append, unitAt_zero, unitAt_succ]
    exact congrArg int32 (by omega)
  · dsimp only
    refine reads_of_lead _ _ (by omega) ?_ ?_
    · rw [readValue, if_neg (by omega),
        if_pos (by omega), join_units (unitAt_lt _ _), ← hint]
      simp only [List.cons_append, unitAt_zero]
      exact congrArg int32 (by omega)
    · rw [skipValue, if_pos (by omega),
        if_pos (by omega)]
      rfl

theorem readsNode_of_lead {value : Int} {node : Nat} {uchars : List UInt16} (rest : List UInt16)
    (m : Nat)
    (hnode : node < 0x40) (hlead : 0 < m ∧ m < 0x200)
    (hread : readNodeValue (rest ++ uchars) (m * 0x40 + node) = value)
    (hlength : skipNodeValue (m * 0x40 + node) = rest.length) :
    ReadsNode value node uchars (UInt16.ofNat ((m * 0x40) ||| node) :: (rest ++ uchars)) := by
  have hunit : ((m * 0x40) ||| node) % 0x10000 = m * 0x40 + node := by
    rw [show m * 0x40 = m * 2 ^ 6 from rfl, Bits.or_mul (k := 6) hnode]
    omega
  rw [ReadsNode, unitAt_zero, hunit, show kNodeTypeMask = 0x3f from rfl, Bits.and_low _ 6 0x3f rfl,
    kMinValueLead, kValueIsFinal]
  refine ⟨hread, ?_, by omega, by omega, by omega⟩
  rw [hlength, List.length_cons, List.length_append]
  omega

theorem writeValueAndType_reads {value : Int} {node : Nat} (hlow : -0x80000000 ≤ value)
    (hhigh : value < 0x80000000) (hnode : node < kMinValueLead) (uchars : List UInt16) :
    ReadsNode value node uchars (writeValueAndType true value node uchars) := by
  obtain ⟨hu, hint, hnat⟩ := uint32_spec hlow hhigh
  rw [writeValueAndType]
  generalize uint32 value = u at hint hu hnat
  rw [kMinValueLead] at hnode
  have htwo : kMinTwoUnitNodeValueLead = 0x4040 := rfl
  have hthree : kThreeUnitNodeValueLead = 0x7fc0 := rfl
  have hmax : (kMaxOneUnitNodeValue : Int) = 0xff ∧ (kMaxTwoUnitNodeValue : Int) = 0xfdffff :=
    ⟨rfl, rfl⟩
  simp only [Bool.not_true, Bool.false_eq_true, if_false, shift_sixteen]
  split_ifs with hlong hone <;> dsimp only
  · refine readsNode_of_lead _ 0x1ff hnode (by decide) ?_ ?_
    · rw [readNodeValue, if_neg (by omega), if_neg (by omega), join_units (unitAt_lt _ _), ← hint]
      simp only [List.cons_append, unitAt_zero, unitAt_succ]
      exact congrArg int32 (by omega)
    · rw [skipNodeValue, if_pos (by omega), if_neg (by omega)]
      rfl
  · have hm : (u + 1) <<< 6 = (u + 1) * 0x40 := Nat.shiftLeft_eq _ 6
    rw [hm]
    refine readsNode_of_lead [] (u + 1) hnode (by omega) ?_ ?_
    · have hfield : ((u + 1) * 0x40 + node) >>> 6 = u + 1 := by
        rw [Nat.shiftRight_eq_div_pow]
        omega
      rw [readNodeValue, if_pos (by omega), hfield, int32_of_lt (n := u + 1) (by omega)]
      omega
    · rw [skipNodeValue, if_neg (by omega)]
      rfl
  · have hm : kMinTwoUnitNodeValueLead + ((u >>> 10) &&& 0x7fc0) =
      (0x101 + u / 0x10000) * 0x40 := by
      rw [Nat.shiftRight_eq_div_pow, Bits.and_middle (by decide) (show 0x7fc0 = 2 ^ 15 - 2 ^ 6
        from rfl)]
      omega
    rw [hm]
    refine readsNode_of_lead _ (0x101 + u / 0x10000) hnode (by omega) ?_ ?_
    · have hhead : ((0x101 + u / 0x10000) * 0x40 + node) &&& 0x7fc0 =
          (0x101 + u / 0x10000) * 0x40 :=
        (Bits.and_high (k := 6) (n := 15) (by omega) (by decide) (by decide)).trans (by omega)
      have hfield : ((0x101 + u / 0x10000) * 0x40 - kMinTwoUnitNodeValueLead) <<< 10 =
          (u / 0x10000) <<< 16 := by
        rw [Nat.shiftLeft_eq, Nat.shiftLeft_eq]
        omega
      rw [readNodeValue, if_neg (by omega), if_pos (by omega), hhead, hfield,
        join_units (unitAt_lt _ _), ← hint]
      simp only [List.cons_append, unitAt_zero]
      exact congrArg int32 (by omega)
    · rw [skipNodeValue, if_pos (by omega), if_pos (by omega)]
      rfl

/-! ## Jumps of a `UCharsTrie` -/

theorem writeDeltaTo_jumps {uchars : List UInt16} {jumpTarget : Nat}
    (hjump : jumpTarget ≤ uchars.length) (hlength : uchars.length < 0x80000000) :
    jumpByDelta (writeDeltaTo jumpTarget uchars) =
        (writeDeltaTo jumpTarget uchars).length - jumpTarget ∧
      skipDelta (writeDeltaTo jumpTarget uchars) =
        (writeDeltaTo jumpTarget uchars).length - uchars.length := by
  have hi : (uchars.length - jumpTarget : Nat) + (jumpTarget : Int) = uchars.length := by omega
  have htwo : kMinTwoUnitDeltaLead = 0xfc00 := rfl
  have hthree : kThreeUnitDeltaLead = 0xffff := rfl
  rw [writeDeltaTo]
  simp only [kMaxOneUnitDelta, show kMaxTwoUnitDelta = 0x3feffff from rfl, shift_sixteen]
  have hlt : uchars.length - jumpTarget < 0x80000000 := by omega
  generalize uchars.length - jumpTarget = i at hi hlt
  split_ifs with hone hmiddle
  all_goals
    rw [jumpByDelta, skipDelta, join_units (unitAt_lt _ _), join_units (unitAt_lt _ _)]
    simp only [unitAt_zero, unitAt_succ, List.length_cons]
  · rw [if_neg (by omega), if_neg (by omega)]
    omega
  · rw [if_pos (by omega), if_neg (by omega), if_pos (by omega), if_neg (by omega),
      int32_of_lt (by omega)]
    omega
  · rw [if_pos (by omega), if_pos (by omega), if_pos (by omega), if_pos (by omega),
      int32_of_lt (by omega)]
    omega

end UCharsTrie

/-! ## All codecs -/

/-- For every jump and for whatever the stack has left, a `BytesTrie` moves to the target. -/
def JumpsToTarget (jumpTarget : Nat) (bytes : List UInt8) : Prop :=
  ∀ intBytes : List UInt8, intBytes.length = 5 →
    BytesTrie.jumpByDelta (BytesTrieBuilder.writeDeltaTo intBytes jumpTarget bytes) =
      (BytesTrieBuilder.writeDeltaTo intBytes jumpTarget bytes).length - jumpTarget

/-- Each integer is read as it was written, but the jump delta of a `BytesTrie` exactly if it has at
most three bytes. -/
theorem codecs_read_iff {value : Int} {node jumpTarget : Nat} {bytes : List UInt8}
    {uchars : List UInt16} (isFinal : Bool) (hlow : -0x80000000 ≤ value)
    (hhigh : value < 0x80000000) (hnode : node < UCharsTrie.kMinValueLead)
    (hbytes : jumpTarget ≤ bytes.length) (huchars : jumpTarget ≤ uchars.length)
    (hlength : uchars.length < 0x80000000) :
    BytesTrie.Reads value isFinal bytes (BytesTrieBuilder.writeValueAndFinal value isFinal bytes) ∧
    UCharsTrie.Reads value isFinal uchars
      (UCharsTrieBuilder.writeValueAndFinal value isFinal uchars) ∧
    UCharsTrie.ReadsNode value node uchars
      (UCharsTrieBuilder.writeValueAndType true value node uchars) ∧
    UCharsTrie.jumpByDelta (UCharsTrieBuilder.writeDeltaTo jumpTarget uchars) =
      (UCharsTrieBuilder.writeDeltaTo jumpTarget uchars).length - jumpTarget ∧
    UCharsTrie.skipDelta (UCharsTrieBuilder.writeDeltaTo jumpTarget uchars) =
      (UCharsTrieBuilder.writeDeltaTo jumpTarget uchars).length - uchars.length ∧
    (∀ intBytes : List UInt8, intBytes.length = 5 →
      BytesTrie.skipDelta (BytesTrieBuilder.writeDeltaTo intBytes jumpTarget bytes) =
        (BytesTrieBuilder.writeDeltaTo intBytes jumpTarget bytes).length - bytes.length) ∧
    (JumpsToTarget jumpTarget bytes ↔
      bytes.length - jumpTarget ≤ BytesTrie.kMaxThreeByteDelta) := by
  obtain ⟨hjump, hskip⟩ := UCharsTrie.writeDeltaTo_jumps huchars hlength
  refine ⟨BytesTrie.writeValueAndFinal_reads hlow hhigh isFinal bytes,
    UCharsTrie.writeValueAndFinal_reads hlow hhigh isFinal uchars,
    UCharsTrie.writeValueAndType_reads hlow hhigh hnode uchars, hjump, hskip,
    fun _ hsize => BytesTrie.skipDelta_writeDeltaTo hsize, fun h => ?_,
    fun hshort _ hsize => BytesTrie.jumpByDelta_writeDeltaTo hsize hbytes hshort⟩
  by_contra hlong
  obtain ⟨intBytes, hsize, hne⟩ := BytesTrie.jumpByDelta_stale (Nat.lt_of_not_le hlong)
  exact hne (h intBytes hsize)

theorem codecs_read_five :
    BytesTrie.getValue (BytesTrieBuilder.writeValueAndFinal (-2) true [0x20, 0x20]) = -2 ∧
      JumpsToTarget 1 [0x20, 0x20] := by
  have h := @codecs_read_iff (-2) 0x3f 1 [0x20, 0x20] [0x30] true (by decide) (by decide)
    (by decide)
    (by decide) (by decide) (by decide)
  exact ⟨h.1.1, h.2.2.2.2.2.2.mpr (by decide)⟩

theorem jumpByDelta_zeros {bytes : List UInt8} (hbytes : bytes.length = 0xe0000) :
    BytesTrie.jumpByDelta (BytesTrieBuilder.writeDeltaTo [0, 0, 0, 0, 0] 0 bytes) ≠
      (BytesTrieBuilder.writeDeltaTo [0, 0, 0, 0, 0] 0 bytes).length - (0 : Nat) := by
  intro h0
  rw [BytesTrie.writeDeltaTo_eq] at h0
  rw [List.length_append, hbytes] at h0
  revert h0
  rw [BytesTrie.jumpByDelta_eq]
  simp [BytesTrie.byteAt, int32, Lib.int32]

/-- The lead byte FE with nothing but zeros behind it is a jump to the next byte. -/
theorem long_delta_lost :
    ¬ ∀ (intBytes bytes : List UInt8) (jumpTarget : Nat), intBytes.length = 5 →
      jumpTarget ≤ bytes.length → bytes.length < 0x80000000 →
      BytesTrie.jumpByDelta (BytesTrieBuilder.writeDeltaTo intBytes jumpTarget bytes) =
        (BytesTrieBuilder.writeDeltaTo intBytes jumpTarget bytes).length - jumpTarget := by
  intro h
  refine jumpByDelta_zeros List.length_replicate (h [0, 0, 0, 0, 0] (List.replicate 0xe0000 0x20) 0
    rfl
    (Nat.zero_le _) ?_)
  rw [List.length_replicate]
  decide

end Icu.StringTrie
