import Icu.Bocu1.Model
import Mathlib.Tactic.IntervalCases

/-! # Differences as bytes

The bytes of a difference: a lead byte, which tells the number of trail bytes and the range
of the difference, and the digits of the rest in base 243, as trail bytes. Both ways of the
encoder to write a difference yield these bytes, and the decoder adds them up again.
-/

namespace Icu.Bocu1

open Utf16 Lib

variable {c diff : Int} {n k : Nat}

section Constants

@[simp] theorem asciiPrev_eq : asciiPrev = 0x40 := by decide
@[simp] theorem min_eq : min = 0x21 := by decide
@[simp] theorem middle_eq : middle = 0x90 := by decide
@[simp] theorem reset_eq : reset = 0xff := by decide
@[simp] theorem trailControlsCount_eq : trailControlsCount = 20 := by decide
@[simp] theorem trailByteOffset_eq : trailByteOffset = 13 := by decide
@[simp] theorem trailCount_eq : trailCount = 243 := by decide
@[simp] theorem reachPos1_eq : reachPos1 = 63 := by decide
@[simp] theorem reachNeg1_eq : reachNeg1 = -64 := by decide
@[simp] theorem reachPos2_eq : reachPos2 = 10512 := by decide
@[simp] theorem reachNeg2_eq : reachNeg2 = -10513 := by decide
@[simp] theorem reachPos3_eq : reachPos3 = 187659 := by decide
@[simp] theorem reachNeg3_eq : reachNeg3 = -187660 := by decide
@[simp] theorem startPos2_eq : startPos2 = 0xd0 := by decide
@[simp] theorem startPos3_eq : startPos3 = 0xfb := by decide
@[simp] theorem startPos4_eq : startPos4 = 0xfe := by decide
@[simp] theorem startNeg2_eq : startNeg2 = 0x50 := by decide
@[simp] theorem startNeg3_eq : startNeg3 = 0x25 := by decide

end Constants

def IsCodePoint (c : Int) : Prop := 0 ≤ c ∧ c ≤ 0x10ffff

/-- A value of `prev`: single-byte differences do not leave the range of code points. -/
def IsPrev (prev : Int) : Prop := 0x40 ≤ prev ∧ prev ≤ 0x10ffc0

instance (prev : Int) : Decidable (IsPrev prev) := inferInstanceAs (Decidable (_ ∧ _))

theorem isPrev_simplePrev (h : IsCodePoint c) : IsPrev (simplePrev c) := by
  simp only [IsCodePoint, IsPrev, simplePrev, asciiPrev_eq] at *
  omega

theorem isPrev_bocu1PREV (h : IsCodePoint c) : IsPrev (bocu1PREV c) := by
  rw [bocu1PREV]
  split
  · exact isPrev_simplePrev h
  rw [bocu1Prev]
  split_ifs
  · decide
  · decide
  · decide
  · exact isPrev_simplePrev h

theorem isPrev_asciiPrev : IsPrev asciiPrev := by decide

theorem bocu1PREV_of_lt (h : c < 0x3000) : bocu1PREV c = simplePrev c :=
  if_pos (Or.inl (by omega))

theorem toByte_natCast (n : Nat) : toByte n = UInt8.ofNat n := by
  apply UInt8.toNat_inj.mp
  rw [toByte, UInt8.toNat_ofNat', UInt8.toNat_ofNat']
  omega

theorem toByte_toNat {x : Int} (h0 : 0 ≤ x) (h1 : x ≤ 0xff) : ((toByte x).toNat : Int) = x := by
  rw [toByte, UInt8.toNat_ofNat']
  omega

theorem trailToByte_bounds {t : Int} (h0 : 0 ≤ t) (h1 : t < 243) :
    1 ≤ trailToByte t ∧ trailToByte t ≤ 0xff := by
  rw [trailToByte]
  split
  · simp only [trailByteOffset_eq, trailControlsCount_eq] at *
    omega
  · next hlt =>
    simp only [trailControlsCount_eq] at hlt
    obtain ⟨n, rfl⟩ := Int.eq_ofNat_of_zero_le h0
    have hn : n < 20 := by omega
    interval_cases n <;> decide

theorem decodeBocu1TrailByte_trailToByte {t : Int} (h0 : 0 ≤ t) (h1 : t < 243) (count : Int) :
    decodeBocu1TrailByte count (trailToByte t) =
      if count = 1 then t else if count = 2 then t * 243 else t * (243 * 243) := by
  have hb : (if trailToByte t ≤ 0x20 then bocu1ByteToTrail.getD (trailToByte t).toNat (-1)
      else trailToByte t - trailByteOffset) = t := by
    rw [trailToByte]
    by_cases hlt : t ≥ trailControlsCount
    · simp only [if_pos hlt, trailByteOffset_eq]
      rw [trailControlsCount_eq] at hlt
      rw [if_neg (by omega)]
      omega
    rw [if_neg hlt]
    rw [trailControlsCount_eq] at hlt
    obtain ⟨n, rfl⟩ := Int.eq_ofNat_of_zero_le h0
    have hn : n < 20 := by omega
    interval_cases n <;> decide
  rw [decodeBocu1TrailByte, hb]
  rfl

def digitByte (k : Int) : UInt8 := toByte (trailToByte (k % 243))

theorem decodeBocu1TrailByte_digitByte (k count : Int) :
    decodeBocu1TrailByte count (digitByte k).toNat =
      if count = 1 then k % 243 else if count = 2 then k % 243 * 243
      else k % 243 * (243 * 243) := by
  have h0 : 0 ≤ k % 243 := by omega
  have h1 : k % 243 < 243 := by omega
  have hb := trailToByte_bounds h0 h1
  rw [digitByte, toByte_toNat (by omega) hb.2, decodeBocu1TrailByte_trailToByte h0 h1]

def twoBytes (start k : Int) : List UInt8 := [toByte (start + k / 243), digitByte k]

def threeBytes (start k : Int) : List UInt8 :=
  [toByte (start + k / 243 / 243), digitByte (k / 243), digitByte k]

def fourBytes (lead k : Int) : List UInt8 :=
  [toByte lead, digitByte (k / 243 / 243), digitByte (k / 243), digitByte k]

def diffBytes (diff : Int) : List UInt8 :=
  if diffIsSingle diff then [toByte (packSingleDiff diff)]
  else if 0 ≤ diff then
    if diff ≤ reachPos2 then twoBytes startPos2 (diff - (reachPos1 + 1))
    else if diff ≤ reachPos3 then threeBytes startPos3 (diff - (reachPos2 + 1))
    else fourBytes startPos4 (diff - (reachPos3 + 1))
  else
    if reachNeg2 ≤ diff then twoBytes startNeg2 (diff - reachNeg1)
    else if reachNeg3 ≤ diff then threeBytes startNeg3 (diff - reachNeg2)
    else fourBytes min (diff - reachNeg3)

theorem diffBytes_length_le (diff : Int) : (diffBytes diff).length ≤ 4 := by
  unfold diffBytes
  split_ifs <;> simp [twoBytes, threeBytes, fourBytes]

theorem diffIsSingle_iff : diffIsSingle diff = true ↔ -64 ≤ diff ∧ diff ≤ 63 := by
  rw [diffIsSingle, Bool.and_eq_true, decide_eq_true_iff, decide_eq_true_iff]
  rfl

theorem diffIsDouble_iff : diffIsDouble diff = true ↔ -10513 ≤ diff ∧ diff ≤ 10512 := by
  rw [diffIsDouble, Bool.and_eq_true, decide_eq_true_iff, decide_eq_true_iff]
  rfl

theorem three_le_diffBytes_length (h : ¬ diffIsDouble diff = true) :
    3 ≤ (diffBytes diff).length := by
  rw [diffIsDouble_iff] at h
  rw [diffBytes, if_neg (by rw [diffIsSingle_iff]; omega)]
  simp only [reachPos2_eq, reachNeg2_eq]
  split_ifs
  · omega
  · simp [threeBytes]
  · simp [fourBytes]
  · omega
  · simp [threeBytes]
  · simp [fourBytes]

/-! ## Packed differences -/

theorem negDivMod_eq (n : Int) : negDivMod n 243 = (n / 243, n % 243) := by
  have hn := Int.mul_tdiv_add_tmod n 243
  have h0 := Int.lt_tmod_of_pos n (show (0 : Int) < 243 by decide)
  have h1 := Int.tmod_lt_of_pos n (show (0 : Int) < 243 by decide)
  rw [negDivMod]
  split
  · rw [Prod.mk.injEq]
    omega
  · rw [Prod.mk.injEq]
    omega

inductive Packs (packed : Nat) : List UInt8 → Prop
  | two (y z : UInt8) (h : packed = 0x02000000 + y.toNat * 0x100 + z.toNat) : Packs packed [y, z]
  | three (x y z : UInt8)
      (h : packed = 0x03000000 + x.toNat * 0x10000 + y.toNat * 0x100 + z.toNat) :
      Packs packed [x, y, z]
  | four (w x y z : UInt8) (hw : 4 ≤ w.toNat)
      (h : packed = w.toNat * 0x1000000 + x.toNat * 0x10000 + y.toNat * 0x100 + z.toNat) :
      Packs packed [w, x, y, z]

theorem toByte_eq {b : UInt8} (h : n % 0x100 = b.toNat) : toByte n = b := by
  apply UInt8.toNat_inj.mp
  rw [toByte_natCast, UInt8.toNat_ofNat']
  exact h

namespace Packs

variable {packed : Nat} {bytes : List UInt8}

section

variable (h : Packs packed bytes)
include h

theorem length_eq : lengthFromPacked packed = bytes.length := by
  rw [lengthFromPacked]
  cases h with
  | two y z h =>
    have := y.toNat_lt
    have := z.toNat_lt
    rw [if_pos (by omega), Nat.shiftRight_eq_div_pow]
    simp
    omega
  | three x y z h =>
    have := x.toNat_lt
    have := y.toNat_lt
    have := z.toNat_lt
    rw [if_pos (by omega), Nat.shiftRight_eq_div_pow]
    simp
    omega
  | four w x y z hw h =>
    rw [if_neg (by omega)]
    rfl

theorem two_le_length : 2 ≤ bytes.length := by
  cases h <;> simp

theorem toByte_shiftRight (hk : k < bytes.length) :
    bytes[bytes.length - 1 - k]? = some (toByte (packed >>> (8 * k) : Nat)) := by
  have byte : ∀ {b : UInt8}, packed / 2 ^ (8 * k) % 0x100 = b.toNat →
      some b = some (toByte (packed >>> (8 * k) : Nat)) := by
    intro b hb
    rw [Nat.shiftRight_eq_div_pow, toByte_eq hb]
  cases h with
  | two y z h =>
    have := y.toNat_lt
    have := z.toNat_lt
    have hk : k < 2 := hk
    interval_cases k
    · exact byte (by omega)
    · exact byte (by omega)
  | three x y z h =>
    have := x.toNat_lt
    have := y.toNat_lt
    have := z.toNat_lt
    have hk : k < 3 := hk
    interval_cases k
    · exact byte (by omega)
    · exact byte (by omega)
    · exact byte (by omega)
  | four w x y z hw h =>
    have := w.toNat_lt
    have := x.toNat_lt
    have := y.toNat_lt
    have := z.toNat_lt
    have hk : k < 4 := hk
    interval_cases k
    · exact byte (by omega)
    · exact byte (by omega)
    · exact byte (by omega)
    · exact byte (by omega)

theorem packedBytes_eq {m : Nat} (hn : n + m ≤ bytes.length) :
    packedBytes n (packed >>> (8 * m)) = (bytes.drop (bytes.length - (n + m))).take n := by
  have hlen : bytes.length ≤ 4 := by cases h <;> simp
  have byte : ∀ k, k < n → (bytes.drop (bytes.length - (n + m)))[n - 1 - k]? =
      some (toByte (packed >>> (8 * m) >>> (8 * k) : Nat)) := by
    intro k hk
    rw [List.getElem?_drop, ← Nat.shiftRight_add, ← Nat.mul_add,
      ← h.toByte_shiftRight (show m + k < bytes.length by omega)]
    congr 1
    omega
  generalize bytes.drop (bytes.length - (n + m)) = low at byte
  have hn4 : n ≤ 4 := by omega
  apply List.ext_getElem?
  intro i
  rw [List.getElem?_take]
  interval_cases n
  · simp [packedBytes]
  · match i with
    | 0 => exact (byte 0 (by omega)).symm
    | i + 1 => simp [packedBytes]
  · match i with
    | 0 => exact (byte 1 (by omega)).symm
    | 1 => exact (byte 0 (by omega)).symm
    | i + 2 => simp [packedBytes]
  · match i with
    | 0 => exact (byte 2 (by omega)).symm
    | 1 => exact (byte 1 (by omega)).symm
    | 2 => exact (byte 0 (by omega)).symm
    | i + 3 => simp [packedBytes]
  · match i with
    | 0 => exact (byte 3 (by omega)).symm
    | 1 => exact (byte 2 (by omega)).symm
    | 2 => exact (byte 1 (by omega)).symm
    | 3 => exact (byte 0 (by omega)).symm
    | i + 4 => simp [packedBytes]

theorem packedBytes_all : packedBytes bytes.length packed = bytes := by
  have := h.packedBytes_eq (n := bytes.length) (m := 0) (by omega)
  simpa using this

theorem packedBytes_low (hn : n ≤ bytes.length) :
    packedBytes n packed = bytes.drop (bytes.length - n) := by
  have := h.packedBytes_eq (n := n) (m := 0) (by omega)
  rw [Nat.mul_zero, Nat.shiftRight_zero, Nat.add_zero] at this
  rw [this, List.take_of_length_le (by rw [List.length_drop]; omega)]

theorem packedBytes_high (hn : n ≤ bytes.length) :
    packedBytes n (packed >>> (8 * (bytes.length - n))) = bytes.take n := by
  rw [h.packedBytes_eq (by omega), show bytes.length - (n + (bytes.length - n)) = 0 by omega]
  rfl

end

end Packs

section PackDiff

variable {w x y z : Int}

theorem toByte_toNat_eq (h : 0 ≤ x ∧ x ≤ 0xff) : (toByte x).toNat = x.toNat := by
  have := toByte_toNat h.1 h.2
  omega

theorem or_field {a b : Nat} (ha : a < 2 ^ k) : a ||| b <<< k = a + b * 2 ^ k := by
  rw [Nat.or_comm, Bits.or_low ha, Nat.add_comm]

theorem Packs.of_two (hy : 0 ≤ y ∧ y ≤ 0xff) (hz : 0 ≤ z ∧ z ≤ 0xff) :
    Packs (0x02000000 ||| z.toNat ||| y.toNat <<< 8) [toByte y, toByte z] := by
  refine .two _ _ ?_
  rw [toByte_toNat_eq hy, toByte_toNat_eq hz, Nat.or_assoc, or_field (k := 8) (by omega),
    Nat.or_comm,
    show (0x02000000 : Nat) = 2 <<< 24 from rfl, or_field (k := 24) (by omega)]
  omega

theorem Packs.of_three (hx : 0 ≤ x ∧ x ≤ 0xff) (hy : 0 ≤ y ∧ y ≤ 0xff) (hz : 0 ≤ z ∧ z ≤ 0xff) :
    Packs (0x03000000 ||| z.toNat ||| y.toNat <<< 8 ||| x.toNat <<< 16)
      [toByte x, toByte y, toByte z] := by
  refine .three _ _ _ ?_
  rw [toByte_toNat_eq hx, toByte_toNat_eq hy, toByte_toNat_eq hz, Nat.or_assoc, Nat.or_assoc,
    ← Nat.or_assoc z.toNat, or_field (k := 8) (by omega), or_field (k := 16) (by omega),
      Nat.or_comm,
    show (0x03000000 : Nat) = 3 <<< 24 from rfl, or_field (k := 24) (by omega)]
  omega

theorem Packs.of_four (hw : 4 ≤ w ∧ w ≤ 0xff) (hx : 0 ≤ x ∧ x ≤ 0xff) (hy : 0 ≤ y ∧ y ≤ 0xff)
    (hz : 0 ≤ z ∧ z ≤ 0xff) :
    Packs (z.toNat ||| y.toNat <<< 8 ||| x.toNat <<< 16 ||| w.toNat <<< 24)
      [toByte w, toByte x, toByte y, toByte z] := by
  have hw0 : 0 ≤ w ∧ w ≤ 0xff := by omega
  refine .four _ _ _ _ (by rw [toByte_toNat_eq hw0]; omega) ?_
  rw [toByte_toNat_eq hw0, toByte_toNat_eq hx, toByte_toNat_eq hy, toByte_toNat_eq hz,
    or_field (k := 8) (by omega), or_field (k := 16) (by omega), or_field (k := 24) (by omega)]
  omega

theorem trailToByte_emod_bounds (k : Int) :
    0 ≤ trailToByte (k % 243) ∧ trailToByte (k % 243) ≤ 0xff := by
  have := @trailToByte_bounds (k % 243) (by omega) (by omega)
  omega

theorem packDiff_packs {diff : Int} (h0 : -0x10ffff ≤ diff) (h1 : diff ≤ 0x10ffff)
    (hs : ¬ diffIsSingle diff = true) : Packs (packDiff diff) (diffBytes diff) := by
  have hd := trailToByte_emod_bounds
  rw [diffBytes, if_neg hs, packDiff]
  rw [diffIsSingle_iff] at hs
  simp only [trailCount_eq, negDivMod_eq, reachNeg1_eq, reachPos1_eq, reachPos2_eq, reachPos3_eq,
    reachNeg2_eq, reachNeg3_eq, startPos2_eq, startPos3_eq, startPos4_eq, startNeg2_eq,
    startNeg3_eq, min_eq]
  by_cases hpos : 0 ≤ diff
  · rw [if_pos (show diff ≥ -64 by omega), if_pos hpos]
    by_cases h2 : diff ≤ 10512
    · rw [if_pos h2, if_pos h2, Int.tdiv_eq_ediv_of_nonneg (by omega),
        Int.tmod_eq_emod_of_nonneg (by omega)]
      exact Packs.of_two (by omega) (hd _)
    by_cases h3 : diff ≤ 187659
    · rw [if_neg h2, if_neg h2, if_pos h3, if_pos h3, Int.tdiv_eq_ediv_of_nonneg (by omega),
        Int.tmod_eq_emod_of_nonneg (by omega), Int.tdiv_eq_ediv_of_nonneg (by omega),
        Int.tmod_eq_emod_of_nonneg (by omega)]
      exact Packs.of_three (by omega) (hd _) (hd _)
    rw [if_neg h2, if_neg h2, if_neg h3, if_neg h3, Int.tdiv_eq_ediv_of_nonneg (by omega),
      Int.tmod_eq_emod_of_nonneg (by omega), Int.tdiv_eq_ediv_of_nonneg (by omega),
      Int.tmod_eq_emod_of_nonneg (by omega)]
    have hlast : (diff - (187659 + 1)) / 243 / 243 = (diff - (187659 + 1)) / 243 / 243 % 243 := by
      omega
    nth_rewrite 1 [hlast]
    exact Packs.of_four (by omega) (hd _) (hd _) (hd _)
  · rw [if_neg (show ¬ diff ≥ -64 by omega), if_neg hpos]
    by_cases h2 : diff ≥ -10513
    · rw [if_pos h2, if_pos h2]
      exact Packs.of_two (by omega) (hd _)
    by_cases h3 : diff ≥ -187660
    · rw [if_neg h2, if_neg h2, if_pos h3, if_pos h3]
      exact Packs.of_three (by omega) (hd _) (hd _)
    rw [if_neg h2, if_neg h2, if_neg h3, if_neg h3]
    have hlast : (diff - -187660) / 243 / 243 + 243 = (diff - -187660) / 243 / 243 % 243 := by
      omega
    rw [hlast]
    exact Packs.of_four (by omega) (hd _) (hd _) (hd _)

end PackDiff

end Icu.Bocu1
