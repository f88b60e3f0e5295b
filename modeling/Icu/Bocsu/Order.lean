import Icu.Bocsu.Model
import Icu.Lib.OrderedCode
import Icu.Utf16.Joining

/-! # The order of identical levels

The lead byte ranges overlap, and where the lead bytes are the same the next byte tells the
length. So from every `prev` the bytes of the differences are in the order of the differences.
-/

namespace Icu.Bocsu

open Utf16 Lib.OrderedCode

variable {k' k start : Int} {x y : List UInt8} {c : Nat}

section Constants

@[simp] theorem slopeMin_eq : slopeMin = 3 := rfl
@[simp] theorem slopeMax_eq : slopeMax = 0xff := rfl
@[simp] theorem slopeMiddle_eq : slopeMiddle = 0x81 := rfl
@[simp] theorem slopeTailCount_eq : slopeTailCount = 253 := by decide
@[simp] theorem slopeReachPos1_eq : slopeReachPos1 = 80 := by decide
@[simp] theorem slopeReachNeg1_eq : slopeReachNeg1 = -80 := by decide
@[simp] theorem slopeReachPos2_eq : slopeReachPos2 = 10667 := by decide
@[simp] theorem slopeReachNeg2_eq : slopeReachNeg2 = -10668 := by decide
@[simp] theorem slopeReachPos3_eq : slopeReachPos3 = 192785 := by decide
@[simp] theorem slopeReachNeg3_eq : slopeReachNeg3 = -192786 := by decide
@[simp] theorem slopeStartPos2_eq : slopeStartPos2 = 210 := by decide
@[simp] theorem slopeStartPos3_eq : slopeStartPos3 = 252 := by decide
@[simp] theorem slopeStartNeg2_eq : slopeStartNeg2 = 49 := by decide
@[simp] theorem slopeStartNeg3_eq : slopeStartNeg3 = 7 := by decide

end Constants

theorem toByte_toNat {x : Int} (h0 : 0 ≤ x) (h1 : x ≤ 0xff) : ((toByte x).toNat : Int) = x := by
  unfold toByte
  rw [UInt8.toNat_ofNat']
  omega

theorem toByte_lt {x y : Int} (hx : 0 ≤ x) (hy : y ≤ 0xff) (h : x < y) : toByte x < toByte y := by
  have hleft := toByte_toNat hx (by omega)
  have hright := toByte_toNat (show 0 ≤ y by omega) hy
  rw [UInt8.lt_iff_toNat_lt]
  omega

def digitByte (k : Int) : UInt8 := toByte (3 + k % 253)

def twoBytes (start k : Int) : List UInt8 := [toByte (start + k / 253), digitByte k]

def threeBytes (start k : Int) : List UInt8 :=
  [toByte (start + k / 253 / 253), digitByte (k / 253), digitByte k]

def fourBytes (lead k : Int) : List UInt8 :=
  [toByte lead, digitByte (k / 253 / 253), digitByte (k / 253), digitByte k]

/-- A digit, and what follows it if it does not tell. -/
theorem diverges_digit (hhigh : k / 253 = k' / 253) (hle : k ≤ k')
    (hnext : k = k' → Diverges x y) : Diverges (digitByte k :: x) (digitByte k' :: y) := by
  rcases Int.lt_or_eq_of_le hle with hlt | rfl
  · exact .head (toByte_lt (by omega) (by omega) (by omega))
  · exact .tail _ (hnext rfl)

theorem diverges_lead {a a' : Int} (h0 : 0 ≤ a) (h1 : a' ≤ 0xff) (hle : a ≤ a')
    (hnext : a = a' → Diverges x y) : Diverges (toByte a :: x) (toByte a' :: y) := by
  rcases Int.lt_or_eq_of_le hle with hlt | rfl
  · exact .head (toByte_lt h0 h1 hlt)
  · exact .tail _ (hnext rfl)

theorem twoBytes_diverges (h0 : 0 ≤ start + k / 253) (h1 : start + k' / 253 ≤ 0xff)
    (h : k < k') : Diverges (twoBytes start k) (twoBytes start k') := by
  apply diverges_lead h0 h1 (by omega)
  intro hlead
  apply diverges_digit (by omega) (by omega)
  intro hsame
  omega

theorem threeBytes_diverges (h0 : 0 ≤ start + k / 253 / 253)
    (h1 : start + k' / 253 / 253 ≤ 0xff) (h : k < k') :
    Diverges (threeBytes start k) (threeBytes start k') := by
  apply diverges_lead h0 h1 (by omega)
  intro hlead
  apply diverges_digit (by omega) (by omega)
  intro hsame
  apply diverges_digit hsame (by omega)
  intro hsame'
  omega

theorem fourBytes_diverges {lead : Int} (hhigh : k / 253 / 253 / 253 = k' / 253 / 253 / 253)
    (h : k < k') : Diverges (fourBytes lead k) (fourBytes lead k') := by
  apply Diverges.tail
  apply diverges_digit hhigh (by omega)
  intro hsame
  apply diverges_digit hsame (by omega)
  intro hsame'
  apply diverges_digit hsame' (by omega)
  intro hsame''
  omega

/-! ## Differences in order -/

theorem negDivMod_eq (n : Int) : negDivMod n 253 = (n / 253, n % 253) := by
  unfold negDivMod
  dsimp only
  obtain hneg | hnonneg := Int.lt_or_le n 0
  · have hdiv : n.tdiv 253 = -((-n) / 253) := by
      rw [← Int.tdiv_eq_ediv_of_nonneg (by omega), Int.neg_tdiv, Int.neg_neg]
    have hmod : n.tmod 253 = -((-n) % 253) := by
      rw [← Int.tmod_eq_emod_of_nonneg (by omega), Int.neg_tmod, Int.neg_neg]
    rw [hdiv, hmod]
    split <;> rw [Prod.mk.injEq] <;> omega
  · rw [Int.tdiv_eq_ediv_of_nonneg hnonneg, Int.tmod_eq_emod_of_nonneg hnonneg, if_neg (by omega)]

section Ranges

variable {diff : Int}

theorem uWriteDiff_single (h0 : -80 ≤ diff) (h1 : diff ≤ 80) :
    uWriteDiff diff = [toByte (0x81 + diff)] := by
  unfold uWriteDiff
  simp [h0, h1]

theorem uWriteDiff_two (h0 : 80 < diff) (h1 : diff ≤ 10667) :
    uWriteDiff diff = twoBytes 210 diff := by
  unfold uWriteDiff twoBytes digitByte
  rw [slopeReachNeg1_eq, if_pos (by omega), slopeReachPos1_eq, if_neg (by omega),
    slopeReachPos2_eq, if_pos h1, slopeTailCount_eq, Int.tdiv_eq_ediv_of_nonneg (by omega),
    Int.tmod_eq_emod_of_nonneg (by omega)]
  rfl

theorem uWriteDiff_three (h0 : 10667 < diff) (h1 : diff ≤ 192785) :
    uWriteDiff diff = threeBytes 252 diff := by
  unfold uWriteDiff threeBytes digitByte
  rw [slopeReachNeg1_eq, if_pos (by omega), slopeReachPos1_eq, if_neg (by omega),
    slopeReachPos2_eq, if_neg (by omega), slopeReachPos3_eq, if_pos h1, slopeTailCount_eq]
  dsimp only
  rw [Int.tdiv_eq_ediv_of_nonneg (show 0 ≤ diff by omega),
    Int.tdiv_eq_ediv_of_nonneg (show 0 ≤ diff / 253 by omega),
    Int.tmod_eq_emod_of_nonneg (by omega), Int.tmod_eq_emod_of_nonneg (by omega)]
  rfl

theorem uWriteDiff_four (h : 192785 < diff) : uWriteDiff diff = fourBytes 255 diff := by
  unfold uWriteDiff fourBytes digitByte
  rw [slopeReachNeg1_eq, if_pos (by omega), slopeReachPos1_eq, if_neg (by omega),
    slopeReachPos2_eq, if_neg (by omega), slopeReachPos3_eq, if_neg (by omega), slopeTailCount_eq]
  dsimp only
  rw [Int.tdiv_eq_ediv_of_nonneg (show 0 ≤ diff by omega),
    Int.tdiv_eq_ediv_of_nonneg (show 0 ≤ diff / 253 by omega),
    Int.tmod_eq_emod_of_nonneg (by omega), Int.tmod_eq_emod_of_nonneg (by omega),
    Int.tmod_eq_emod_of_nonneg (by omega)]
  rfl

theorem uWriteDiff_negative_two (h0 : -10668 ≤ diff) (h1 : diff < -80) :
    uWriteDiff diff = twoBytes 49 diff := by
  unfold uWriteDiff twoBytes digitByte
  rw [slopeReachNeg1_eq, if_neg (by omega), slopeReachNeg2_eq, if_pos h0, slopeTailCount_eq,
    negDivMod_eq]
  rfl

theorem uWriteDiff_negative_three (h0 : -192786 ≤ diff) (h1 : diff < -10668) :
    uWriteDiff diff = threeBytes 7 diff := by
  unfold uWriteDiff threeBytes digitByte
  rw [slopeReachNeg1_eq, if_neg (by omega), slopeReachNeg2_eq, if_neg (by omega),
    slopeReachNeg3_eq, if_pos h0, slopeTailCount_eq, negDivMod_eq]
  dsimp only
  rw [negDivMod_eq]
  rfl

theorem uWriteDiff_negative_four (h : diff < -192786) : uWriteDiff diff = fourBytes 3 diff := by
  unfold uWriteDiff fourBytes digitByte
  rw [slopeReachNeg1_eq, if_neg (by omega), slopeReachNeg2_eq, if_neg (by omega),
    slopeReachNeg3_eq, if_neg (by omega), slopeTailCount_eq, negDivMod_eq]
  dsimp only
  rw [negDivMod_eq]
  rw [negDivMod_eq]
  rfl

def InReach (diff : Int) : Prop := -16194277 ≤ diff ∧ diff ≤ 16194276

theorem uWriteDiff_succ_diverges (h0 : -16194277 ≤ diff) (h1 : diff < 16194276) :
    Diverges (uWriteDiff diff) (uWriteDiff (diff + 1)) := by
  by_cases hneg4 : diff + 1 < -192786
  · rw [uWriteDiff_negative_four (by omega), uWriteDiff_negative_four hneg4]
    exact fourBytes_diverges (by omega) (by omega)
  by_cases hneg4' : diff + 1 = -192786
  · obtain rfl : diff = -192787 := by omega
    exact .tail _ (.head (by decide))
  by_cases hneg3 : diff + 1 < -10668
  · rw [uWriteDiff_negative_three (by omega) (by omega), uWriteDiff_negative_three (by omega) hneg3]
    exact threeBytes_diverges (by omega) (by omega) (by omega)
  by_cases hneg3' : diff + 1 = -10668
  · obtain rfl : diff = -10669 := by omega
    exact .tail _ (.head (by decide))
  by_cases hneg2 : diff + 1 < -80
  · rw [uWriteDiff_negative_two (by omega) (by omega), uWriteDiff_negative_two (by omega) hneg2]
    exact twoBytes_diverges (by omega) (by omega) (by omega)
  by_cases hneg2' : diff + 1 = -80
  · obtain rfl : diff = -81 := by omega
    exact .head (by decide)
  by_cases hsingle : diff + 1 ≤ 80
  · rw [uWriteDiff_single (by omega) (by omega), uWriteDiff_single (by omega) hsingle]
    exact .head (toByte_lt (by omega) (by omega) (by omega))
  by_cases hsingle' : diff = 80
  · rw [hsingle']
    exact .head (by decide)
  by_cases htwo : diff + 1 ≤ 10667
  · rw [uWriteDiff_two (by omega) (by omega), uWriteDiff_two (by omega) htwo]
    exact twoBytes_diverges (by omega) (by omega) (by omega)
  by_cases htwo' : diff = 10667
  · rw [htwo']
    exact .tail _ (.head (by decide))
  by_cases hthree : diff + 1 ≤ 192785
  · rw [uWriteDiff_three (by omega) (by omega), uWriteDiff_three (by omega) hthree]
    exact threeBytes_diverges (by omega) (by omega) (by omega)
  by_cases hthree' : diff = 192785
  · rw [hthree']
    exact .tail _ (.head (by decide))
  · rw [uWriteDiff_four (by omega), uWriteDiff_four (by omega)]
    exact fourBytes_diverges (by omega) (by omega)

end Ranges

theorem uWriteDiff_diverges {x y : Int} (hx : InReach x) (hy : InReach y) (h : x < y) :
    Diverges (uWriteDiff x) (uWriteDiff y) :=
  diverges_of_succ (fun hab hbc => by rw [UInt8.lt_iff_toNat_lt] at *; omega)
    (fun _ => uWriteDiff_succ_diverges) hx.1 hy.2 h

theorem toByte_ge {x : Int} (h0 : 3 ≤ x) (h1 : x ≤ 0xff) : 3 ≤ (toByte x).toNat := by
  have := toByte_toNat (show 0 ≤ x by omega) h1
  omega

theorem digitByte_ge (k : Int) : 3 ≤ (digitByte k).toNat :=
  toByte_ge (by omega) (by omega)

theorem uWriteDiff_ge (diff : Int) : ∀ b ∈ uWriteDiff diff, 3 ≤ b.toNat := by
  have hdigit := digitByte_ge
  by_cases hneg4 : diff < -192786
  · rw [uWriteDiff_negative_four hneg4]
    simp [fourBytes, hdigit]
    decide
  by_cases hneg3 : diff < -10668
  · rw [uWriteDiff_negative_three (by omega) hneg3]
    simp [threeBytes, hdigit]
    exact toByte_ge (by omega) (by omega)
  by_cases hneg2 : diff < -80
  · rw [uWriteDiff_negative_two (by omega) hneg2]
    simp [twoBytes, hdigit]
    exact toByte_ge (by omega) (by omega)
  by_cases hsingle : diff ≤ 80
  · rw [uWriteDiff_single (by omega) hsingle]
    simp
    exact toByte_ge (by omega) (by omega)
  by_cases htwo : diff ≤ 10667
  · rw [uWriteDiff_two (by omega) htwo]
    simp [twoBytes, hdigit]
    exact toByte_ge (by omega) (by omega)
  by_cases hthree : diff ≤ 192785
  · rw [uWriteDiff_three (by omega) hthree]
    simp [threeBytes, hdigit]
    exact toByte_ge (by omega) (by omega)
  · rw [uWriteDiff_four (by omega)]
    simp [fourBytes, hdigit]
    decide

theorem uWriteDiff_length (diff : Int) :
    1 ≤ (uWriteDiff diff).length ∧ (uWriteDiff diff).length ≤ slopeMaxBytes := by
  unfold uWriteDiff slopeMaxBytes
  split_ifs <;> simp

/-- The values of `prev` from which all differences are in reach. -/
def IsPrev (prev : Int) : Prop := -0xe00000 ≤ prev ∧ prev ≤ 0xe00000

def mergeKey (c : Nat) : Nat := if c = 0xfffe then 0 else c + 1

def ofMergeKey (k : Nat) : Nat := if k = 0 then 0xfffe else k - 1

def IsKey (k : Nat) : Prop := k ≤ 0x110000 ∧ k ≠ 0xffff

theorem ofMergeKey_mergeKey (c : Nat) : ofMergeKey (mergeKey c) = c := by
  unfold ofMergeKey mergeKey
  by_cases hc : c = 0xfffe
  · simp [hc]
  · simp [hc]

theorem isKey_mergeKey (hc : c ≤ 0x10ffff) : IsKey (mergeKey c) := by
  unfold IsKey mergeKey
  split <;> omega

theorem inReach_movePrev {prev : Int} (hprev : IsPrev prev) (hc : c ≤ 0x10ffff) :
    InReach (c - movePrev prev) := by
  unfold IsPrev at hprev
  unfold InReach movePrev
  rw [slopeReachNeg1_eq, slopeReachPos2_eq]
  split <;> omega

/-- The next code point, by its key. -/
def writeKey (prev : Int) (k : Nat) : Int × List UInt8 := writeCodePoint prev (ofMergeKey k)

theorem writeKey_ordered : Ordered writeKey IsPrev IsKey where
  next := by
    intro prev k hprev hk
    unfold IsKey at hk
    unfold writeKey writeCodePoint ofMergeKey IsPrev
    split_ifs <;> dsimp only <;> omega
  writes := by
    intro prev k hprev hk
    have hlength := uWriteDiff_length (ofMergeKey k - movePrev prev)
    unfold writeKey writeCodePoint
    split
    · simp
    · exact List.ne_nil_of_length_pos hlength.1
  diverges := by
    intro prev k k' hprev hk hk' hlt
    unfold IsKey at hk hk'
    have hmore : ofMergeKey k' ≠ 0xfffe ∧ ofMergeKey k' ≤ 0x10ffff := by
      unfold ofMergeKey
      split <;> omega
    unfold writeKey writeCodePoint
    rw [if_neg hmore.1]
    by_cases hzero : k = 0
    · obtain ⟨b, bs, hbytes⟩ := List.exists_cons_of_ne_nil (List.ne_nil_of_length_pos
        (uWriteDiff_length (ofMergeKey k' - movePrev prev)).1)
      have hge := uWriteDiff_ge (ofMergeKey k' - movePrev prev) b (by rw [hbytes]; simp)
      rw [hzero, if_pos (show ofMergeKey 0 = 0xfffe from rfl)]
      rw [hbytes]
      apply Diverges.head
      rw [UInt8.lt_iff_toNat_lt]
      exact hge
    · have hless : ofMergeKey k ≠ 0xfffe ∧ ofMergeKey k < ofMergeKey k' := by
        unfold ofMergeKey
        split_ifs <;> omega
      rw [if_neg hless.1]
      exact uWriteDiff_diverges (inReach_movePrev hprev (by omega))
        (inReach_movePrev hprev hmore.2) (by omega)

end Icu.Bocsu
