import Icu.Lib.Bits
import Icu.Utf7.Model

/-! # The UTF-7 encoder as a transducer

The encoder reads one code unit at a time and keeps its mode, the number of units since the last
boundary of base64 bytes, and the bits that are left over. A call of `_UTF7FromUnicodeWithOffsets`
follows this transducer, wherever it runs out of room.
-/

namespace Icu.Utf7

open Lib Lib.Transducer

inductive EncoderState
  | direct
  | unicode (base64Counter bits : Nat)
  deriving DecidableEq

def leftOver (base64Counter bits : Nat) : List UInt8 :=
  if base64Counter ≠ 0 then [toBase64 bits] else []

def encodeBase64 (base64Counter bits c : Nat) : EncoderState × List UInt8 :=
  if base64Counter = 0 then
    (.unicode 1 ((c &&& 15) <<< 2), [toBase64 (c >>> 10), toBase64 (c >>> 4 &&& 0x3f)])
  else if base64Counter = 1 then
    (.unicode 2 ((c &&& 3) <<< 4),
      [toBase64 (bits ||| c >>> 14), toBase64 (c >>> 8 &&& 0x3f), toBase64 (c >>> 2 &&& 0x3f)])
  else
    (.unicode 0 0,
      [toBase64 (bits ||| c >>> 12), toBase64 (c >>> 6 &&& 0x3f), toBase64 (c &&& 0x3f)])

/-- The bytes between base64 and a character that is encoded directly. -/
def closing (base64Counter bits c : Nat) : List UInt8 :=
  leftOver base64Counter bits ++ if fromBase64 c ≠ -1 then [UInt8.ofNat minus] else []

def encodeCode (direct : Nat → Bool) (s : EncoderState) (c : Nat) : EncoderState × List UInt8 :=
  match s with
  | .direct =>
    if direct c then (.direct, [UInt8.ofNat c])
    else if c = plus then (.direct, [UInt8.ofNat plus, UInt8.ofNat minus])
    else ((encodeBase64 0 0 c).1, UInt8.ofNat plus :: (encodeBase64 0 0 c).2)
  | .unicode base64Counter bits =>
    if direct c then (.direct, closing base64Counter bits c ++ [UInt8.ofNat c])
    else encodeBase64 base64Counter bits c

/-- A unit, or the end of the text. -/
def encodeUnit (direct : Nat → Bool) (s : EncoderState) (u : Option UInt16) :
    Option (EncoderState × List UInt8) :=
  match u, s with
  | some u, s => some (encodeCode direct s u.toNat)
  | none, .direct => some (.direct, [])
  | none, .unicode base64Counter bits =>
    some (.direct, leftOver base64Counter bits ++ [UInt8.ofNat minus])

theorem leftOver_length_le (base64Counter bits : Nat) :
    (leftOver base64Counter bits).length ≤ 1 := by
  rw [leftOver]
  split
  · exact Nat.le_refl 1
  · exact Nat.zero_le 1

theorem encodeBase64_length_le (base64Counter bits c : Nat) :
    (encodeBase64 base64Counter bits c).2.length ≤ 3 := by
  rw [encodeBase64]
  split
  · exact Nat.le_succ 2
  split
  · exact Nat.le_refl 3
  · exact Nat.le_refl 3

theorem closing_length_le (base64Counter bits c : Nat) :
    (closing base64Counter bits c).length ≤ 2 := by
  have hleft := leftOver_length_le base64Counter bits
  rw [closing, List.length_append]
  split
  · rw [List.length_singleton]
    omega
  · rw [List.length_nil]
    omega

theorem encodeUnit_length_le {direct : Nat → Bool} {s : EncoderState} {u : Option UInt16}
    {r : EncoderState × List UInt8} (h : encodeUnit direct s u = some r) : r.2.length ≤ 3 := by
  cases u with
  | some u =>
    rw [encodeUnit, Option.some.injEq] at h
    subst h
    unfold encodeCode
    split
    · split
      · exact Nat.le_add_left 1 2
      split
      · exact Nat.le_succ 2
      · exact Nat.le_refl 3
    · next k b =>
      split
      · have hclosing := closing_length_le k b u.toNat
        rw [List.length_append, List.length_singleton]
        omega
      · exact encodeBase64_length_le k b u.toNat
  | none =>
    cases s with
    | direct =>
      cases h
      exact Nat.zero_le 3
    | unicode k b =>
      have hleft := leftOver_length_le k b
      rw [encodeUnit, Option.some.injEq] at h
      rw [← h, List.length_append, List.length_singleton]
      omega

section Modes

variable {direct : Nat → Bool} {base64Counter bits : Nat} {u : UInt16} {more : List (Option UInt16)}

theorem transduce_plus (hdirect : direct u.toNat = false) (hplus : u.toNat ≠ plus) :
    transduce (encodeUnit direct) .direct (some u :: more) =
      after [UInt8.ofNat plus]
        (transduce (encodeUnit direct) (.unicode 0 bits) (some u :: more)) := by
  have hfrom : encodeUnit direct .direct (some u) =
      some ((encodeBase64 0 0 u.toNat).1, UInt8.ofNat plus :: (encodeBase64 0 0 u.toNat).2) := by
    rw [encodeUnit, encodeCode, hdirect, if_neg Bool.false_ne_true, if_neg hplus]
  have hto : encodeUnit direct (.unicode 0 bits) (some u) =
      some ((encodeBase64 0 0 u.toNat).1, (encodeBase64 0 0 u.toNat).2) := by
    rw [encodeUnit, encodeCode, hdirect, if_neg Bool.false_ne_true]
    rfl
  rw [transduce_cons hfrom, transduce_cons hto, after_after]
  rfl

theorem transduce_closing (hdirect : direct u.toNat = true) :
    transduce (encodeUnit direct) (.unicode base64Counter bits) (some u :: more) =
      after (closing base64Counter bits u.toNat)
        (transduce (encodeUnit direct) .direct (some u :: more)) := by
  have hfrom : encodeUnit direct (.unicode base64Counter bits) (some u) =
      some (.direct, closing base64Counter bits u.toNat ++ [UInt8.ofNat u.toNat]) := by
    rw [encodeUnit, encodeCode, if_pos hdirect]
  have hto : encodeUnit direct .direct (some u) = some (.direct, [UInt8.ofNat u.toNat]) := by
    rw [encodeUnit, encodeCode, if_pos hdirect]
  rw [transduce_cons hfrom, transduce_cons hto, after_after]

end Modes

def directIn (version c : Nat) : Bool :=
  c ≤ 127 && (if version = 0 then encodeDirectlyMaximum else encodeDirectlyRestricted).getD c 0 != 0

def statusOf (version : Nat) (inDirectMode : Bool) (base64Counter bits : Nat) : Nat :=
  version * 2 ^ 28 + (flag inDirectMode * 2 ^ 24 + (base64Counter * 2 ^ 16 + bits))

theorem int8_eq {x : Nat} {k : Int} (hx : (x : Int) % 0x100 = k % 0x100) (hk : -0x80 ≤ k)
    (hk' : k < 0x80) : int8 x = k := by
  have h : ∀ m : Nat, m = 0x100 → (x : Int).bmod m = k := by
    intro m hm
    have hxm := Int.emod_bmod (x : Int) m
    have hkm := Int.emod_bmod k m
    have hcast : (m : Int) = 0x100 := by omega
    rw [hcast] at hxm hkm
    rw [← hxm, hx, hkm]
    apply Int.bmod_eq_of_le
    · omega
    · omega
  unfold int8
  exact h 0x100 rfl

theorem flag_le (b : Bool) : flag b ≤ 1 := by cases b <;> decide

section Status

variable {version base64Counter bits : Nat} {inDirectMode : Bool}

theorem statusOf_version (hcounter : base64Counter ≤ 2) (hbits : bits < 0x100) :
    statusOf version inDirectMode base64Counter bits / 2 ^ 28 = version := by
  have hflag := flag_le inDirectMode
  rw [statusOf]
  omega

theorem statusOf_inDirectMode (hcounter : base64Counter ≤ 2) (hbits : bits < 0x100) :
    (statusOf version inDirectMode base64Counter bits >>> 24 &&& 1 == 1) = inDirectMode := by
  have hdiv : statusOf version inDirectMode base64Counter bits >>> 24 =
    version * 2 ^ 4 + flag inDirectMode := by
    rw [Nat.shiftRight_eq_div_pow, statusOf]
    omega
  have hlow : (version * 2 ^ 4 + flag inDirectMode) &&& 1 = flag inDirectMode := by
    have hflag := flag_le inDirectMode
    rw [@Bits.and_low _ 1 1 (by decide)]
    omega
  rw [hdiv, hlow]
  cases inDirectMode <;> rfl

theorem statusOf_base64Counter (hcounter : base64Counter ≤ 2) (hbits : bits < 0x100) :
    int8 (statusOf version inDirectMode base64Counter bits >>> 16) = base64Counter := by
  have hdiv : statusOf version inDirectMode base64Counter bits >>> 16 =
      version * 2 ^ 12 + flag inDirectMode * 2 ^ 8 + base64Counter := by
    rw [Nat.shiftRight_eq_div_pow, statusOf]
    omega
  rw [hdiv]
  apply int8_eq
  · omega
  · omega
  · omega

theorem statusOf_bits (hbits : bits < 0x100) :
    statusOf version inDirectMode base64Counter bits % 0x100 = bits := by
  rw [statusOf]
  omega

theorem statusOf_eq {status : Nat} (hstatus : status < 0x100000000) (hv : status / 2 ^ 28 = version)
    (hcounter : base64Counter ≤ 2) (hbits : bits < 0x100) :
    status &&& 0xf0000000 ||| flag inDirectMode <<< 24 ||| base64Counter <<< 16 ||| bits =
      statusOf version inDirectMode base64Counter bits := by
  have hflag := flag_le inDirectMode
  rw [Bits.and_high (n := 32) (k := 28) (by omega) (by decide) (by decide), hv, Nat.or_assoc,
    Nat.or_assoc,
    @Bits.or_low base64Counter bits 16 (by omega), @Bits.or_low (flag inDirectMode) _ 24 (by omega),
    Bits.or_mul (by omega), statusOf]

theorem statusOf_reset {status : Nat} (hstatus : status < 0x100000000)
    (hv : status / 2 ^ 28 = version) :
    status &&& 0xf0000000 ||| 0x1000000 = statusOf version true 0 0 := by
  have h := @statusOf_eq version 0 0 true status hstatus hv (by decide) (by decide)
  rw [Nat.zero_shiftLeft, Nat.or_zero, Nat.or_zero] at h
  exact h

end Status

end Icu.Utf7
