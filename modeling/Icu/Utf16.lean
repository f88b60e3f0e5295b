import Icu.Lib.Bits

/-! # UTF-16 code units

The macros of `utf16.h` on counted strings. A string is its list of 16-bit units, and
an offset past the end has no unit.
-/

namespace Icu.Utf16

open Lib

/-- The unit at an offset, as an integer. -/
def unitAt (s : List UInt16) (i : Nat) : Option Nat := s[i]?.map (·.toNat)

def u16IsLead (c : Nat) : Bool := c &&& 0xfffffc00 == 0xd800

def u16IsTrail (c : Nat) : Bool := c &&& 0xfffffc00 == 0xdc00

def uIsSurrogate (c : Nat) : Bool := c &&& 0xfffff800 == 0xd800

def u16SurrogateOffset : Nat := (0xd800 <<< 10) + 0xdc00 - 0x10000

def u16GetSupplementary (lead trail : Nat) : Nat := (lead <<< 10) + trail - u16SurrogateOffset

def u16Lead (supplementary : Nat) : UInt16 := UInt16.ofNat ((supplementary >>> 10) + 0xd7c0)

def u16Trail (supplementary : Nat) : UInt16 := UInt16.ofNat ((supplementary &&& 0x3ff) ||| 0xdc00)

def u16Length (c : Nat) : Nat := if c ≤ 0xffff then 1 else 2

/-- `U16_GET(s, 0, i, length, c)`: the code point that the unit belongs to. -/
def u16Get (s : List UInt16) (i length : Nat) : Option Nat := do
  let c ← unitAt s i
  if u16IsLead c then
    if i + 1 != length then
      let c2 ← unitAt s (i + 1)
      if u16IsTrail c2 then return u16GetSupplementary c c2
  else if u16IsTrail c then
    if i > 0 then
      let c2 ← unitAt s (i - 1)
      if u16IsLead c2 then return u16GetSupplementary c2 c
  return c

/-- `U16_NEXT(s, i, length, c)`: the code point and the offset behind it. -/
def u16Next (s : List UInt16) (i length : Nat) : Option (Nat × Nat) := do
  let c ← unitAt s i
  let i := i + 1
  if u16IsLead c && i != length then
    let c2 ← unitAt s i
    if u16IsTrail c2 then return (u16GetSupplementary c c2, i + 1)
  return (c, i)

/-- `U16_PREV(s, start, i, c)`: the code point before the offset and the offset of its
first unit. -/
def u16Prev (s : List UInt16) (start i : Nat) : Option (Nat × Nat) := do
  let i := i - 1
  let c ← unitAt s i
  if u16IsTrail c && i > start then
    let c2 ← unitAt s (i - 1)
    if u16IsLead c2 then return (u16GetSupplementary c2 c, i - 1)
  return (c, i)

/-- `U16_FWD_1(s, i, length)`. -/
def u16Fwd1 (s : List UInt16) (i length : Nat) : Nat :=
  match s[i]?, s[i + 1]? with
  | some c, some c2 =>
    if u16IsLead c.toNat && i + 1 != length && u16IsTrail c2.toNat then i + 2 else i + 1
  | _, _ => i + 1

/-- `U16_FWD_N(s, i, length, n)`. -/
def u16FwdN (s : List UInt16) (length : Nat) : Nat → Nat → Nat
  | i, 0 => i
  | i, n + 1 => if i < length then u16FwdN s length (u16Fwd1 s i length) n else i

theorem unitAt_eq_some {s : List UInt16} {i : Nat} (h : i < s.length) :
    ∃ c, unitAt s i = some c ∧ c < 0x10000 :=
  ⟨s[i].toNat, by simp [unitAt, h], s[i].toNat_lt⟩

theorem unitAt_lt {s : List UInt16} {i c : Nat} (h : unitAt s i = some c) : c < 0x10000 := by
  obtain ⟨u, -, rfl⟩ := Option.map_eq_some_iff.mp h
  exact u.toNat_lt

theorem u16IsLead_iff {c : Nat} (hc : c < 0x110000) :
    u16IsLead c = true ↔ 0xd800 ≤ c ∧ c ≤ 0xdbff := by
  rw [u16IsLead, Bits.and_high (n := 32) (k := 10) (by omega) (by decide) (by decide)]
  simp only [beq_iff_eq]
  omega

theorem u16IsTrail_iff {c : Nat} (hc : c < 0x110000) :
    u16IsTrail c = true ↔ 0xdc00 ≤ c ∧ c ≤ 0xdfff := by
  rw [u16IsTrail, Bits.and_high (n := 32) (k := 10) (by omega) (by decide) (by decide)]
  simp only [beq_iff_eq]
  omega

theorem uIsSurrogate_iff {c : Nat} (hc : c < 0x80000000) :
    uIsSurrogate c = true ↔ 0xd800 ≤ c ∧ c ≤ 0xdfff := by
  rw [uIsSurrogate, Bits.and_high (n := 32) (k := 11) (by omega) (by decide) (by decide)]
  simp only [beq_iff_eq]
  omega

theorem u16GetSupplementary_eq {lead trail : Nat} :
    u16GetSupplementary lead trail = lead * 1024 + trail - 56613888 := by
  simp [u16GetSupplementary, u16SurrogateOffset, Nat.shiftLeft_eq]

theorem u16GetSupplementary_bounds {lead trail : Nat} (hl : 0xd800 ≤ lead ∧ lead ≤ 0xdbff)
    (ht : 0xdc00 ≤ trail ∧ trail ≤ 0xdfff) :
    0x10000 ≤ u16GetSupplementary lead trail ∧ u16GetSupplementary lead trail ≤ 0x10ffff := by
  rw [u16GetSupplementary_eq]
  omega

section Read

variable {s : List UInt16} {i length c c2 : Nat}

/-- A unit that is not followed by the trail unit of a pair stands for itself. -/
theorem u16Next_unit (hc : unitAt s i = some c) (h : (0xd800 ≤ c ∧ c ≤ 0xdbff) → i + 1 ≠ length →
      ∃ c2, unitAt s (i + 1) = some c2 ∧ ¬ (0xdc00 ≤ c2 ∧ c2 ≤ 0xdfff)) :
    u16Next s i length = some (c, i + 1) := by
  have hlead := u16IsLead_iff (c := c) (by have := unitAt_lt hc; omega)
  simp only [u16Next, hc, Option.bind_eq_bind, Option.bind_some]
  by_cases hgo : (u16IsLead c && i + 1 != length) = true
  · rw [Bool.and_eq_true, bne_iff_ne] at hgo
    obtain ⟨c2, h2, hno⟩ := h (hlead.mp hgo.1) hgo.2
    have htrail := u16IsTrail_iff (c := c2) (by have := unitAt_lt h2; omega)
    have hnot : u16IsTrail c2 = false := by
      rw [← Bool.not_eq_true, htrail]
      exact hno
    simp [hgo.1, hgo.2, h2, hnot]
  · rw [if_neg hgo]
    rfl

theorem u16Next_pair (hc : unitAt s i = some c) (hl : 0xd800 ≤ c ∧ c ≤ 0xdbff)
    (hi : i + 1 ≠ length) (h2 : unitAt s (i + 1) = some c2) (ht : 0xdc00 ≤ c2 ∧ c2 ≤ 0xdfff) :
    u16Next s i length = some (u16GetSupplementary c c2, i + 2) := by
  have hlead := (u16IsLead_iff (c := c) (by omega)).mpr hl
  have htrail := (u16IsTrail_iff (c := c2) (by omega)).mpr ht
  simp [u16Next, hc, hlead, hi, h2, htrail]

theorem u16Prev_unit (hc : unitAt s (i - 1) = some c) (h : (0xdc00 ≤ c ∧ c ≤ 0xdfff) → 0 < i - 1 →
      ∃ c2, unitAt s (i - 1 - 1) = some c2 ∧ ¬ (0xd800 ≤ c2 ∧ c2 ≤ 0xdbff)) :
    u16Prev s 0 i = some (c, i - 1) := by
  have htrail := u16IsTrail_iff (c := c) (by have := unitAt_lt hc; omega)
  simp only [u16Prev, hc, Option.bind_eq_bind, Option.bind_some]
  by_cases hgo : (u16IsTrail c && decide (i - 1 > 0)) = true
  · rw [Bool.and_eq_true, decide_eq_true_eq] at hgo
    obtain ⟨c2, h2, hno⟩ := h (htrail.mp hgo.1) hgo.2
    have hlead := u16IsLead_iff (c := c2) (by have := unitAt_lt h2; omega)
    have hnot : u16IsLead c2 = false := by
      rw [← Bool.not_eq_true, hlead]
      exact hno
    simp [hgo.1, hgo.2, h2, hnot]
  · rw [if_neg hgo]
    rfl

theorem u16Prev_pair (hc : unitAt s (i - 1) = some c) (ht : 0xdc00 ≤ c ∧ c ≤ 0xdfff)
    (hi : 0 < i - 1) (h2 : unitAt s (i - 1 - 1) = some c2) (hl : 0xd800 ≤ c2 ∧ c2 ≤ 0xdbff) :
    u16Prev s 0 i = some (u16GetSupplementary c2 c, i - 1 - 1) := by
  have hlead := (u16IsLead_iff (c := c2) (by omega)).mpr hl
  have htrail := (u16IsTrail_iff (c := c) (by omega)).mpr ht
  simp [u16Prev, hc, hlead, hi, h2, htrail]

end Read

end Icu.Utf16
