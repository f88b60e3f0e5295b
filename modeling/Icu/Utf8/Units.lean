import Icu.Utf8.Model

/-! # Units of a byte string

A byte string falls into units: a lead byte with the trail bytes that belong to it, as far
as they are there, or any other single byte. Every unit has a value, which is a code point
or an error. Iteration in both directions yields the units.
-/

namespace Icu.Utf8

open Lib

theorem byteAt_eq_some {s : List UInt8} {i : Nat} (h : i < s.length) :
    ∃ b, byteAt s i = some b ∧ b < 0x100 :=
  ⟨s[i].toNat, by simp [byteAt, h], s[i].toNat_lt⟩

theorem byteAt_lt {s : List UInt8} {i b : Nat} (h : byteAt s i = some b) : b < 0x100 := by
  obtain ⟨u, -, rfl⟩ := Option.map_eq_some_iff.mp h
  exact u.toNat_lt

theorem lt_of_byteAt {s : List UInt8} {i b : Nat} (h : byteAt s i = some b) : i < s.length := by
  obtain ⟨u, hu, -⟩ := Option.map_eq_some_iff.mp h
  exact (List.getElem?_eq_some_iff.mp hu).1

theorem u8IsTrail_iff {b : Nat} (h : b < 0x100) : u8IsTrail b = true ↔ 0x80 ≤ b ∧ b < 0xc0 := by
  rw [u8IsTrail, @Bits.and_high b 6 8 0xc0 (by omega) (by decide) (by decide)]
  simp only [beq_iff_eq]
  omega

theorem u8IsLead_iff {b : Nat} (h : b < 0x100) : u8IsLead b = true ↔ 0xc0 ≤ b ∧ b < 0xfe := by
  rw [u8IsLead, decide_eq_true_eq]
  omega

theorem trailValue_le_iff {b : Nat} (h : b < 0x100) :
    trailValue b ≤ 0x3f ↔ 0x80 ≤ b ∧ b < 0xc0 := by
  unfold trailValue
  omega

theorem trailValue_eq {b : Nat} (h0 : 0x80 ≤ b) (h1 : b < 0xc0) : trailValue b = b - 0x80 := by
  unfold trailValue
  omega

theorem u8CountTrailBytes_le (b : Nat) : u8CountTrailBytes b ≤ 5 := by
  unfold u8CountTrailBytes
  split_ifs <;> omega

theorem u8CountTrailBytes_pos_iff {b : Nat} : 0 < u8CountTrailBytes b ↔ 0xc0 ≤ b ∧ b < 0xfe := by
  unfold u8CountTrailBytes
  split_ifs <;> omega

theorem u8CountTrailBytes_eq_zero {b : Nat} (h : b < 0xc0) : u8CountTrailBytes b = 0 := by
  have := @u8CountTrailBytes_pos_iff b
  omega

theorem u8MaskLeadByte_eq (b count : Nat) : u8MaskLeadByte b count = b % 2 ^ (6 - count) := by
  rw [u8MaskLeadByte, Nat.shiftLeft_eq, one_mul, Nat.and_two_pow_sub_one_eq_mod]

/-! ## Units -/

/-- There is a trail byte at the offset. -/
def TrailAt (s : List UInt8) (i : Nat) : Prop := ∃ b, byteAt s i = some b ∧ 0x80 ≤ b ∧ b < 0xc0

theorem TrailAt.lt {s : List UInt8} {i : Nat} (h : TrailAt s i) : i < s.length := by
  obtain ⟨b, hb, -⟩ := h
  exact lt_of_byteAt hb

theorem TrailAt.of_byteAt {s : List UInt8} {i b : Nat} (h : TrailAt s i)
    (hb : byteAt s i = some b) :
    0x80 ≤ b ∧ b < 0xc0 := by
  obtain ⟨b', hb', h0, h1⟩ := h
  rw [hb, Option.some.injEq] at hb'
  omega

/-- The bytes from `p` to before `e` are one unit. -/
structure IsUnit (s : List UInt8) (p e : Nat) : Prop where
  lt : p < e
  le : e ≤ s.length
  trails : ∀ i, p < i → i < e → TrailAt s i
  short : ∀ b, byteAt s p = some b → e ≤ p + 1 + u8CountTrailBytes b
  maximal : ∀ b, byteAt s p = some b → e < p + 1 + u8CountTrailBytes b → ¬ TrailAt s e

theorem skipTrails_spec {s : List UInt8} : ∀ (count i : Nat), i + count ≤ s.length →
    ∃ j, skipTrails s count i = some j ∧ i ≤ j ∧ j ≤ i + count ∧
      (∀ k, i ≤ k → k < j → TrailAt s k) ∧ (j < i + count → ¬ TrailAt s j) := by
  intro count
  induction count with
  | zero => exact fun i _ => ⟨i, rfl, by omega, by omega, by omega, by omega⟩
  | succ count ih =>
    intro i hi
    obtain ⟨b, hb, hlt⟩ := byteAt_eq_some (show i < s.length by omega)
    by_cases ht : u8IsTrail b = true
    · obtain ⟨j, hj, h0, h1, htr, hmax⟩ := ih (i + 1) (by omega)
      refine ⟨j, by simp [skipTrails, hb, ht, hj], by omega, by omega, fun k hk hkj => ?_, ?_⟩
      · by_cases hki : k = i
        · subst hki
          exact ⟨b, hb, (u8IsTrail_iff hlt).mp ht⟩
        · exact htr k (by omega) hkj
      · exact fun hj' => hmax (by omega)
    · refine ⟨i, by simp [skipTrails, hb, ht], by omega, by omega, by omega, fun _ htr => ?_⟩
      exact ht ((u8IsTrail_iff hlt).mpr (htr.of_byteAt hb))

theorem isUnit_of_skipTrails {s : List UInt8} {p b : Nat} (hb : byteAt s p = some b) :
    ∃ e, skipTrails s (min (u8CountTrailBytes b) (s.length - (p + 1))) (p + 1) = some e ∧
      IsUnit s p e := by
  have hp := lt_of_byteAt hb
  obtain ⟨e, he, h0, h1, htr, hmax⟩ := @skipTrails_spec s
    (min (u8CountTrailBytes b) (s.length - (p + 1))) (p + 1) (by omega)
  refine ⟨e, he, by omega, by omega, fun i hi hie => htr i (by omega) hie, ?_, ?_⟩
  · intro b' hb'
    rw [hb, Option.some.injEq] at hb'
    subst hb'
    omega
  intro b' hb' hlt htrail
  rw [hb, Option.some.injEq] at hb'
  subst hb'
  have := htrail.lt
  exact hmax (by omega) htrail

theorem exists_isUnit {s : List UInt8} {p : Nat} (hp : p < s.length) : ∃ e, IsUnit s p e := by
  obtain ⟨b, hb, -⟩ := byteAt_eq_some hp
  obtain ⟨e, -, he⟩ := isUnit_of_skipTrails hb
  exact ⟨e, he⟩

namespace IsUnit

variable {s : List UInt8} {p e e' : Nat}

theorem byteAt (h : IsUnit s p e) : ∃ b, byteAt s p = some b ∧ b < 0x100 :=
  byteAt_eq_some (Nat.lt_of_lt_of_le h.lt h.le)

theorem unique (h : IsUnit s p e) (h' : IsUnit s p e') : e = e' := by
  obtain ⟨b, hb, -⟩ := h.byteAt
  have hs := h.short b hb
  have hs' := h'.short b hb
  by_contra hne
  rcases Nat.lt_or_ge e e' with hlt | hge
  · exact h.maximal b hb (by omega) (h'.trails e h.lt hlt)
  · exact h'.maximal b hb (by omega) (h.trails e' h'.lt (by omega))

theorem lead (h : IsUnit s p e) (hlong : p + 1 < e) {b : Nat} (hb : Utf8.byteAt s p = some b) :
    0xc0 ≤ b ∧ b < 0xfe := by
  have := h.short b hb
  exact u8CountTrailBytes_pos_iff.mp (by omega)

end IsUnit

/-- The offset is not inside of a unit. -/
def Boundary (s : List UInt8) (p : Nat) : Prop := ∀ l e, IsUnit s l e → ¬ (l < p ∧ p < e)

theorem boundary_zero (s : List UInt8) : Boundary s 0 := fun _ _ _ h => by omega

theorem Boundary.next {s : List UInt8} {p e : Nat} (hp : Boundary s p) (h : IsUnit s p e) :
    Boundary s e := by
  rintro l e' h' ⟨hl, he⟩
  rcases Nat.lt_trichotomy l p with hlt | heq | hgt
  · exact hp l e' h' ⟨hlt, by have := h.lt; omega⟩
  · subst heq
    have := h.unique h'
    omega
  · -- A unit of several bytes starts with a lead byte, but the offset is one of a trail byte.
    obtain ⟨b, hb, -⟩ := h'.byteAt
    have hlead := h'.lead (by omega) hb
    have htrail := (h.trails l hgt hl).of_byteAt hb
    omega

theorem u8Fwd1_eq {s : List UInt8} {p e : Nat} (h : IsUnit s p e) :
    u8Fwd1 s p s.length = some e := by
  obtain ⟨b, hb, hlt⟩ := h.byteAt
  obtain ⟨e', he', hu⟩ := isUnit_of_skipTrails hb
  have := h.unique hu
  subst this
  have hp := lt_of_byteAt hb
  by_cases hl : u8IsLead b = true
  · have hcount : (if p + 1 + u8CountTrailBytes b > s.length then s.length - (p + 1)
        else u8CountTrailBytes b) = min (u8CountTrailBytes b) (s.length - (p + 1)) := by
      split <;> omega
    simp [u8Fwd1, hb, hl, hcount, he']
  have hz : ¬ 0 < u8CountTrailBytes b := by
    rw [u8CountTrailBytes_pos_iff, ← u8IsLead_iff hlt]
    exact hl
  have hs := h.short b hb
  have hpe := h.lt
  have : e = p + 1 := by omega
  simp [u8Fwd1, hb, hl, this]

/-- The value bits of a trail byte. -/
def payload (s : List UInt8) (i : Nat) : Nat :=
  match byteAt s i with
  | some b => b - 0x80
  | none => 0

/-- The value bits of the lead byte and of `count` trail bytes from offset `i` on. -/
def assemble (s : List UInt8) : Nat → Nat → Nat → Nat
  | c, 0, _ => c
  | c, count + 1, i => assemble s (c * 64 + payload s i) count (i + 1)

/-- In the range of the sequence length, and a Unicode scalar value. -/
def legal (count c : Nat) : Bool :=
  decide (utf8MinLegal count ≤ c ∧ c ≤ 0x10ffff ∧ ¬ (0xd800 ≤ c ∧ c < 0xe000))

/-- The code point of a unit, if it is well-formed. -/
def codePoint (s : List UInt8) (p e : Nat) : Option Nat :=
  (byteAt s p).bind fun b =>
    if b < 0x80 then some b
    else
      let count := u8CountTrailBytes b
      let c := assemble s (u8MaskLeadByte b count) count (p + 1)
      if 1 ≤ count ∧ count ≤ 3 ∧ e = p + 1 + count ∧ legal count c then some c else none

/-- The value that iteration reports for a unit. -/
def unitValue (strict : Int) (s : List UInt8) (p e : Nat) : Int :=
  match codePoint s p e with
  | some c => c
  | none => errorValue 0 strict

theorem errorValue_eq {strict : Int} (h : strict < 0) (count : Nat) :
    errorValue count strict = errorValue 0 strict := by
  have hno : ¬ strict ≥ 0 := by omega
  simp only [errorValue, if_neg hno]

theorem TrailAt.payload {s : List UInt8} {i : Nat} (h : TrailAt s i) :
    ∃ b, byteAt s i = some b ∧ 0x80 ≤ b ∧ b < 0xc0 ∧ payload s i = b - 0x80 := by
  obtain ⟨b, hb, h0, h1⟩ := h
  exact ⟨b, hb, h0, h1, by simp [Utf8.payload, hb]⟩

theorem assemble_eq (s : List UInt8) (c : Nat) : ∀ (count i : Nat),
    assemble s c count i = c * 64 ^ count + assemble s 0 count i := by
  intro count
  induction count generalizing c with
  | zero => simp [assemble]
  | succ count ih =>
    intro i
    rw [assemble, assemble, ih, ih (0 * 64 + payload s i)]
    ring

section Forward

variable {s : List UInt8} {strict : Int} {minLegal c i : Nat} {count : Nat}

theorem shift_or_payload (h : TrailAt s i) : ∃ b, byteAt s i = some b ∧ ¬ trailValue b > 0x3f ∧
      (c <<< 6) ||| trailValue b = c * 64 + payload s i := by
  obtain ⟨b, hb, h0, h1, hp⟩ := h.payload
  refine ⟨b, hb, ?_, ?_⟩
  · rw [trailValue_eq h0 h1]
    omega
  · rw [trailValue_eq h0 h1, hp]
    exact Bits.or_low (by omega)

theorem trailValue_of_not_trailAt (hi : i < s.length) (h : ¬ TrailAt s i) :
    ∃ b, byteAt s i = some b ∧ trailValue b > 0x3f := by
  obtain ⟨b, hb, hlt⟩ := byteAt_eq_some hi
  refine ⟨b, hb, ?_⟩
  by_contra hcon
  exact h ⟨b, hb, (trailValue_le_iff hlt).mp (by omega)⟩

theorem nextCase1_trail (hs : strict ≤ 0) (h : TrailAt s i) : nextCase1 s strict minLegal c i =
      some (if minLegal ≤ c * 64 + payload s i then some (c * 64 + payload s i, i + 1)
        else none) := by
  obtain ⟨b, hb, ht, hor⟩ := @shift_or_payload s c i h
  simp only [nextCase1, hb, Option.bind_eq_bind, Option.bind_some, hor, if_neg ht, hs, true_or,
    and_true, ge_iff_le]
  split <;> rfl

theorem nextCase1_other (hi : i < s.length) (h : ¬ TrailAt s i) :
    nextCase1 s strict minLegal c i = some none := by
  obtain ⟨b, hb, ht⟩ := trailValue_of_not_trailAt hi h
  simp [nextCase1, hb, ht]

theorem nextCase2_trail (hs : strict ≠ -2) (h : TrailAt s i) (hc : c * 64 + payload s i < 0x10000) :
    nextCase2 s strict minLegal c i =
      if (c * 64 + payload s i) / 32 = 0x1b then some none
      else nextCase1 s strict minLegal (c * 64 + payload s i) (i + 1) := by
  obtain ⟨b, hb, ht, hor⟩ := @shift_or_payload s c i h
  have hmask : (c * 64 + payload s i) &&& 0xffe0 = (c * 64 + payload s i) / 32 * 32 :=
    @Bits.and_high _ 5 16 0xffe0 (by omega) (by decide) (by decide)
  have hiff : ((c * 64 + payload s i) &&& 0xffe0 = 0x360 ∧ strict ≠ -2 ∨ trailValue b > 0x3f) ↔
      (c * 64 + payload s i) / 32 = 0x1b := by
    rw [hmask]
    simp only [ht, or_false]
    omega
  simp only [nextCase2, hb, Option.bind_eq_bind, Option.bind_some, hor, hiff]
  rfl

theorem nextCase2_other (hi : i < s.length) (h : ¬ TrailAt s i) :
    nextCase2 s strict minLegal c i = some none := by
  obtain ⟨b, hb, ht⟩ := trailValue_of_not_trailAt hi h
  simp [nextCase2, hb, ht]

theorem nextCase3_trail (h : TrailAt s i) : nextCase3 s strict minLegal c i =
      if c * 64 + payload s i ≥ 0x110 then some none
      else nextCase2 s strict minLegal (c * 64 + payload s i) (i + 1) := by
  obtain ⟨b, hb, ht, hor⟩ := @shift_or_payload s c i h
  simp only [nextCase3, hb, Option.bind_eq_bind, Option.bind_some, hor, ht, or_false]
  rfl

theorem nextCase3_other (hi : i < s.length) (h : ¬ TrailAt s i) :
    nextCase3 s strict minLegal c i = some none := by
  obtain ⟨b, hb, ht⟩ := trailValue_of_not_trailAt hi h
  simp [nextCase3, hb, ht]

theorem nextError_eq {p e b count : Nat} (h : IsUnit s p e) (hb : byteAt s p = some b)
    (hcount : count = min (u8CountTrailBytes b) (s.length - (p + 1))) (hs : strict < 0) :
    nextError s (p + 1) count strict = some (errorValue 0 strict, e) := by
  obtain ⟨e', he', hu⟩ := isUnit_of_skipTrails hb
  have := h.unique hu
  subst this
  rw [← hcount] at he'
  simp only [nextError, he', Option.bind_eq_bind, Option.bind_some, errorValue_eq hs]
  rfl

theorem nextSwitch_complete (h1 : 1 ≤ count) (h3 : count ≤ 3) (hs : strict < 0)
    (hs2 : strict ≠ -2) (hc : c < 2 ^ (6 - count)) (ht : ∀ j, i ≤ j → j < i + count → TrailAt s j) :
    nextSwitch s strict count c i =
      some (if legal count (assemble s c count i) then some (assemble s c count i, i + count)
        else none) := by
  have hpay : ∀ j, i ≤ j → j < i + count → payload s j < 64 := by
    intro j h0 hlt
    obtain ⟨b, -, hb0, hb1, hp⟩ := (ht j h0 hlt).payload
    omega
  have hstrict : strict ≤ 0 := by omega
  interval_cases count
  · have hp0 := hpay i (by omega) (by omega)
    rw [nextSwitch, nextCase1_trail hstrict (ht i (by omega) (by omega))]
    simp only [assemble, legal, utf8MinLegal, decide_eq_true_eq] at hc ⊢
    have hiff : (0x80 ≤ c * 64 + payload s i ∧ c * 64 + payload s i ≤ 0x10ffff ∧
        ¬ (0xd800 ≤ c * 64 + payload s i ∧ c * 64 + payload s i < 0xe000)) ↔
        0x80 ≤ c * 64 + payload s i := by omega
    simp only [hiff]
  · have hp0 := hpay i (by omega) (by omega)
    have hp1 := hpay (i + 1) (by omega) (by omega)
    rw [nextSwitch, nextCase2_trail hs2 (ht i (by omega) (by omega)) (by omega),
      nextCase1_trail hstrict (ht (i + 1) (by omega) (by omega))]
    simp only [assemble, legal, utf8MinLegal, decide_eq_true_eq] at hc ⊢
    generalize payload s i = x at *
    generalize payload s (i + 1) = y at *
    by_cases hsur : (c * 64 + x) / 32 = 0x1b
    · rw [if_pos hsur, if_neg (by omega)]
    rw [if_neg hsur]
    have hiff : (0x800 ≤ (c * 64 + x) * 64 + y ∧ (c * 64 + x) * 64 + y ≤ 0x10ffff ∧
        ¬ (0xd800 ≤ (c * 64 + x) * 64 + y ∧ (c * 64 + x) * 64 + y < 0xe000)) ↔
        0x800 ≤ (c * 64 + x) * 64 + y := by omega
    simp only [hiff]
  · have hp0 := hpay i (by omega) (by omega)
    have hp1 := hpay (i + 1) (by omega) (by omega)
    have hp2 := hpay (i + 1 + 1) (by omega) (by omega)
    rw [nextSwitch, nextCase3_trail (ht i (by omega) (by omega))]
    by_cases hbig : c * 64 + payload s i ≥ 0x110
    · rw [if_pos hbig]
      simp only [assemble, legal, utf8MinLegal, decide_eq_true_eq] at hc ⊢
      rw [if_neg (by omega)]
    rw [if_neg hbig, nextCase2_trail hs2 (ht (i + 1) (by omega) (by omega)) (by omega),
      nextCase1_trail hstrict (ht (i + 1 + 1) (by omega) (by omega))]
    simp only [assemble, legal, utf8MinLegal, decide_eq_true_eq] at hc ⊢
    generalize payload s i = x at *
    generalize payload s (i + 1) = y at *
    generalize payload s (i + 1 + 1) = z at *
    by_cases hsur : ((c * 64 + x) * 64 + y) / 32 = 0x1b
    · rw [if_pos hsur, if_neg (by omega)]
    rw [if_neg hsur]
    have hiff : (0x10000 ≤ ((c * 64 + x) * 64 + y) * 64 + z ∧
        ((c * 64 + x) * 64 + y) * 64 + z ≤ 0x10ffff ∧
        ¬ (0xd800 ≤ ((c * 64 + x) * 64 + y) * 64 + z ∧
          ((c * 64 + x) * 64 + y) * 64 + z < 0xe000)) ↔
        0x10000 ≤ ((c * 64 + x) * 64 + y) * 64 + z := by omega
    simp only [hiff]

/-- The `switch` on a sequence with a byte that is not a trail byte. -/
theorem nextSwitch_incomplete (hs2 : strict ≠ -2)
    (hc : c < 2 ^ (6 - count)) (hlen : i + count ≤ s.length) {j : Nat} (h0 : i ≤ j)
    (hj : j < i + count) (ht : ∀ k, i ≤ k → k < j → TrailAt s k) (hno : ¬ TrailAt s j) :
    nextSwitch s strict count c i = some none := by
  have hpay : ∀ k, i ≤ k → k < j → payload s k < 64 := by
    intro k h0 hlt
    obtain ⟨b, -, hb0, hb1, hp⟩ := (ht k h0 hlt).payload
    omega
  have case2 : ∀ (m c k : Nat), k ≤ j → j < k + 2 → i ≤ k → k + 2 ≤ s.length → c < 0x110 →
      nextCase2 s strict m c k = some none := by
    intro m c k hk hj' hik hl hc
    by_cases hkj : k = j
    · subst hkj
      exact nextCase2_other (by omega) hno
    have hp0 := hpay k hik (by omega)
    have hj1 : j = k + 1 := by omega
    subst hj1
    rw [nextCase2_trail hs2 (ht k hik (by omega)) (by omega), nextCase1_other (by omega) hno]
    split <;> rfl
  unfold nextSwitch
  split
  · have : j = i := by omega
    subst this
    exact nextCase1_other (by omega) hno
  · exact case2 _ c i h0 hj (Nat.le_refl _) hlen (by omega)
  · by_cases hij : i = j
    · subst hij
      exact nextCase3_other (by omega) hno
    rw [nextCase3_trail (ht i (Nat.le_refl _) (by omega))]
    split
    · rfl
    · exact case2 _ _ (i + 1) (by omega) (by omega) (by omega) (by omega) (by omega)
  · rfl

variable {p e b : Nat}

theorem codePoint_single (hb : byteAt s p = some b) (h : b < 0x80) : codePoint s p e = some b := by
  simp only [codePoint, hb, Option.bind_some, if_pos h]

theorem codePoint_multi (hb : byteAt s p = some b) (h : ¬ b < 0x80) : codePoint s p e =
      if 1 ≤ u8CountTrailBytes b ∧ u8CountTrailBytes b ≤ 3 ∧ e = p + 1 + u8CountTrailBytes b ∧
          legal (u8CountTrailBytes b) (assemble s (u8MaskLeadByte b (u8CountTrailBytes b))
            (u8CountTrailBytes b) (p + 1))
      then some (assemble s (u8MaskLeadByte b (u8CountTrailBytes b)) (u8CountTrailBytes b) (p + 1))
      else none := by
  simp only [codePoint, hb, Option.bind_some, if_neg h]

theorem u8MaskLeadByte_lt (b count : Nat) : u8MaskLeadByte b count < 2 ^ (6 - count) := by
  rw [u8MaskLeadByte_eq]
  exact Nat.mod_lt _ (Nat.two_pow_pos _)

theorem nextSwitch_eq (h : IsUnit s p e) (hb : byteAt s p = some b) (hb80 : ¬ b < 0x80)
    (hs : strict < 0) (hs2 : strict ≠ -2) (hlen : p + 1 + u8CountTrailBytes b ≤ s.length) :
    nextSwitch s strict (u8CountTrailBytes b) (u8MaskLeadByte b (u8CountTrailBytes b)) (p + 1) =
      some ((codePoint s p e).map fun c => (c, e)) := by
  have hshort := h.short b hb
  have hlt := h.lt
  rw [codePoint_multi hb hb80]
  by_cases he : e = p + 1 + u8CountTrailBytes b
  · by_cases hcount : 1 ≤ u8CountTrailBytes b ∧ u8CountTrailBytes b ≤ 3
    · rw [nextSwitch_complete hcount.1 hcount.2 hs hs2 (u8MaskLeadByte_lt b _)
        fun j h0 hj => h.trails j (by omega) (by omega)]
      simp only [hcount, he, true_and]
      split <;> rfl
    · rw [if_neg (fun hcon => hcount ⟨hcon.1, hcon.2.1⟩)]
      unfold nextSwitch
      split <;> first | omega | rfl
  · rw [if_neg (fun hcon => he hcon.2.2.1)]
    exact nextSwitch_incomplete hs2 (u8MaskLeadByte_lt b _) hlen (by omega) (by omega)
      (fun k h0 hk => h.trails k (by omega) hk) (h.maximal b hb (by omega))

theorem utf8NextCharSafeBody_eq (h : IsUnit s p e) (hb : byteAt s p = some b) (hb80 : ¬ b < 0x80)
    (hs : strict < 0) (hs2 : strict ≠ -2) :
    utf8NextCharSafeBody s (p + 1) s.length b strict = some (unitValue strict s p e, e) := by
  have hlt := h.lt
  have hle := h.le
  by_cases hlen : p + 1 + u8CountTrailBytes b ≤ s.length
  · have hsw := nextSwitch_eq h hb hb80 hs hs2 hlen
    have herr := @nextError_eq s strict p e b _ h hb (Nat.min_eq_left (by omega)).symm hs
    simp only [utf8NextCharSafeBody, if_pos hlen, hsw, Option.bind_eq_bind, Option.bind_some]
    unfold unitValue
    cases hcp : codePoint s p e with
    | some c => rfl
    | none => exact herr
  · have herr := @nextError_eq s strict p e b (s.length - (p + 1)) h hb
      (Nat.min_eq_right (by omega)).symm hs
    have hnone : codePoint s p e = none := by
      rw [codePoint_multi hb hb80, if_neg (fun hcon => by omega)]
    simp only [utf8NextCharSafeBody, if_neg hlen, herr, unitValue, hnone]

theorem nextInline3_eq (h : IsUnit s p e) (hb : byteAt s p = some b) :
    nextInline3 s (p + 1) s.length b = some none ∨
      nextInline3 s (p + 1) s.length b = some (some (unitValue strict s p e, e)) := by
  unfold nextInline3
  by_cases hcond : 0xe0 < b ∧ b ≤ 0xec ∧ p + 1 + 1 < s.length
  · have hcount : u8CountTrailBytes b = 2 := by
      unfold u8CountTrailBytes
      split_ifs <;> omega
    rw [if_pos hcond]
    by_cases h1 : TrailAt s (p + 1)
    · obtain ⟨b1, hb1, h10, h11, hp1⟩ := h1.payload
      have ht1 : trailValue b1 = b1 - 0x80 := trailValue_eq h10 h11
      by_cases h2 : TrailAt s (p + 1 + 1)
      · obtain ⟨b2, hb2, h20, h21, hp2⟩ := h2.payload
        have ht2 : trailValue b2 = b2 - 0x80 := trailValue_eq h20 h21
        right
        have he : e = p + 3 := by
          have hlt := h.lt
          have hshort := h.short b hb
          by_contra hne
          have hmax := h.maximal b hb (by omega)
          have : e = p + 1 ∨ e = p + 1 + 1 := by omega
          rcases this with rfl | rfl
          · exact hmax h1
          · exact hmax h2
        have hval : ((b <<< 12) ||| ((b1 - 0x80) <<< 6) ||| (b2 - 0x80)) % 0x10000 =
            assemble s (u8MaskLeadByte b 2) 2 (p + 1) := by
          have hor1 : (b <<< 12) ||| ((b1 - 0x80) <<< 6) = (b * 64 + (b1 - 0x80)) <<< 6 := by
            rw [Nat.shiftLeft_eq (b * 64 + (b1 - 0x80)), Nat.shiftLeft_eq (b1 - 0x80),
              @Bits.or_low b _ 12 (by omega)]
            ring
          rw [hor1, @Bits.or_low _ (b2 - 0x80) 6 (by omega), u8MaskLeadByte_eq]
          simp only [assemble, hp1, hp2]
          omega
        have hlegal : legal 2 (assemble s (u8MaskLeadByte b 2) 2 (p + 1)) = true := by
          rw [u8MaskLeadByte_eq]
          simp only [legal, utf8MinLegal, assemble, hp1, hp2, decide_eq_true_eq]
          omega
        have hcp : codePoint s p e = some (assemble s (u8MaskLeadByte b 2) 2 (p + 1)) := by
          rw [codePoint_multi hb (by omega), hcount, if_pos ⟨by omega, by omega, by omega, hlegal⟩]
        simp only [hb1, hb2, Option.bind_eq_bind, Option.bind_some, ht1, ht2, hval, unitValue, hcp]
        rw [if_pos (by omega), if_pos (by omega), he]
        rfl
      · left
        obtain ⟨b2, hb2, ht2⟩ := trailValue_of_not_trailAt (by omega) h2
        have hno : ¬ trailValue b2 ≤ 0x3f := by omega
        simp only [hb1, hb2, Option.bind_eq_bind, Option.bind_some, ht1, if_neg hno]
        rw [if_pos (by omega)]
        rfl
    · left
      obtain ⟨b1, hb1, ht1⟩ := trailValue_of_not_trailAt (by omega) h1
      have hno : ¬ trailValue b1 ≤ 0x3f := by omega
      simp only [hb1, Option.bind_eq_bind, Option.bind_some, if_neg hno]
      rfl
  · exact Or.inl (if_neg hcond)

theorem nextInline2_eq (h : IsUnit s p e) (hb : byteAt s p = some b) :
    nextInline2 s (p + 1) s.length b = some none ∨
      nextInline2 s (p + 1) s.length b = some (some (unitValue strict s p e, e)) := by
  have hlen := lt_of_byteAt hb
  unfold nextInline2
  by_cases hcond : b < 0xe0 ∧ b ≥ 0xc2 ∧ p + 1 ≠ s.length
  · have hcount : u8CountTrailBytes b = 1 := by
      unfold u8CountTrailBytes
      split_ifs <;> omega
    rw [if_pos hcond]
    by_cases h1 : TrailAt s (p + 1)
    · obtain ⟨b1, hb1, h10, h11, hp1⟩ := h1.payload
      have ht1 : trailValue b1 = b1 - 0x80 := trailValue_eq h10 h11
      right
      have he : e = p + 2 := by
        have hlt := h.lt
        have hshort := h.short b hb
        by_contra hne
        have hmax := h.maximal b hb (by omega)
        have : e = p + 1 := by omega
        subst this
        exact hmax h1
      have hval : ((b &&& 0x1f) <<< 6) ||| (b1 - 0x80) =
          assemble s (u8MaskLeadByte b 1) 1 (p + 1) := by
        rw [Bits.and_low b 5 0x1f (by decide), @Bits.or_low _ (b1 - 0x80) 6 (by omega),
          u8MaskLeadByte_eq]
        simp only [assemble, hp1]
        omega
      have hlegal : legal 1 (assemble s (u8MaskLeadByte b 1) 1 (p + 1)) = true := by
        rw [u8MaskLeadByte_eq]
        simp only [legal, utf8MinLegal, assemble, hp1, decide_eq_true_eq]
        omega
      have hcp : codePoint s p e = some (assemble s (u8MaskLeadByte b 1) 1 (p + 1)) := by
        rw [codePoint_multi hb (by omega), hcount, if_pos ⟨by omega, by omega, by omega, hlegal⟩]
      simp only [hb1, Option.bind_eq_bind, Option.bind_some, ht1, hval, unitValue, hcp]
      rw [if_pos (by omega), he]
      rfl
    · left
      obtain ⟨b1, hb1, ht1⟩ := trailValue_of_not_trailAt (by omega) h1
      have hno : ¬ trailValue b1 ≤ 0x3f := by omega
      simp only [hb1, Option.bind_eq_bind, Option.bind_some, if_neg hno]
      rfl
  · exact Or.inl (if_neg hcond)

theorem u8NextStrict_eq (h : IsUnit s p e) (hs : strict < 0) (hs2 : strict ≠ -2) :
    u8NextStrict strict s p s.length = some (unitValue strict s p e, e) := by
  obtain ⟨b, hb, hlt⟩ := h.byteAt
  by_cases hb80 : b < 0x80
  · have hz := u8CountTrailBytes_eq_zero (show b < 0xc0 by omega)
    have hshort := h.short b hb
    have hpe := h.lt
    have he : e = p + 1 := by omega
    have hno : ¬ b ≥ 0x80 := by omega
    simp [u8NextStrict, hb, hno, unitValue, codePoint_single hb hb80, he]
  have hbody := utf8NextCharSafeBody_eq h hb hb80 hs hs2
  simp only [u8NextStrict, hb, Option.bind_eq_bind, Option.bind_some, if_pos (Nat.not_lt.mp hb80)]
  rcases @nextInline3_eq s strict p e b h hb with h3 | h3
  · rw [h3, Option.bind_some]
    rcases @nextInline2_eq s strict p e b h hb with h2 | h2
    · rw [h2, Option.bind_some]
      exact hbody
    · rw [h2]
      rfl
  · rw [h3]
    rfl

end Forward

end Icu.Utf8
