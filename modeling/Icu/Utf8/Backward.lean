import Icu.Utf8.Units

/-! # Reading backward

From the end of a unit, the backward macros count trail bytes until they meet a lead byte
that can have so many of them. At a boundary this finds the unit that iterating forward
had found.
-/

namespace Icu.Utf8

open Lib Utf16

variable {s : List UInt8} {p e b i : Nat} {z count c : Nat}

theorem and_0x40_iff {b : Nat} (h : b < 0x100) (h0 : 0x80 ≤ b) : b &&& 0x40 ≠ 0 ↔ 0xc0 ≤ b := by
  have hbit : b &&& 0x40 = (b.testBit 6).toNat * 2 ^ 6 := Nat.and_two_pow b 6
  rw [hbit, Nat.testBit_eq_decide_div_mod_eq]
  by_cases hodd : b / 2 ^ 6 % 2 = 1
  · simp only [hodd, decide_true, Bool.toNat_true]
    omega
  · simp only [hodd, decide_false, Bool.toNat_false]
    omega

/-- A byte before a boundary that is a lead byte with enough trail bytes would include the
boundary. -/
theorem Boundary.count_lt (hp : Boundary s p) {l : Nat} (hl : l < p) (hb : byteAt s l = some b)
    (ht : ∀ j, l < j → j ≤ p → TrailAt s j) : u8CountTrailBytes b < p - l := by
  by_contra hcon
  obtain ⟨e, he⟩ := exists_isUnit (lt_of_byteAt hb)
  refine hp l e he ⟨hl, ?_⟩
  by_contra hle
  have hlt := he.lt
  exact he.maximal b hb (by omega) (ht e hlt (by omega))

theorem back1Loop_unit (h : IsUnit s p e) (hie : i < e) (hz : z ≤ p) :
    ∀ (fuel j : Nat), p ≤ j → j ≤ i → p < i → j - p < fuel →
      back1Loop s i z fuel j = some p := by
  obtain ⟨b, hb, hlt⟩ := h.byteAt
  intro fuel
  induction fuel with
  | zero => omega
  | succ fuel ih =>
    intro j hpj hji hpi hf
    by_cases hj : j = p
    · subst hj
      obtain ⟨h0, h1⟩ := h.lead (by omega) hb
      have hshort := h.short b hb
      have hr : 0x80 ≤ b ∧ b < 0xfe := by omega
      have hge : u8CountTrailBytes b ≥ i - j := by omega
      simp only [back1Loop, hb, Option.bind_eq_bind, Option.bind_some]
      rw [if_neg (fun hcon => hcon hr), if_pos h0, if_pos hge]
      rfl
    · obtain ⟨t, ht, h0, h1⟩ := h.trails j (by omega) (by omega)
      have hr : 0x80 ≤ t ∧ t < 0xfe := by omega
      have hno : ¬ t ≥ 0xc0 := by omega
      have hzj : z < j := by omega
      simp only [back1Loop, ht, Option.bind_eq_bind, Option.bind_some]
      rw [if_neg (fun hcon => hcon hr), if_neg hno, if_pos hzj]
      exact ih (j - 1) (by omega) (by omega) hpi (by omega)

theorem back1Loop_single (hp : Boundary s i) (hi : TrailAt s i) :
    ∀ (fuel j : Nat), j ≤ i → j - z < fuel → (∀ k, j < k → k ≤ i → TrailAt s k) →
      back1Loop s i z fuel j = some i := by
  intro fuel
  induction fuel with
  | zero => omega
  | succ fuel ih =>
    intro j hji hf ht
    have hlen := hi.lt
    obtain ⟨b, hb, hlt⟩ := byteAt_eq_some (show j < s.length by omega)
    simp only [back1Loop, hb, Option.bind_eq_bind, Option.bind_some]
    by_cases hr : 0x80 ≤ b ∧ b < 0xfe
    · rw [if_neg (fun hcon => hcon hr)]
      by_cases hlead : b ≥ 0xc0
      · have hne : j ≠ i := by
          rintro rfl
          have := hi.of_byteAt hb
          omega
        have hcount := hp.count_lt (show j < i by omega) hb ht
        rw [if_pos hlead, if_neg (by omega)]
        rfl
      rw [if_neg hlead]
      by_cases hz : z < j
      · rw [if_pos hz]
        refine ih (j - 1) (by omega) (by omega) fun k hk hki => ?_
        by_cases hkj : k = j
        · subst hkj
          exact ⟨b, hb, by omega⟩
        · exact ht k (by omega) hki
      · rw [if_neg hz]
        rfl
    · rw [if_pos hr]
      rfl

theorem u8SetCpStart_eq (hp : Boundary s p) (h : IsUnit s p e) (hpi : p ≤ i) (hie : i < e) :
    u8SetCpStart s 0 i = some p := by
  obtain ⟨b, hb, hlt⟩ := h.byteAt
  have hz : (if i > 0 + 5 then i - 5 else 0) ≤ p := by
    have := h.short b hb
    have := u8CountTrailBytes_le b
    split <;> omega
  by_cases hi : i = p
  · subst hi
    by_cases ht : u8IsTrail b = true
    · have htr : TrailAt s i := ⟨b, hb, (u8IsTrail_iff hlt).mp ht⟩
      simp only [u8SetCpStart, hb, Option.bind_eq_bind, Option.bind_some, if_pos ht,
        utf8Back1SafeBody]
      exact back1Loop_single hp htr 6 i (Nat.le_refl _) (by split <;> omega) (by omega)
    · simp [u8SetCpStart, hb, ht]
  · obtain ⟨t, ht, h0, h1⟩ := h.trails i (by omega) hie
    have htr : u8IsTrail t = true := (u8IsTrail_iff (by omega)).mpr ⟨h0, h1⟩
    have := h.short b hb
    have := u8CountTrailBytes_le b
    simp only [u8SetCpStart, ht, Option.bind_eq_bind, Option.bind_some, if_pos htr,
      utf8Back1SafeBody]
    exact back1Loop_unit h hie hz 6 i hpi (Nat.le_refl _) (by omega) (by omega)

theorem u8Back1_eq (hp : Boundary s p) (h : IsUnit s p e) : u8Back1 s 0 e = some p :=
  u8SetCpStart_eq hp h (Nat.le_sub_one_of_lt h.lt) (Nat.sub_one_lt_of_lt h.lt)

/-! ## Values -/

theorem pow_64 (count : Nat) : 64 ^ count = 2 ^ (6 * count) := by
  rw [pow_mul]
  rfl

theorem or_payload_shift (h : TrailAt s i) (hc : c < 64 ^ count) :
    ∃ b, byteAt s i = some b ∧ 0x80 ≤ b ∧ b < 0xc0 ∧
      c ||| ((b &&& 0x3f) <<< (6 * count)) = payload s i * 64 ^ count + c := by
  obtain ⟨b, hb, h0, h1, hp⟩ := h.payload
  refine ⟨b, hb, h0, h1, ?_⟩
  rw [pow_64] at hc ⊢
  have hlow : b &&& 0x3f = b - 0x80 := by
    rw [Bits.and_low b 6 0x3f (by decide)]
    omega
  rw [Nat.or_comm, Bits.or_low hc, hlow, hp]

theorem assemble_succ (s : List UInt8) (count i : Nat) :
    assemble s 0 (count + 1) i = payload s i * 64 ^ count + assemble s 0 count (i + 1) := by
  rw [assemble, assemble_eq]
  ring

theorem assemble_lt : ∀ (count i : Nat), (∀ j, i ≤ j → j < i + count → TrailAt s j) →
    assemble s 0 count i < 64 ^ count := by
  intro count
  induction count with
  | zero => simp [assemble]
  | succ count ih =>
    intro i h
    obtain ⟨b, -, h0, h1, hp⟩ := (h i (by omega) (by omega)).payload
    have hrest := ih (i + 1) fun j hj hlt => h j (by omega) (by omega)
    have hle : payload s i * 64 ^ count ≤ 63 * 64 ^ count :=
      Nat.mul_le_mul_right _ (by omega)
    rw [assemble_succ, pow_succ]
    omega

section Prev

variable {strict : Int} {n : Nat}

theorem not_legal_iff (hs : strict < 0) (hs2 : strict ≠ -2) (h : count < 4) :
    (count ≥ 4 ∨ c > 0x10ffff ∨ c < utf8MinLegal count ∨ (uIsSurrogate c ∧ strict ≠ -2) ∨
      (strict > 0 ∧ uIsUnicodeNonchar c)) ↔ ¬ legal count c = true := by
  have h4 : ¬ count ≥ 4 := by omega
  have hpos : ¬ strict > 0 := by omega
  simp only [h4, hpos, hs2, legal, decide_eq_true_eq, false_or, false_and, or_false, ne_eq,
    not_false_eq_true, and_true]
  by_cases hbig : c > 0x10ffff
  · simp only [hbig, true_or, true_iff]
    omega
  · rw [uIsSurrogate_iff (by omega)]
    omega

theorem prevLoop_lead (hs : strict < 0) (hs2 : strict ≠ -2) (h : IsUnit s p (p + 1 + n))
    (hn : 0 < n) (pos fuel : Nat) :
    prevLoop s 0 pos strict (fuel + 1) (p + 1) (assemble s 0 n (p + 1)) n (6 * n) =
      some (unitValue strict s p (p + 1 + n), p) := by
  obtain ⟨b, hb, hlt⟩ := h.byteAt
  obtain ⟨h0, h1⟩ := h.lead (by omega) hb
  have hshort := h.short b hb
  have hlow := assemble_lt n (p + 1) fun j hj hjlt => h.trails j (by omega) hjlt
  have hcomb : assemble s 0 n (p + 1) ||| (u8MaskLeadByte b n <<< (6 * n)) =
      assemble s (u8MaskLeadByte b n) n (p + 1) := by
    rw [assemble_eq s (u8MaskLeadByte b n), pow_64]
    rw [pow_64] at hlow
    rw [Nat.or_comm, Bits.or_low hlow]
  simp only [prevLoop, if_neg (show ¬ p + 1 ≤ 0 by omega), Nat.add_sub_cancel, hb,
    if_pos (show 0x80 ≤ b ∧ b < 0xfe by omega), if_pos ((and_0x40_iff hlt (by omega)).mpr h0),
      hcomb]
  have hcp := @codePoint_multi s p (p + 1 + n) b hb (by omega)
  by_cases hcomplete : n = u8CountTrailBytes b
  · rw [if_pos hcomplete, errorValue_eq hs]
    rw [← hcomplete] at hcp
    by_cases h4 : n < 4
    · simp only [not_legal_iff hs hs2 h4]
      by_cases hlegal : legal n (assemble s (u8MaskLeadByte b n) n (p + 1)) = true
      · rw [if_neg (fun hno => hno hlegal), unitValue, hcp,
          if_pos ⟨hn, by omega, rfl, hlegal⟩]
      · rw [if_pos hlegal, unitValue, hcp, if_neg (fun hcon => hlegal hcon.2.2.2)]
    · rw [if_pos (Or.inl (by omega)), unitValue, hcp, if_neg (fun hcon => h4 (by omega))]
  · rw [if_neg hcomplete, if_pos (by omega), unitValue, hcp,
      if_neg (fun hcon => hcomplete (by omega)), errorValue_eq hs]

/-- From the end of a unit of several bytes, the loop finds its lead byte and its value. -/
theorem prevLoop_unit (hs : strict < 0) (hs2 : strict ≠ -2) (h : IsUnit s p (p + 1 + n))
    (hn : 0 < n) (pos : Nat) : ∀ (k fuel count : Nat), count + k = n → 0 < count → k < fuel →
      prevLoop s 0 pos strict fuel (p + 1 + k) (assemble s 0 count (p + 1 + k)) count (6 * count) =
        some (unitValue strict s p (p + 1 + n), p) := by
  obtain ⟨b, hb, hlt⟩ := h.byteAt
  have hshort := h.short b hb
  have hcount := u8CountTrailBytes_le b
  intro k
  induction k with
  | zero =>
    intro fuel count hk hpos hf
    obtain ⟨fuel, rfl⟩ := Nat.exists_eq_add_of_lt hf
    have : count = n := by omega
    subst this
    rw [Nat.zero_add]
    exact prevLoop_lead hs hs2 h hn pos fuel
  | succ k ih =>
    intro fuel count hk hpos hf
    obtain ⟨fuel, rfl⟩ : ∃ m, fuel = m + 1 := ⟨fuel - 1, by omega⟩
    have hlow := assemble_lt count (p + 1 + (k + 1)) fun j hj hjlt =>
      h.trails j (by omega) (by omega)
    obtain ⟨t, ht, ht0, ht1, hor⟩ :=
      or_payload_shift (h.trails (p + 1 + k) (by omega) (by omega)) hlow
    have hno : ¬ (t &&& 0x40 ≠ 0) := by
      rw [and_0x40_iff (by omega) ht0]
      omega
    have hidx : p + 1 + (k + 1) - 1 = p + 1 + k := by omega
    simp only [prevLoop, if_neg (show ¬ p + 1 + (k + 1) ≤ 0 by omega), hidx, ht,
      if_pos (show 0x80 ≤ t ∧ t < 0xfe by omega), if_neg hno, if_pos (show count < 5 by omega),
      hor]
    have hasm : payload s (p + 1 + k) * 64 ^ count + assemble s 0 count (p + 1 + (k + 1)) =
        assemble s 0 (count + 1) (p + 1 + k) := (assemble_succ s count (p + 1 + k)).symm
    rw [hasm, show 6 * count + 6 = 6 * (count + 1) by omega]
    exact ih fuel (count + 1) (by omega) (by omega) (by omega)

theorem prevLoop_single (hp : Boundary s p) : ∀ (fuel count c : Nat),
    5 < count + fuel → 1 ≤ count → count ≤ 5 → count ≤ p + 1 →
    (∀ j, p + 1 - count ≤ j → j ≤ p → TrailAt s j) →
      prevLoop s 0 p strict fuel (p + 1 - count) c count (6 * count) =
        some (errorValue 0 strict, p) := by
  intro fuel
  induction fuel with
  | zero => omega
  | succ fuel ih =>
    intro count c hf h1 h5 hcp ht
    by_cases hstart : p + 1 - count ≤ 0
    · simp only [prevLoop, if_pos hstart]
    have hlen := (ht p (by omega) (Nat.le_refl _)).lt
    obtain ⟨b, hb, hlt⟩ := byteAt_eq_some (show p + 1 - count - 1 < s.length by omega)
    simp only [prevLoop, if_neg hstart, hb]
    by_cases hr : 0x80 ≤ b ∧ b < 0xfe
    · rw [if_pos hr]
      by_cases hlead : b &&& 0x40 ≠ 0
      · have hcount := hp.count_lt (show p + 1 - count - 1 < p by omega) hb
          fun j hj hjp => ht j (by omega) hjp
        rw [if_pos hlead, if_neg (by omega), if_neg (by omega)]
      rw [if_neg hlead]
      rw [and_0x40_iff hlt hr.1] at hlead
      by_cases h5' : count < 5
      · rw [if_pos h5', show p + 1 - count - 1 = p + 1 - (count + 1) by omega,
          show 6 * count + 6 = 6 * (count + 1) by omega]
        refine ih (count + 1) _ (by omega) (by omega) (by omega) (by omega) fun j hj hjp => ?_
        by_cases hje : j = p + 1 - count - 1
        · subst hje
          exact ⟨b, hb, by omega⟩
        · exact ht j (by omega) hjp
      · rw [if_neg h5']
    · rw [if_neg hr]

theorem u8PrevStrict_eq (hp : Boundary s p) (h : IsUnit s p e) (hs : strict < 0)
    (hs2 : strict ≠ -2) : u8PrevStrict strict s 0 e = some (unitValue strict s p e, p) := by
  obtain ⟨b, hb, hlt⟩ := h.byteAt
  have hshort := h.short b hb
  obtain ⟨n, hn⟩ : ∃ n, e = p + 1 + n := ⟨e - (p + 1), by have := h.lt; omega⟩
  subst hn
  by_cases hone : n = 0
  · subst hone
    have hlast : p + 1 + 0 - 1 = p := by omega
    simp only [u8PrevStrict, hlast, hb, Option.bind_eq_bind, Option.bind_some]
    by_cases hb80 : b < 0x80
    · rw [if_neg (by omega), unitValue, codePoint_single hb hb80]
      rfl
    have hnone : codePoint s p (p + 1 + 0) = none := by
      rw [codePoint_multi hb hb80, if_neg (fun hcon => by omega)]
    rw [if_pos (by omega), unitValue, hnone, utf8PrevCharSafeBody]
    by_cases ht : u8IsTrail b = true
    · have htr : TrailAt s p := ⟨b, hb, (u8IsTrail_iff hlt).mp ht⟩
      rw [if_neg (by simp [ht])]
      exact prevLoop_single hp 6 1 _ (by omega) (by omega) (by omega) (by omega)
        fun j hj hjp => by
          have : j = p := by omega
          subst this
          exact htr
    · rw [if_pos (by simp [ht])]
  · obtain ⟨t, ht, ht0, ht1, hpay⟩ := (h.trails (p + n) (by omega) (by omega)).payload
    have hlast : p + 1 + n - 1 = p + n := by omega
    have htr : u8IsTrail t = true := (u8IsTrail_iff (by omega)).mpr ⟨ht0, ht1⟩
    have hlow : t &&& 0x3f = assemble s 0 1 (p + 1 + (n - 1)) := by
      rw [Bits.and_low t 6 0x3f (by decide), show p + 1 + (n - 1) = p + n by omega]
      simp only [assemble, hpay]
      omega
    have hcount := u8CountTrailBytes_le b
    simp only [u8PrevStrict, hlast, ht, Option.bind_eq_bind, Option.bind_some, if_pos ht0,
      utf8PrevCharSafeBody, htr, hlow]
    have hloop := prevLoop_unit hs hs2 h (by omega) (p + n) (n - 1) 6 1 (by omega) (by omega)
      (by omega)
    rw [show p + 1 + (n - 1) = p + n by omega] at hloop ⊢
    exact hloop

end Prev

end Icu.Utf8
