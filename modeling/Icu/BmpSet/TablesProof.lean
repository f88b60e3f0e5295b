import Icu.BmpSet.Model

/-! # What the tables of a frozen set hold

`set32x64Bits` fills exactly a rectangle of bits. With that, each of the three loops of
`initBits` is a walk over the ranges of the list: the part of the code space that the
loop is responsible for goes into its table, and the rest of the list is handed on.
-/

namespace Icu.BMPSet

open UnicodeSet Lib Lib.InversionList

variable {k i limit start index c : Nat} {rest list : List Int}

/-! ## Bits -/

def bitAt (table : Nat → BitVec 32) (index : Nat) : Bool :=
  (table (index % 64)).getLsbD (index / 64)

theorem getLsbD_lowMask (hk : k < 32) (i : Nat) :
    ((1#32 <<< k) - 1#32).getLsbD i = decide (i < k) := by
  have hpow : 2 ^ k < 2 ^ 32 := Nat.pow_lt_pow_right (by decide) hk
  have hone : 1 ≤ 2 ^ k := Nat.one_le_two_pow
  have hshift : (1#32 <<< k).toNat = 2 ^ k := by
    rw [BitVec.toNat_shiftLeft, BitVec.toNat_ofNat, Nat.one_mod_two_pow (by decide),
      Nat.shiftLeft_eq, one_mul, Nat.mod_eq_of_lt hpow]
  have hnat : ((1#32 <<< k) - 1#32).toNat = 2 ^ k - 1 := by
    rw [BitVec.toNat_sub_of_le, hshift]
    · rfl
    rw [BitVec.le_def, hshift]
    exact hone
  rw [BitVec.getLsbD, hnat, Nat.testBit_two_pow_sub_one]

theorem getLsbD_one_shiftLeft (hi : i < 32) : (1#32 <<< k).getLsbD i = decide (i = k) := by
  rw [← BitVec.twoPow_eq, BitVec.getLsbD_twoPow]
  by_cases h : i = k
  · subst h
    simp [hi]
  · simp [h, Ne.symm h]

theorem orAt_apply (table : Nat → BitVec 32) (trail t : Nat) (bits : BitVec 32) :
    orAt table trail bits t = if t = trail then table t ||| bits else table t := by
  by_cases h : t = trail
  · subst h
    simp [orAt]
  · simp [orAt, h]

theorem orRange_apply (bits : BitVec 32) (count start : Nat) (table : Nat → BitVec 32) (t : Nat) :
    orRange bits count start table t =
      if start ≤ t ∧ t < start + count then table t ||| bits else table t := by
  induction count generalizing start table with
  | zero => simp [orRange]
  | succ count ih =>
    rw [orRange, ih, orAt_apply]
    by_cases h : t = start
    · simp [h]
    by_cases h' : start ≤ t ∧ t < start + (count + 1)
    · rw [if_pos h', if_pos (by omega), if_neg h]
    · rw [if_neg h', if_neg (by omega), if_neg h]

theorem getLsbD_orRange (bits : BitVec 32) (count start : Nat) (table : Nat → BitVec 32)
    (t i : Nat) : (orRange bits count start table t).getLsbD i =
      ((table t).getLsbD i || (decide (start ≤ t ∧ t < start + count) && bits.getLsbD i)) := by
  rw [orRange_apply]
  split
  case isTrue h => simp [h]
  case isFalse h => simp [h]

theorem getLsbD_orAt (table : Nat → BitVec 32) (trail t i : Nat) (bits : BitVec 32) :
    (orAt table trail bits t).getLsbD i =
      ((table t).getLsbD i || (decide (t = trail) && bits.getLsbD i)) := by
  rw [orAt_apply]
  split
  case isTrue h => simp [h]
  case isFalse h => simp [h]

theorem getLsbD_columns {lead limitLead : Nat} (hlead : lead < 32) (hi : i < 32) :
    (if limitLead < 0x20 then ~~~((1#32 <<< lead) - 1#32) &&& ((1#32 <<< limitLead) - 1#32)
      else ~~~((1#32 <<< lead) - 1#32)).getLsbD i = decide (lead ≤ i ∧ i < limitLead) := by
  split
  case isTrue h =>
    rw [BitVec.getLsbD_and, BitVec.getLsbD_not, getLsbD_lowMask hlead, getLsbD_lowMask h,
      Bool.eq_iff_iff]
    simp only [hi, decide_true, Bool.true_and, Bool.and_eq_true, Bool.not_eq_true',
      decide_eq_false_iff_not, decide_eq_true_eq]
    omega
  case isFalse h =>
    rw [BitVec.getLsbD_not, getLsbD_lowMask hlead, Bool.eq_iff_iff]
    simp only [hi, decide_true, Bool.true_and, Bool.not_eq_true', decide_eq_false_iff_not,
      decide_eq_true_eq]
    omega

/-- The rectangle: exactly the bits from `start` on and below `limit` are set. -/
theorem bitAt_set32x64Bits (table : Nat → BitVec 32) (h : start < limit)
    (hl : limit ≤ 0x800) (hi : index < 0x800) : bitAt (set32x64Bits table start limit) index =
      (bitAt table index || decide (start ≤ index ∧ index < limit)) := by
  have hi32 : index / 64 < 32 := by omega
  have hdiv : ∀ x : Nat, x >>> 6 = x / 64 := fun x => Nat.shiftRight_eq_div_pow x 6
  have hmod : ∀ x : Nat, x &&& 0x3f = x % 64 := fun x => Bits.and_low x 6 0x3f (by decide)
  simp only [set32x64Bits, hdiv, hmod, bitAt]
  by_cases hone : start + 1 = limit
  · rw [if_pos hone, getLsbD_orAt, getLsbD_one_shiftLeft hi32, Bool.eq_iff_iff]
    simp only [Bool.or_eq_true, Bool.and_eq_true, decide_eq_true_eq]
    refine or_congr Iff.rfl ?_
    omega
  rw [if_neg hone]
  by_cases hcol : start / 64 = limit / 64
  · rw [if_pos hcol, getLsbD_orRange, getLsbD_one_shiftLeft hi32, Bool.eq_iff_iff]
    simp only [Bool.or_eq_true, Bool.and_eq_true, decide_eq_true_eq]
    refine or_congr Iff.rfl ?_
    omega
  rw [if_neg hcol, getLsbD_orRange, getLsbD_one_shiftLeft hi32]
  -- The first column, if it is partial, and the first full column.
  obtain ⟨table₁, lead₁, ht₁, hl₁, hle, hb₁⟩ : ∃ table₁ lead₁,
      (if start % 64 > 0 then orRange (1#32 <<< (start / 64)) (64 - start % 64) (start % 64) table
        else table) = table₁ ∧
      (if start % 64 > 0 then start / 64 + 1 else start / 64) = lead₁ ∧
      (start ≤ lead₁ * 64 ∧ lead₁ * 64 < start + 64) ∧
      (table₁ (index % 64)).getLsbD (index / 64) = ((table (index % 64)).getLsbD (index / 64) ||
        decide (start ≤ index ∧ index < lead₁ * 64)) := by
    by_cases htr : start % 64 > 0
    · refine ⟨_, _, if_pos htr, if_pos htr, by omega, ?_⟩
      rw [getLsbD_orRange, getLsbD_one_shiftLeft hi32, Bool.eq_iff_iff]
      simp only [Bool.or_eq_true, Bool.and_eq_true, decide_eq_true_eq]
      refine or_congr Iff.rfl ?_
      omega
    · refine ⟨_, _, if_neg htr, if_neg htr, by omega, ?_⟩
      have hno : ¬ (start ≤ index ∧ index < start / 64 * 64) := by omega
      rw [decide_eq_false hno, Bool.or_false]
  rw [ht₁, hl₁]
  -- The rectangle.
  have hb₂ : ((if lead₁ < limit / 64 then
      orRange (if limit / 64 < 0x20 then
        ~~~((1#32 <<< lead₁) - 1#32) &&& ((1#32 <<< (limit / 64)) - 1#32)
        else ~~~((1#32 <<< lead₁) - 1#32)) 64 0 table₁ else table₁) (index % 64)).getLsbD
        (index / 64) = ((table₁ (index % 64)).getLsbD (index / 64) ||
      decide (lead₁ * 64 ≤ index ∧ index < limit / 64 * 64)) := by
    by_cases hrect : lead₁ < limit / 64
    · rw [if_pos hrect, getLsbD_orRange, getLsbD_columns (by omega) hi32, Bool.eq_iff_iff]
      simp only [Bool.or_eq_true, Bool.and_eq_true, decide_eq_true_eq]
      refine or_congr Iff.rfl ?_
      omega
    · have hno : ¬ (lead₁ * 64 ≤ index ∧ index < limit / 64 * 64) := by omega
      rw [if_neg hrect, decide_eq_false hno, Bool.or_false]
  rw [hb₂, hb₁, Bool.or_assoc, Bool.or_assoc, Bool.eq_iff_iff]
  simp only [Bool.or_eq_true, Bool.and_eq_true, decide_eq_true_eq]
  refine or_congr Iff.rfl ?_
  split <;> omega

structure RangeState (start limit : Nat) (rest : List Int) : Prop where
  le : start ≤ limit
  limit_le : limit ≤ 0x110000
  nonempty : start < 0x110000 → start < limit
  next : limit < 0x110000 → IsInversionList rest
  after : ∀ x ∈ rest, (limit : Int) < x

def remaining (start limit : Nat) (rest : List Int) (c : Nat) : Bool :=
  decide (start ≤ c ∧ c < limit) || covers rest c

theorem RangeState.covers_rest
    (h : RangeState start limit rest) (hc : c ≤ limit) : covers rest c = false := by
  refine covers_of_forall_lt fun x hx => ?_
  have := h.after x hx
  omega

theorem RangeState.remaining_below (h : RangeState start limit rest) (hc : c < start) :
    remaining start limit rest c = false := by
  have hno : ¬ (start ≤ c ∧ c < limit) := by omega
  have hle := h.le
  rw [remaining, decide_eq_false hno, h.covers_rest (by omega), Bool.or_false]

theorem nextRange_spec (hl : IsInversionList list) :
    ∃ start limit rest, nextRange list = some (start, limit, rest) ∧
      RangeState start limit rest ∧ rest.length < list.length ∧
      ∀ c : Nat, c < 0x110000 → covers list c = remaining start limit rest c := by
  have hhigh : unicodesetHigh = 0x110000 := rfl
  match list, hl with
  | [], hl => exact absurd rfl hl.ne_nil
  | [start], hl =>
    have hs : start = unicodesetHigh := by simpa using hl.terminated
    subst hs
    refine ⟨0x110000, 0x110000, [], rfl, ⟨by omega, by omega, by omega, by omega, by simp⟩,
      by simp, fun c hc => ?_⟩
    have hlt : (c : Int) < unicodesetHigh := by omega
    have hno : ¬ (0x110000 ≤ c ∧ c < 0x110000) := by omega
    rw [remaining, decide_eq_false hno, covers_of_forall_lt (by simpa using hlt)]
    rfl
  | start :: limit :: rest, hl =>
    have h0 := hl.nonneg start (by simp)
    have hlow : unicodesetLow = 0 := rfl
    have hlim := hl.le_high (show limit ∈ start :: limit :: rest by simp)
    obtain ⟨hs, hp⟩ := List.pairwise_cons.mp hl.increasing
    obtain ⟨hlr, hr⟩ := List.pairwise_cons.mp hp
    have hsl := hs limit (by simp)
    refine ⟨start.toNat, limit.toNat, rest, rfl, ⟨by omega, by omega, by omega, ?_, ?_⟩,
      by simp only [List.length_cons]; omega, fun c hc => ?_⟩
    · intro hlt
      refine ⟨hr, fun x hx => hl.nonneg x (by simp [hx]), ?_⟩
      have hlast := hl.terminated
      cases rest with
      | nil =>
        have : limit = unicodesetHigh := by simpa using hlast
        omega
      | cons y ys => simpa using hlast
    · intro x hx
      have := hlr x hx
      omega
    · rw [covers_pair (Int.le_of_lt hsl) (fun z hz => Int.le_of_lt (hlr z hz)), remaining]
      congr 1
      rw [decide_eq_decide]
      omega

theorem fillAscii_spec : ∀ (fuel start : Nat) (bytes : Nat → Bool),
    start < limit → start < 0x80 → 0x80 - start ≤ fuel →
    (fillAscii limit fuel start bytes).2 = min limit 0x80 ∧
      ∀ c, (fillAscii limit fuel start bytes).1 c =
        (bytes c || decide (start ≤ c ∧ c < min limit 0x80)) := by
  intro fuel
  induction fuel with
  | zero => omega
  | succ fuel ih =>
    intro start bytes h h' hf
    have hupd : ∀ c, Function.update bytes start true c = (bytes c || decide (c = start)) := by
      intro c
      by_cases hc : c = start
      · subst hc
        simp
      · simp [hc]
    simp only [fillAscii]
    by_cases hgo : start + 1 < limit ∧ start + 1 < 0x80
    · obtain ⟨h2, h1⟩ := ih (start + 1) (Function.update bytes start true) hgo.1 hgo.2 (by omega)
      rw [if_pos hgo]
      refine ⟨h2, fun c => ?_⟩
      rw [h1 c, hupd c, Bool.or_assoc, Bool.eq_iff_iff]
      simp only [Bool.or_eq_true, decide_eq_true_eq]
      refine or_congr Iff.rfl ?_
      omega
    · rw [if_neg hgo]
      refine ⟨by simp only; omega, fun c => ?_⟩
      simp only [hupd c]
      congr 1
      rw [decide_eq_decide]
      omega

theorem initAscii_spec : ∀ (fuel : Nat) (list : List Int) (bytes : Nat → Bool),
    IsInversionList list → list.length < fuel →
    ∃ bytes' start limit rest, initAscii fuel list bytes = some (bytes', start, limit, rest) ∧
      RangeState start limit rest ∧ 0x80 ≤ start ∧ rest.length < list.length ∧
      (∀ c, bytes' c = (bytes c || (decide (c < 0x80) && covers list c))) ∧
      ∀ c : Nat, 0x80 ≤ c → c < 0x110000 → covers list c = remaining start limit rest c := by
  intro fuel
  induction fuel with
  | zero => omega
  | succ fuel ih =>
    intro list bytes hl hf
    obtain ⟨start, limit, rest, hnext, hst, hlen, hcov⟩ := nextRange_spec hl
    simp only [initAscii, hnext]
    by_cases hstart : start ≥ 0x80
    · refine ⟨bytes, start, limit, rest, by rw [if_pos hstart], hst, hstart, hlen, fun c => ?_,
        fun c _ hc => hcov c hc⟩
      by_cases hc : c < 0x80
      · rw [hcov c (by omega), hst.remaining_below (by omega), Bool.and_false, Bool.or_false]
      · simp [hc]
    rw [if_neg hstart]
    have hsl := hst.nonempty (by omega)
    obtain ⟨h2, h1⟩ := fillAscii_spec 0x80 start bytes hsl (by omega) (by omega)
    generalize hfill : fillAscii limit 0x80 start bytes = filled at h1 h2
    obtain ⟨bytes₁, start₁⟩ := filled
    simp only at h1 h2 ⊢
    by_cases hlim : limit ≤ 0x80
    · have hrest := hst.next (by omega)
      obtain ⟨bytes', start', limit', rest', hout, hst', h80, hlen', hb, hc'⟩ :=
        ih rest bytes₁ hrest (by omega)
      refine ⟨bytes', start', limit', rest', by rw [if_pos hlim, hout], hst', h80,
        by omega, fun c => ?_, fun c h0 hc => ?_⟩
      · rw [hb c, h1 c, Bool.or_assoc]
        by_cases hc : c < 0x80
        · rw [hcov c (by omega), remaining]
          simp [hc, Nat.min_eq_left hlim]
        · simp [hc]
      · have hno : ¬ (start ≤ c ∧ c < limit) := by omega
        rw [hcov c hc, remaining, decide_eq_false hno, Bool.false_or]
        exact hc' c h0 hc
    · refine ⟨bytes₁, start₁, limit, rest, by rw [if_neg hlim], ⟨by omega, hst.limit_le, by omega,
        hst.next, hst.after⟩, by omega, hlen, fun c => ?_, fun c h0 hc => ?_⟩
      · rw [h1 c]
        congr 1
        by_cases hc : c < 0x80
        · rw [hcov c (by omega), remaining, hst.covers_rest (by omega), Bool.or_false]
          simp only [hc, decide_true, Bool.true_and, decide_eq_decide]
          omega
        · simp [hc]
      · rw [hcov c hc, remaining, remaining]
        congr 1
        rw [decide_eq_decide]
        omega

theorem initTable7FF_spec : ∀ (fuel : Nat) (table : Nat → BitVec 32) (start limit : Nat)
    (rest : List Int), RangeState start limit rest → rest.length < fuel →
    ∃ table' start' limit' rest',
      initTable7FF fuel table start limit rest = some (table', start', limit', rest') ∧
      RangeState start' limit' rest' ∧ 0x800 ≤ start' ∧ rest'.length ≤ rest.length ∧
      (∀ c, c < 0x800 → bitAt table' c = (bitAt table c || remaining start limit rest c)) ∧
      ∀ c : Nat, 0x800 ≤ c → c < 0x110000 →
        remaining start limit rest c = remaining start' limit' rest' c := by
  intro fuel
  induction fuel with
  | zero => omega
  | succ fuel ih =>
    intro table start limit rest hst hf
    simp only [initTable7FF]
    by_cases hstart : start < 0x800
    · have hsl := hst.nonempty (by omega)
      have hbits : ∀ c, c < 0x800 →
          bitAt (set32x64Bits table start (if limit ≤ 0x800 then limit else 0x800)) c =
            (bitAt table c || decide (start ≤ c ∧ c < limit)) := by
        intro c hc
        rw [bitAt_set32x64Bits _ (by split <;> omega) (by split <;> omega) hc]
        congr 1
        rw [decide_eq_decide]
        split <;> omega
      generalize set32x64Bits table start (if limit ≤ 0x800 then limit else 0x800) = table₁
        at hbits
      rw [if_pos hstart]
      by_cases hlim : limit > 0x800
      · refine ⟨table₁, 0x800, limit, rest, by rw [if_pos hlim],
          ⟨by omega, hst.limit_le, by omega, hst.next, hst.after⟩, by omega, Nat.le_refl _,
          fun c hc => ?_, fun c h0 hc => ?_⟩
        · rw [hbits c hc, remaining, hst.covers_rest (by omega), Bool.or_false]
        rw [remaining, remaining]
        congr 1
        rw [decide_eq_decide]
        omega
      rw [if_neg hlim]
      obtain ⟨start₁, limit₁, rest₁, hnext, hst₁, hlen, hcov⟩ :=
        nextRange_spec (hst.next (by omega))
      obtain ⟨table', start', limit', rest', hout, hst', h800, hlen', hb, hc'⟩ :=
        ih table₁ start₁ limit₁ rest₁ hst₁ (by omega)
      refine ⟨table', start', limit', rest', by rw [hnext]; exact hout, hst', h800, by omega,
        fun c hc => ?_, fun c h0 hc => ?_⟩
      · rw [hb c hc, hbits c hc, ← hcov c (by omega), Bool.or_assoc, remaining]
      have hno : ¬ (start ≤ c ∧ c < limit) := by omega
      rw [remaining, decide_eq_false hno, Bool.false_or, hcov c hc, hc' c h0 hc]
    · rw [if_neg hstart]
      refine ⟨table, start, limit, rest, rfl, hst, by omega, Nat.le_refl _, fun c hc => ?_,
        fun _ _ _ => rfl⟩
      rw [hst.remaining_below (by omega), Bool.or_false]

/-! ## `bmpBlockBits` -/

theorem getLsbD_mixed (hi : i < 32) :
    (0x10001#32 <<< k).getLsbD i = decide (i = k ∨ i = k + 16) := by
  have hsplit : 0x10001#32 = 1#32 ||| 1#32 <<< 16 := by decide
  rw [hsplit, BitVec.shiftLeft_or_distrib, BitVec.getLsbD_or, getLsbD_one_shiftLeft hi,
    ← BitVec.shiftLeft_add, getLsbD_one_shiftLeft hi, Nat.add_comm 16 k, Bool.decide_or]

theorem bitAt_setMixed (bits : Nat → BitVec 32) (c : Nat) (hi : index < 0x800) :
    bitAt (setMixed bits c) index =
      (bitAt bits index || decide (index = c / 64 ∨ index = c / 64 + 0x400)) := by
  have hdiv : ∀ x : Nat, x >>> 6 = x / 64 := fun x => Nat.shiftRight_eq_div_pow x 6
  have hmod : ∀ x : Nat, x &&& 0x3f = x % 64 := fun x => Bits.and_low x 6 0x3f (by decide)
  rw [bitAt, setMixed, hdiv, hdiv, hmod, getLsbD_orAt, getLsbD_mixed (by omega), bitAt,
    Bool.eq_iff_iff]
  simp only [Bool.or_eq_true, Bool.and_eq_true, decide_eq_true_eq]
  refine or_congr Iff.rfl ?_
  omega

/-- What one range does to the block bits. A block is mixed when bit `block + 0x400` is set. -/
structure BlockRange (bits : Nat → BitVec 32) (minStart start limit : Nat)
    (bits' : Nat → BitVec 32) (minStart' limit' : Nat) : Prop where
  aligned : minStart' % 64 = 0
  mono : minStart ≤ minStart'
  kept : ∀ index < 0x800, bitAt bits index = true → bitAt bits' index = true
  below : ∀ block < 0x400, block * 64 < minStart →
    bitAt bits' block = bitAt bits block ∧ bitAt bits' (block + 0x400) = bitAt bits (block + 0x400)
  filled : ∀ c < 0x10000, bitAt bits' (c / 64 + 0x400) = false →
    bitAt bits' (c / 64) = (bitAt bits (c / 64) || decide (start ≤ c ∧ c < limit))
  skipped : ∀ c < 0x10000, bitAt bits' (c / 64 + 0x400) = false →
    minStart ≤ c → c < minStart' → c < limit
  last : ∀ c < 0x10000, bitAt bits' (c / 64 + 0x400) = false → limit' = 0x10000 → c < limit
  closed : limit = 0x10000 → limit' = 0x10000

theorem BlockRange.of_added {bits bits' : Nat → BitVec 32}
    {minStart minStart' limit' : Nat} (P : Nat → Prop)
    (hb : ∀ index < 0x800, bitAt bits' index = true ↔ bitAt bits index = true ∨ P index)
    (ha : minStart' % 64 = 0) (hm : minStart ≤ minStart')
    (hbelow : ∀ block < 0x400, block * 64 < minStart → ¬ P block ∧ ¬ P (block + 0x400))
    (hclosed : limit = 0x10000 → limit' = 0x10000)
    (hpure : ∀ c < 0x10000, ¬ P (c / 64 + 0x400) → (P (c / 64) ↔ start ≤ c ∧ c < limit) ∧
      (minStart ≤ c → c < minStart' → c < limit) ∧ (limit' = 0x10000 → c < limit)) :
    BlockRange bits minStart start limit bits' minStart' limit' := by
  have hno : ∀ c < 0x10000, bitAt bits' (c / 64 + 0x400) = false → ¬ P (c / 64 + 0x400) := by
    intro c hc hf hp
    rw [(hb (c / 64 + 0x400) (by omega)).mpr (Or.inr hp)] at hf
    cases hf
  refine ⟨ha, hm, fun index hi h => (hb index hi).mpr (Or.inl h), fun block hlt hmin => ?_,
    fun c hc hf => ?_, fun c hc hf => ?_, fun c hc hf => ?_, hclosed⟩
  · obtain ⟨h1, h2⟩ := hbelow block hlt hmin
    constructor
    · rw [Bool.eq_iff_iff, hb block (by omega), or_iff_left h1]
    · rw [Bool.eq_iff_iff, hb (block + 0x400) (by omega), or_iff_left h2]
  · rw [Bool.eq_iff_iff, hb (c / 64) (by omega), (hpure c hc (hno c hc hf)).1, Bool.or_eq_true,
      decide_eq_true_eq]
  · exact (hpure c hc (hno c hc hf)).2.1
  · exact (hpure c hc (hno c hc hf)).2.2

theorem initBlockRange_spec (bits : Nat → BitVec 32) {minStart start limit : Nat}
    (ha : minStart % 64 = 0) (hs : minStart ≤ start) (hl : limit ≤ 0x10000) :
    ∃ bits' minStart' limit',
      initBlockRange bits minStart start limit = (bits', minStart', limit') ∧
      BlockRange bits minStart start limit bits' minStart' limit' := by
  have hdiv : ∀ x : Nat, x >>> 6 = x / 64 := fun x => Nat.shiftRight_eq_div_pow x 6
  have hmul : ∀ x : Nat, x <<< 6 = x * 64 := fun x => Nat.shiftLeft_eq x 6
  have hmod : ∀ x : Nat, x &&& 0x3f = x % 64 := fun x => Bits.and_low x 6 0x3f (by decide)
  simp only [initBlockRange, hdiv, hmul, hmod]
  by_cases hlt : start < limit
  · rw [if_pos hlt]
    -- The first block that the range does not start inside of.
    obtain ⟨s, hs₁, hs₂⟩ : ∃ s, start ≤ s * 64 ∧ s * 64 < start + 64 :=
      ⟨(start + 63) / 64, by omega, by omega⟩
    have hstart : (if start % 64 ≠ 0 then (start / 64 + 1) * 64 else start) = s * 64 := by
      split <;> omega
    obtain ⟨m, hmin, hm, hms⟩ : ∃ m, (if start % 64 ≠ 0 then s * 64 else minStart) = m * 64 ∧
        minStart ≤ m * 64 ∧ m ≤ s := by
      by_cases hmix : start % 64 ≠ 0
      · exact ⟨s, if_pos hmix, by omega, le_refl s⟩
      · exact ⟨minStart / 64, by rw [if_neg hmix]; omega, by omega, by omega⟩
    obtain ⟨bits₁, hbits₁, hb₁⟩ : ∃ bits₁,
        (if start % 64 ≠ 0 then setMixed bits start else bits) = bits₁ ∧
        ∀ index < 0x800, bitAt bits₁ index = true ↔ bitAt bits index = true ∨
          (start / 64 ≤ index ∧ index < s ∨ start / 64 + 0x400 ≤ index ∧ index < s + 0x400) := by
      by_cases hmix : start % 64 ≠ 0
      · refine ⟨_, if_pos hmix, fun index hi => ?_⟩
        rw [bitAt_setMixed bits start hi, Bool.or_eq_true, decide_eq_true_eq]
        refine or_congr Iff.rfl ?_
        omega
      · exact ⟨_, if_neg hmix, fun index hi => by rw [or_iff_left (by omega)]⟩
    rw [hbits₁, hstart, hmin, Nat.mul_div_cancel s (by decide)]
    clear hbits₁ hstart hmin
    by_cases hfull : s * 64 < limit
    · rw [if_pos hfull]
      -- The full blocks.
      obtain ⟨bits₂, hbits₂, hb₂⟩ : ∃ bits₂,
          (if s * 64 < limit / 64 * 64 then set32x64Bits bits₁ s (limit / 64) else bits₁) = bits₂ ∧
          ∀ index < 0x800, bitAt bits₂ index = true ↔ bitAt bits₁ index = true ∨
            s ≤ index ∧ index < limit / 64 := by
        by_cases hrect : s * 64 < limit / 64 * 64
        · refine ⟨_, if_pos hrect, fun index hi => ?_⟩
          rw [bitAt_set32x64Bits _ (by omega) (by omega) hi]
          simp
        · exact ⟨_, if_neg hrect, fun index hi => by rw [or_iff_left (by omega)]⟩
      rw [hbits₂]
      clear hbits₂
      by_cases hmix : limit % 64 ≠ 0
      · rw [if_pos hmix]
        refine ⟨_, _, _, rfl, BlockRange.of_added (fun index =>
          (start / 64 ≤ index ∧ index < s ∨ start / 64 + 0x400 ≤ index ∧ index < s + 0x400) ∨
          (s ≤ index ∧ index < limit / 64) ∨
          (index = limit / 64 ∨ index = limit / 64 + 0x400)) (fun index hi => ?_) (by omega)
          (by omega) (fun block hb hm => ?_) (by omega) fun c hc hp => ?_⟩
        · rw [bitAt_setMixed bits₂ limit hi, Bool.or_eq_true, hb₂ index hi, hb₁ index hi,
            decide_eq_true_eq]
          simp only [or_assoc]
        · omega
        · omega
      · rw [if_neg hmix]
        refine ⟨_, _, _, rfl, BlockRange.of_added (fun index =>
          (start / 64 ≤ index ∧ index < s ∨ start / 64 + 0x400 ≤ index ∧ index < s + 0x400) ∨
          (s ≤ index ∧ index < limit / 64)) (fun index hi => ?_) (by omega)
          (by omega) (fun block hb hm => ?_) (by omega) fun c hc hp => ?_⟩
        · rw [hb₂ index hi, hb₁ index hi]
          simp only [or_assoc]
        · omega
        · omega
    · rw [if_neg hfull]
      refine ⟨_, _, _, rfl, BlockRange.of_added (fun index =>
        start / 64 ≤ index ∧ index < s ∨ start / 64 + 0x400 ≤ index ∧ index < s + 0x400) hb₁
        (by omega) (by omega) (fun block hb hm => ?_) (fun h => h) fun c hc hp => ?_⟩
      · omega
      · omega
  · rw [if_neg hlt]
    refine ⟨_, _, _, rfl, BlockRange.of_added (fun _ => False) (by simp) ha (Nat.le_refl _)
      (by simp) (fun h => h) fun c hc _ => ⟨by simp; omega, by omega, by omega⟩⟩

/-- The third loop: a block that is not mixed has the value of its code points. -/
theorem initBlocks_spec : ∀ (fuel : Nat) (bits : Nat → BitVec 32) (minStart start limit : Nat)
    (rest : List Int), RangeState start limit rest → rest.length < fuel → minStart % 64 = 0 →
    ∃ bits', initBlocks fuel bits minStart start limit rest = some bits' ∧
      (∀ index < 0x800, bitAt bits index = true → bitAt bits' index = true) ∧
      (∀ block < 0x400, block * 64 < minStart → bitAt bits' block = bitAt bits block ∧
        bitAt bits' (block + 0x400) = bitAt bits (block + 0x400)) ∧
      ∀ c < 0x10000, bitAt bits' (c / 64 + 0x400) = false →
        bitAt bits' (c / 64) = (bitAt bits (c / 64) ||
          (decide (minStart ≤ c) && remaining start limit rest c)) := by
  intro fuel
  induction fuel with
  | zero => omega
  | succ fuel ih =>
    intro bits minStart start limit rest hst hf ha
    simp only [initBlocks]
    by_cases hstart : start < 0x10000
    · rw [if_pos hstart]
      have hsl := hst.nonempty (by omega)
      obtain ⟨limit₀, hlim₀, hl₀⟩ : ∃ limit₀,
          (if limit > 0x10000 then 0x10000 else limit) = limit₀ ∧ limit₀ = min limit 0x10000 :=
        ⟨_, rfl, by split <;> omega⟩
      obtain ⟨start₀, hstart₀, hs₀⟩ : ∃ start₀,
          (if start < minStart then minStart else start) = start₀ ∧
            start₀ = max start minStart := ⟨_, rfl, by split <;> omega⟩
      rw [hlim₀, hstart₀]
      obtain ⟨bits₁, minStart₁, limit₁, hrange, hr⟩ :=
        @initBlockRange_spec bits minStart start₀ limit₀ ha (by omega) (by omega)
      rw [hrange]
      simp only
      by_cases hend : limit₁ = 0x10000
      · rw [if_pos hend]
        refine ⟨bits₁, rfl, hr.kept, hr.below, fun c hc hmix => ?_⟩
        have hcl := hr.last c hc hmix hend
        rw [hr.filled c hc hmix, remaining, hst.covers_rest (by omega), Bool.or_false]
        congr 1
        rw [← Bool.decide_and, decide_eq_decide]
        omega
      rw [if_neg hend]
      have hlt : limit < 0x10000 := by
        by_contra hcon
        exact hend (hr.closed (by omega))
      obtain ⟨start₂, limit₂, rest₂, hnext, hst₂, hlen, hcov⟩ :=
        nextRange_spec (hst.next (by omega))
      obtain ⟨bits', hout, hkept, hbelow, hpure⟩ :=
        ih bits₁ minStart₁ start₂ limit₂ rest₂ hst₂ (by omega) hr.aligned
      have hmono := hr.mono
      refine ⟨bits', by rw [hnext]; exact hout,
        fun index hi h => hkept index hi (hr.kept index hi h), fun block hb hm => ?_,
        fun c hc hmix => ?_⟩
      · obtain ⟨h1, h2⟩ := hr.below block hb hm
        obtain ⟨h3, h4⟩ := hbelow block hb (by omega)
        exact ⟨h3.trans h1, h4.trans h2⟩
      have hmix₁ : bitAt bits₁ (c / 64 + 0x400) = false := by
        by_contra hcon
        rw [Bool.not_eq_false] at hcon
        rw [hkept _ (by omega) hcon] at hmix
        cases hmix
      rw [hpure c hc hmix, hr.filled c hc hmix₁, ← hcov c (by omega), Bool.or_assoc, remaining]
      congr 1
      cases hrest : covers rest c with
      | false =>
        rw [Bool.and_false, Bool.or_false, Bool.or_false, ← Bool.decide_and,
          decide_eq_decide]
        omega
      | true =>
        -- A later range: the block is not mixed, so it was not skipped.
        have hcl : limit < c := by
          by_contra hcon
          rw [hst.covers_rest (by omega)] at hrest
          cases hrest
        have hskip := hr.skipped c hc hmix₁
        have hno : ¬ (start₀ ≤ c ∧ c < limit₀) := by omega
        rw [decide_eq_false hno, Bool.false_or, Bool.and_true, Bool.or_true, Bool.and_true,
          decide_eq_decide]
        omega
    · rw [if_neg hstart]
      refine ⟨bits, rfl, fun _ _ h => h, fun _ _ _ => ⟨rfl, rfl⟩, fun c hc _ => ?_⟩
      rw [hst.remaining_below (by omega), Bool.and_false, Bool.or_false]

theorem initBits_spec (hl : IsInversionList list) : ∃ asciiBytes table7FF bmpBlockBits,
      initBits list = some (asciiBytes, table7FF, bmpBlockBits) ∧
      (∀ c : Nat, asciiBytes c = (decide (c < 0x80) && covers list c)) ∧
      (∀ c : Nat, c < 0x800 → bitAt table7FF c = (decide (0x80 ≤ c) && covers list c)) ∧
      (∀ block < 0x20, bitAt bmpBlockBits block = false ∧
        bitAt bmpBlockBits (block + 0x400) = false) ∧
      ∀ c : Nat, 0x800 ≤ c → c < 0x10000 → bitAt bmpBlockBits (c / 64 + 0x400) = false →
        bitAt bmpBlockBits (c / 64) = covers list c := by
  have hzero : ∀ index, bitAt (fun _ => 0#32) index = false := by simp [bitAt]
  obtain ⟨bytes, start₁, limit₁, rest₁, hout₁, hst₁, h80, hlen₁, hb₁, hc₁⟩ :=
    initAscii_spec (list.length + 1) list (fun _ => false) hl (by omega)
  obtain ⟨table, start₂, limit₂, rest₂, hout₂, hst₂, h800, hlen₂, hb₂, hc₂⟩ :=
    initTable7FF_spec (list.length + 1) (fun _ => 0#32) start₁ limit₁ rest₁ hst₁ (by omega)
  obtain ⟨bits, hout₃, -, hbelow, hb₃⟩ :=
    initBlocks_spec (list.length + 1) (fun _ => 0#32) 0x800 start₂ limit₂ rest₂ hst₂ (by omega)
      (by decide)
  refine ⟨bytes, table, bits, by simp [initBits, hout₁, hout₂, hout₃], fun c => ?_,
    fun c hc => ?_, fun block hb => ?_, fun c h0 hc hmix => ?_⟩
  · rw [hb₁ c, Bool.false_or]
  · rw [hb₂ c hc, hzero, Bool.false_or]
    by_cases h : 0x80 ≤ c
    · rw [hc₁ c h (by omega), decide_eq_true h, Bool.true_and]
    · rw [hst₁.remaining_below (by omega), decide_eq_false h, Bool.false_and]
  · have h := hbelow block (by omega) (by omega)
    rwa [hzero, hzero] at h
  · rw [hb₃ c hc hmix, hzero, Bool.false_or, decide_eq_true h0, Bool.true_and,
      ← hc₂ c h0 (by omega), ← hc₁ c (by omega) (by omega)]

end Icu.BMPSet
