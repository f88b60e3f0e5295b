import Icu.UnicodeSet.SpanUtf8

/-! # Frozen spans of UTF-8 text agree with the loops over units

The loop over units can be entered at any offset, also inside of an ill-formed unit, where
it reads the remaining trail bytes one by one. If U+FFFD has the wanted value then it makes
no difference how many bytes of an ill-formed sequence are taken at once, and otherwise
the span ends before it. The fast loop is followed step by step on this ground.
-/

namespace Icu

open UnicodeSet Utf8 Lib Lib.InversionList Lib.Scan

namespace Utf8

variable {s : List UInt8} {p e b : Nat} {strict : Int} {c : Nat}

theorem isUnit_complete (hb : byteAt s p = some b)
    (ht : ∀ i, p < i → i ≤ p + u8CountTrailBytes b → TrailAt s i) :
    IsUnit s p (p + 1 + u8CountTrailBytes b) where
  lt := by omega
  le := by
    by_cases h : u8CountTrailBytes b = 0
    · have := lt_of_byteAt hb
      omega
    · have := (ht (p + u8CountTrailBytes b) (by omega) (Nat.le_refl _)).lt
      omega
  trails := fun i h0 h1 => ht i h0 (by omega)
  short := fun b' hb' => by
    rw [hb, Option.some.injEq] at hb'
    rw [hb']
  maximal := fun b' hb' hlt => by
    rw [hb, Option.some.injEq] at hb'
    rw [hb'] at hlt
    omega

theorem codePoint_eq_none (h : IsUnit s p e) (hb : byteAt s p = some b) (hb80 : 0x80 ≤ b)
    (hno : u8CountTrailBytes b = 0 ∨ 3 < u8CountTrailBytes b ∨
      ∃ i, p < i ∧ i ≤ p + u8CountTrailBytes b ∧ ¬ TrailAt s i) : codePoint s p e = none := by
  rw [codePoint_multi hb (by omega), if_neg]
  rintro ⟨h1, h3, he, -⟩
  rcases hno with h0 | h4 | ⟨i, hpi, hi, ht⟩
  · omega
  · omega
  · exact ht (h.trails i hpi (by omega))

theorem unitValue_of_none (h : codePoint s p e = none) :
    unitValue strict s p e = errorValue 0 strict := by
  rw [unitValue, h]

theorem unitValue_of_some (h : codePoint s p e = some c) : unitValue strict s p e = c := by
  rw [unitValue, h]

theorem codePoint_le (h : codePoint s p e = some c) : c ≤ 0x10ffff := by
  obtain ⟨b, hb, hif⟩ := Option.bind_eq_some_iff.mp h
  by_cases hb80 : b < 0x80
  · rw [if_pos hb80, Option.some.injEq] at hif
    omega
  rw [if_neg hb80] at hif
  simp only [Option.ite_none_right_eq_some, Option.some.injEq] at hif
  obtain ⟨⟨-, -, -, hl⟩, rfl⟩ := hif
  rw [legal, decide_eq_true_eq] at hl
  exact hl.2.1

end Utf8

section Slow

variable {set : UnicodeSet} {s : List UInt8} {wanted : Bool} {i j e b : Nat}

theorem spanUTF8Unit_of_isUnit (hl : IsInversionList set.list) (hf : set.bmpSet = none)
    (h : IsUnit s i e) :
    set.spanUTF8Unit s i = some (covers set.list (unitValue (-3) s i e), e) := by
  have hnext := @u8NextStrict_eq s (-3) i e h (by decide) (by decide)
  have hhigh : unicodesetHigh = 0x110000 := rfl
  have hlt : unitValue (-3) s i e < unicodesetHigh := by
    cases hc : codePoint s i e with
    | none =>
      rw [unitValue_of_none hc]
      decide
    | some c =>
      have := codePoint_le hc
      rw [unitValue_of_some hc]
      omega
  simp only [UnicodeSet.spanUTF8Unit, u8NextOrFFFD, hnext, Option.bind_eq_bind, Option.bind_some,
    UnicodeSet.contains_eq hl hf, decide_eq_true hlt, Bool.true_and]
  rfl

theorem spanUTF8Unit_advances (hl : IsInversionList set.list) (hf : set.bmpSet = none) :
    Advances (set.spanUTF8Unit s) s.length := by
  intro i hi
  obtain ⟨e, he⟩ := exists_isUnit hi
  exact ⟨_, e, spanUTF8Unit_of_isUnit hl hf he, he.lt, he.le⟩

/-- The rest of a span from an offset, by units. -/
abbrev restFrom (set : UnicodeSet) (s : List UInt8) (wanted : Bool) (i : Nat) : Option Nat :=
  scanFrom (set.spanUTF8Unit s) wanted s.length i

theorem restFrom_unit (hl : IsInversionList set.list) (hf : set.bmpSet = none) (h : IsUnit s i e) :
    restFrom set s wanted i =
      if covers set.list (unitValue (-3) s i e) ≠ wanted then some i
      else restFrom set s wanted e :=
  scanFrom_step (spanUTF8Unit_advances hl hf) (Nat.lt_of_lt_of_le h.lt h.le)
    (spanUTF8Unit_of_isUnit hl hf h)

theorem restFrom_end : restFrom set s wanted s.length = some s.length :=
  if_neg (Nat.lt_irrefl _)

theorem restFrom_trails (hl : IsInversionList set.list) (hf : set.bmpSet = none)
    (hw : covers set.list 0xfffd = wanted) : ∀ (n i : Nat),
      (∀ k, i ≤ k → k < i + n → TrailAt s k) →
      restFrom set s wanted i = restFrom set s wanted (i + n) := by
  intro n
  induction n with
  | zero => exact fun _ _ => rfl
  | succ n ih =>
    intro i ht
    have hi := ht i (by omega) (by omega)
    obtain ⟨b, hb, h0, h1⟩ := hi
    have hz := u8CountTrailBytes_eq_zero h1
    have hu := isUnit_complete hb (by omega)
    rw [hz, Nat.add_zero] at hu
    have hval : unitValue (-3) s i (i + 1) = 0xfffd :=
      unitValue_of_none (codePoint_eq_none hu hb h0 (Or.inl hz))
    rw [restFrom_unit hl hf hu, hval, if_neg (fun hne => hne hw),
      ih (i + 1) (fun k hk hlt => ht k (by omega) (by omega))]
    congr 1
    omega

/-- From the start of an ill-formed unit, any number of its bytes can be taken at once. -/
theorem restFrom_illegal (hl : IsInversionList set.list) (hf : set.bmpSet = none)
    (h : IsUnit s i e) (hc : codePoint s i e = none) (hij : i < j)
    (ht : ∀ k, i < k → k < j → TrailAt s k) : restFrom set s wanted i =
      if covers set.list 0xfffd ≠ wanted then some i else restFrom set s wanted j := by
  have hval : unitValue (-3) s i e = 0xfffd := unitValue_of_none hc
  rw [restFrom_unit hl hf h, hval]
  by_cases hw : covers set.list 0xfffd = wanted
  · have hlt := h.lt
    have h1 := @restFrom_trails set s wanted hl hf hw (e - (i + 1)) (i + 1)
      fun k hk hke => h.trails k (by omega) (by omega)
    have h2 := @restFrom_trails set s wanted hl hf hw (j - (i + 1)) (i + 1)
      fun k hk hke => ht k (by omega) (by omega)
    rw [show i + 1 + (e - (i + 1)) = e by omega] at h1
    rw [show i + 1 + (j - (i + 1)) = j by omega] at h2
    rw [if_neg (fun hne => hne hw), if_neg (fun hne => hne hw), ← h1, h2]
  · rw [if_pos hw, if_pos hw]

end Slow

section Fast

variable {set : UnicodeSet} {bmpSet : BMPSet} {s : List UInt8} {wanted : Bool} {i j e b : Nat}

theorem trail?_of_trailAt (h : TrailAt s i) :
    BMPSet.trail? s i = some (some (payload s i)) ∧ payload s i < 64 := by
  obtain ⟨b, hb, h0, h1, hp⟩ := h.payload
  have hv := trailValue_eq h0 h1
  refine ⟨?_, by omega⟩
  simp only [BMPSet.trail?, hb, Option.bind_eq_bind, Option.bind_some, hv, hp]
  rw [if_pos (by omega)]
  rfl

theorem trail?_of_not_trailAt (hi : i < s.length) (h : ¬ TrailAt s i) :
    BMPSet.trail? s i = some none := by
  obtain ⟨b, hb, hv⟩ := trailValue_of_not_trailAt hi h
  have hno : ¬ trailValue b ≤ 0x3f := by omega
  simp only [BMPSet.trail?, hb, Option.bind_eq_bind, Option.bind_some, if_neg hno]
  rfl

/-- What the fast loop does at an offset: a value, some bytes of which all but the first are
trail bytes, and the same effect on the rest of the span as the loop over units. -/
def FastStep (set : UnicodeSet) (bmpSet : BMPSet) (s : List UInt8) (wanted : Bool) (i : Nat) :
    Prop :=
  ∃ has next, bmpSet.spanUTF8Unit s i = some (has, next) ∧ i < next ∧
    (∀ k, i < k → k < next → TrailAt s k) ∧
    restFrom set s wanted i = if has ≠ wanted then some i else restFrom set s wanted next

theorem FastStep.of_unit (hr : bmpSet.Represents set.list) (hf : set.bmpSet = none)
    (h : IsUnit s i e) {has : Bool} (hu : bmpSet.spanUTF8Unit s i = some (has, e))
    (hv : has = covers set.list (unitValue (-3) s i e)) : FastStep set bmpSet s wanted i := by
  refine ⟨has, e, hu, h.lt, h.trails, ?_⟩
  rw [hv]
  exact restFrom_unit hr.valid hf h

theorem FastStep.of_illegal (hr : bmpSet.Represents set.list) (hf : set.bmpSet = none)
    (h : IsUnit s i e) (hc : codePoint s i e = none) (hij : i < j)
    (ht : ∀ k, i < k → k < j → TrailAt s k)
    (hu : bmpSet.spanUTF8Unit s i = some (bmpSet.asciiBytes 0x80, j)) :
    FastStep set bmpSet s wanted i := by
  refine ⟨_, j, hu, hij, ht, ?_⟩
  rw [hr.trail 0x80 (by omega) (by omega)]
  exact restFrom_illegal hr.valid hf h hc hij ht

structure Room (s : List UInt8) (i b : Nat) : Prop where
  one : 0xc0 ≤ b → i + 1 < s.length
  two : 0xe0 ≤ b → TrailAt s (i + 1) → i + 2 < s.length
  three : 0xf0 ≤ b → TrailAt s (i + 1) → TrailAt s (i + 2) → i + 3 < s.length

section

variable (hr : bmpSet.Represents set.list)
include hr

theorem fastStep_single (hf : set.bmpSet = none)
    (hb : byteAt s i = some b) (hlt : b < 0xc0) : FastStep set bmpSet s wanted i := by
  have hz := u8CountTrailBytes_eq_zero hlt
  have hu := isUnit_complete hb (by omega)
  rw [hz, Nat.add_zero] at hu
  have hunit : bmpSet.spanUTF8Unit s i = some (bmpSet.asciiBytes b, i + 1) := by
    simp [BMPSet.spanUTF8Unit, hb, hlt]
  refine FastStep.of_unit hr hf hu hunit ?_
  by_cases h80 : b < 0x80
  · rw [unitValue_of_some (codePoint_single hb h80)]
    exact hr.ascii b h80
  · rw [unitValue_of_none (codePoint_eq_none hu hb (by omega) (Or.inl hz))]
    exact hr.trail b (by omega) hlt

theorem fastStep_two (hf : set.bmpSet = none)
    (hb : byteAt s i = some b) (h0 : 0xc0 ≤ b) (h1 : b < 0xe0) (hroom : Room s i b) :
    FastStep set bmpSet s wanted i := by
  have hcount : u8CountTrailBytes b = 1 := by
    unfold u8CountTrailBytes
    split_ifs <;> omega
  obtain ⟨e, he⟩ := exists_isUnit (lt_of_byteAt hb)
  by_cases ht : TrailAt s (i + 1)
  · obtain ⟨htr, hp⟩ := trail?_of_trailAt ht
    have hu := isUnit_complete hb fun k hk hle => by
      have : k = i + 1 := by omega
      rwa [this]
    rw [hcount] at hu
    have hc : assemble s (u8MaskLeadByte b 1) 1 (i + 1) = (b - 0xc0) * 64 + payload s (i + 1) := by
      rw [u8MaskLeadByte_eq]
      simp only [assemble]
      omega
    have hmask : b &&& 0x1f = b - 0xc0 := by
      rw [Bits.and_low b 5 0x1f (by decide)]
      omega
    have htest : (bmpSet.table7FF (payload s (i + 1)) &&& (1#32 <<< (b &&& 0x1f)) != 0#32) =
        bmpSet.testTable7FF ((b - 0xc0) * 64 + payload s (i + 1)) := by
      have hdiv : ((b - 0xc0) * 64 + payload s (i + 1)) >>> 6 = b - 0xc0 := by
        rw [Nat.shiftRight_eq_div_pow]
        omega
      have hmod : ((b - 0xc0) * 64 + payload s (i + 1)) &&& 0x3f = payload s (i + 1) := by
        rw [Bits.and_low _ 6 0x3f (by decide)]
        omega
      rw [BMPSet.testTable7FF, hdiv, hmod, hmask]
    refine FastStep.of_unit hr hf hu ?_ rfl
    have hval : bmpSet.testTable7FF ((b - 0xc0) * 64 + payload s (i + 1)) =
        covers set.list (unitValue (-3) s i (i + 1 + 1)) := by
      have hcp := @codePoint_multi s i (i + 1 + 1) b hb (by omega)
      rw [hcount, hc] at hcp
      rw [hr.twoByte _ (by omega)]
      by_cases hlow : (b - 0xc0) * 64 + payload s (i + 1) < 0x80
      · have hno : ¬ legal 1 ((b - 0xc0) * 64 + payload s (i + 1)) = true := by
          simp only [legal, utf8MinLegal, decide_eq_true_eq]
          omega
        rw [if_neg (fun hcon => hno hcon.2.2.2)] at hcp
        rw [if_pos hlow, unitValue_of_none hcp]
        rfl
      · have hok : legal 1 ((b - 0xc0) * 64 + payload s (i + 1)) = true := by
          simp only [legal, utf8MinLegal, decide_eq_true_eq]
          omega
        rw [if_pos ⟨by omega, by omega, rfl, hok⟩] at hcp
        rw [if_neg hlow, unitValue_of_some hcp]
    simp only [BMPSet.spanUTF8Unit, BMPSet.spanUTF8Two, hb, htr, Option.bind_eq_bind,
      Option.bind_some, if_neg (show ¬ b < 0xc0 by omega), if_neg (show ¬ b ≥ 0xe0 by omega), htest,
      hval]
    rfl
  · have htr := trail?_of_not_trailAt (hroom.one h0) ht
    refine FastStep.of_illegal hr hf he (codePoint_eq_none he hb (by omega)
      (Or.inr (Or.inr ⟨i + 1, by omega, by omega, ht⟩))) (Nat.lt_succ_self i) (by omega) ?_
    simp only [BMPSet.spanUTF8Unit, BMPSet.spanUTF8Two, hb, htr, Option.bind_eq_bind,
      Option.bind_some, if_neg (show ¬ b < 0xc0 by omega), if_neg (show ¬ b ≥ 0xe0 by omega)]
    rfl

theorem fastStep_three (hf : set.bmpSet = none)
    (hb : byteAt s i = some b) (h0 : 0xe0 ≤ b) (h1 : b < 0xf0) (hroom : Room s i b) :
    FastStep set bmpSet s wanted i := by
  have hcount : u8CountTrailBytes b = 2 := by
    unfold u8CountTrailBytes
    split_ifs <;> omega
  obtain ⟨e, he⟩ := exists_isUnit (lt_of_byteAt hb)
  -- An incomplete sequence gives up its lead byte only.
  have incomplete : bmpSet.spanUTF8Three s b (i + 1) = some none →
      (∃ k, i < k ∧ k ≤ i + u8CountTrailBytes b ∧ ¬ TrailAt s k) →
      FastStep set bmpSet s wanted i := by
    intro h3 hno
    refine FastStep.of_illegal hr hf he (codePoint_eq_none he hb (by omega) (Or.inr (Or.inr hno)))
      (Nat.lt_succ_self i) (by omega) ?_
    simp only [BMPSet.spanUTF8Unit, hb, h3, Option.bind_eq_bind, Option.bind_some,
      if_neg (show ¬ b < 0xc0 by omega), if_pos (show b ≥ 0xe0 from h0), if_pos h1]
    rfl
  by_cases ht : TrailAt s (i + 1)
  · obtain ⟨htr, hp⟩ := trail?_of_trailAt ht
    by_cases ht2 : TrailAt s (i + 1 + 1)
    · obtain ⟨htr2, hp2⟩ := trail?_of_trailAt ht2
      have hu := isUnit_complete hb fun k hk hle => by
        have : k = i + 1 ∨ k = i + 1 + 1 := by omega
        rcases this with rfl | rfl <;> assumption
      rw [hcount] at hu
      have hmask : b &&& 0xf = b - 0xe0 := by
        rw [Bits.and_low b 4 0xf (by decide)]
        omega
      obtain ⟨c, hcdef⟩ : ∃ c, c = (b - 0xe0) * 4096 + payload s (i + 1) * 64 +
        payload s (i + 1 + 1) := ⟨_, rfl⟩
      have hasm : assemble s (u8MaskLeadByte b 2) 2 (i + 1) = c := by
        rw [u8MaskLeadByte_eq]
        simp only [assemble]
        omega
      have hor : ((b - 0xe0) <<< 12) ||| (payload s (i + 1) <<< 6) ||| payload s (i + 1 + 1) =
        c := by
        have h12 : ((b - 0xe0) <<< 12) ||| (payload s (i + 1) <<< 6) =
            ((b - 0xe0) * 64 + payload s (i + 1)) <<< 6 := by
          rw [Nat.shiftLeft_eq _ 6, Nat.shiftLeft_eq _ 6, Bits.or_low (by omega)]
          omega
        rw [h12, Bits.or_low (by omega), hcdef]
        omega
      have hbmp := hr.threeByte c (by omega)
      rw [show c / 64 % 64 = payload s (i + 1) by omega, show c / 4096 = b - 0xe0 by omega] at hbmp
      have hval : covers set.list (if BMPSet.illegal3 c then 0xfffd else (c : Int)) =
          covers set.list (unitValue (-3) s i (i + 1 + 2)) := by
        have hcp := @codePoint_multi s i (i + 1 + 2) b hb (by omega)
        rw [hcount, hasm] at hcp
        have hiff : legal 2 c = true ↔ ¬ BMPSet.illegal3 c = true := by
          simp only [legal, utf8MinLegal, BMPSet.illegal3, decide_eq_true_eq, Bool.or_eq_true]
          omega
        by_cases hill : BMPSet.illegal3 c = true
        · rw [if_neg (fun hcon => hiff.mp hcon.2.2.2 hill)] at hcp
          rw [if_pos hill, unitValue_of_none hcp]
          rfl
        · rw [if_pos ⟨by omega, by omega, rfl, hiff.mpr hill⟩] at hcp
          rw [if_neg hill, unitValue_of_some hcp]
      refine FastStep.of_unit hr hf hu ?_ rfl
      simp only [BMPSet.spanUTF8Unit, BMPSet.spanUTF8Three, hb, htr, htr2, Option.bind_eq_bind,
        Option.bind_some, if_neg (show ¬ b < 0xc0 by omega), if_pos (show b ≥ 0xe0 from h0),
        if_pos h1, hmask, hor, hbmp, hval]
      rfl
    · have htr2 := trail?_of_not_trailAt (hroom.two h0 ht) ht2
      refine incomplete ?_ ⟨i + 1 + 1, by omega, by omega, ht2⟩
      simp only [BMPSet.spanUTF8Three, htr, htr2, Option.bind_eq_bind, Option.bind_some]
      rfl
  · have htr := trail?_of_not_trailAt (hroom.one (by omega)) ht
    refine incomplete ?_ ⟨i + 1, by omega, by omega, ht⟩
    simp only [BMPSet.spanUTF8Three, htr, Option.bind_eq_bind, Option.bind_some]
    rfl

theorem fastStep_four (hf : set.bmpSet = none)
    (hb : byteAt s i = some b) (h0 : 0xf0 ≤ b) (hroom : Room s i b) :
    FastStep set bmpSet s wanted i := by
  have hlt := byteAt_lt hb
  have hcount : u8CountTrailBytes b = 3 ∧ b < 0xf8 ∨ 3 < u8CountTrailBytes b ∧ 0xf8 ≤ b ∨
      u8CountTrailBytes b = 0 ∧ 0xf8 ≤ b := by
    unfold u8CountTrailBytes
    split_ifs <;> omega
  obtain ⟨e, he⟩ := exists_isUnit (lt_of_byteAt hb)
  have hstep : ∀ r : Option Bool, bmpSet.spanUTF8Four s b (i + 1) = some r →
      bmpSet.spanUTF8Unit s i =
        some (r.elim (bmpSet.asciiBytes 0x80, i + 1) fun has => (has, i + 4)) := by
    intro r h4
    simp only [BMPSet.spanUTF8Unit, hb, h4, Option.bind_eq_bind, Option.bind_some,
      if_neg (show ¬ b < 0xc0 by omega), if_pos (show b ≥ 0xe0 by omega),
      if_neg (show ¬ b < 0xf0 by omega)]
    cases r <;> rfl
  have incomplete : bmpSet.spanUTF8Four s b (i + 1) = some none →
      (∃ k, i < k ∧ k ≤ i + 3 ∧ ¬ TrailAt s k) → FastStep set bmpSet s wanted i := by
    rintro h4 ⟨k, hk0, hk1, hk⟩
    refine FastStep.of_illegal hr hf he (codePoint_eq_none he hb (by omega) ?_)
      (Nat.lt_succ_self i) (by omega) (hstep none h4)
    by_cases h3 : u8CountTrailBytes b = 3
    · exact Or.inr (Or.inr ⟨k, hk0, by omega, hk⟩)
    · omega
  by_cases ht : TrailAt s (i + 1)
  case neg =>
    have htr := trail?_of_not_trailAt (hroom.one (by omega)) ht
    refine incomplete ?_ ⟨i + 1, by omega, by omega, ht⟩
    simp only [BMPSet.spanUTF8Four, htr, Option.bind_eq_bind, Option.bind_some]
    rfl
  obtain ⟨htr, hp⟩ := trail?_of_trailAt ht
  by_cases ht2 : TrailAt s (i + 1 + 1)
  case neg =>
    have htr2 := trail?_of_not_trailAt (hroom.two (by omega) ht) ht2
    refine incomplete ?_ ⟨i + 1 + 1, by omega, by omega, ht2⟩
    simp only [BMPSet.spanUTF8Four, htr, htr2, Option.bind_eq_bind, Option.bind_some]
    rfl
  obtain ⟨htr2, hp2⟩ := trail?_of_trailAt ht2
  by_cases ht3 : TrailAt s (i + 1 + 2)
  case neg =>
    have htr3 := trail?_of_not_trailAt (hroom.three h0 ht ht2) ht3
    refine incomplete ?_ ⟨i + 1 + 2, by omega, by omega, ht3⟩
    simp only [BMPSet.spanUTF8Four, htr, htr2, htr3, Option.bind_eq_bind, Option.bind_some]
    rfl
  obtain ⟨htr3, hp3⟩ := trail?_of_trailAt ht3
  obtain ⟨c, hcdef⟩ : ∃ c, c = (b - 0xf0) * 262144 + payload s (i + 1) * 4096 +
    payload s (i + 1 + 1) * 64 + payload s (i + 1 + 2) := ⟨_, rfl⟩
  have hor : ((b - 0xf0) <<< 18) ||| (payload s (i + 1) <<< 12) |||
    (payload s (i + 1 + 1) <<< 6) |||
      payload s (i + 1 + 2) = c := by
    have h18 : ((b - 0xf0) <<< 18) ||| (payload s (i + 1) <<< 12) =
        ((b - 0xf0) * 64 + payload s (i + 1)) <<< 12 := by
      rw [Nat.shiftLeft_eq _ 12, Nat.shiftLeft_eq _ 12, Bits.or_low (by omega)]
      omega
    have h12 : (((b - 0xf0) * 64 + payload s (i + 1)) <<< 12) ||| (payload s (i + 1 + 1) <<< 6) =
        (((b - 0xf0) * 64 + payload s (i + 1)) * 64 + payload s (i + 1 + 1)) <<< 6 := by
      rw [Nat.shiftLeft_eq _ 6, Nat.shiftLeft_eq _ 6, Bits.or_low (by omega)]
      omega
    rw [h18, h12, Bits.or_low (by omega), hcdef]
    omega
  have hfour : bmpSet.spanUTF8Four s b (i + 1) = some (some
      (covers set.list (if 0x10000 ≤ c ∧ c ≤ 0x10ffff then (c : Int) else 0xfffd))) := by
    simp only [BMPSet.spanUTF8Four, htr, htr2, htr3, Option.bind_eq_bind, Option.bind_some, hor]
    by_cases hc : 0x10000 ≤ c ∧ c ≤ 0x10ffff
    · rw [if_pos hc, if_pos hc, hr.containsSupplementary hc.1 (by omega)]
      rfl
    · rw [if_neg hc, if_neg hc, hr.trail 0x80 (by omega) (by omega)]
      rfl
  have hunit := hstep _ hfour
  rw [Option.elim_some] at hunit
  have htrails : ∀ k, i < k → k < i + 4 → TrailAt s k := by
    intro k hk0 hk1
    have : k = i + 1 ∨ k = i + 1 + 1 ∨ k = i + 1 + 2 := by omega
    rcases this with rfl | rfl | rfl <;> assumption
  by_cases h3 : u8CountTrailBytes b = 3
  · have hu := isUnit_complete hb fun k hk hle => htrails k hk (by omega)
    rw [h3] at hu
    refine FastStep.of_unit hr hf hu hunit ?_
    have hasm : assemble s (u8MaskLeadByte b 3) 3 (i + 1) = c := by
      rw [u8MaskLeadByte_eq]
      simp only [assemble, show i + 1 + 1 + 1 = i + 1 + 2 from rfl]
      omega
    have hcp := @codePoint_multi s i (i + 1 + 3) b hb (by omega)
    rw [h3, hasm] at hcp
    have hiff : legal 3 c = true ↔ 0x10000 ≤ c ∧ c ≤ 0x10ffff := by
      simp only [legal, utf8MinLegal, decide_eq_true_eq]
      omega
    by_cases hc : 0x10000 ≤ c ∧ c ≤ 0x10ffff
    · rw [if_pos ⟨by omega, by omega, rfl, hiff.mpr hc⟩] at hcp
      rw [if_pos hc, unitValue_of_some hcp]
    rw [if_neg (fun hcon => hc (hiff.mp hcon.2.2.2))] at hcp
    rw [if_neg hc, unitValue_of_none hcp]
    rfl
  · refine FastStep.of_illegal hr hf he (codePoint_eq_none he hb (by omega) (by omega))
      (by omega) htrails ?_
    rw [hunit, if_neg (by omega), hr.trail 0x80 (by omega) (by omega)]

end

theorem fastStep (hr : bmpSet.Represents set.list) (hf : set.bmpSet = none)
    (hb : byteAt s i = some b) (hroom : Room s i b) : FastStep set bmpSet s wanted i := by
  by_cases h0 : b < 0xc0
  · exact fastStep_single hr hf hb h0
  by_cases h1 : b < 0xe0
  · exact fastStep_two hr hf hb (by omega) h1 hroom
  by_cases h2 : b < 0xf0
  · exact fastStep_three hr hf hb (by omega) h2 hroom
  · exact fastStep_four hr hf hb (by omega) hroom

end Fast

section Loop

variable {set : UnicodeSet} {bmpSet : BMPSet} {s : List UInt8} {wanted : Bool} {start : Nat}

/-- The limits for the fast loop, which starts at `start`. -/
structure Limits (set : UnicodeSet) (s : List UInt8) (wanted : Bool) (start limit limit0 : Nat) :
    Prop where
  start_le : start ≤ limit
  le : limit ≤ s.length
  stop : ¬ TrailAt s limit
  room : ∀ i b, start ≤ i → i < limit → byteAt s i = some b → Room s i b
  rest : restFrom set s wanted limit = some limit0

theorem limits_whole (hs : start ≤ s.length)
    (hroom : ∀ i b, start ≤ i → byteAt s i = some b → Room s i b) :
    Limits set s wanted start s.length s.length where
  start_le := hs
  le := Nat.le_refl _
  stop := fun h => Nat.lt_irrefl _ h.lt
  room := fun i b h0 _ hb => hroom i b h0 hb
  rest := restFrom_end

theorem limits_trim (hr : bmpSet.Represents set.list) (hf : set.bmpSet = none) {n b : Nat}
    (hn : 0 < n) (hs : start + n ≤ s.length) (hb : byteAt s (s.length - n) = some b)
    (hb0 : 0xc0 ≤ b) (ht : ∀ k, s.length - n < k → k < s.length → TrailAt s k)
    (hcount : u8CountTrailBytes b = 0 ∨ n ≤ u8CountTrailBytes b) :
    Limits set s wanted start (bmpSet.trim wanted s.length n).1
      (bmpSet.trim wanted s.length n).2 where
  start_le := by simp only [BMPSet.trim]; omega
  le := by simp only [BMPSet.trim]; omega
  stop := fun h => by
    have := h.of_byteAt hb
    omega
  room := fun i b' h0 hi hb' => by
    simp only [BMPSet.trim] at hi
    have hstop : ∀ k, TrailAt s k → k ≠ s.length - n := by
      rintro k hk rfl
      have := hk.of_byteAt hb
      omega
    refine ⟨fun _ => by omega, fun _ h1 => ?_, fun _ h1 h2 => ?_⟩
    · have := hstop _ h1
      omega
    have := hstop _ h1
    have := hstop _ h2
    omega
  rest := by
    obtain ⟨e, he⟩ := exists_isUnit (lt_of_byteAt hb)
    have hlt := he.lt
    have hle := he.le
    have hnone : codePoint s (s.length - n) e = none := by
      refine codePoint_eq_none he hb (by omega) ?_
      rcases hcount with h0 | hge
      · exact Or.inl h0
      · exact Or.inr (Or.inr ⟨s.length, by omega, by omega, fun h => Nat.lt_irrefl _ h.lt⟩)
    simp only [BMPSet.trim]
    rw [restFrom_illegal hr.valid hf he hnone (show s.length - n < s.length by omega) ht,
      restFrom_end, hr.trail 0x80 (by omega) (by omega)]
    split <;> rfl

/-- Trimming never reads outside of the string and leaves limits for the loop. -/
theorem trimLimit_spec (hr : bmpSet.Represents set.list) (hf : set.bmpSet = none)
    (hs : start < s.length) :
    ∃ limit limit0, bmpSet.trimLimit s wanted s.length (s.length - start) = some (limit, limit0) ∧
      Limits set s wanted start limit limit0 := by
  obtain ⟨b, hb, hblt⟩ := byteAt_eq_some (show s.length - 1 < s.length by omega)
  simp only [BMPSet.trimLimit, hb, Option.bind_eq_bind, Option.bind_some]
  -- An offset with a byte that has no room would be one of the last three.
  have room : ∀ {i b' : Nat}, byteAt s i = some b' →
      (i = s.length - 1 → b' < 0xc0) →
      (i + 2 = s.length → 0xe0 ≤ b' → ¬ TrailAt s (i + 1)) →
      (i + 3 = s.length → 0xf0 ≤ b' → ¬ (TrailAt s (i + 1) ∧ TrailAt s (i + 2))) → Room s i b' := by
    intro i b' hb' h1 h2 h3
    have hi := lt_of_byteAt hb'
    refine ⟨fun h => ?_, fun h ht => ?_, fun h ht ht2 => ?_⟩
    · by_contra hcon
      have := h1 (by omega)
      omega
    · have := ht.lt
      by_contra hcon
      exact h2 (by omega) h ht
    · have := ht2.lt
      by_contra hcon
      exact h3 (by omega) h ⟨ht, ht2⟩
  have last : ∀ {i b' : Nat}, byteAt s i = some b' → i = s.length - 1 → b' = b := by
    rintro i b' hb' rfl
    rw [hb, Option.some.injEq] at hb'
    exact hb'.symm
  by_cases hascii : b < 0x80
  · rw [if_pos hascii]
    have hno : ¬ TrailAt s (s.length - 1) := fun h => by
      have := h.of_byteAt hb
      omega
    refine ⟨_, _, rfl, limits_whole (Nat.le_of_lt hs) fun i b' h0 hb' => room hb' ?_ ?_ ?_⟩
    · intro hi
      have := last hb' hi
      omega
    · intro hi _ ht
      exact hno (by rwa [show s.length - 1 = i + 1 by omega])
    · rintro hi - ⟨-, ht⟩
      exact hno (by rwa [show s.length - 1 = i + 2 by omega])
  rw [if_neg hascii]
  by_cases htrail : b < 0xc0
  case neg =>
    rw [if_neg htrail]
    have hcount : u8CountTrailBytes b = 0 ∨ 1 ≤ u8CountTrailBytes b := by omega
    exact ⟨_, _, rfl, limits_trim hr hf (by omega) (by omega) hb (by omega) (by omega) hcount⟩
  rw [if_pos htrail]
  have hlast : TrailAt s (s.length - 1) := ⟨b, hb, by omega, htrail⟩
  by_cases h2 : s.length - start ≥ 2
  case neg =>
    rw [if_neg h2]
    refine ⟨_, _, rfl, limits_whole (Nat.le_of_lt hs) fun i b' h0 hb' => ?_⟩
    have hi := lt_of_byteAt hb'
    have := last hb' (by omega)
    exact room hb' (by omega) (by omega) (by omega)
  rw [if_pos h2]
  obtain ⟨b2, hb2, hb2lt⟩ := byteAt_eq_some (show s.length - 2 < s.length by omega)
  rw [hb2, Option.bind_some]
  by_cases he0 : b2 ≥ 0xe0
  · rw [if_pos he0]
    have hcount : u8CountTrailBytes b2 = 0 ∨ 2 ≤ u8CountTrailBytes b2 := by
      unfold u8CountTrailBytes
      split_ifs <;> omega
    refine ⟨_, _, rfl, limits_trim hr hf (by omega) (by omega) hb2 (by omega) (fun k hk hkl => ?_)
      hcount⟩
    rwa [show k = s.length - 1 by omega]
  rw [if_neg he0]
  have second : ∀ {i b' : Nat}, byteAt s i = some b' → i + 2 = s.length → b' = b2 := by
    intro i b' hb' hi
    rw [show s.length - 2 = i by omega, hb', Option.some.injEq] at hb2
    exact hb2
  by_cases ht2 : b2 < 0xc0 ∧ b2 ≥ 0x80 ∧ s.length - start ≥ 3
  · rw [if_pos ht2]
    have hlast2 : TrailAt s (s.length - 2) := ⟨b2, hb2, ht2.2.1, ht2.1⟩
    obtain ⟨b3, hb3, hb3lt⟩ := byteAt_eq_some (show s.length - 3 < s.length by omega)
    rw [hb3, Option.bind_some]
    by_cases hf0 : b3 ≥ 0xf0
    · rw [if_pos hf0]
      have hcount : u8CountTrailBytes b3 = 0 ∨ 3 ≤ u8CountTrailBytes b3 := by
        unfold u8CountTrailBytes
        split_ifs <;> omega
      refine ⟨_, _, rfl, limits_trim hr hf (by omega) (by omega) hb3 (by omega)
        (fun k hk hkl => ?_) hcount⟩
      have : k = s.length - 1 ∨ k = s.length - 2 := by omega
      rcases this with rfl | rfl <;> assumption
    rw [if_neg hf0]
    refine ⟨_, _, rfl, limits_whole (Nat.le_of_lt hs) fun i b' h0 hb' => room hb' ?_ ?_ ?_⟩
    · intro hi
      have := last hb' hi
      omega
    · intro hi hge
      have := second hb' hi
      omega
    · intro hi hge
      rw [show s.length - 3 = i by omega, hb', Option.some.injEq] at hb3
      omega
  · rw [if_neg ht2]
    refine ⟨_, _, rfl, limits_whole (Nat.le_of_lt hs) fun i b' h0 hb' => room hb' ?_ ?_ ?_⟩
    · intro hi
      have := last hb' hi
      omega
    · intro hi hge
      have := second hb' hi
      omega
    · rintro hi hge ⟨h1, -⟩
      rw [show i + 1 = s.length - 2 by omega] at h1
      have := h1.of_byteAt hb2
      omega

theorem spanUTF8Loop_eq (hr : bmpSet.Represents set.list) (hf : set.bmpSet = none)
    {limit limit0 : Nat} (hlim : Limits set s wanted start limit limit0) :
    ∀ (fuel i : Nat), start ≤ i → i ≤ limit → limit - i < fuel →
      bmpSet.spanUTF8Loop s wanted limit limit0 fuel i = restFrom set s wanted i := by
  intro fuel
  induction fuel with
  | zero => omega
  | succ fuel ih =>
    intro i h0 hi hfuel
    have hle := hlim.le
    by_cases hend : i < limit
    · obtain ⟨b, hb, -⟩ := byteAt_eq_some (show i < s.length by omega)
      obtain ⟨has, next, hunit, hlt, ht, hrest⟩ :=
        @fastStep set bmpSet s wanted i b hr hf hb (hlim.room i b h0 hend hb)
      have hnext : next ≤ limit := by
        by_contra hcon
        exact hlim.stop (ht limit hend (by omega))
      simp only [BMPSet.spanUTF8Loop, if_pos hend, hunit, hrest]
      rw [ih next (by omega) hnext (by omega)]
    · have : i = limit := by omega
      subst this
      simp only [BMPSet.spanUTF8Loop, if_neg hend, hlim.rest]

/-- The initial ASCII span either ends the span or leads to a byte that is not ASCII. -/
theorem spanAscii_spec (hr : bmpSet.Represents set.list) (hf : set.bmpSet = none) :
    ∀ (fuel i : Nat), i < s.length → s.length - i ≤ fuel →
      (∃ n, bmpSet.spanAscii s wanted s.length fuel i = some (.error n) ∧
        restFrom set s wanted i = some n) ∨
      ∃ j, bmpSet.spanAscii s wanted s.length fuel i = some (.ok j) ∧ j < s.length ∧
        restFrom set s wanted i = restFrom set s wanted j := by
  intro fuel
  induction fuel with
  | zero => omega
  | succ fuel ih =>
    intro i hi hfuel
    obtain ⟨b, hb, -⟩ := byteAt_eq_some hi
    simp only [BMPSet.spanAscii, hb, Option.bind_eq_bind, Option.bind_some]
    by_cases hascii : b < 0x80
    · have hz := u8CountTrailBytes_eq_zero (show b < 0xc0 by omega)
      have hu := isUnit_complete hb (by omega)
      rw [hz, Nat.add_zero] at hu
      have hrest := @restFrom_unit set s wanted i (i + 1) hr.valid hf hu
      rw [unitValue_of_some (codePoint_single hb hascii), ← hr.ascii b hascii] at hrest
      rw [if_pos hascii, hrest]
      by_cases hval : bmpSet.asciiBytes b ≠ wanted
      · rw [if_pos hval, if_pos hval]
        exact Or.inl ⟨i, rfl, rfl⟩
      rw [if_neg hval, if_neg hval]
      by_cases hend : i + 1 = s.length
      · rw [if_pos hend, hend]
        exact Or.inl ⟨s.length, rfl, restFrom_end⟩
      · rw [if_neg hend]
        exact ih (i + 1) (by omega) (by omega)
    · rw [if_neg hascii]
      exact Or.inr ⟨i, rfl, hi, rfl⟩

theorem spanUTF8_eq (hr : bmpSet.Represents set.list) (hf : set.bmpSet = none) (hs : 0 < s.length)
    (cond : USetSpanCondition) : bmpSet.spanUTF8 s cond = restFrom set s cond.holds 0 := by
  simp only [BMPSet.spanUTF8, Option.bind_eq_bind]
  rcases @spanAscii_spec set bmpSet s cond.holds hr hf s.length 0 hs (by omega) with
    ⟨n, hn, hrest⟩ | ⟨j, hj, hlt, hrest⟩
  · rw [hn, hrest]
    rfl
  obtain ⟨limit, limit0, htrim, hlim⟩ := @trimLimit_spec set bmpSet s cond.holds j hr hf hlt
  have hle := hlim.le
  rw [hj, Option.bind_some, hrest]
  simp only [htrim, Option.bind_some]
  exact spanUTF8Loop_eq hr hf hlim (s.length + 1) j (Nat.le_refl _) hlim.start_le (by omega)

end Loop

section Back

variable {set : UnicodeSet} {bmpSet : BMPSet} {s : List UInt8} {i : Nat}

def NonAscii (v : Int) : Prop :=
  ∃ c : Nat, v = c ∧ 0x80 ≤ c ∧ c ≤ 0x10ffff ∧ ¬ (0xd800 ≤ c ∧ c < 0xe000)

theorem nonAscii_error (count : Nat) : NonAscii (errorValue count (-3)) :=
  ⟨0xfffd, rfl, by omega, by omega, by omega⟩

theorem prevLoop_valid {pos : Nat} (hpos : pos < s.length) :
    ∀ (fuel i c count shift : Nat), i ≤ pos → 1 ≤ count → count ≤ 5 → 5 < count + fuel →
      ∃ v j, prevLoop s 0 pos (-3) fuel i c count shift = some (v, j) ∧ j ≤ pos ∧ NonAscii v := by
  intro fuel
  induction fuel with
  | zero => omega
  | succ fuel ih =>
    intro i c count shift hi h1 h5 hf
    simp only [prevLoop]
    by_cases hstart : i ≤ 0
    · exact ⟨_, pos, by rw [if_pos hstart], Nat.le_refl _, nonAscii_error 0⟩
    obtain ⟨b, hb, -⟩ := byteAt_eq_some (show i - 1 < s.length by omega)
    simp only [if_neg hstart, hb]
    by_cases hr : 0x80 ≤ b ∧ b < 0xfe
    case neg => exact ⟨_, pos, by rw [if_neg hr], Nat.le_refl _, nonAscii_error 0⟩
    rw [if_pos hr]
    by_cases hlead : b &&& 0x40 ≠ 0
    case neg =>
      rw [if_neg hlead]
      by_cases h5' : count < 5
      · rw [if_pos h5']
        exact ih (i - 1) _ (count + 1) (shift + 6) (by omega) (by omega) (by omega) (by omega)
      · exact ⟨_, pos, by rw [if_neg h5'], Nat.le_refl _, nonAscii_error 0⟩
    rw [if_pos hlead]
    by_cases hcount : count = u8CountTrailBytes b
    case neg =>
      rw [if_neg hcount]
      by_cases hlt : count < u8CountTrailBytes b
      · exact ⟨_, i - 1, by rw [if_pos hlt], by omega, nonAscii_error count⟩
      · exact ⟨_, pos, by rw [if_neg hlt], Nat.le_refl _, nonAscii_error 0⟩
    rw [if_pos hcount]
    generalize c ||| (u8MaskLeadByte b count <<< shift) = v
    by_cases hill : count ≥ 4 ∨ v > 0x10ffff ∨ v < utf8MinLegal count ∨
        (Utf16.uIsSurrogate v ∧ (-3 : Int) ≠ -2) ∨ ((-3 : Int) > 0 ∧ uIsUnicodeNonchar v)
    · exact ⟨_, i - 1, by rw [if_pos hill], by omega, nonAscii_error _⟩
    refine ⟨_, i - 1, by rw [if_neg hill], by omega, v, rfl, ?_⟩
    rw [not_legal_iff (by decide) (by decide)
      (by by_contra hcon; exact hill (Or.inl (by omega))), not_not, legal,
      decide_eq_true_eq] at hill
    have hmin : 0x80 ≤ utf8MinLegal count := by
      unfold utf8MinLegal
      split <;> omega
    omega

theorem utf8PrevCharSafeBody_valid {b : Nat} (hi : i < s.length) :
    ∃ v j, utf8PrevCharSafeBody s 0 i b (-3) = some (v, j) ∧ j ≤ i ∧ NonAscii v := by
  unfold utf8PrevCharSafeBody
  split
  · exact ⟨_, i, rfl, Nat.le_refl _, nonAscii_error 0⟩
  · exact prevLoop_valid hi 6 i _ 1 6 (Nat.le_refl _) (by omega) (by omega) (by omega)

theorem containsNonAscii_eq (hr : bmpSet.Represents set.list) {v : Int} (h : NonAscii v) :
    bmpSet.containsNonAscii v.toNat = some (covers set.list v) := by
  obtain ⟨c, rfl, h0, h1, h2⟩ := h
  rw [Int.toNat_natCast, BMPSet.containsNonAscii]
  by_cases h7ff : c ≤ 0x7ff
  · rw [if_pos h7ff, hr.twoByte c (by omega), if_neg (by omega)]
  rw [if_neg h7ff]
  by_cases hbmp : c ≤ 0xffff
  · rw [if_pos hbmp, hr.containsBMP (by omega) (by omega) (by omega)]
  · rw [if_neg hbmp, hr.containsSupplementary (by omega) (by omega)]

theorem spanBackUTF8Unit_eq (hr : bmpSet.Represents set.list) (hf : set.bmpSet = none)
    (h0 : 0 < i) (hi : i ≤ s.length) : ∃ has prev, bmpSet.spanBackUTF8Unit s i = some (has, prev) ∧
      set.spanBackUTF8Unit s i = some (has, prev) ∧ prev < i := by
  have hhigh : unicodesetHigh = 0x110000 := rfl
  obtain ⟨b, hb, -⟩ := byteAt_eq_some (show i - 1 < s.length by omega)
  by_cases hascii : b < 0x80
  · have hno : ¬ b ≥ 0x80 := by omega
    refine ⟨covers set.list b, i - 1, ?_, ?_, by omega⟩
    · simp [BMPSet.spanBackUTF8Unit, hb, hascii, hr.ascii b hascii]
    have hlt : (b : Int) < unicodesetHigh := by omega
    simp [UnicodeSet.spanBackUTF8Unit, u8PrevOrFFFD, u8PrevStrict, hb, hno,
      UnicodeSet.contains_eq hr.valid hf, hlt]
  obtain ⟨v, prev, hbody, hle, hv⟩ := @utf8PrevCharSafeBody_valid s (i - 1) b (by omega)
  have hlt : v < unicodesetHigh := by
    obtain ⟨c, rfl, -, h1, -⟩ := hv
    omega
  refine ⟨covers set.list v, prev, ?_, ?_, by omega⟩
  · simp [BMPSet.spanBackUTF8Unit, hb, hascii, hbody, containsNonAscii_eq hr hv]
  have hge : b ≥ 0x80 := by omega
  simp [UnicodeSet.spanBackUTF8Unit, u8PrevOrFFFD, u8PrevStrict, hb, hge, hbody,
    UnicodeSet.contains_eq hr.valid hf, hlt]

end Back

/-- A frozen set spans every byte string as the loops over units do, and it reads no byte
outside of the string. -/
theorem freeze_spanUTF8 {set : UnicodeSet} (h : CodePointSet set) :
    ∃ bmpSet frozen, BMPSet.new set.list = some bmpSet ∧ set.freeze = some frozen ∧
      frozen.bmpSet = some bmpSet ∧
      ∀ (s : List UInt8) (cond : USetSpanCondition), s.length ≥ 1 →
        (∃ n ≤ s.length, bmpSet.spanUTF8 s cond = some n ∧ frozen.spanUTF8 s cond = some n ∧
          set.spanUTF8 s cond = some n) ∧
        ∃ n ≤ s.length, bmpSet.spanBackUTF8 s cond = some n ∧ frozen.spanBackUTF8 s cond = some n ∧
          set.spanBackUTF8 s cond = some n := by
  have hf : set.bmpSet = none := by simpa [isFrozen] using h.thawed
  obtain ⟨bmpSet, hnew, hr⟩ := BMPSet.new_represents h.list
  refine ⟨bmpSet, { set with bmpSet := some bmpSet }, hnew,
    by simp [freeze, h.thawed, h.sound, hnew], rfl, fun s cond hs => ⟨?_, ?_⟩⟩
  · obtain ⟨b, bs, rfl⟩ : ∃ b bs, s = b :: bs := List.exists_cons_of_length_pos hs
    have hadv := @spanUTF8Unit_advances set (b :: bs) h.list hf
    obtain ⟨n, hn, -, hle⟩ := @scan_agree _ _ cond.holds _ (fun i hi => by
      obtain ⟨has, next, hu, hlt⟩ := hadv i hi
      exact ⟨has, next, hu, hu, hlt⟩) (b :: bs).length 0 hs (by simp)
    have hrest : restFrom set (b :: bs) cond.holds 0 = some n := by
      rw [restFrom, scanFrom, if_pos (show 0 < (b :: bs).length from hs)]
      exact hn
    have hfast := spanUTF8_eq hr hf hs cond
    rw [hrest] at hfast
    exact ⟨n, hle, hfast, hfast, by simp only [UnicodeSet.spanUTF8, hf]; exact hn⟩
  · obtain ⟨b, bs, rfl⟩ : ∃ b bs, s = b :: bs := List.exists_cons_of_length_pos hs
    obtain ⟨n, h1, h2, hle⟩ := @scanBack_agree _ _ cond.holds _
      (fun i h0 hi => @spanBackUTF8Unit_eq set bmpSet (b :: bs) i hr hf h0 hi) (b :: bs).length
      (b :: bs).length hs (Nat.le_refl _) (Nat.le_refl _)
    exact ⟨n, hle, h1, h1, by simp only [UnicodeSet.spanBackUTF8, hf]; exact h2⟩

theorem freeze_spanUTF8_truncated : CodePointSet ⟨[0xfffd, 0xfffe, 0x110000], [], none, false⟩ ∧
      ∃ bmpSet, BMPSet.new [0xfffd, 0xfffe, 0x110000] = some bmpSet ∧
        ∃ n ≤ 3, bmpSet.spanUTF8 [0xf1, 0x80, 0xe1] .contained = some n ∧
          UnicodeSet.spanUTF8 ⟨[0xfffd, 0xfffe, 0x110000], [], none, false⟩ [0xf1, 0x80, 0xe1]
            .contained = some n := by
  have h : CodePointSet ⟨[0xfffd, 0xfffe, 0x110000], [], none, false⟩ :=
    ⟨⟨by decide, by decide, by decide⟩, rfl, rfl, rfl⟩
  obtain ⟨bmpSet, frozen, hnew, -, -, hspan⟩ := freeze_spanUTF8 h
  obtain ⟨⟨n, hle, hfast, -, hslow⟩, -⟩ := hspan [0xf1, 0x80, 0xe1] .contained (by decide)
  exact ⟨h, bmpSet, hnew, n, hle, hfast, hslow⟩

end Icu
