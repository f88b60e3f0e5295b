import Icu.StrTrans.Model
import Icu.Utf8.Units
import Icu.Utf16.CodePoints

/-! # The decoders of `u_strFromUTF8WithSub`

Inline processing and both functions read one unit, and yield its code point if it is
well-formed.
-/

namespace Icu.StrTrans

open Lib Utf16 Utf8

variable {s : List UInt8} {p e b i c : Nat} {v count : Nat}

theorem TrailAt_byte (h : TrailAt s i) : ∃ b, byteAt s i = some b ∧ b &&& 0x3f = payload s i ∧
    isIllegalTrail b = false ∧ trailValue b = payload s i ∧ payload s i < 64 := by
  obtain ⟨b, hb, h0, h1, hp⟩ := h.payload
  have hbits : ∀ b < 0x100, 0x80 ≤ b → b < 0xc0 → b &&& 0x3f = b - 0x80 ∧ isIllegalTrail b =
    false := by
    set_option maxRecDepth 1000 in decide
  obtain ⟨hand, hillegal⟩ := hbits b (byteAt_lt hb) h0 h1
  exact ⟨b, hb, by rw [hand, hp], hillegal, by rw [trailValue_eq h0 h1, hp], by omega⟩

theorem not_trailAt_byte (hi : i < s.length) (h : ¬ TrailAt s i) :
    ∃ b, byteAt s i = some b ∧ isIllegalTrail b = true ∧ trailValue b > 0x3f := by
  obtain ⟨b, hb, hvalue⟩ := trailValue_of_not_trailAt hi h
  have hbits : ∀ b < 0x100, trailValue b > 0x3f → isIllegalTrail b = true := by
    set_option maxRecDepth 1000 in decide
  exact ⟨b, hb, hbits b (byteAt_lt hb) hvalue, hvalue⟩

theorem payload_lt (h : TrailAt s i) : payload s i < 64 := by
  obtain ⟨-, -, -, -, -, hlt⟩ := TrailAt_byte h
  exact hlt

theorem shift_or_low (h : v < 64) : (c <<< 6) ||| v = c * 64 + v := @Bits.or_low c v 6 h

theorem skipTrails_stop : ∀ {count i j : Nat}, i ≤ j → (∀ k, i ≤ k → k < j → TrailAt s k) →
    (j = i + count ∨ j < i + count ∧ j < s.length ∧ ¬ TrailAt s j) → skipTrails s count i = some j
  | 0, i, j, hij, _, hstop => by
    rcases hstop with rfl | hlt
    · rfl
    · omega
  | count + 1, i, j, hij, htrails, hstop => by
    rw [skipTrails]
    rcases Nat.eq_or_lt_of_le hij with rfl | hlt
    · rcases hstop with heq | ⟨-, hlen, hno⟩
      · omega
      obtain ⟨b, hb, hblt⟩ := byteAt_eq_some hlen
      have hb' : ¬ u8IsTrail b = true := fun ht => hno ⟨b, hb, (u8IsTrail_iff hblt).mp ht⟩
      simp [hb, hb']
    obtain ⟨b, hb, h0, h1⟩ := htrails i (le_refl i) hlt
    have hb' : u8IsTrail b = true := (u8IsTrail_iff (byteAt_lt hb)).mpr ⟨h0, h1⟩
    have hrest := @skipTrails_stop count (i + 1) j hlt
      (fun k h2 h3 => htrails k (by omega) h3)
      (by rw [show i + 1 + count = i + (count + 1) by omega]; exact hstop)
    simp [hb, hb', hrest]

theorem skipTrailsTo_stop : ∀ {count i j : Nat}, i ≤ j → j ≤ s.length →
    (∀ k, i ≤ k → k < j → TrailAt s k) →
    (j = i + count ∨ j < i + count ∧ (j < s.length → ¬ TrailAt s j)) →
    skipTrailsTo s s.length count i = some j
  | 0, i, j, hij, _, _, hstop => by
    rcases hstop with rfl | hlt
    · rfl
    · omega
  | count + 1, i, j, hij, hlen, htrails, hstop => by
    rw [skipTrailsTo]
    rcases Nat.eq_or_lt_of_le hij with rfl | hlt
    · by_cases hi : i < s.length
      · rcases hstop with heq | ⟨-, hno⟩
        · omega
        obtain ⟨b, hb, hblt⟩ := byteAt_eq_some hi
        have hb' : ¬ u8IsTrail b = true :=
          fun ht => hno hi ⟨b, hb, (u8IsTrail_iff hblt).mp ht⟩
        simp [hi, hb, hb']
      · rw [if_neg hi]
    · obtain ⟨b, hb, h0, h1⟩ := htrails i (le_refl i) hlt
      have hb' : u8IsTrail b = true := (u8IsTrail_iff (byteAt_lt hb)).mpr ⟨h0, h1⟩
      have hrest := @skipTrailsTo_stop count (i + 1) j hlt hlen
        (fun k h2 h3 => htrails k (by omega) h3)
        (by rw [show i + 1 + count = i + (count + 1) by omega]; exact hstop)
      rw [if_pos (lt_of_byteAt hb)]
      simp [hb, hb', hrest]

/-- In a string with a NUL at its end, the error handling stops at the end of the unit. -/
theorem skipTrails_unit (h : IsUnit s p e) (hb : byteAt s p = some b) (he : e < s.length) :
    skipTrails s (u8CountTrailBytes b) (p + 1) = some e := by
  have hlt := h.lt
  have hshort := h.short b hb
  apply skipTrails_stop hlt (fun k h1 h2 => h.trails k (by omega) h2)
  rcases Nat.eq_or_lt_of_le hshort with heq | hlt'
  · exact .inl heq
  · exact .inr ⟨hlt', he, h.maximal b hb hlt'⟩

theorem skipTrailsTo_unit (h : IsUnit s p e) (hb : byteAt s p = some b) :
    skipTrailsTo s s.length (u8CountTrailBytes b) (p + 1) = some e := by
  have hlt := h.lt
  have hshort := h.short b hb
  apply skipTrailsTo_stop hlt h.le (fun k h1 h2 => h.trails k (by omega) h2)
  rcases Nat.eq_or_lt_of_le hshort with heq | hlt'
  · exact .inl heq
  · exact .inr ⟨hlt', fun _ => h.maximal b hb hlt'⟩

/-! ## Switches -/

/-- What a `switch` is for: a value that passes all tests is the code point, and one is found
if there is one. -/
def Accepts (s : List UInt8) (p e count : Nat) (r : Bool × Nat × Nat) : Prop :=
  (if r.1 = true ∨ r.2.1 < utf8MinLegal count ∨ uIsSurrogate r.2.1 = true then none
    else some (r.2.1, r.2.2)) = (codePoint s p e).map fun c => (c, e)

theorem accepts_of_illegal {c' i' : Nat} (h : codePoint s p e = none) :
    Accepts s p e count (true, c', i') := by
  rw [Accepts, if_pos (.inl rfl), h]
  rfl

section

variable (hb : byteAt s p = some b)
include hb

theorem accepts_of_complete (hb80 : ¬ b < 0x80)
    (hcount : u8CountTrailBytes b = count) (h1 : 1 ≤ count) (h3 : count ≤ 3)
    (he : e = p + 1 + count)
    (hv : assemble s (u8MaskLeadByte b count) count (p + 1) = v) (hv' : v ≤ 0x10ffff) :
    Accepts s p e count (false, v, e) := by
  have hsurrogate : uIsSurrogate v = true ↔ 0xd800 ≤ v ∧ v < 0xe000 := by
    rw [uIsSurrogate_iff (by omega)]
    omega
  have hlegal : legal count v = true ↔
      ¬ (false = true ∨ v < utf8MinLegal count ∨ uIsSurrogate v = true) := by
    rw [hsurrogate, legal, decide_eq_true_eq]
    simp only [Bool.false_eq_true, false_or]
    omega
  rw [Accepts, codePoint_multi hb hb80, hcount, hv]
  by_cases hl : legal count v = true
  · rw [if_neg (hlegal.mp hl), if_pos ⟨h1, h3, he, hl⟩]
    rfl
  rw [if_pos (by
    by_contra hno
    exact hl (hlegal.mpr hno)), if_neg (fun h => hl h.2.2.2)]
  rfl

theorem codePoint_large (hb80 : ¬ b < 0x80) (hcount : u8CountTrailBytes b = count)
    (hv : 0x10ffff < assemble s (u8MaskLeadByte b count) count (p + 1)) :
    codePoint s p e = none := by
  rw [codePoint_multi hb hb80, hcount, if_neg]
  rintro ⟨-, -, -, hl⟩
  rw [legal, decide_eq_true_eq] at hl
  omega

theorem codePoint_incomplete (hb80 : ¬ b < 0x80)
    (he : e ≠ p + 1 + u8CountTrailBytes b) : codePoint s p e = none := by
  rw [codePoint_multi hb hb80, if_neg (fun h => he h.2.2.1)]

theorem codePoint_count (hb80 : ¬ b < 0x80)
    (hcount : ¬ (1 ≤ u8CountTrailBytes b ∧ u8CountTrailBytes b ≤ 3)) : codePoint s p e = none := by
  rw [codePoint_multi hb hb80, if_neg (fun h => hcount ⟨h.1, h.2.1⟩)]

end

section Pointer

variable {illegal : Bool}

theorem pointerCase1_trail (h : TrailAt s i) :
    pointerCase1 s illegal c i = some (illegal, c * 64 + payload s i, i + 1) := by
  obtain ⟨b, hb, hand, hillegal, -, hlt⟩ := TrailAt_byte h
  simp [pointerCase1, hb, hand, hillegal, shift_or_low hlt]

theorem pointerCase2_trail (h : TrailAt s i) :
    pointerCase2 s illegal c i = pointerCase1 s illegal (c * 64 + payload s i) (i + 1) := by
  obtain ⟨b, hb, hand, hillegal, -, hlt⟩ := TrailAt_byte h
  simp [pointerCase2, hb, hand, hillegal, shift_or_low hlt]

theorem pointerCase3_trail (h : TrailAt s i) : pointerCase3 s illegal c i =
      if c * 64 + payload s i < 0x110 then
        pointerCase2 s illegal (c * 64 + payload s i) (i + 1)
      else some (true, c * 64 + payload s i, i + 1) := by
  obtain ⟨b, hb, hand, hillegal, -, hlt⟩ := TrailAt_byte h
  simp [pointerCase3, hb, hand, hillegal, shift_or_low hlt]

theorem pointerCase1_illegal (hi : i < s.length) (h : illegal = true ∨ ¬ TrailAt s i) :
    ∃ c' i', pointerCase1 s illegal c i = some (true, c', i') := by
  by_cases ht : TrailAt s i
  · obtain rfl := h.resolve_right (not_not.mpr ht)
    exact ⟨_, _, pointerCase1_trail ht⟩
  obtain ⟨b, hb, hillegal, -⟩ := not_trailAt_byte hi ht
  simp only [pointerCase1, hb, hillegal, Option.bind_eq_bind, Option.bind_some, Bool.or_true]
  exact ⟨_, _, rfl⟩

theorem pointerCase2_illegal (hi : i + 1 < s.length)
    (h : illegal = true ∨ ¬ TrailAt s i ∨ ¬ TrailAt s (i + 1)) :
    ∃ c' i', pointerCase2 s illegal c i = some (true, c', i') := by
  by_cases ht : TrailAt s i
  · rw [pointerCase2_trail ht]
    exact pointerCase1_illegal hi (h.imp_right fun h => h.resolve_left (not_not.mpr ht))
  obtain ⟨b, hb, hillegal, -⟩ := not_trailAt_byte (by omega) ht
  simp only [pointerCase2, hb, hillegal, Option.bind_eq_bind, Option.bind_some, Bool.or_true]
  exact pointerCase1_illegal hi (.inl rfl)

theorem pointerCase3_illegal (hi : i + 2 < s.length)
    (h : ¬ TrailAt s i ∨ ¬ TrailAt s (i + 1) ∨ ¬ TrailAt s (i + 2)) :
    ∃ c' i', pointerCase3 s illegal c i = some (true, c', i') := by
  by_cases ht : TrailAt s i
  · rw [pointerCase3_trail ht]
    split
    · exact pointerCase2_illegal hi (.inr (h.resolve_left (not_not.mpr ht)))
    · exact ⟨_, _, rfl⟩
  obtain ⟨b, hb, hillegal, -⟩ := not_trailAt_byte (by omega) ht
  simp only [pointerCase3, hb, hillegal, Option.bind_eq_bind, Option.bind_some, Bool.or_true]
  split
  · exact pointerCase2_illegal hi (.inl rfl)
  · exact ⟨_, _, rfl⟩

end Pointer

theorem u8MaskLeadByte_bounds (b : Nat) : u8MaskLeadByte b 1 < 32 ∧ u8MaskLeadByte b 2 < 16 ∧
    u8MaskLeadByte b 3 < 8 :=
  ⟨u8MaskLeadByte_lt b 1, u8MaskLeadByte_lt b 2, u8MaskLeadByte_lt b 3⟩

theorem pointerSwitch_accepts (h : IsUnit s p e) (hb : byteAt s p = some b) (hb80 : ¬ b < 0x80)
    (hlen : p + 1 + u8CountTrailBytes b ≤ s.length) :
    ∃ r, pointerSwitch s (u8CountTrailBytes b) (u8MaskLeadByte b (u8CountTrailBytes b)) (p + 1) =
      some r ∧ Accepts s p e (u8CountTrailBytes b) r := by
  have hlt := h.lt
  have hshort := h.short b hb
  obtain ⟨hm1, hm2, hm3⟩ := u8MaskLeadByte_bounds b
  by_cases hrange : 1 ≤ u8CountTrailBytes b ∧ u8CountTrailBytes b ≤ 3
  · by_cases he : e = p + 1 + u8CountTrailBytes b
    · have htrail : ∀ k, k < u8CountTrailBytes b → TrailAt s (p + 1 + k) :=
        fun k hk => h.trails _ (by omega) (by omega)
      obtain hc | hc | hc : u8CountTrailBytes b = 1 ∨ u8CountTrailBytes b = 2 ∨
          u8CountTrailBytes b = 3 := by omega
      · rw [hc] at he htrail ⊢
        have t0 : TrailAt s (p + 1) := htrail 0 (by omega)
        have h0 := payload_lt t0
        refine ⟨_, pointerCase1_trail t0, ?_⟩
        rw [← he]
        exact accepts_of_complete hb hb80 hc (by omega) (by omega) he rfl (by omega)
      · rw [hc] at he htrail ⊢
        have t0 : TrailAt s (p + 1) := htrail 0 (by omega)
        have t1 : TrailAt s (p + 1 + 1) := htrail 1 (by omega)
        have h0 := payload_lt t0
        have h1 := payload_lt t1
        refine ⟨_, (pointerCase2_trail t0).trans (pointerCase1_trail t1), ?_⟩
        rw [show p + 1 + 1 + 1 = e by omega]
        exact accepts_of_complete hb hb80 hc (by omega) (by omega) he rfl (by omega)
      · rw [hc] at he htrail ⊢
        have t0 : TrailAt s (p + 1) := htrail 0 (by omega)
        have t1 : TrailAt s (p + 1 + 1) := htrail 1 (by omega)
        have t2 : TrailAt s (p + 1 + 1 + 1) := htrail 2 (by omega)
        have h1 := payload_lt t1
        have h2 := payload_lt t2
        have hstep := @pointerCase3_trail s (p + 1) (u8MaskLeadByte b 3) false t0
        by_cases hlarge : u8MaskLeadByte b 3 * 64 + payload s (p + 1) < 0x110
        · rw [if_pos hlarge] at hstep
          refine ⟨_, hstep.trans ((pointerCase2_trail t1).trans (pointerCase1_trail t2)), ?_⟩
          rw [show p + 1 + 1 + 1 + 1 = e by omega]
          exact accepts_of_complete hb hb80 hc (by omega) (by omega) he rfl (by omega)
        · rw [if_neg hlarge] at hstep
          refine ⟨_, hstep, accepts_of_illegal (codePoint_large hb hb80 hc ?_)⟩
          simp only [assemble]
          omega
    · -- the byte behind the unit is no trail byte
      have hno := h.maximal b hb (by omega)
      have hnone := codePoint_incomplete hb hb80 he
      obtain hc | hc | hc : u8CountTrailBytes b = 1 ∨ u8CountTrailBytes b = 2 ∨
          u8CountTrailBytes b = 3 := by omega
      · rw [hc] at hlen he hshort ⊢
        obtain ⟨c', i', hr⟩ := @pointerCase1_illegal s (p + 1) (u8MaskLeadByte b 1) false
          (by omega) (.inr (by rw [show p + 1 = e by omega]; exact hno))
        exact ⟨_, hr, accepts_of_illegal hnone⟩
      · rw [hc] at hlen he hshort ⊢
        obtain ⟨c', i', hr⟩ := @pointerCase2_illegal s (p + 1) (u8MaskLeadByte b 2) false
          (by omega) (.inr (by
            obtain rfl | rfl : e = p + 1 ∨ e = p + 1 + 1 := by omega
            · exact .inl hno
            · exact .inr hno))
        exact ⟨_, hr, accepts_of_illegal hnone⟩
      · rw [hc] at hlen he hshort ⊢
        obtain ⟨c', i', hr⟩ := @pointerCase3_illegal s (p + 1) (u8MaskLeadByte b 3) false
          (by omega) (by
            obtain rfl | rfl | rfl : e = p + 1 ∨ e = p + 1 + 1 ∨ e = p + 1 + 2 := by omega
            · exact .inl hno
            · exact .inr (.inl hno)
            · exact .inr (.inr hno))
        exact ⟨_, hr, accepts_of_illegal hnone⟩
  · have hr : pointerSwitch s (u8CountTrailBytes b) (u8MaskLeadByte b (u8CountTrailBytes b))
        (p + 1) = some (true, u8MaskLeadByte b (u8CountTrailBytes b), p + 1) := by
      unfold pointerSwitch
      split <;> first | omega | rfl
    exact ⟨_, hr, accepts_of_illegal (codePoint_count hb hb80 hrange)⟩

theorem utf8NextCharSafeBodyPointer_eq (h : IsUnit s p e) (hb : byteAt s p = some b)
    (hb80 : ¬ b < 0x80) :
    utf8NextCharSafeBodyPointer s (p + 1) s.length b = some (unitValue (-1) s p e, e) := by
  have hlt := h.lt
  have hle := h.le
  have hshort := h.short b hb
  have hskip := skipTrailsTo_unit h hb
  have hfail : codePoint s p e = none → unitValue (-1) s p e = -1 := fun hnone => by
    rw [unitValue, hnone]
    rfl
  rw [utf8NextCharSafeBodyPointer]
  by_cases hlen : s.length - (p + 1) ≥ u8CountTrailBytes b
  · rw [if_pos hlen]
    by_cases hzero : u8CountTrailBytes b = 0
    · rw [if_pos hzero, hfail (codePoint_count hb hb80 (by omega)), show p + 1 = e by omega]
    rw [if_neg hzero]
    obtain ⟨⟨illegal, c, i⟩, hr, haccepts⟩ := pointerSwitch_accepts h hb hb80 (by omega)
    rw [hr]
    simp only [Accepts] at haccepts
    simp only [Option.bind_eq_bind, Option.bind_some, hskip]
    by_cases hbad : illegal = true ∨ c < utf8MinLegal (u8CountTrailBytes b) ∨
        uIsSurrogate c = true
    · rw [if_pos hbad] at haccepts ⊢
      rw [hfail (Option.map_eq_none_iff.mp haccepts.symm)]
      rfl
    rw [if_neg hbad] at haccepts ⊢
    obtain ⟨c', hc', heq⟩ := Option.map_eq_some_iff.mp haccepts.symm
    obtain ⟨rfl, rfl⟩ := Prod.mk.inj heq
    rw [unitValue, hc']
    rfl
  · rw [if_neg hlen, hskip, hfail (codePoint_incomplete hb hb80 (by omega))]
    rfl

section Terminated

theorem terminatedCase1_trail (h : TrailAt s i) :
    terminatedCase1 s c i = some (false, c * 64 + payload s i, i + 1) := by
  obtain ⟨b, hb, -, -, hvalue, hlt⟩ := TrailAt_byte h
  have hno : ¬ payload s i > 0x3f := by omega
  simp [terminatedCase1, hb, hvalue, hno, shift_or_low hlt]

theorem terminatedCase2_trail (h : TrailAt s i) :
    terminatedCase2 s c i = terminatedCase1 s (c * 64 + payload s i) (i + 1) := by
  obtain ⟨b, hb, -, -, hvalue, hlt⟩ := TrailAt_byte h
  have hno : ¬ payload s i > 0x3f := by omega
  simp [terminatedCase2, hb, hvalue, hno, shift_or_low hlt]

theorem terminatedCase3_trail (h : TrailAt s i) : terminatedCase3 s c i =
      if c * 64 + payload s i < 0x110 then terminatedCase2 s (c * 64 + payload s i) (i + 1)
      else some (true, c * 64 + payload s i, i + 1) := by
  obtain ⟨b, hb, -, -, hvalue, hlt⟩ := TrailAt_byte h
  have hno : ¬ payload s i > 0x3f := by omega
  simp only [terminatedCase3, hb, hvalue, hno, shift_or_low hlt, Option.bind_eq_bind,
    Option.bind_some, false_or]
  by_cases hlarge : c * 64 + payload s i < 0x110
  · rw [if_pos hlarge, if_neg (by omega)]
  rw [if_neg hlarge, if_pos (by omega)]
  rfl

variable (hi : i < s.length) (h : ¬ TrailAt s i)

include hi h in
theorem terminatedCase1_other : ∃ c' i', terminatedCase1 s c i = some (true, c', i') := by
  obtain ⟨b, hb, -, hvalue⟩ := not_trailAt_byte hi h
  simp only [terminatedCase1, hb, hvalue, Option.bind_eq_bind, Option.bind_some, decide_true]
  exact ⟨_, _, rfl⟩

include hi h in
theorem terminatedCase2_other : ∃ c' i', terminatedCase2 s c i = some (true, c', i') := by
  obtain ⟨b, hb, -, hvalue⟩ := not_trailAt_byte hi h
  simp only [terminatedCase2, hb, hvalue, Option.bind_eq_bind, Option.bind_some, if_true]
  exact ⟨_, _, rfl⟩

include hi h in
theorem terminatedCase3_other : ∃ c' i', terminatedCase3 s c i = some (true, c', i') := by
  obtain ⟨b, hb, -, hvalue⟩ := not_trailAt_byte hi h
  simp only [terminatedCase3, hb, hvalue, Option.bind_eq_bind, Option.bind_some, true_or, if_true]
  exact ⟨_, _, rfl⟩

end Terminated

theorem terminatedSwitch_eq (h : ∀ k < count, TrailAt s (i + k)) :
    terminatedSwitch s count c i = pointerSwitch s count c i := by
  have case1 : ∀ c i, TrailAt s i → terminatedCase1 s c i = pointerCase1 s false c i :=
    fun c i h => (terminatedCase1_trail h).trans (pointerCase1_trail h).symm
  have case2 : ∀ c i, TrailAt s i → TrailAt s (i + 1) →
      terminatedCase2 s c i = pointerCase2 s false c i := fun c i h0 h1 => by
    rw [terminatedCase2_trail h0, pointerCase2_trail h0, case1 _ _ h1]
  unfold terminatedSwitch pointerSwitch
  split
  · exact case1 c i (h 0 (by omega))
  · exact case2 c i (h 0 (by omega)) (h 1 (by omega))
  · have h0 : TrailAt s i := h 0 (by omega)
    rw [terminatedCase3_trail h0, pointerCase3_trail h0,
      case2 _ _ (h 1 (by omega)) (h 2 (by omega))]
  · rfl

theorem terminatedSwitch_incomplete {count : Nat} (hi : i ≤ e) (he : e < i + count)
    (hlen : e < s.length) (htrails : ∀ k, i ≤ k → k < e → TrailAt s k) (hno : ¬ TrailAt s e) :
    ∃ c' i', terminatedSwitch s count c i = some (true, c', i') := by
  have case2 : ∀ c i, i ≤ e → e < i + 2 → (∀ k, i ≤ k → k < e → TrailAt s k) →
      ∃ c' i', terminatedCase2 s c i = some (true, c', i') := by
    intro c i hi he htrails
    rcases Nat.eq_or_lt_of_le hi with rfl | hlt
    · exact terminatedCase2_other hlen hno
    rw [terminatedCase2_trail (htrails i (le_refl i) hlt), show i + 1 = e by omega]
    exact terminatedCase1_other hlen hno
  unfold terminatedSwitch
  split
  · rw [show i = e by omega]
    exact terminatedCase1_other hlen hno
  · exact case2 c i hi he htrails
  · rcases Nat.eq_or_lt_of_le hi with rfl | hlt
    · exact terminatedCase3_other hlen hno
    rw [terminatedCase3_trail (htrails i (le_refl i) hlt)]
    split
    · exact case2 _ (i + 1) hlt (by omega) (fun k h0 h1 => htrails k (by omega) h1)
    · exact ⟨_, _, rfl⟩
  · exact ⟨_, _, rfl⟩

/-- `utf8_nextCharSafeBodyTerminated` reads the same unit, if the string ends behind it. -/
theorem utf8NextCharSafeBodyTerminated_eq (h : IsUnit s p e) (hb : byteAt s p = some b)
    (hb80 : ¬ b < 0x80) (hend : e < s.length) :
    utf8NextCharSafeBodyTerminated s (p + 1) b = some (unitValue (-1) s p e, e) := by
  have hlt := h.lt
  have hshort := h.short b hb
  have hskip := skipTrails_unit h hb hend
  have hpointer := utf8NextCharSafeBodyPointer_eq h hb hb80
  have hskip' := skipTrailsTo_unit h hb
  by_cases he : e = p + 1 + u8CountTrailBytes b
  · rw [← hpointer, utf8NextCharSafeBodyTerminated, utf8NextCharSafeBodyPointer]
    rw [if_pos (show s.length - (p + 1) ≥ u8CountTrailBytes b by omega),
      terminatedSwitch_eq (fun k hk => h.trails _ (by omega) (by omega)), hskip, hskip']
  have hnone := codePoint_incomplete hb hb80 he
  obtain ⟨c', i', hr⟩ := @terminatedSwitch_incomplete s e (p + 1)
    (u8MaskLeadByte b (u8CountTrailBytes b)) (u8CountTrailBytes b) hlt (by omega) hend
    (fun k h0 h1 => h.trails k (by omega) h1) (h.maximal b hb (by omega))
  rw [utf8NextCharSafeBodyTerminated]
  rw [if_neg (by omega), hr]
  simp only [Option.bind_eq_bind, Option.bind_some, true_or, if_true, hskip]
  rw [unitValue, hnone]
  rfl

def Inlined (s : List UInt8) (p e : Nat) (r : Option (Option (UInt16 × Nat))) : Prop :=
  r = some none ∨ ∃ c, codePoint s p e = some c ∧ c ≤ 0xffff ∧ r = some (some (UInt16.ofNat c, e))

theorem inlined_of_unitValue (hv : v % 0x10000 = unitValue (-1) s p e) :
    Inlined s p e (some (some (UInt16.ofNat v, e))) := by
  rw [unitValue] at hv
  cases hcode : codePoint s p e with
  | none =>
    rw [hcode] at hv
    simp only [errorValue] at hv
    omega
  | some c =>
    rw [hcode] at hv
    have hc : v % 2 ^ 16 = c := Int.ofNat_inj.mp hv
    refine .inr ⟨c, hcode, by omega, ?_⟩
    rw [← hc, UInt16.ofNat_mod_size]

theorem inline3_eq (h : IsUnit s p e) (hb : byteAt s p = some b) (hb1 : 0xe0 < b) (hb2 : b ≤ 0xec)
    (hread : p + 3 ≤ s.length ∨ p + 1 < s.length ∧ ¬ TrailAt s (p + 1)) :
    Inlined s p e (inline3 s b p) := by
  by_cases htrail : p + 1 < s.length ∧ ¬ TrailAt s (p + 1)
  · obtain ⟨b1, hbyte, -, hvalue⟩ := not_trailAt_byte htrail.1 htrail.2
    left
    rw [inline3, hbyte, Option.bind_eq_bind, Option.bind_some, if_neg (by omega)]
    rfl
  have hlen := hread.resolve_right htrail
  obtain ⟨b1, hbyte1, -⟩ := byteAt_eq_some (show p + 1 < s.length by omega)
  obtain ⟨b2, hbyte2, -⟩ := byteAt_eq_some (show p + 2 < s.length by omega)
  have hnext := @nextInline3_eq s (-1) p e b h hb
  rw [nextInline3, if_pos ⟨hb1, hb2, by omega⟩, hbyte1] at hnext
  rw [inline3, hbyte1, hbyte2]
  simp only [Option.bind_eq_bind, Option.bind_some, hbyte2] at hnext ⊢
  by_cases ht1 : trailValue b1 ≤ 0x3f
  · rw [if_pos ht1] at hnext ⊢
    by_cases ht2 : trailValue b2 ≤ 0x3f
    · rw [if_pos ht2] at hnext ⊢
      rcases hnext with hnone | hsome
      · exact absurd hnone (by simp)
      simp only [Option.pure_def, Option.some.injEq, Prod.mk.injEq] at hsome
      rw [show p + 3 = e from hsome.2]
      exact inlined_of_unitValue hsome.1
    · rw [if_neg ht2]
      exact .inl rfl
  · rw [if_neg ht1]
    exact .inl rfl

theorem inline2_eq (h : IsUnit s p e) (hb : byteAt s p = some b) (hb1 : b < 0xe0) (hb2 : b ≥ 0xc2)
    (hread : p + 2 ≤ s.length) : Inlined s p e (inline2 s b p) := by
  obtain ⟨b1, hbyte1, hlt⟩ := byteAt_eq_some (show p + 1 < s.length by omega)
  have hnext := @nextInline2_eq s (-1) p e b h hb
  rw [nextInline2, if_pos ⟨hb1, hb2, by omega⟩, hbyte1] at hnext
  rw [inline2, hbyte1]
  simp only [Option.bind_eq_bind, Option.bind_some] at hnext ⊢
  by_cases ht1 : trailValue b1 ≤ 0x3f
  · rw [if_pos ht1] at hnext ⊢
    rcases hnext with hnone | hsome
    · exact absurd hnone (by simp)
    simp only [Option.pure_def, Option.some.injEq, Prod.mk.injEq] at hsome
    rw [show p + 2 = e from hsome.2]
    apply inlined_of_unitValue
    rw [← hsome.1, Bits.and_low b 5 0x1f (by decide), shift_or_low (by omega)]
    omega
  · rw [if_neg ht1]
    exact .inl rfl

theorem inlineChar_eq {room : Nat → Bool} (h : IsUnit s p e) (hb : byteAt s p = some b)
    (hread2 : b ≥ 0xc2 → room 2 = true → p + 2 ≤ s.length) (hread3 : b ≥ 0xc2 → room 3 = true →
      p + 3 ≤ s.length ∨ p + 1 < s.length ∧ ¬ TrailAt s (p + 1)) :
    Inlined s p e (inlineChar s room b p) := by
  rw [inlineChar]
  split
  · split
    · next h1 h2 => exact inline3_eq h hb h1 h2.1 (hread3 (by omega) h2.2)
    · exact .inl rfl
  split
  · split
    · next h1 h2 => exact inline2_eq h hb h1 h2.1 (hread2 h2.1 h2.2)
    · exact .inl rfl
  · exact .inl rfl

end Icu.StrTrans
