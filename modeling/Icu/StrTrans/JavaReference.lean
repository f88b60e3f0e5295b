import Icu.StrTrans.JavaModel
import Icu.StrTrans.Reference

/-! # Reading Java modified UTF-8

The reference decoding has the same units as UTF-8. It does not depend on whether a NUL follows
the string, unless the last unit is cut off and the loop without checks reads it.
-/

namespace Icu.StrTrans

open Lib Utf16 Utf8

/-- The code point of the unit from `p` to `e`. -/
def javaCodePoint (s : List UInt8) (p e : Nat) : Option Nat :=
  match byteAt s p with
  | none => none
  | some b =>
    if b < 0x80 then some b
    else
      let count := u8CountTrailBytes b
      if 1 ≤ count ∧ count ≤ 2 ∧ e = p + 1 + count then
        some (assemble s (u8MaskLeadByte b count) count (p + 1))
      else none

def javaDecodeFrom (s : List UInt8) : Nat → Nat → List (Option Nat)
  | 0, _ => []
  | fuel + 1, p =>
    if p < s.length then
      javaCodePoint s p (unitEnd s p) :: javaDecodeFrom s fuel (unitEnd s p)
    else []

/-- The code points from an offset on, and `none` for each ill-formed unit. -/
def javaCodes (s : List UInt8) (p : Nat) : List (Option Nat) := javaDecodeFrom s (s.length - p) p

def javaReference (s : List UInt8) (subchar : Int) : Reference :=
  referenceOf (subOf subchar) (javaCodes s 0)

variable {s : List UInt8} {p e b : Nat}

theorem javaDecodeFrom_eq : ∀ {fuel fuel' p : Nat}, s.length - p ≤ fuel → s.length - p ≤ fuel' →
    javaDecodeFrom s fuel p = javaDecodeFrom s fuel' p
  | 0, 0, _, _, _ => rfl
  | 0, fuel' + 1, p, h, _ => by
    rw [javaDecodeFrom, javaDecodeFrom, if_neg (by omega)]
  | fuel + 1, 0, p, _, h => by
    rw [javaDecodeFrom, javaDecodeFrom, if_neg (by omega)]
  | fuel + 1, fuel' + 1, p, h, h' => by
    rw [javaDecodeFrom, javaDecodeFrom]
    by_cases hp : p < s.length
    · have hlt := (isUnit_unitEnd hp).lt
      rw [if_pos hp, if_pos hp, @javaDecodeFrom_eq fuel fuel' _ (by omega) (by omega)]
    · rw [if_neg hp, if_neg hp]

theorem javaCodes_cons (hp : p < s.length) :
    javaCodes s p = javaCodePoint s p (unitEnd s p) :: javaCodes s (unitEnd s p) := by
  have hlt := (isUnit_unitEnd hp).lt
  rw [javaCodes, @javaDecodeFrom_eq s _ (s.length - p + 1) p (by omega) (by omega), javaDecodeFrom,
    if_pos hp, javaCodes, @javaDecodeFrom_eq s (s.length - p) (s.length - unitEnd s p) _ (by omega)
    (by omega)]

theorem javaCodes_nil (hp : s.length ≤ p) : javaCodes s p = [] := by
  rw [javaCodes, show s.length - p = 0 by omega]
  rfl

theorem javaCodePoint_single (hb : byteAt s p = some b) (h : b < 0x80) :
    javaCodePoint s p e = some b := by
  rw [javaCodePoint, hb]
  exact if_pos h

theorem javaCodePoint_multi (hb : byteAt s p = some b) (h : ¬ b < 0x80) : javaCodePoint s p e =
    if 1 ≤ u8CountTrailBytes b ∧ u8CountTrailBytes b ≤ 2 ∧ e = p + 1 + u8CountTrailBytes b then
      some (assemble s (u8MaskLeadByte b (u8CountTrailBytes b)) (u8CountTrailBytes b) (p + 1))
    else none := by
  rw [javaCodePoint, hb]
  exact if_neg h

/-- What can be read: the string, and its NUL if it has one. -/
def memory (s : List UInt8) (nul : Bool) : List UInt8 := s ++ if nul then [0] else []

variable {nul : Bool}

theorem byteAt_memory (hp : p < s.length) : byteAt (memory s nul) p = byteAt s p :=
  byteAt_append_left hp

theorem length_memory : (memory s nul).length = s.length + if nul then 1 else 0 := by
  rw [memory, List.length_append]
  cases nul <;> rfl

theorem trailAt_memory : TrailAt (memory s nul) p ↔ TrailAt s p := by
  by_cases hp : p < s.length
  · exact trailAt_append_left hp
  constructor
  · intro h
    exfalso
    cases nul with
    | false =>
      have := h.lt
      rw [length_memory] at this
      simp only [Bool.false_eq_true, if_false] at this
      omega
    | true =>
      have := h.lt
      rw [length_memory] at this
      simp only [if_true] at this
      obtain rfl : p = s.length := by omega
      exact not_trailAt_nul h
  · intro h
    have := h.lt
    omega

theorem pointerSwitch_memory {count c i : Nat} (h : i + count ≤ s.length) :
    pointerSwitch (memory s nul) count c i = pointerSwitch s count c i := by
  have hbyte : ∀ k < count, byteAt (memory s nul) (i + k) = byteAt s (i + k) :=
    fun k hk => byteAt_memory (by omega)
  have hcase1 : ∀ illegal c i, byteAt (memory s nul) i = byteAt s i →
      pointerCase1 (memory s nul) illegal c i = pointerCase1 s illegal c i := by
    intro illegal c i hi
    rw [pointerCase1, pointerCase1, hi]
  have hcase2 : ∀ illegal c i, byteAt (memory s nul) i = byteAt s i →
      byteAt (memory s nul) (i + 1) = byteAt s (i + 1) →
      pointerCase2 (memory s nul) illegal c i = pointerCase2 s illegal c i := by
    intro illegal c i hi hi1
    rw [pointerCase2, pointerCase2, hi]
    simp only [hcase1 _ _ _ hi1]
  rcases count with _ | _ | _ | _ | _
  · rfl
  · exact hcase1 false c i (hbyte 0 (by omega))
  · exact hcase2 false c i (hbyte 0 (by omega)) (hbyte 1 (by omega))
  · change pointerCase3 (memory s nul) false c i = pointerCase3 s false c i
    have h0 : byteAt (memory s nul) i = byteAt s i := hbyte 0 (by omega)
    rw [pointerCase3, pointerCase3, h0]
    simp only [hcase2 _ _ (i + 1) (hbyte 1 (by omega)) (hbyte 2 (by omega))]
  · rfl

theorem skipTrailsTo_memory : ∀ {count i : Nat},
    skipTrailsTo (memory s nul) s.length count i = skipTrailsTo s s.length count i
  | 0, _ => rfl
  | count + 1, i => by
    rw [skipTrailsTo, skipTrailsTo]
    by_cases hi : i < s.length
    · rw [if_pos hi, if_pos hi, byteAt_memory hi, skipTrailsTo_memory]
    · rw [if_neg hi, if_neg hi]

theorem pointer_memory (h : IsUnit s p e) (hb : byteAt s p = some b) (hb80 : ¬ b < 0x80) :
    utf8NextCharSafeBodyPointer (memory s nul) (p + 1) s.length b =
      some (unitValue (-1) s p e, e) := by
  have hle := h.le
  have hlt := h.lt
  rw [← utf8NextCharSafeBodyPointer_eq h hb hb80, utf8NextCharSafeBodyPointer,
    utf8NextCharSafeBodyPointer]
  by_cases hroom : s.length - (p + 1) ≥ u8CountTrailBytes b
  · rw [if_pos hroom, if_pos hroom, pointerSwitch_memory (by omega)]
    simp only [skipTrailsTo_memory]
  · rw [if_neg hroom, if_neg hroom, skipTrailsTo_memory]

/-! ## Inline processing -/

theorem trailValue_trail (h : TrailAt s p) :
    ∃ t, byteAt (memory s nul) p = some t ∧ trailValue t = payload s p ∧ payload s p < 64 := by
  obtain ⟨t, ht, -, -, hvalue, hlt⟩ := TrailAt_byte h
  exact ⟨t, by rw [byteAt_memory h.lt, ht], hvalue, hlt⟩

theorem trailValue_other (hp : p < (memory s nul).length) (h : ¬ TrailAt s p) :
    ∃ t, byteAt (memory s nul) p = some t ∧ ¬ trailValue t ≤ 0x3f := by
  obtain ⟨t, ht, -, hvalue⟩ := not_trailAt_byte hp (fun hm => h (trailAt_memory.mp hm))
  exact ⟨t, ht, by omega⟩

theorem u8MaskLeadByte_mod (b : Nat) :
    u8MaskLeadByte b 1 = b % 0x20 ∧ u8MaskLeadByte b 2 = b % 0x10 :=
  ⟨u8MaskLeadByte_eq b 1, u8MaskLeadByte_eq b 2⟩

theorem u8CountTrailBytes_two (h : 0xe0 ≤ b) (h' : b ≤ 0xef) : u8CountTrailBytes b = 2 := by
  rw [u8CountTrailBytes, if_pos (by omega), if_pos (by omega), if_pos (by omega)]

theorem u8CountTrailBytes_one (h : 0xc0 ≤ b) (h' : b < 0xe0) : u8CountTrailBytes b = 1 := by
  rw [u8CountTrailBytes, if_pos (by omega), if_pos (by omega), if_neg (by omega)]

theorem u8CountTrailBytes_long (h : 0xf0 ≤ b) :
    ¬ (1 ≤ u8CountTrailBytes b ∧ u8CountTrailBytes b ≤ 2) := by
  rw [u8CountTrailBytes, if_neg (by omega)]
  split_ifs <;> omega

/-- What inline processing of a lead byte yields if it reads only memory. -/
def inlined (s : List UInt8) (p e : Nat) : Option (UInt16 × Nat) :=
  (javaCodePoint s p e).map fun v => (UInt16.ofNat v, e)

theorem inlined_incomplete (hb : byteAt s p = some b) (hb80 : ¬ b < 0x80)
    (he : e ≠ p + 1 + u8CountTrailBytes b) : inlined s p e = none := by
  rw [inlined, javaCodePoint_multi hb hb80, if_neg (fun h => he h.2.2)]
  rfl

theorem inline3_memory (h : IsUnit s p e) (hb : byteAt s p = some b) (hb1 : 0xe0 ≤ b)
    (hb2 : b ≤ 0xef) : inline3 (memory s nul) b p =
      if e = p + 3 ∨ e < (memory s nul).length then some (inlined s p e) else none := by
  have hcount := u8CountTrailBytes_two hb1 hb2
  have hlt := h.lt
  have hle := h.le
  have hshort := h.short b hb
  have hmaximal := h.maximal b hb
  have hmemory : s.length ≤ (memory s nul).length := by
    rw [length_memory]
    omega
  have hnone : e ≠ p + 1 + u8CountTrailBytes b → inlined s p e = none :=
    inlined_incomplete hb (by omega)
  rw [hcount] at hshort hmaximal hnone
  have hcases : e = p + 1 ∨ e = p + 2 ∨ e = p + 3 := by omega
  rcases hcases with rfl | rfl | rfl
  · have hno := hmaximal (by omega)
    rw [hnone (by omega)]
    by_cases hmem : p + 1 < (memory s nul).length
    · obtain ⟨t, ht, hvalue⟩ := trailValue_other hmem hno
      rw [if_pos (.inr hmem), inline3, ht]
      simp only [Option.bind_eq_bind, Option.bind_some, if_neg hvalue]
      rfl
    · rw [if_neg (by omega), inline3, byteAt, List.getElem?_eq_none (by omega)]
      rfl
  · have hno := hmaximal (by omega)
    obtain ⟨t1, ht1, hvalue1, hlt1⟩ :=
      @trailValue_trail s (p + 1) nul (h.trails _ (by omega) (by omega))
    have hsmall : trailValue t1 ≤ 0x3f := by omega
    rw [hnone (by omega), inline3, ht1]
    simp only [Option.bind_eq_bind, Option.bind_some, if_pos hsmall]
    by_cases hmem : p + 2 < (memory s nul).length
    · obtain ⟨t2, ht2, hvalue2⟩ := trailValue_other hmem hno
      rw [if_pos (.inr hmem), ht2]
      simp only [Option.bind_some, if_neg hvalue2]
      rfl
    · rw [if_neg (by omega), byteAt, List.getElem?_eq_none (by omega)]
      rfl
  · obtain ⟨t1, ht1, hvalue1, hlt1⟩ :=
      @trailValue_trail s (p + 1) nul (h.trails _ (by omega) (by omega))
    obtain ⟨t2, ht2, hvalue2, hlt2⟩ :=
      @trailValue_trail s (p + 2) nul (h.trails _ (by omega) (by omega))
    have hsmall1 : payload s (p + 1) ≤ 0x3f := by omega
    have hsmall2 : payload s (p + 2) ≤ 0x3f := by omega
    have hvalue : UInt16.ofNat ((b <<< 12) ||| (payload s (p + 1) <<< 6) ||| payload s (p + 2)) =
        UInt16.ofNat (assemble s (u8MaskLeadByte b 2) 2 (p + 1)) := by
      have hshift : (b <<< 12) ||| (payload s (p + 1) <<< 6) =
        ((b <<< 6) ||| payload s (p + 1)) <<< 6 := by
        rw [Nat.shiftLeft_or_distrib, ← Nat.shiftLeft_add]
      rw [hshift, shift_or_low hlt2, shift_or_low hlt1, (u8MaskLeadByte_mod b).2,
        ← UInt16.toNat_inj,
        UInt16.toNat_ofNat', UInt16.toNat_ofNat']
      simp only [assemble]
      rw [show p + 1 + 1 = p + 2 from rfl]
      omega
    rw [if_pos (.inl rfl), inlined, javaCodePoint_multi hb (by omega), hcount, if_pos (by omega),
      Option.map_some, inline3, ht1]
    simp only [Option.bind_eq_bind, Option.bind_some, if_pos hsmall1, ht2, if_pos hsmall2, hvalue1,
      hvalue2, hvalue]
    rfl

theorem inline2_memory (h : IsUnit s p e) (hb : byteAt s p = some b) (hb1 : 0xc0 ≤ b)
    (hb2 : b < 0xe0) : inline2 (memory s nul) b p =
      if e = p + 2 ∨ e < (memory s nul).length then some (inlined s p e) else none := by
  have hcount := u8CountTrailBytes_one hb1 hb2
  have hlt := h.lt
  have hle := h.le
  have hshort := h.short b hb
  have hmaximal := h.maximal b hb
  have hnone : e ≠ p + 1 + u8CountTrailBytes b → inlined s p e = none :=
    inlined_incomplete hb (by omega)
  rw [hcount] at hshort hmaximal hnone
  have hcases : e = p + 1 ∨ e = p + 2 := by omega
  rcases hcases with rfl | rfl
  · have hno := hmaximal (by omega)
    rw [hnone (by omega)]
    by_cases hmem : p + 1 < (memory s nul).length
    · obtain ⟨t, ht, hvalue⟩ := trailValue_other hmem hno
      rw [if_pos (.inr hmem), inline2, ht]
      simp only [Option.bind_eq_bind, Option.bind_some, if_neg hvalue]
      rfl
    · rw [if_neg (by omega), inline2, byteAt, List.getElem?_eq_none (by omega)]
      rfl
  obtain ⟨t1, ht1, hvalue1, hlt1⟩ :=
    @trailValue_trail s (p + 1) nul (h.trails _ (by omega) (by omega))
  have hsmall1 : payload s (p + 1) ≤ 0x3f := by omega
  have hvalue : UInt16.ofNat (((b &&& 0x1f) <<< 6) ||| payload s (p + 1)) =
      UInt16.ofNat (assemble s (u8MaskLeadByte b 1) 1 (p + 1)) := by
    rw [shift_or_low hlt1, Bits.and_low b 5 0x1f (by decide), (u8MaskLeadByte_mod b).1]
    rfl
  rw [if_pos (.inl rfl), inlined, javaCodePoint_multi hb (by omega), hcount, if_pos (by omega),
    Option.map_some, inline2, ht1]
  simp only [Option.bind_eq_bind, Option.bind_some, if_pos hsmall1, hvalue1, hvalue]
  rfl

theorem inlined_other (hb : byteAt s p = some b) (hb80 : ¬ b < 0x80)
    (hcount : ¬ (1 ≤ u8CountTrailBytes b ∧ u8CountTrailBytes b ≤ 2)) : inlined s p e = none := by
  rw [inlined, javaCodePoint_multi hb hb80, if_neg (fun h => hcount ⟨h.1, h.2.1⟩)]
  rfl

theorem javaInlineChar_checked (h : IsUnit s p e) (hb : byteAt s p = some b) (hb80 : ¬ b < 0x80) :
    javaInlineChar (memory s nul) (fun n => decide (s.length - p ≥ n)) b p =
      some (inlined s p e) := by
  have hle := h.le
  have hshort := h.short b hb
  have hmemory : s.length ≤ (memory s nul).length := by
    rw [length_memory]
    omega
  rw [javaInlineChar]
  by_cases hb1 : b ≥ 0xe0
  · rw [if_pos hb1]
    by_cases hb2 : b ≤ 0xef
    · have hcount := u8CountTrailBytes_two hb1 hb2
      rw [hcount] at hshort
      by_cases hroom : s.length - p ≥ 3
      · rw [if_pos ⟨hb2, decide_eq_true hroom⟩, inline3_memory h hb hb1 hb2, if_pos (by omega)]
      rw [if_neg (fun hcon => hroom (of_decide_eq_true hcon.2)),
        inlined_incomplete hb hb80 (by omega)]
    · rw [if_neg (fun hcon => hb2 hcon.1),
        inlined_other hb hb80 (u8CountTrailBytes_long (by omega))]
  rw [if_neg hb1]
  by_cases hb2 : b ≥ 0xc0
  · have hcount := u8CountTrailBytes_one hb2 (by omega)
    rw [hcount] at hshort
    by_cases hroom : s.length - p ≥ 2
    · rw [if_pos ⟨hb2, decide_eq_true hroom⟩, inline2_memory h hb hb2 (by omega),
        if_pos (by omega)]
    · rw [if_neg (fun hcon => hroom (of_decide_eq_true hcon.2)),
        inlined_incomplete hb hb80 (by omega)]
  · have hcount := @u8CountTrailBytes_eq_zero b (by omega)
    rw [if_neg (fun hcon => hb2 hcon.1), inlined_other hb hb80 (by omega)]

/-- The unit has the lead byte of two or three bytes, and is cut off by the end of the string. -/
def isCut (s : List UInt8) (p : Nat) : Bool :=
  let b := (byteAt s p).getD 0
  decide (0xc0 ≤ b ∧ b ≤ 0xef ∧ unitEnd s p = s.length ∧ unitEnd s p < p + 1 + u8CountTrailBytes b)

theorem isCut_eq_false_iff (hb : byteAt s p = some b) : isCut s p = false ↔
    (0xc0 ≤ b → b ≤ 0xef → unitEnd s p = s.length → unitEnd s p = p + 1 + u8CountTrailBytes b) := by
  have hshort := (isUnit_unitEnd (lt_of_byteAt hb)).short b hb
  rw [isCut, hb, Option.getD_some, decide_eq_false_iff_not]
  constructor
  · intro h h1 h2 h3
    by_contra hne
    exact h ⟨h1, h2, h3, by omega⟩
  · rintro h ⟨h1, h2, h3, h4⟩
    have := h h1 h2 h3
    omega

theorem javaInlineChar_unchecked (hb : byteAt s p = some b) (hb80 : ¬ b < 0x80) :
    javaInlineChar (memory s nul) (fun _ => true) b p =
      if nul = true ∨ isCut s p = false then some (inlined s p (unitEnd s p)) else none := by
  have h := isUnit_unitEnd (lt_of_byteAt hb)
  have hle := h.le
  have hmemory : (unitEnd s p < (memory s nul).length) ↔ nul = true ∨ unitEnd s p ≠ s.length := by
    rw [length_memory]
    cases nul <;> simp <;> omega
  have hcut := isCut_eq_false_iff hb
  have hread : 0xc0 ≤ b → b ≤ 0xef →
      ((unitEnd s p = p + 1 + u8CountTrailBytes b ∨ unitEnd s p < (memory s nul).length) ↔
        nul = true ∨ isCut s p = false) := by
    intro h1 h2
    rw [hmemory, hcut]
    constructor
    · rintro (h3 | h3 | h3)
      · exact .inr fun _ _ _ => h3
      · exact .inl h3
      · exact .inr fun _ _ heq => absurd heq h3
    rintro (h3 | h3)
    · exact .inr (.inl h3)
    by_cases heq : unitEnd s p = s.length
    · exact .inl (h3 h1 h2 heq)
    · exact .inr (.inr heq)
  rw [javaInlineChar]
  by_cases hb1 : b ≥ 0xe0
  · rw [if_pos hb1]
    by_cases hb2 : b ≤ 0xef
    · rw [if_pos ⟨hb2, rfl⟩, inline3_memory h hb hb1 hb2]
      rw [u8CountTrailBytes_two hb1 hb2] at hread
      exact if_congr (hread (by omega) hb2) rfl rfl
    · rw [if_neg (fun hcon => hb2 hcon.1),
        inlined_other hb hb80 (u8CountTrailBytes_long (by omega)),
        if_pos (.inr (hcut.mpr fun _ hcon => absurd hcon hb2))]
  rw [if_neg hb1]
  by_cases hb2 : b ≥ 0xc0
  · rw [if_pos ⟨hb2, rfl⟩, inline2_memory h hb hb2 (by omega)]
    rw [u8CountTrailBytes_one hb2 (by omega)] at hread
    exact if_congr (hread hb2 (by omega)) rfl rfl
  · have hcount := @u8CountTrailBytes_eq_zero b (by omega)
    rw [if_neg (fun hcon => hb2 hcon.1), inlined_other hb hb80 (by omega),
      if_pos (.inr (hcut.mpr fun hcon => absurd hcon hb2))]

end Icu.StrTrans
