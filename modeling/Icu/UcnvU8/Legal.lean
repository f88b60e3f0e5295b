import Icu.UcnvU8.ToUnicode
import Icu.UcnvU8.FromUnicode
import Icu.StrTrans.Bytes

/-! # Well-formed sequences

The decoder accepts the bytes of the scalar values and no others. So the bytes that it reads are
those of the code points that it finds and of the sequence that it has not ended, and the encoder
turns its units into the same bytes.
-/

namespace Icu.UcnvU8

open Utf16 Utf8 Lib Lib.Peeking
open StrTrans (appendUTF8 twoBytes threeBytes fourBytes toNat_twoBytes toNat_threeBytes
  toNat_fourBytes
  toNat_ofNat_byte)

variable {p q : List UInt8} {ch : UInt32}

/-- The code point of a sequence, if it is legal. -/
def sequenceCode (p : List UInt8) : UInt32 :=
  sequenceValue p - offsetsFromUTF8.getD (sequenceBytes p) 0

/-- The difference does not wrap around for a lead byte and its trail bytes. -/
theorem toNat_sequenceCode {offset : UInt32}
    (hoffset : offsetsFromUTF8.getD (sequenceBytes p) 0 = offset)
    (hle : offset.toNat ≤ sequenceNumber p) (hlt : sequenceNumber p < 2 ^ 32) :
    (sequenceCode p).toNat = sequenceNumber p - offset.toNat := by
  have hvalue : (sequenceValue p).toNat = sequenceNumber p := by
    rw [toNat_sequenceValue, Nat.mod_eq_of_lt hlt]
  rw [sequenceCode, hoffset, UInt32.toNat_sub_of_le, hvalue]
  rw [UInt32.le_iff_toNat_le, hvalue]
  exact hle

theorem sequenceBytes_range {a : UInt8} {ts : List UInt8} :
    (sequenceBytes (a :: ts) = 1 → a.toNat < 0x80) ∧
    (sequenceBytes (a :: ts) = 2 → 0xc0 ≤ a.toNat ∧ a.toNat < 0xe0) ∧
    (sequenceBytes (a :: ts) = 3 → 0xe0 ≤ a.toNat ∧ a.toNat < 0xf0) ∧
    (sequenceBytes (a :: ts) = 4 → 0xf0 ≤ a.toNat ∧ a.toNat < 0xf8) := by
  rw [sequenceBytes, List.headD_cons, bytesFromUTF8_eq a.toNat_lt]
  split_ifs <;> simp <;> omega

theorem sequenceNumber_two (a b : UInt8) : sequenceNumber [a, b] = a.toNat * 64 + b.toNat := by
  simp [sequenceNumber]

theorem sequenceNumber_three (a b c : UInt8) :
    sequenceNumber [a, b, c] = (a.toNat * 64 + b.toNat) * 64 + c.toNat := by
  simp [sequenceNumber]

theorem sequenceNumber_four (a b c d : UInt8) :
    sequenceNumber [a, b, c, d] = ((a.toNat * 64 + b.toNat) * 64 + c.toNat) * 64 + d.toNat := by
  simp [sequenceNumber]

theorem eq_of_map_toNat (h : p.map UInt8.toNat = q.map UInt8.toNat) : p = q :=
  List.map_injective_iff.mpr (fun _ _ => UInt8.toNat_inj.mp) h

section Code

variable {a b c d : UInt8}

theorem sequenceCode_two (hn : sequenceBytes [a, b] = 2) (hb : 0x80 ≤ b.toNat) :
    (sequenceCode [a, b]).toNat = (a.toNat - 0xc0) * 64 + (b.toNat - 0x80) := by
  have ha := sequenceBytes_range.2.1 hn
  have hblt := b.toNat_lt
  have hnumber := sequenceNumber_two a b
  have hoffset : offsetsFromUTF8.getD (sequenceBytes [a, b]) 0 = 0x3080 := by rw [hn]; rfl
  have hnat : (0x3080 : UInt32).toNat = 0x3080 := rfl
  rw [toNat_sequenceCode hoffset (by omega) (by omega)]
  omega

theorem sequenceCode_three (hn : sequenceBytes [a, b, c] = 3) (hb : 0x80 ≤ b.toNat)
    (hc : 0x80 ≤ c.toNat) : (sequenceCode [a, b, c]).toNat =
      ((a.toNat - 0xe0) * 64 + (b.toNat - 0x80)) * 64 + (c.toNat - 0x80) := by
  have ha := sequenceBytes_range.2.2.1 hn
  have hblt := b.toNat_lt
  have hclt := c.toNat_lt
  have hnumber := sequenceNumber_three a b c
  have hoffset : offsetsFromUTF8.getD (sequenceBytes [a, b, c]) 0 = 0xe2080 := by rw [hn]; rfl
  have hnat : (0xe2080 : UInt32).toNat = 0xe2080 := rfl
  rw [toNat_sequenceCode hoffset (by omega) (by omega)]
  omega

theorem sequenceCode_four (hn : sequenceBytes [a, b, c, d] = 4) (hb : 0x80 ≤ b.toNat)
    (hc : 0x80 ≤ c.toNat) (hd : 0x80 ≤ d.toNat) : (sequenceCode [a, b, c, d]).toNat =
      (((a.toNat - 0xf0) * 64 + (b.toNat - 0x80)) * 64 + (c.toNat - 0x80)) * 64 +
        (d.toNat - 0x80) := by
  have ha := sequenceBytes_range.2.2.2 hn
  have hblt := b.toNat_lt
  have hclt := c.toNat_lt
  have hdlt := d.toNat_lt
  have hnumber := sequenceNumber_four a b c d
  have hoffset : offsetsFromUTF8.getD (sequenceBytes [a, b, c, d]) 0 = 0x3c82080 := by rw [hn]; rfl
  have hnat : (0x3c82080 : UInt32).toNat = 0x3c82080 := rfl
  rw [toNat_sequenceCode hoffset (by omega) (by omega)]
  omega

end Code

/-! ## Legal sequences -/

theorem isLegal_iff (i inBytes : Nat) (ch : UInt32) : isLegal false i inBytes ch = true ↔
    i = inBytes ∧ ch.toNat ≤ 0x10ffff ∧ (utf8MinChar32.getD i 0).toNat ≤ ch.toNat ∧
      uIsSurrogate ch.toNat = false := by
  rw [isLegal]
  simp only [Bool.and_eq_true, beq_iff_eq, decide_eq_true_eq, if_neg Bool.false_ne_true,
    Bool.not_eq_true', UInt32.le_iff_toNat_le, and_assoc]
  rfl

theorem legal_bytes (hp : p ≠ []) (htrails : ∀ b ∈ p.tail, u8IsTrail b.toNat = true)
    (h : isLegal false p.length (sequenceBytes p) (sequenceCode p) = true) :
    IsScalar (sequenceCode p).toNat ∧ appendUTF8 (sequenceCode p).toNat = p := by
  obtain ⟨hn, hle, hmin, hsurrogate⟩ := (isLegal_iff _ _ _).mp h
  refine ⟨⟨hle, hsurrogate⟩, ?_⟩
  have htrail : ∀ b ∈ p.tail, 0x80 ≤ b.toNat ∧ b.toNat < 0xc0 := fun b hb =>
    (u8IsTrail_iff b.toNat_lt).mp (htrails b hb)
  have hsix := sequenceBytes_le p
  match p, hp with
  | [a], _ =>
    have ha := sequenceBytes_range.1 hn.symm
    have hoffset : offsetsFromUTF8.getD (sequenceBytes [a]) 0 = 0 := by rw [← hn]; rfl
    have hcode : (sequenceCode [a]).toNat = a.toNat := by
      rw [sequenceCode, hoffset, UInt32.sub_zero, sequenceValue_singleton, UInt8.toNat_toUInt32]
    rw [hcode, appendUTF8, if_pos (by omega), UInt8.ofNat_toNat]
  | [a, b], _ =>
    have ha := sequenceBytes_range.2.1 hn.symm
    have hb := htrail b (by simp)
    have hcode := sequenceCode_two hn.symm hb.1
    have hge : 0x80 ≤ (sequenceCode [a, b]).toNat := hmin
    rw [appendUTF8, if_neg (by omega), if_pos (by omega)]
    refine eq_of_map_toNat ?_
    rw [toNat_twoBytes (by omega), hcode, List.map_cons, List.map_singleton, List.cons.injEq,
      List.cons.injEq]
    exact ⟨by omega, by omega, rfl⟩
  | [a, b, c], _ =>
    have ha := sequenceBytes_range.2.2.1 hn.symm
    have hb := htrail b (by simp)
    have hc := htrail c (by simp)
    have hcode := sequenceCode_three hn.symm hb.1 hc.1
    have hge : 0x800 ≤ (sequenceCode [a, b, c]).toNat := hmin
    rw [appendUTF8, if_neg (by omega), if_neg (by omega), if_pos (by omega)]
    refine eq_of_map_toNat ?_
    rw [toNat_threeBytes (by omega), hcode, List.map_cons, List.map_cons, List.map_singleton,
      List.cons.injEq, List.cons.injEq, List.cons.injEq]
    exact ⟨by omega, by omega, by omega, rfl⟩
  | [a, b, c, d], _ =>
    have ha := sequenceBytes_range.2.2.2 hn.symm
    have hb := htrail b (by simp)
    have hc := htrail c (by simp)
    have hd := htrail d (by simp)
    have hcode := sequenceCode_four hn.symm hb.1 hc.1 hd.1
    have hge : 0x10000 ≤ (sequenceCode [a, b, c, d]).toNat := hmin
    rw [appendUTF8, if_neg (by omega), if_neg (by omega), if_neg (by omega)]
    refine eq_of_map_toNat ?_
    rw [toNat_fourBytes hle, hcode, List.map_cons, List.map_cons, List.map_cons,
      List.map_singleton, List.cons.injEq, List.cons.injEq, List.cons.injEq, List.cons.injEq]
    exact ⟨by omega, by omega, by omega, by omega, rfl⟩
  | [a, b, c, d, e], _ =>
    have hge : 0xffffffff ≤ (sequenceCode [a, b, c, d, e]).toNat := hmin
    omega
  | [a, b, c, d, e, f], _ =>
    have hge : 0xffffffff ≤ (sequenceCode [a, b, c, d, e, f]).toNat := hmin
    omega
  | _ :: _ :: _ :: _ :: _ :: _ :: _ :: _, _ =>
    simp only [List.length_cons] at hn
    omega

/-- A sequence of UTF-8: a lead byte, all its trail bytes, and a legal code point. -/
structure IsSequence (p : List UInt8) : Prop where
  ne_nil : p ≠ []
  trails : ∀ b ∈ p.tail, u8IsTrail b.toNat = true
  legal : isLegal false p.length (sequenceBytes p) (sequenceCode p) = true

theorem sequenceBytes_cons (a : UInt8) (ts : List UInt8) : sequenceBytes (a :: ts) =
    if a.toNat < 0x80 then 1 else if a.toNat < 0xc0 then 0 else if a.toNat < 0xe0 then 2
    else if a.toNat < 0xf0 then 3 else if a.toNat < 0xf8 then 4 else if a.toNat < 0xfc then 5
    else if a.toNat < 0xfe then 6 else 0 := by
  rw [sequenceBytes, List.headD_cons, bytesFromUTF8_eq a.toNat_lt]

theorem sequenceCode_one {b : UInt8} (h : b.toNat < 0x80) : sequenceCode [b] = b.toUInt32 := by
  have hn : sequenceBytes [b] = 1 := by rw [sequenceBytes_cons, if_pos h]
  have hoffset : offsetsFromUTF8.getD (sequenceBytes [b]) 0 = 0 := by rw [hn]; rfl
  rw [sequenceCode, hoffset, UInt32.sub_zero, sequenceValue_singleton]

theorem isTrail_of {b : UInt8} (h : 0x80 ≤ b.toNat ∧ b.toNat < 0xc0) : u8IsTrail b.toNat = true :=
  (u8IsTrail_iff b.toNat_lt).mpr h

theorem isSequence_of_code {c : Nat} (hc : IsScalar c) (hp : p ≠ [])
    (htrails : ∀ b ∈ p.tail, u8IsTrail b.toNat = true) (hn : sequenceBytes p = p.length)
    (hcode : (sequenceCode p).toNat = c) (hmin : (utf8MinChar32.getD p.length 0).toNat ≤ c) :
    IsSequence p ∧ (sequenceCode p).toNat = c := by
  refine ⟨⟨hp, htrails, ?_⟩, hcode⟩
  rw [isLegal_iff, hcode]
  exact ⟨hn.symm, hc.le, hmin, hc.not_surrogate⟩

theorem isSequence_appendUTF8 {c : Nat} (hc : IsScalar c) :
    IsSequence (appendUTF8 c) ∧ (sequenceCode (appendUTF8 c)).toNat = c := by
  have hle := hc.le
  rw [appendUTF8]
  split
  · next hone =>
    have ha : (UInt8.ofNat c).toNat = c := toNat_ofNat_byte (by omega)
    have hn : sequenceBytes [UInt8.ofNat c] = 1 := by
      rw [sequenceBytes_cons, ha, if_pos (by omega)]
    refine isSequence_of_code hc (List.cons_ne_nil _ _) (fun b hb => by cases hb) hn ?_
      (Nat.zero_le c)
    rw [sequenceCode_one (by omega), UInt8.toNat_toUInt32, ha]
  next hone =>
  split
  · next htwo =>
    have hbytes := @toNat_twoBytes c (by omega)
    rw [twoBytes] at hbytes ⊢
    generalize UInt8.ofNat ((c >>> 6) ||| 0xc0) = a at *
    generalize UInt8.ofNat ((c &&& 0x3f) ||| 0x80) = b at *
    simp only [List.map_cons, List.map_nil, List.cons.injEq, and_true] at hbytes
    obtain ⟨ha, hb⟩ := hbytes
    have hn : sequenceBytes [a, b] = 2 := by
      rw [sequenceBytes_cons]
      split_ifs <;> omega
    refine isSequence_of_code hc (List.cons_ne_nil _ _) (fun x hx => ?_) hn ?_
      (show 0x80 ≤ c by omega)
    · rw [List.mem_singleton.mp hx]
      exact isTrail_of (by omega)
    · rw [sequenceCode_two hn (by omega)]
      omega
  next htwo =>
  split
  · next hthree =>
    have hbytes := @toNat_threeBytes c (by omega)
    rw [threeBytes] at hbytes ⊢
    generalize UInt8.ofNat ((c >>> 12) ||| 0xe0) = a at *
    generalize UInt8.ofNat (((c >>> 6) &&& 0x3f) ||| 0x80) = b at *
    generalize UInt8.ofNat ((c &&& 0x3f) ||| 0x80) = d at *
    simp only [List.map_cons, List.map_nil, List.cons.injEq, and_true] at hbytes
    obtain ⟨ha, hb, hd⟩ := hbytes
    have hn : sequenceBytes [a, b, d] = 3 := by
      rw [sequenceBytes_cons]
      split_ifs <;> omega
    refine isSequence_of_code hc (List.cons_ne_nil _ _) (fun x hx => ?_) hn ?_
      (show 0x800 ≤ c by omega)
    · simp only [List.tail_cons, List.mem_cons, List.not_mem_nil, or_false] at hx
      rcases hx with rfl | rfl
      · exact isTrail_of (by omega)
      · exact isTrail_of (by omega)
    · rw [sequenceCode_three hn (by omega) (by omega)]
      omega
  · next hthree =>
    have hbytes := @toNat_fourBytes c hle
    rw [fourBytes] at hbytes ⊢
    generalize UInt8.ofNat ((c >>> 18) ||| 0xf0) = a at *
    generalize UInt8.ofNat (((c >>> 12) &&& 0x3f) ||| 0x80) = b at *
    generalize UInt8.ofNat (((c >>> 6) &&& 0x3f) ||| 0x80) = d at *
    generalize UInt8.ofNat ((c &&& 0x3f) ||| 0x80) = e at *
    simp only [List.map_cons, List.map_nil, List.cons.injEq, and_true] at hbytes
    obtain ⟨ha, hb, hd, he⟩ := hbytes
    have hn : sequenceBytes [a, b, d, e] = 4 := by
      rw [sequenceBytes_cons]
      split_ifs <;> omega
    refine isSequence_of_code hc (List.cons_ne_nil _ _) (fun x hx => ?_) hn ?_
      (show 0x10000 ≤ c by omega)
    · simp only [List.tail_cons, List.mem_cons, List.not_mem_nil, or_false] at hx
      rcases hx with rfl | rfl | rfl
      · exact isTrail_of (by omega)
      · exact isTrail_of (by omega)
      · exact isTrail_of (by omega)
    · rw [sequenceCode_four hn (by omega) (by omega) (by omega)]
      omega

theorem isSequence_one {b : UInt8} (h : b.toNat < 0x80) : IsSequence [b] := by
  have hscalar : IsScalar b.toNat := by
    refine ⟨by omega, ?_⟩
    rw [← Bool.not_eq_true, uIsSurrogate_iff (by omega)]
    omega
  have hseq := (isSequence_appendUTF8 hscalar).1
  rwa [appendUTF8, if_pos (by omega), UInt8.ofNat_toNat] at hseq

section Run

variable {β : Type} {put : UInt32 → List β} {isCESU8 : Bool}

/-- What the decoder does with the next byte: it goes on with the sequence, it ends it, or it
stops. -/
theorem decodeByte_cases (hp : p = [] ∨ IsPartial p) (b : UInt8) :
    IsPartial (p ++ [b]) ∧ (∀ put : UInt32 → List β, decodeByte false put p b = .go (p ++ [b]) []) ∨
    IsSequence (p ++ [b]) ∧ (∀ put : UInt32 → List β,
      decodeByte false put p b = .go [] (put (sequenceCode (p ++ [b])))) ∨
    (∀ put : UInt32 → List β, decodeByte false put p b = .reject (p ++ [b])) ∨
    ∀ put : UInt32 → List β, decodeByte false put p b = .refuse p := by
  have hextend : (∀ x ∈ (p ++ [b]).tail, u8IsTrail x.toNat = true) →
      (∀ put : UInt32 → List β, decodeByte false put p b = extend false put (p ++ [b])) →
      IsPartial (p ++ [b]) ∧
        (∀ put : UInt32 → List β, decodeByte false put p b = .go (p ++ [b]) []) ∨
      IsSequence (p ++ [b]) ∧ (∀ put : UInt32 → List β,
        decodeByte false put p b = .go [] (put (sequenceCode (p ++ [b])))) ∨
      ∀ put : UInt32 → List β, decodeByte false put p b = .reject (p ++ [b]) := by
    intro htrails hmove
    have hne : p ++ [b] ≠ [] := by simp
    by_cases hshort : (p ++ [b]).length < sequenceBytes (p ++ [b])
    · refine Or.inl ⟨⟨hne, htrails, hshort⟩, fun put => ?_⟩
      rw [hmove, extend, if_pos hshort]
    refine Or.inr ?_
    by_cases hlegal : isLegal false (p ++ [b]).length (sequenceBytes (p ++ [b]))
        (sequenceCode (p ++ [b])) = true
    · refine Or.inl ⟨⟨hne, htrails, hlegal⟩, fun put => ?_⟩
      rw [hmove, extend, if_neg hshort, conclude, ← sequenceCode, if_pos hlegal]
    · refine Or.inr fun put => ?_
      rw [hmove, extend, if_neg hshort, conclude, ← sequenceCode, if_neg hlegal]
  rcases hp with rfl | hpart
  · rw [List.nil_append] at *
    by_cases hascii : b.toUInt32 < 0x80
    · refine Or.inr (Or.inl ⟨isSequence_one ((toUInt32_lt_iff b).mp hascii), fun put => ?_⟩)
      rw [decodeByte, if_pos rfl, if_pos hascii, sequenceCode_one ((toUInt32_lt_iff b).mp hascii)]
    rcases hextend (fun x hx => by cases hx) (fun put => by
      rw [decodeByte, if_pos rfl, if_neg hascii]) with h | h | h
    · exact Or.inl h
    · exact Or.inr (Or.inl h)
    · exact Or.inr (Or.inr (Or.inl h))
  by_cases htrail : u8IsTrail b.toNat = true
  · have htrails : ∀ x ∈ (p ++ [b]).tail, u8IsTrail x.toNat = true := by
      intro x hx
      rw [List.tail_append_of_ne_nil hpart.ne_nil, List.mem_append, List.mem_singleton] at hx
      rcases hx with hx | rfl
      · exact hpart.trails x hx
      · exact htrail
    rcases hextend htrails (fun put => by
      rw [decodeByte, if_neg hpart.ne_nil, if_pos htrail]) with h | h | h
    · exact Or.inl h
    · exact Or.inr (Or.inl h)
    · exact Or.inr (Or.inr (Or.inl h))
  · refine Or.inr (Or.inr (Or.inr fun put => ?_))
    rw [decodeByte, if_neg hpart.ne_nil, if_neg htrail]

def bytesOf (ch : UInt32) : List UInt8 := appendUTF8 ch.toNat

theorem IsSequence.bytesOf (h : IsSequence p) :
    IsScalar (sequenceCode p).toNat ∧ bytesOf (sequenceCode p) = p :=
  legal_bytes h.ne_nil h.trails h.legal

def IsText (bytes : List UInt8) : Prop :=
  ∃ cps : List Nat, (∀ c ∈ cps, IsScalar c) ∧ bytes = cps.flatMap appendUTF8

theorem IsText.concat {bytes : List UInt8} (h : IsText bytes) (hp : IsSequence p) :
    IsText (bytes ++ p) := by
  obtain ⟨cps, hscalar, rfl⟩ := h
  obtain ⟨hcode, hbytes⟩ := hp.bytesOf
  refine ⟨cps ++ [(sequenceCode p).toNat], fun c hc => ?_, ?_⟩
  · rcases List.mem_append.mp hc with hc | hc
    · exact hscalar c hc
    · rwa [List.mem_singleton.mp hc]
  · rw [UcnvU8.bytesOf] at hbytes
    simp [hbytes]

def codeOf (ch : UInt32) : List UInt32 := [ch]

theorem decodeByte_flatMap {put : UInt32 → List β} (p : List UInt8) (b : UInt8) :
    decodeByte isCESU8 put p b = (decodeByte isCESU8 codeOf p b).flatMap put := by
  have hconclude : ∀ q, conclude isCESU8 put q = (conclude isCESU8 codeOf q).flatMap put := by
    intro q
    rw [conclude, conclude]
    split
    · simp [Move.flatMap, codeOf]
    · rfl
  have hextend : ∀ q, extend isCESU8 put q = (extend isCESU8 codeOf q).flatMap put := by
    intro q
    rw [extend, extend]
    split
    · rfl
    · exact hconclude q
  rw [decodeByte, decodeByte]
  split
  · split
    · simp [Move.flatMap, codeOf]
    · exact hextend _
  · split
    · exact hextend _
    · rfl

/-- The bytes that are read belong to the code points, to the sequence at the end, or to the
rest. -/
theorem run_codes {p s : List UInt8} (hp : p = [] ∨ IsPartial p) :
    let r := run (decodeByte false codeOf) p s
    p ++ s = r.output.flatMap UcnvU8.bytesOf ++ r.state ++ r.stopped.getD [] ∧
      (∀ c ∈ r.output, IsScalar c.toNat) ∧ (r.stopped = none → r.state = [] ∨
        IsPartial r.state) := by
  induction s generalizing p with
  | nil => exact ⟨by simp, fun c hc => absurd hc List.not_mem_nil, fun _ => hp⟩
  | cons b s ih =>
    rcases decodeByte_cases hp b with ⟨hpart, hmove⟩ | ⟨hseq, hmove⟩ | hmove | hmove
    · obtain ⟨hbytes, hscalar, hstate⟩ := ih (Or.inr hpart)
      rw [run_cons, hmove codeOf, resume, Outcome.after_nil]
      refine ⟨?_, hscalar, hstate⟩
      rw [← hbytes, List.append_assoc, List.singleton_append]
    · obtain ⟨hbytes, hscalar, hstate⟩ := ih (Or.inl rfl)
      obtain ⟨hcode, hseqBytes⟩ := hseq.bytesOf
      rw [run_cons, hmove codeOf, resume]
      refine ⟨?_, ?_, hstate⟩
      · dsimp only [Outcome.after, codeOf]
        have hall := congrArg (fun x => p ++ [b] ++ x) hbytes
        rw [List.singleton_append, List.flatMap_cons, hseqBytes]
        simpa using hall
      intro c hc
      rw [Outcome.after, codeOf, List.singleton_append, List.mem_cons] at hc
      rcases hc with rfl | hc
      · exact hcode
      · exact hscalar c hc
    · rw [run_cons, hmove codeOf, resume]
      exact ⟨by simp, fun c hc => absurd hc List.not_mem_nil, fun hnone => (by cases hnone)⟩
    · rw [run_cons, hmove codeOf, resume]
      exact ⟨by simp, fun c hc => absurd hc List.not_mem_nil, fun hnone => (by cases hnone)⟩

/-- The next byte of a sequence that does not end with it. -/
theorem decodeByte_of_isPartial {b : UInt8}
    (h : IsPartial (q ++ [b])) : decodeByte isCESU8 put q b = .go (q ++ [b]) [] := by
  have hextend : extend isCESU8 put (q ++ [b]) = .go (q ++ [b]) [] := by rw [extend, if_pos h.short]
  rw [decodeByte]
  by_cases hq : q = []
  · subst hq
    have hshort := h.short
    rw [if_pos rfl, if_neg]
    · exact hextend
    rw [toUInt32_lt_iff]
    intro hlt
    rw [List.nil_append, sequenceBytes_cons, if_pos hlt] at hshort
    exact Nat.lt_irrefl 1 hshort
  · have htrail : u8IsTrail b.toNat = true := by
      refine h.trails b ?_
      rw [List.tail_append_of_ne_nil hq, List.mem_append]
      exact Or.inr (List.mem_singleton.mpr rfl)
    rw [if_neg hq, if_pos htrail, hextend]

theorem isPartial_dropLast {b : UInt8} (htrails : ∀ x ∈ (q ++ [b]).tail, u8IsTrail x.toNat = true)
    (hle : (q ++ [b]).length ≤ sequenceBytes (q ++ [b])) : q = [] ∨ IsPartial q := by
  by_cases hq : q = []
  · exact Or.inl hq
  refine Or.inr ⟨hq, fun x hx => htrails x ?_, ?_⟩
  · rw [List.tail_append_of_ne_nil hq, List.mem_append]
    exact Or.inl hx
  · rw [sequenceBytes_concat hq, List.length_append, List.length_singleton] at hle
    omega

theorem run_isPartial {isCESU8 : Bool} {p : List UInt8} (hp : p = [] ∨ IsPartial p)
    (s : List UInt8) :
    run (decodeByte isCESU8 put) [] (p ++ s) = run (decodeByte isCESU8 put) p s := by
  induction p using List.reverseRecOn generalizing s with
  | nil => rfl
  | append_singleton q b ih =>
    have hpart : IsPartial (q ++ [b]) := hp.resolve_left (by simp)
    have hq := isPartial_dropLast hpart.trails (Nat.le_of_lt hpart.short)
    rw [List.append_assoc, List.singleton_append, ih hq, run_cons, decodeByte_of_isPartial hpart,
      resume, Outcome.after_nil]

theorem decodeByte_of_sequence {b : UInt8} (h : IsSequence (q ++ [b])) :
    decodeByte false put q b = .go [] (put (sequenceCode (q ++ [b]))) := by
  have hn : (q ++ [b]).length = sequenceBytes (q ++ [b]) := ((isLegal_iff _ _ _).mp h.legal).1
  rw [decodeByte]
  by_cases hq : q = []
  · subst hq
    have hascii : b.toNat < 0x80 := sequenceBytes_range.1 hn.symm
    rw [if_pos rfl, if_pos ((toUInt32_lt_iff b).mpr hascii), List.nil_append,
      sequenceCode_one hascii]
  have htrail : u8IsTrail b.toNat = true := by
    refine h.trails b ?_
    rw [List.tail_append_of_ne_nil hq, List.mem_append]
    exact Or.inr (List.mem_singleton.mpr rfl)
  rw [if_neg hq, if_pos htrail, extend, if_neg (by omega), conclude, ← sequenceCode, if_pos h.legal]

theorem run_sequence (hp : IsSequence p) (s : List UInt8) : run (decodeByte false put) [] (p ++ s) =
      (run (decodeByte false put) [] s).after (put (sequenceCode p)) := by
  obtain ⟨q, b, rfl⟩ : ∃ q b, p = q ++ [b] :=
    ⟨p.dropLast, p.getLast hp.ne_nil, (List.dropLast_append_getLast hp.ne_nil).symm⟩
  have hn : (q ++ [b]).length = sequenceBytes (q ++ [b]) := ((isLegal_iff _ _ _).mp hp.legal).1
  have hq := isPartial_dropLast hp.trails (Nat.le_of_eq hn)
  rw [List.append_assoc, List.singleton_append, run_isPartial hq, run_cons,
    decodeByte_of_sequence hp,
    resume]

end Run

theorem toNat_leadOf (h : ch.toNat < 0x100000) : (leadOf ch).toNat = ch.toNat / 0x400 + 0xd800 := by
  have hshift : (10 : UInt32).toNat % 32 = 10 := rfl
  have hconst : (0xd800 : UInt32).toNat = 0xd800 := rfl
  rw [leadOf, UInt32.toNat_toUInt16, UInt32.toNat_add, UInt32.toNat_shiftRight, hshift, hconst,
    Nat.shiftRight_eq_div_pow]
  omega

theorem toNat_trailOf (ch : UInt32) : (trailOf ch).toNat = ch.toNat % 0x400 + 0xdc00 := by
  have hmask : (0x3ff : UInt32).toNat = 0x3ff := rfl
  have hconst : (0xdc00 : UInt32).toNat = 0xdc00 := rfl
  rw [trailOf, UInt32.toNat_toUInt16, UInt32.toNat_add, UInt32.toNat_and, hmask, hconst,
    Bits.and_low ch.toNat 10 0x3ff (by decide)]
  omega

theorem unitsOf_eq (h : IsScalar ch.toNat) : unitsOf ch = Utf16.unitsOf ch.toNat := by
  have hle := h.le
  have hbmp : ch ≤ 0xffff ↔ ch.toNat ≤ 0xffff := UInt32.le_iff_toNat_le
  rw [unitsOf, Utf16.unitsOf]
  by_cases hlow : ch.toNat ≤ 0xffff
  · rw [if_pos (hbmp.mpr hlow), if_pos hlow]
    rfl
  rw [if_neg (fun hcon => hlow (hbmp.mp hcon)), if_neg hlow]
  have hsub : (ch - 0x10000).toNat = ch.toNat - 0x10000 := by
    refine UInt32.toNat_sub_of_le _ _ (UInt32.le_iff_toNat_le.mpr ?_)
    change 0x10000 ≤ ch.toNat
    omega
  have hlead : leadOf (ch - 0x10000) = u16Lead ch.toNat := by
    rw [← UInt16.toNat_inj, toNat_leadOf (by omega), toNat_u16Lead (by omega) hle]
    omega
  have htrail : trailOf (ch - 0x10000) = u16Trail ch.toNat := by
    rw [← UInt16.toNat_inj, toNat_trailOf, toNat_u16Trail]
    omega
  rw [hlead, htrail]

theorem run_unitsOf (h : IsScalar ch.toNat) (us : List UInt16) :
    run (encodeUnit false) 0 (unitsOf ch ++ us) =
      (run (encodeUnit false) 0 us).after (bytesOf ch) := by
  have hle := h.le
  rw [unitsOf_eq h, bytesOf]
  by_cases hlow : ch.toNat ≤ 0xffff
  · have hunit : (UInt16.ofNat ch.toNat).toNat = ch.toNat := toNat_ofNat_bmp hlow
    have hmove : encodeUnit false 0 (UInt16.ofNat ch.toNat) = .go 0 (appendUTF8 ch.toNat) := by
      rw [encodeUnit, if_pos rfl, hunit, if_neg]
      rw [h.not_surrogate]
      exact fun hcon => Bool.false_ne_true hcon.1
    rw [unitsOf_bmp hlow, List.singleton_append, run_cons, hmove, resume]
  have hlead := @u16IsLead_u16Lead ch.toNat (by omega) hle
  have hrange : 0xd800 ≤ (u16Lead ch.toNat).toNat ∧ (u16Lead ch.toNat).toNat ≤ 0xdbff := by
    rw [toNat_u16Lead (by omega) hle]
    omega
  have hsurrogate : uIsSurrogate (u16Lead ch.toNat).toNat = true :=
    (uIsSurrogate_iff (by omega)).mpr (by omega)
  have hfirst : encodeUnit false 0 (u16Lead ch.toNat) = .go (u16Lead ch.toNat).toNat [] := by
    rw [encodeUnit, if_pos rfl, if_pos ⟨hsurrogate, rfl⟩]
  have hsecond : encodeUnit false (u16Lead ch.toNat).toNat (u16Trail ch.toNat) =
      .go 0 (appendUTF8 ch.toNat) := by
    rw [encodeUnit, if_neg (by omega), if_pos, u16GetSupplementary_u16Lead_u16Trail (by omega) hle]
    refine ⟨?_, u16IsTrail_u16Trail _⟩
    rw [StrTrans.u16IsSurrogateLead_eq hsurrogate (by omega)]
    exact hlead
  rw [unitsOf_supplementary (by omega), List.cons_append, List.singleton_append, run_cons, hfirst,
    resume, run_cons, hsecond, resume, Outcome.after_nil]

theorem run_flatMap_unitsOf {cps : List UInt32} (h : ∀ c ∈ cps, IsScalar c.toNat) :
    run (encodeUnit false) 0 (cps.flatMap unitsOf) = ⟨cps.flatMap bytesOf, 0, none⟩ := by
  induction cps with
  | nil => rfl
  | cons c cps ih =>
    rw [List.flatMap_cons, run_unitsOf (h c List.mem_cons_self),
      ih fun x hx => h x (List.mem_cons_of_mem c hx)]
    rfl

end Icu.UcnvU8
