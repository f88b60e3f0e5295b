import Icu.StrTrans.Reference
import Icu.StrTrans.ToUtf8Model

/-! # The bytes of a code point

What `_appendUTF8` stores is the only well-formed unit with its code point.
-/

namespace Icu.StrTrans

open Lib Utf16 Utf8

variable {x : Nat}

theorem toNat_ofNat_byte {n : Nat} (h : n < 0x100) : (UInt8.ofNat n).toNat = n :=
  UInt8.toNat_ofNat_of_lt' h

theorem or_c0 (h : x < 0x20) : x ||| 0xc0 = x + 0xc0 := by
  rw [Nat.or_comm, Nat.add_comm]
  exact @Bits.or_mul 3 x 6 (by omega)

theorem or_e0 (h : x < 0x10) : x ||| 0xe0 = x + 0xe0 := by
  rw [Nat.or_comm, Nat.add_comm]
  exact @Bits.or_mul 7 x 5 (by omega)

theorem or_f0 (h : x < 0x10) : x ||| 0xf0 = x + 0xf0 := by
  rw [Nat.or_comm, Nat.add_comm]
  exact @Bits.or_mul 15 x 4 (by omega)

theorem toNat_trail (x : Nat) : (UInt8.ofNat ((x &&& 0x3f) ||| 0x80)).toNat = x % 0x40 + 0x80 := by
  have hor : x % 0x40 ||| 0x80 = x % 0x40 + 0x80 := by
    rw [Nat.or_comm, Nat.add_comm]
    exact @Bits.or_mul 1 (x % 0x40) 7 (by omega)
  rw [Bits.and_low x 6 0x3f (by decide)]
  change (UInt8.ofNat (x % 0x40 ||| 0x80)).toNat = _
  rw [hor]
  exact toNat_ofNat_byte (by omega)

theorem toNat_twoBytes {c : Nat} (h : c < 0x800) :
    (twoBytes c).map UInt8.toNat = [c / 0x40 + 0xc0, c % 0x40 + 0x80] := by
  rw [twoBytes, List.map_cons, List.map_singleton, toNat_trail, Nat.shiftRight_eq_div_pow,
    or_c0 (by omega), toNat_ofNat_byte (by omega)]

theorem toNat_threeBytes {c : Nat} (h : c < 0x10000) : (threeBytes c).map UInt8.toNat =
    [c / 0x1000 + 0xe0, c / 0x40 % 0x40 + 0x80, c % 0x40 + 0x80] := by
  rw [threeBytes, List.map_cons, List.map_cons, List.map_singleton, toNat_trail, toNat_trail,
    Nat.shiftRight_eq_div_pow, Nat.shiftRight_eq_div_pow, or_e0 (by omega),
    toNat_ofNat_byte (by omega)]

theorem toNat_fourBytes {c : Nat} (h : c ≤ 0x10ffff) : (fourBytes c).map UInt8.toNat =
    [c / 0x40000 + 0xf0, c / 0x1000 % 0x40 + 0x80, c / 0x40 % 0x40 + 0x80, c % 0x40 + 0x80] := by
  rw [fourBytes, List.map_cons, List.map_cons, List.map_cons, List.map_singleton, toNat_trail,
    toNat_trail, toNat_trail, Nat.shiftRight_eq_div_pow, Nat.shiftRight_eq_div_pow,
    Nat.shiftRight_eq_div_pow, or_f0 (by omega), toNat_ofNat_byte (by omega)]

def BytesAt (t : List UInt8) : Nat → List Nat → Prop
  | _, [] => True
  | p, b :: bs => byteAt t p = some b ∧ BytesAt t (p + 1) bs

section

variable {t rest : List UInt8} {p : Nat} {c : Nat} {ts : List Nat} {b : Nat}

theorem bytesAt_of_drop : ∀ {l : List UInt8} {p : Nat}, t.drop p = l ++ rest →
    BytesAt t p (l.map UInt8.toNat)
  | [], _, _ => trivial
  | u :: l, p, h => by
    have hget : t[p]? = some u := by
      rw [← Nat.add_zero p, ← List.getElem?_drop, h]
      rfl
    refine ⟨by rw [byteAt, hget]; rfl, bytesAt_of_drop ?_⟩
    rw [← List.drop_drop, h]
    rfl

theorem BytesAt.drop_eq : ∀ {l : List UInt8} {p : Nat}, BytesAt t p (l.map UInt8.toNat) →
    t.drop p = l ++ t.drop (p + l.length)
  | [], _, _ => rfl
  | u :: l, p, h => by
    obtain ⟨v, hv, hvu⟩ := Option.map_eq_some_iff.mp h.1
    obtain ⟨hlt, hget⟩ := List.getElem?_eq_some_iff.mp hv
    rw [List.drop_eq_getElem_cons hlt, hget, UInt8.toNat_inj.mp hvu, BytesAt.drop_eq h.2,
      List.length_cons, List.cons_append, Nat.add_assoc, Nat.add_comm 1]

theorem BytesAt.length_le : ∀ {bs : List Nat} {p : Nat}, BytesAt t p bs → bs ≠ [] →
    p + bs.length ≤ t.length
  | [b], p, h, _ => lt_of_byteAt h.1
  | b :: b' :: bs, p, h, _ => by
    have hrest := @BytesAt.length_le (b' :: bs) (p + 1) h.2 (by simp)
    rw [List.length_cons]
    omega

theorem BytesAt.assemble_eq : ∀ {ts : List Nat} {v i : Nat}, BytesAt t i ts →
    assemble t v ts.length i = ts.foldl (fun v b => v * 0x40 + (b - 0x80)) v
  | [], _, _, _ => rfl
  | b :: ts, v, i, h => by
    rw [List.length_cons, assemble, payload, h.1, List.foldl_cons]
    exact BytesAt.assemble_eq h.2

theorem BytesAt.get : ∀ {bs : List Nat} {p i : Nat}, BytesAt t p bs → p ≤ i → i < p + bs.length →
    ∃ b ∈ bs, byteAt t i = some b
  | [], _, _, _, h1, h2 => by
    rw [List.length_nil] at h2
    omega
  | b :: bs, p, i, h, h1, h2 => by
    rw [List.length_cons] at h2
    rcases Nat.eq_or_lt_of_le h1 with rfl | hlt
    · exact ⟨b, List.mem_cons_self, h.1⟩
    obtain ⟨b', hb', hget⟩ := BytesAt.get h.2 hlt (by omega)
    exact ⟨b', List.mem_cons_of_mem b hb', hget⟩

theorem isUnit_of_bytes (h : BytesAt t p (b :: ts))
    (hcount : u8CountTrailBytes b = ts.length) (hts : ∀ x ∈ ts, 0x80 ≤ x ∧ x < 0xc0) :
    IsUnit t p (p + 1 + ts.length) := by
  have hle := h.length_le (by simp)
  rw [List.length_cons] at hle
  refine ⟨by omega, by omega, fun i h1 h2 => ?_, fun b' hb' => ?_, fun b' hb' hlt => ?_⟩
  · obtain ⟨x, hx, hget⟩ := h.2.get h1 h2
    exact ⟨x, hget, hts x hx⟩
  · rw [h.1, Option.some.injEq] at hb'
    rw [← hb']
    omega
  · rw [h.1, Option.some.injEq] at hb'
    rw [← hb'] at hlt
    omega

theorem decodes_multi (h : BytesAt t p (b :: ts)) (hb : ¬ b < 0x80)
    (hcount : u8CountTrailBytes b = ts.length) (hts : ∀ x ∈ ts, 0x80 ≤ x ∧ x < 0xc0)
    (h3 : 1 ≤ ts.length ∧ ts.length ≤ 3)
    (hvalue : ts.foldl (fun v b => v * 0x40 + (b - 0x80)) (b % 2 ^ (6 - ts.length)) = c)
    (hlegal : legal ts.length c = true) :
    IsUnit t p (p + 1 + ts.length) ∧ codePoint t p (p + 1 + ts.length) = some c := by
  refine ⟨isUnit_of_bytes h hcount hts, ?_⟩
  rw [codePoint_multi h.1 hb, hcount, u8MaskLeadByte_eq, h.2.assemble_eq, hvalue,
    if_pos ⟨h3.1, h3.2, rfl, hlegal⟩]

theorem decodes_appendUTF8 (hc : IsScalar c) (h : t.drop p = appendUTF8 c ++ rest) :
    IsUnit t p (p + (appendUTF8 c).length) ∧ codePoint t p (p + (appendUTF8 c).length) =
    some c := by
  have hle := hc.le
  have hrange := hc.not_range
  have hlegal : ∀ {count : Nat}, utf8MinLegal count ≤ c → legal count c = true := fun hmin =>
    decide_eq_true ⟨hmin, hle, fun hcon => hrange ⟨hcon.1, by omega⟩⟩
  have hbytes := bytesAt_of_drop h
  rw [appendUTF8] at hbytes ⊢
  by_cases h1 : c ≤ 0x7f
  · rw [if_pos h1, List.map_singleton, toNat_ofNat_byte (by omega)] at hbytes
    rw [if_pos h1]
    exact ⟨isUnit_of_bytes hbytes (u8CountTrailBytes_eq_zero (by omega)) (by simp),
      codePoint_single hbytes.1 (by omega)⟩
  rw [if_neg h1] at hbytes ⊢
  by_cases h2 : c ≤ 0x7ff
  · rw [if_pos h2, toNat_twoBytes (by omega)] at hbytes
    rw [if_pos h2]
    refine decodes_multi hbytes (by omega) ?_ ?_ (by simp) ?_ (hlegal (by change 0x80 ≤ c; omega))
    · rw [u8CountTrailBytes, if_pos (by omega), if_pos (by omega), if_neg (by omega)]
      rfl
    · simp only [List.mem_cons, List.not_mem_nil, or_false, forall_eq]
      omega
    · simp only [List.foldl_cons, List.foldl_nil, List.length_singleton]
      omega
  rw [if_neg h2] at hbytes ⊢
  by_cases h3 : c ≤ 0xffff
  · rw [if_pos h3, toNat_threeBytes (by omega)] at hbytes
    rw [if_pos h3]
    refine decodes_multi hbytes (by omega) ?_ ?_ (by simp) ?_ (hlegal (by change 0x800 ≤ c; omega))
    · rw [u8CountTrailBytes, if_pos (by omega), if_pos (by omega), if_pos (by omega)]
      rfl
    · simp only [List.mem_cons, List.not_mem_nil, or_false, forall_eq_or_imp, forall_eq]
      omega
    · simp only [List.foldl_cons, List.foldl_nil, List.length_cons, List.length_nil]
      omega
  rw [if_neg h3, toNat_fourBytes hle] at hbytes
  rw [if_neg h3]
  refine decodes_multi hbytes (by omega) ?_ ?_ (by simp) ?_ (hlegal (by change 0x10000 ≤ c; omega))
  · rw [u8CountTrailBytes, if_neg (by omega), if_pos (by omega), if_neg (by omega),
      if_neg (by omega)]
    rfl
  · simp only [List.mem_cons, List.not_mem_nil, or_false, forall_eq_or_imp, forall_eq]
    omega
  · simp only [List.foldl_cons, List.foldl_nil, List.length_cons, List.length_nil]
    omega

theorem appendUTF8_of_unit {e : Nat} (h : IsUnit t p e) (hcode : codePoint t p e = some c) :
    IsScalar c ∧ t.drop p = appendUTF8 c ++ t.drop e := by
  obtain ⟨b, hb, hlt⟩ := h.byteAt
  by_cases hb80 : b < 0x80
  · rw [codePoint_single hb hb80, Option.some.injEq] at hcode
    subst hcode
    have hshort := h.short b hb
    have hpe := h.lt
    rw [u8CountTrailBytes_eq_zero (by omega)] at hshort
    obtain rfl : e = p + 1 := by omega
    refine ⟨⟨by omega, ?_⟩, ?_⟩
    · rw [← Bool.not_eq_true, uIsSurrogate_iff (by omega)]
      omega
    rw [appendUTF8, if_pos (by omega)]
    apply BytesAt.drop_eq
    rw [List.map_singleton, toNat_ofNat_byte hlt]
    exact ⟨hb, trivial⟩
  rw [codePoint_multi hb hb80] at hcode
  split at hcode
  · next hcond =>
    obtain ⟨h1, h3, he, hlegal⟩ := hcond
    rw [Option.some.injEq] at hcode
    rw [hcode] at hlegal
    obtain ⟨hmin, hmax, hsurr⟩ := of_decide_eq_true hlegal
    refine ⟨⟨hmax, ?_⟩, ?_⟩
    · rw [← Bool.not_eq_true, uIsSurrogate_iff (by omega)]
      omega
    have htrail : ∀ k < u8CountTrailBytes b, ∃ x, byteAt t (p + 1 + k) = some x ∧ 0x80 ≤ x ∧
      x < 0xc0 :=
      fun k hk => h.trails (p + 1 + k) (by omega) (by omega)
    have hcases : (u8CountTrailBytes b = 1 ∧ 0xc0 ≤ b ∧ b < 0xe0) ∨
        (u8CountTrailBytes b = 2 ∧ 0xe0 ≤ b ∧ b < 0xf0) ∨
        (u8CountTrailBytes b = 3 ∧ 0xf0 ≤ b ∧ b < 0xf8) := by
      clear hcode hmin hlegal htrail he
      rw [u8CountTrailBytes] at h1 h3 ⊢
      split_ifs at h1 h3 ⊢ <;> omega
    rw [u8MaskLeadByte_eq] at hcode
    rw [he]
    rcases hcases with ⟨hcount, hb1, hb2⟩ | ⟨hcount, hb1, hb2⟩ | ⟨hcount, hb1, hb2⟩
    · rw [hcount] at hcode hmin htrail ⊢
      obtain ⟨x, hx, hx1, hx2⟩ := htrail 0 (by omega)
      have hbytes : BytesAt t p [b, x] := ⟨hb, hx, trivial⟩
      have hvalue := hbytes.2.assemble_eq (v := b % 2 ^ (6 - 1))
      rw [List.length_singleton, hcode] at hvalue
      simp only [List.foldl_cons, List.foldl_nil] at hvalue
      change 0x80 ≤ c at hmin
      rw [appendUTF8, if_neg (by omega), if_pos (by omega)]
      apply BytesAt.drop_eq (l := twoBytes c)
      rw [toNat_twoBytes (by omega), show c / 0x40 + 0xc0 = b by omega,
        show c % 0x40 + 0x80 = x by omega]
      exact hbytes
    · rw [hcount] at hcode hmin htrail ⊢
      obtain ⟨x, hx, hx1, hx2⟩ := htrail 0 (by omega)
      obtain ⟨y, hy, hy1, hy2⟩ := htrail 1 (by omega)
      have hbytes : BytesAt t p [b, x, y] := ⟨hb, hx, hy, trivial⟩
      have hvalue := hbytes.2.assemble_eq (v := b % 2 ^ (6 - 2))
      rw [show [x, y].length = 2 from rfl, hcode] at hvalue
      simp only [List.foldl_cons, List.foldl_nil] at hvalue
      change 0x800 ≤ c at hmin
      rw [appendUTF8, if_neg (by omega), if_neg (by omega), if_pos (by omega)]
      apply BytesAt.drop_eq (l := threeBytes c)
      rw [toNat_threeBytes (by omega), show c / 0x1000 + 0xe0 = b by omega,
        show c / 0x40 % 0x40 + 0x80 = x by omega, show c % 0x40 + 0x80 = y by omega]
      exact hbytes
    · rw [hcount] at hcode hmin htrail ⊢
      obtain ⟨x, hx, hx1, hx2⟩ := htrail 0 (by omega)
      obtain ⟨y, hy, hy1, hy2⟩ := htrail 1 (by omega)
      obtain ⟨z, hz, hz1, hz2⟩ := htrail 2 (by omega)
      have hbytes : BytesAt t p [b, x, y, z] := ⟨hb, hx, hy, hz, trivial⟩
      have hvalue := hbytes.2.assemble_eq (v := b % 2 ^ (6 - 3))
      rw [show [x, y, z].length = 3 from rfl, hcode] at hvalue
      simp only [List.foldl_cons, List.foldl_nil] at hvalue
      change 0x10000 ≤ c at hmin
      rw [appendUTF8, if_neg (by omega), if_neg (by omega), if_neg (by omega)]
      apply BytesAt.drop_eq (l := fourBytes c)
      rw [toNat_fourBytes hmax, show c / 0x40000 + 0xf0 = b by omega,
        show c / 0x1000 % 0x40 + 0x80 = x by omega, show c / 0x40 % 0x40 + 0x80 = y by omega,
        show c % 0x40 + 0x80 = z by omega]
      exact hbytes
  · cases hcode

theorem decodes_flatMap : ∀ {cs : List Nat} {p : Nat}, (∀ c ∈ cs, IsScalar c) → p ≤ t.length →
    t.drop p = cs.flatMap appendUTF8 → Decodes t p t.length (cs.map some)
  | [], p, _, hp, h => by
    have hlength := List.drop_eq_nil_iff.mp h
    obtain rfl : p = t.length := by omega
    exact .nil _
  | c :: cs, p, hcs, hp, h => by
    rw [List.flatMap_cons] at h
    obtain ⟨hc, hcs⟩ := List.forall_mem_cons.mp hcs
    obtain ⟨hunit, hcode⟩ := decodes_appendUTF8 hc h
    have hrest : t.drop (p + (appendUTF8 c).length) = cs.flatMap appendUTF8 := by
      rw [← List.drop_drop, h, List.drop_left]
    rw [List.map_cons, ← hcode]
    exact .cons hunit (decodes_flatMap hcs hunit.le hrest)

theorem decode_flatMap {cs : List Nat} (h : ∀ c ∈ cs, IsScalar c) :
    decode (cs.flatMap appendUTF8) = cs.map some :=
  (decodes_flatMap h (Nat.zero_le _) List.drop_zero).decode_eq

theorem Decodes.drop_eq {q : Nat} {codes : List (Option Nat)} (h : Decodes t p q codes) :
    ∀ {cs : List Nat}, codes = cs.map some →
      (∀ c ∈ cs, IsScalar c) ∧ t.drop p = cs.flatMap appendUTF8 ++ t.drop q := by
  induction h with
  | nil p =>
    intro cs hcs
    obtain rfl := List.map_eq_nil_iff.mp hcs.symm
    exact ⟨by simp, rfl⟩
  | cons hunit _ ih =>
    intro cs hcs
    obtain ⟨c, cs, rfl, hc, hrest⟩ := List.map_eq_cons_iff.mp hcs.symm
    obtain ⟨hscalars, hdrop⟩ := ih hrest.symm
    obtain ⟨hscalar, hbytes⟩ := appendUTF8_of_unit hunit hc.symm
    refine ⟨List.forall_mem_cons.mpr ⟨hscalar, hscalars⟩, ?_⟩
    rw [hbytes, hdrop, List.flatMap_cons, List.append_assoc]

theorem exists_scalars (h : none ∉ decode t) :
    ∃ cs : List Nat, (∀ c ∈ cs, IsScalar c) ∧ decode t = cs.map some ∧ t =
    cs.flatMap appendUTF8 := by
  obtain ⟨codes, hdecodes⟩ := Decodes.exists_rest (Nat.zero_le t.length)
  rw [hdecodes.decode_eq] at h ⊢
  have hsome : ∀ {codes : List (Option Nat)}, none ∉ codes → ∃ cs : List Nat, codes =
    cs.map some := by
    intro codes hnone
    induction codes with
    | nil => exact ⟨[], rfl⟩
    | cons code codes ih =>
      obtain ⟨cs, rfl⟩ := ih (List.not_mem_of_not_mem_cons hnone)
      cases code with
      | none => exact absurd List.mem_cons_self hnone
      | some c => exact ⟨c :: cs, rfl⟩
  obtain ⟨cs, rfl⟩ := hsome h
  obtain ⟨hscalars, hdrop⟩ := hdecodes.drop_eq rfl
  refine ⟨cs, hscalars, rfl, ?_⟩
  rw [List.drop_zero, List.drop_length, List.append_nil] at hdrop
  exact hdrop

end

end Icu.StrTrans
