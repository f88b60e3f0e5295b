import Icu.Pattern.Sets

/-! # Reading escapes

What `u_unescapeAt` makes of the escapes that `_appendToPat` writes, in the middle of a string.
-/

namespace Icu.Pattern

open Utf16 Lib

variable {u : UInt16} {ds : List UInt16} {c : Nat}

theorem unitAt_append {pre rest : List UInt16} {u : UInt16} :
    unitAt (pre ++ u :: rest) pre.length = some u.toNat := by
  rw [unitAt, List.getElem?_append_right (Nat.le_refl _), Nat.sub_self]
  rfl

theorem charAt_append {pre rest : List UInt16} :
    charAt (pre ++ u :: rest) pre.length = u.toNat := by
  rw [charAt, unitAt_append]
  rfl

def HeadFree (rest : List UInt16) : Prop := ∀ u, rest.head? = some u → u16IsTrail u.toNat = false

def EndFree (pre : List UInt16) : Prop := ∀ u, pre.getLast? = some u → u16IsLead u.toNat = false

theorem digits_digit16 {n : Nat} (h : n < 16) : digit16 (digits.getD n 0).toNat = n := by
  revert n
  decide

theorem hexDigit_digit16 (c shift : Nat) :
    digit16 (hexDigit c shift).toNat = ((c / 2 ^ shift % 16 : Nat) : Int) := by
  have hand : 0xf &&& c >>> shift = c / 2 ^ shift % 16 := by
    rw [Nat.and_comm, Bits.and_low _ 4 0xf (by decide), Nat.shiftRight_eq_div_pow]
    rfl
  rw [hexDigit, hand]
  exact digits_digit16 (Nat.mod_lt _ (by decide))

/-- The number that hexadecimal digits stand for, behind the digits read so far. -/
def hexValue (result : Nat) (ds : List UInt16) : Nat :=
  ds.foldl (fun result u => result <<< 4 ||| (digit16 u.toNat).toNat) result

def AllHex (ds : List UInt16) : Prop := ∀ u ∈ ds, 0 ≤ digit16 u.toNat

theorem readDigits_hex (hds : AllHex ds) (pre rest : List UInt16) (n result c fuel : Nat) :
    ∃ c', readDigits (pre ++ (ds ++ rest)) 4 (ds.length + fuel) ⟨pre.length, n, result, c⟩ =
      readDigits (pre ++ (ds ++ rest)) 4 fuel
        ⟨pre.length + ds.length, n + ds.length, hexValue result ds, c'⟩ := by
  induction ds generalizing pre n result c with
  | nil => exact ⟨c, by simp [hexValue]⟩
  | cons u ds ih =>
    obtain ⟨hu, htail⟩ := List.forall_mem_cons.mp hds
    have hlt : pre.length < (pre ++ (u :: ds ++ rest)).length := by
      rw [List.length_append, List.cons_append, List.length_cons]
      omega
    obtain ⟨c', hrest⟩ := ih htail (pre ++ [u]) (n + 1)
      (result <<< 4 ||| (digit16 u.toNat).toNat) u.toNat
    refine ⟨c', ?_⟩
    have hassoc : pre ++ [u] ++ (ds ++ rest) = pre ++ (u :: ds ++ rest) := by
      rw [List.append_assoc, List.singleton_append, List.cons_append]
    rw [hassoc, List.length_append, List.length_singleton] at hrest
    rw [List.length_cons, Nat.add_right_comm, readDigits]
    simp only [if_pos hlt, show ¬ (4 = 3) by decide, if_false]
    rw [List.cons_append, charAt_append, if_neg (by omega), ← List.cons_append, hrest,
      Nat.add_right_comm, Nat.add_assoc pre.length, Nat.add_right_comm n, Nat.add_assoc n]
    rfl

theorem hexValue_append (result : Nat) (ds es : List UInt16) :
    hexValue result (ds ++ es) = hexValue (hexValue result ds) es := List.foldl_append

theorem hexValue_hexDigit (result c shift : Nat) :
    hexValue result [hexDigit c shift] = result * 16 + c / 2 ^ shift % 16 := by
  have hlt : c / 2 ^ shift % 16 < 2 ^ 4 := Nat.mod_lt _ (by decide)
  simp only [hexValue, List.foldl_cons, List.foldl_nil, hexDigit_digit16, Int.toNat_natCast]
  rw [Bits.or_low hlt]
  rfl

def low4 (c : Nat) : List UInt16 := [hexDigit c 12, hexDigit c 8, hexDigit c 4, hexDigit c 0]

def high4 (c : Nat) : List UInt16 := [hexDigit c 28, hexDigit c 24, hexDigit c 20, hexDigit c 16]

theorem allHex_low4 (c : Nat) : AllHex (low4 c) := by
  intro u hu
  simp only [low4, List.mem_cons, List.not_mem_nil, or_false] at hu
  rcases hu with rfl | rfl | rfl | rfl <;>
    · rw [hexDigit_digit16]
      omega

theorem allHex_high4 (c : Nat) : AllHex (high4 c) := by
  intro u hu
  simp only [high4, List.mem_cons, List.not_mem_nil, or_false] at hu
  rcases hu with rfl | rfl | rfl | rfl <;>
    · rw [hexDigit_digit16]
      omega

theorem hexValue_low4 (result c : Nat) :
    hexValue result (low4 c) = result * 0x10000 + c % 0x10000 := by
  have hsplit : low4 c =
    [hexDigit c 12] ++ ([hexDigit c 8] ++ ([hexDigit c 4] ++ [hexDigit c 0])) := rfl
  rw [hsplit, hexValue_append, hexValue_append, hexValue_append, hexValue_hexDigit,
    hexValue_hexDigit,
    hexValue_hexDigit, hexValue_hexDigit]
  omega

theorem hexValue_high4 (hc : c ≤ 0x10ffff) : hexValue 0 (high4 c) = c / 0x10000 := by
  have hsplit : high4 c =
    [hexDigit c 28] ++ ([hexDigit c 24] ++ ([hexDigit c 20] ++ [hexDigit c 16])) := rfl
  rw [hsplit, hexValue_append, hexValue_append, hexValue_append, hexValue_hexDigit,
    hexValue_hexDigit,
    hexValue_hexDigit, hexValue_hexDigit]
  omega

theorem escapeUnprintable_eq (c : Nat) : escapeUnprintable c =
      0x5c :: if c > 0xffff then 0x55 :: (high4 c ++ low4 c) else 0x75 :: low4 c := by
  unfold escapeUnprintable high4 low4
  split <;> rfl

section Sequences

variable (pre : List UInt16) (fuel : Nat)

theorem uUnescapeAt_digits {s : List UInt16} {offset : Nat} {form : EscapeForm} {d : DigitState}
    (hlt : offset < s.length) (hform : escapeForm s (charAt s offset) (offset + 1) = form)
    (hmin : form.minDig ≠ 0) (hbraces : form.braces = false)
    (hd : readDigits s form.bitsPerDigit (form.maxDig - form.n)
      ⟨form.offset, form.n, form.result, charAt s offset⟩ = d) :
    uUnescapeAt s (fuel + 1) offset =
      if d.n < form.minDig then none
      else if d.result ≥ 0x110000 then none
      else if d.offset < s.length ∧ u16IsLead d.result then
        if u16IsTrail (peekTrail (uUnescapeAt s fuel) s d.offset).1 then
          some (u16GetSupplementary d.result (peekTrail (uUnescapeAt s fuel) s d.offset).1,
            (peekTrail (uUnescapeAt s fuel) s d.offset).2)
        else some (d.result, d.offset)
      else some (d.result, d.offset) := by
  rw [uUnescapeAt, if_neg (Nat.not_le.mpr hlt)]
  simp only [hform, hd, hbraces, if_pos hmin, Bool.false_eq_true, false_and, if_false]

theorem length_low4 (c : Nat) : (low4 c).length = 4 := rfl

theorem length_append_cons (u : UInt16) (ds rest : List UInt16) :
    (pre ++ u :: (ds ++ rest)).length = pre.length + 1 + ds.length + rest.length := by
  rw [List.length_append, List.length_cons, List.length_append]
  omega

theorem readDigits_all (hds : AllHex ds) (u : UInt16) (rest : List UInt16) :
    ∃ c, readDigits (pre ++ u :: (ds ++ rest)) 4 ds.length ⟨pre.length + 1, 0, 0, u.toNat⟩ =
      ⟨pre.length + 1 + ds.length, ds.length, hexValue 0 ds, c⟩ := by
  have happ : pre ++ [u] ++ (ds ++ rest) = pre ++ u :: (ds ++ rest) := by
    rw [List.append_assoc, List.singleton_append]
  obtain ⟨c, hread⟩ := readDigits_hex hds (pre ++ [u]) rest 0 0 u.toNat 0
  rw [happ, List.length_append, List.length_singleton, Nat.add_zero, Nat.zero_add,
    readDigits] at hread
  exact ⟨c, hread⟩

theorem uUnescapeAt_low4 (hc : c ≤ 0xffff) (rest : List UInt16) :
    uUnescapeAt (pre ++ 0x75 :: (low4 c ++ rest)) (fuel + 1) pre.length =
      if rest ≠ [] ∧ u16IsLead c then
        if u16IsTrail (peekTrail (uUnescapeAt (pre ++ 0x75 :: (low4 c ++ rest)) fuel)
          (pre ++ 0x75 :: (low4 c ++ rest)) (pre.length + 5)).1 then
          some (u16GetSupplementary c
            (peekTrail (uUnescapeAt (pre ++ 0x75 :: (low4 c ++ rest)) fuel)
              (pre ++ 0x75 :: (low4 c ++ rest)) (pre.length + 5)).1,
            (peekTrail (uUnescapeAt (pre ++ 0x75 :: (low4 c ++ rest)) fuel)
              (pre ++ 0x75 :: (low4 c ++ rest)) (pre.length + 5)).2)
        else some (c, pre.length + 5)
      else some (c, pre.length + 5) := by
  have hlen := length_append_cons pre 0x75 (low4 c) rest
  obtain ⟨c', hread⟩ := readDigits_all pre (allHex_low4 c) 0x75 rest
  have hvalue : hexValue 0 (low4 c) = c := by
    rw [hexValue_low4]
    omega
  rw [length_low4] at hlen hread
  rw [hvalue] at hread
  have hform : escapeForm (pre ++ 0x75 :: (low4 c ++ rest))
      (charAt (pre ++ 0x75 :: (low4 c ++ rest)) pre.length) (pre.length + 1) =
        ⟨4, 4, 4, 0, 0, pre.length + 1, false⟩ := by
    rw [charAt_append]
    rfl
  have hd := @uUnescapeAt_digits fuel _ _ ⟨4, 4, 4, 0, 0, pre.length + 1, false⟩
    ⟨pre.length + 5, 4, c, c'⟩ (by omega) hform (Nat.succ_ne_zero _) rfl
      (by rw [charAt_append]; exact hread)
  have hmore : pre.length + 5 < (pre ++ 0x75 :: (low4 c ++ rest)).length ↔ rest ≠ [] := by
    rw [← List.length_pos_iff]
    omega
  rw [hd]
  simp only [hmore]
  rw [if_neg (by decide), if_neg (by omega)]

theorem uUnescapeAt_low4_free (hc : c ≤ 0xffff) (rest : List UInt16)
    (h : u16IsLead c = true → rest ≠ [] →
      u16IsTrail (peekTrail (uUnescapeAt (pre ++ 0x75 :: (low4 c ++ rest)) fuel)
        (pre ++ 0x75 :: (low4 c ++ rest)) (pre.length + 5)).1 = false) :
    uUnescapeAt (pre ++ 0x75 :: (low4 c ++ rest)) (fuel + 1) pre.length =
      some (c, pre.length + 5) := by
  rw [uUnescapeAt_low4 pre fuel hc]
  split
  · next hlead => rw [h hlead.2 hlead.1, if_neg Bool.false_ne_true]
  · rfl

theorem uUnescapeAt_high4_low4 (hc : 0xffff < c) (hle : c ≤ 0x10ffff) (rest : List UInt16) :
    uUnescapeAt (pre ++ 0x55 :: (high4 c ++ low4 c ++ rest)) (fuel + 1) pre.length =
      some (c, pre.length + 9) := by
  have hds : AllHex (high4 c ++ low4 c) :=
    List.forall_mem_append.mpr ⟨allHex_high4 c, allHex_low4 c⟩
  have hlen := length_append_cons pre 0x55 (high4 c ++ low4 c) rest
  obtain ⟨c', hread⟩ := readDigits_all pre hds 0x55 rest
  have hvalue : hexValue 0 (high4 c ++ low4 c) = c := by
    rw [hexValue_append, hexValue_high4 hle, hexValue_low4]
    omega
  have hcount : (high4 c ++ low4 c).length = 8 := rfl
  rw [hcount] at hlen hread
  rw [hvalue] at hread
  have hform : escapeForm (pre ++ 0x55 :: (high4 c ++ low4 c ++ rest))
      (charAt (pre ++ 0x55 :: (high4 c ++ low4 c ++ rest)) pre.length) (pre.length + 1) =
        ⟨8, 8, 4, 0, 0, pre.length + 1, false⟩ := by
    rw [charAt_append]
    rfl
  have hlead : ¬ u16IsLead c = true := by
    rw [u16IsLead_iff (by omega)]
    omega
  have hd := @uUnescapeAt_digits fuel _ _ ⟨8, 8, 4, 0, 0, pre.length + 1, false⟩
    ⟨pre.length + 9, 8, c, c'⟩ (by omega) hform (Nat.succ_ne_zero _) rfl
      (by rw [charAt_append]; exact hread)
  rw [hd]
  dsimp only
  rw [if_neg (by decide), if_neg (by omega), if_neg (fun h => hlead h.2)]

theorem uUnescapeAt_short (hds : AllHex ds) (hshort : ds.length < 8) :
    uUnescapeAt (pre ++ 0x55 :: ds) (fuel + 1) pre.length = none := by
  have hlen := length_append_cons pre 0x55 ds []
  have happ : pre ++ [0x55] ++ (ds ++ []) = pre ++ 0x55 :: ds := by
    rw [List.append_assoc, List.singleton_append, List.append_nil]
  obtain ⟨c', hread⟩ := readDigits_hex hds (pre ++ [0x55]) [] 0 0 0x55 (8 - ds.length)
  rw [List.append_nil, List.length_nil] at hlen
  rw [happ, Nat.add_sub_cancel' (Nat.le_of_lt hshort), List.length_append, List.length_singleton,
    Nat.zero_add] at hread
  -- Behind the digits is the end.
  have hend : ∀ k d, d.offset = pre.length + 1 + ds.length →
      readDigits (pre ++ 0x55 :: ds) 4 k d = d := by
    intro k d hd
    cases k with
    | zero => rfl
    | succ k => rw [readDigits, if_neg (by omega)]
  rw [hend (8 - ds.length) ⟨pre.length + 1 + ds.length, _, _, _⟩ rfl] at hread
  have hform : escapeForm (pre ++ 0x55 :: ds) (charAt (pre ++ 0x55 :: ds) pre.length)
    (pre.length + 1) =
      ⟨8, 8, 4, 0, 0, pre.length + 1, false⟩ := by
    rw [charAt_append]
    rfl
  have hd := @uUnescapeAt_digits fuel _ _ ⟨8, 8, 4, 0, 0, pre.length + 1, false⟩
    ⟨pre.length + 1 + ds.length, ds.length, hexValue 0 ds, c'⟩ (by omega) hform (Nat.succ_ne_zero _)
      rfl
    (by rw [charAt_append]; exact hread)
  rw [hd]
  exact if_pos hshort

/-- A unit that is escaped by a backslash only. -/
def IsPlain (u : Nat) : Prop :=
  u ∉ [0x75, 0x55, 0x78, 0x63] ∧ digit8 u < 0 ∧ lookupEscape u unescapeMap = none ∧ u16IsLead u =
    false

theorem uUnescapeAt_plain (hu : IsPlain u.toNat) (rest : List UInt16) :
    uUnescapeAt (pre ++ u :: rest) (fuel + 1) pre.length = some (u.toNat, pre.length + 1) := by
  obtain ⟨hspecial, hdigit, hlookup, hlead⟩ := hu
  simp only [List.mem_cons, List.not_mem_nil, or_false, not_or] at hspecial
  have hlen : ¬ pre.length ≥ (pre ++ u :: rest).length := by
    rw [List.length_append, List.length_cons]
    omega
  rw [uUnescapeAt, if_neg hlen]
  simp only [charAt_append, escapeForm, if_neg hspecial.1, if_neg hspecial.2.1,
    if_neg hspecial.2.2.1,
    if_neg (Int.not_le.mpr hdigit), hlookup, hlead, ne_eq, not_true, if_false, hspecial.2.2.2,
      false_and,
    Bool.false_eq_true, ge_iff_le]

end Sequences

end Icu.Pattern
