import Mathlib.Data.Bool.AllAny
import Icu.Pattern.Unescape

/-! # Characters of generated patterns

What `_appendToPat` writes is read as one character, unless it is a lead surrogate and a trail
surrogate follows. Then the two are read as one supplementary code point.
-/

namespace Icu.Pattern

open Utf16 Lib

variable {u : UInt16} {trail lead : Nat}

/-- A lead surrogate before this text is not joined with anything: the look-ahead of 12 units has
room for seven of them behind an escaped lead surrogate. -/
def NoJoin (rest : List UInt16) : Prop :=
  ∀ (pre : List UInt16) (fuel : Nat), rest.take 7 ≠ [] →
    u16IsTrail (peekTrail (uUnescapeAt (pre ++ rest.take 7) (fuel + 1)) (pre ++ rest.take 7)
      pre.length).1 = false

theorem peekTrail_unit (unescapeAt : Nat → Option (Nat × Nat)) (pre more : List UInt16)
    (hu : u ≠ 0x5c) :
    peekTrail unescapeAt (pre ++ u :: more) pre.length = (u.toNat, pre.length + 1) := by
  have hne : u.toNat ≠ 0x5c := fun h => hu (UInt16.toNat.inj h)
  simp only [peekTrail, charAt_append, hne, false_and, if_false]

theorem peekTrail_last (unescapeAt : Nat → Option (Nat × Nat)) (pre : List UInt16) (u : UInt16) :
    peekTrail unescapeAt (pre ++ [u]) pre.length = (u.toNat, pre.length + 1) := by
  have hlen : ¬ pre.length + 1 < (pre ++ [u]).length := by
    rw [List.length_append, List.length_singleton]
    omega
  simp only [peekTrail, charAt_append, hlen, and_false, if_false]

theorem peekTrail_escape (fuel : Nat) (pre : List UInt16) {v : UInt16} (more : List UInt16) :
    peekTrail (uUnescapeAt (pre ++ 0x5c :: v :: more) fuel) (pre ++ 0x5c :: v :: more) pre.length =
      match uUnescapeAt (pre ++ [0x5c] ++ v :: more) fuel (pre ++ [0x5c]).length with
      | some (c, ahead) => (c % 0x10000, ahead)
      | none => (0xffff, pre.length + 1) := by
  have hlen : pre.length + 1 < (pre ++ 0x5c :: v :: more).length := by
    rw [List.length_append, List.length_cons, List.length_cons]
    omega
  have happ : pre ++ [0x5c] ++ v :: more = pre ++ 0x5c :: v :: more := by
    rw [List.append_assoc, List.singleton_append]
  have hc : charAt (pre ++ 0x5c :: v :: more) pre.length = 0x5c := charAt_append
  rw [happ, List.length_append, List.length_singleton]
  unfold peekTrail
  rw [hc]
  exact if_pos ⟨rfl, hlen⟩

theorem noJoin_unit (hu : u ≠ 0x5c) (htrail : u16IsTrail u.toNat = false)
    (rest : List UInt16) : NoJoin (u :: rest) := by
  intro pre fuel _
  rw [List.take_succ_cons, peekTrail_unit _ _ _ hu]
  exact htrail

theorem NoJoin.headFree {rest : List UInt16} (h : NoJoin rest) : HeadFree rest := by
  intro u hu
  cases rest with
  | nil => cases hu
  | cons v rest =>
    have huv : v = u := Option.some.inj hu
    rw [← huv]
    by_cases hv : v = 0x5c
    · rw [hv]
      decide
    have := h [] 0 (by simp)
    rw [List.take_succ_cons, peekTrail_unit _ _ _ hv] at this
    exact this

theorem noJoin_plain (hu : IsPlain u.toNat) (htrail : u16IsTrail u.toNat = false)
    (rest : List UInt16) : NoJoin (0x5c :: u :: rest) := by
  intro pre fuel _
  have hlt := u.toNat_lt
  rw [List.take_succ_cons, List.take_succ_cons, peekTrail_escape, uUnescapeAt_plain _ _ hu]
  dsimp only
  rw [Nat.mod_eq_of_lt hlt]
  exact htrail

theorem noJoin_low4 {c : Nat} (hc : c ≤ 0xffff) (htrail : u16IsTrail c = false) {rest : List UInt16}
    (hrest : u16IsLead c = true → HeadFree rest) : NoJoin (0x5c :: 0x75 :: (low4 c ++ rest)) := by
  intro pre fuel _
  have htake : (0x5c :: 0x75 :: (low4 c ++ rest)).take 7 =
      0x5c :: 0x75 :: (low4 c ++ rest.take 1) := by
    rw [List.take_succ_cons, List.take_succ_cons, List.take_append,
      List.take_of_length_le (by rw [length_low4]; decide), length_low4]
  have hc' : c % 0x10000 = c := by omega
  rw [htake, peekTrail_escape, uUnescapeAt_low4_free _ _ hc]
  · dsimp only
    rw [hc', htrail]
  -- There is one more unit in the look-ahead, and it is not a trail surrogate.
  intro hlead hne
  obtain ⟨u, rest', rfl⟩ := List.exists_cons_of_ne_nil
    (show rest ≠ [] from fun h => hne (by rw [h]; rfl))
  have happ : pre ++ [0x5c] ++ 0x75 :: (low4 c ++ [u]) = pre ++ [0x5c] ++ 0x75 :: low4 c ++
    [u] := by
    rw [List.append_assoc (pre ++ [0x5c]), List.cons_append]
  have hpos : (pre ++ [0x5c]).length + 5 = (pre ++ [0x5c] ++ 0x75 :: low4 c).length := by
    rw [@List.length_append _ (pre ++ [0x5c]), List.length_cons, length_low4]
  have hone : (u :: rest').take 1 = [u] := rfl
  rw [hone, happ, hpos, peekTrail_last]
  exact hrest hlead u rfl

theorem noJoin_high4 (c : Nat) (rest : List UInt16) :
    NoJoin (0x5c :: 0x55 :: (high4 c ++ low4 c ++ rest)) := by
  intro pre fuel _
  have htake : (0x5c :: 0x55 :: (high4 c ++ low4 c ++ rest)).take 7 =
      0x5c :: 0x55 :: [hexDigit c 28, hexDigit c 24, hexDigit c 20, hexDigit c 16, hexDigit c 12] :=
        rfl
  have hds : AllHex [hexDigit c 28, hexDigit c 24, hexDigit c 20, hexDigit c 16,
    hexDigit c 12] := by
    intro u hu
    simp only [List.mem_cons, List.not_mem_nil, or_false] at hu
    rcases hu with rfl | rfl | rfl | rfl | rfl <;>
      · rw [hexDigit_digit16]
        omega
  rw [htake, peekTrail_escape, uUnescapeAt_short _ _ hds (Nat.lt_of_sub_pos (by simp))]
  dsimp only
  decide

section Iterator

variable {pre rest : List UInt16} {c : Nat}

theorem u16Get_pair {s : List UInt16} {i length : Nat} (hlead : unitAt s i = some lead)
    (hl : u16IsLead lead = true) (hlength : i + 1 ≠ length) (htrail : unitAt s (i + 1) = some trail)
    (ht : u16IsTrail trail = true) : u16Get s i length = some (u16GetSupplementary lead trail) := by
  simp [u16Get, hlead, hl, hlength, htrail, ht]

theorem u16Get_unitsOf (hc : c ≤ 0x10ffff) (hlead : u16IsLead c = true → HeadFree rest)
    (htrail : u16IsTrail c = true → EndFree pre) :
    u16Get (pre ++ (unitsOf c ++ rest)) pre.length (pre ++ (unitsOf c ++ rest)).length =
    some c := by
  by_cases hbmp : c ≤ 0xffff
  · have hval := toNat_ofNat_bmp hbmp
    rw [unitsOf_bmp hbmp, List.singleton_append, u16Get, unitAt_append, hval]
    simp only [Option.bind_eq_bind, Option.bind_some]
    by_cases hl : u16IsLead c = true
    · rw [if_pos hl]
      cases rest with
      | nil => rw [if_neg (by simp)]; rfl
      | cons u rest =>
        have hnext : unitAt (pre ++ UInt16.ofNat c :: u :: rest) (pre.length + 1) =
          some u.toNat := by
          have := @unitAt_append (pre ++ [UInt16.ofNat c]) rest u
          rwa [List.append_assoc, List.singleton_append, List.length_append,
            List.length_singleton] at this
        have hu := hlead hl u rfl
        rw [if_pos (by simp), hnext]
        simp [hu]
    rw [if_neg hl]
    by_cases ht : u16IsTrail c = true
    · rw [if_pos ht]
      rcases List.eq_nil_or_concat pre with rfl | ⟨pre', u, rfl⟩
      · rw [if_neg (by simp)]
        rfl
      have hprev : unitAt (pre'.concat u ++ UInt16.ofNat c :: rest) ((pre'.concat u).length - 1) =
          some u.toNat := by
        have := @unitAt_append pre' (UInt16.ofNat c :: rest) u
        simpa using this
      have hu := htrail ht u (by simp)
      rw [if_pos (by simp), hprev]
      simp [hu]
    · rw [if_neg ht]
      rfl
  · have hsup : 0xffff < c := by omega
    have hl := u16IsLead_u16Lead hsup hc
    have ht := u16IsTrail_u16Trail c
    have hvalue := u16GetSupplementary_u16Lead_u16Trail hsup hc
    rw [unitsOf_supplementary hsup, List.cons_append, List.singleton_append]
    have hnext : unitAt (pre ++ u16Lead c :: u16Trail c :: rest) (pre.length + 1) =
        some (u16Trail c).toNat := by
      have := @unitAt_append (pre ++ [u16Lead c]) rest (u16Trail c)
      rwa [List.append_assoc, List.singleton_append, List.length_append,
        List.length_singleton] at this
    rw [u16Get_pair unitAt_append hl (by simp) hnext ht, hvalue]

theorem unitsOf_ne_nil (c : Nat) : unitsOf c ≠ [] := by
  unfold unitsOf
  split <;> exact List.cons_ne_nil _ _

theorem current_unitsOf (hc : c ≤ 0x10ffff) (hlead : u16IsLead c = true → HeadFree rest)
    (htrail : u16IsTrail c = true → EndFree pre) :
    current (pre ++ (unitsOf c ++ rest)) pre.length = c := by
  have hpos := List.length_pos_iff.mpr (unitsOf_ne_nil c)
  have hlt : pre.length < (pre ++ (unitsOf c ++ rest)).length := by
    rw [List.length_append, List.length_append]
    omega
  rw [current, if_pos hlt, u16Get_unitsOf hc hlead htrail]
  rfl

theorem charLength_eq (c : Nat) : charLength c = (unitsOf c).length := by
  rw [length_unitsOf, charLength, u16Length]
  split
  · rw [if_pos (by omega)]
  · rw [if_neg (by omega)]

theorem advance_eq {text : List UInt16} {pos count : Nat} (h : pos + count ≤ text.length) :
    advance text pos count = pos + count := if_neg (by omega)

/-- A character that is not skipped. -/
theorem nextChar_unitsOf {skip : Bool} (hc : c ≤ 0x10ffff)
    (hspace : skip = true → isWhiteSpace c = false)
    (hlead : u16IsLead c = true → HeadFree rest) (htrail : u16IsTrail c = true → EndFree pre)
    (fuel : Nat) : nextChar (pre ++ (unitsOf c ++ rest)) skip (fuel + 1) pre.length =
      ((c : Int), pre.length + (unitsOf c).length) := by
  have hskip : (skip && isWhiteSpace c) = false := by
    cases skip with
    | false => rfl
    | true => rw [hspace rfl]; rfl
  have hle : pre.length + (unitsOf c).length ≤ (pre ++ (unitsOf c ++ rest)).length := by
    rw [List.length_append, List.length_append]
    omega
  rw [nextChar, current_unitsOf hc hlead htrail, hskip, if_neg Bool.false_ne_true, charLength_eq,
    advance_eq hle]

theorem next_unitsOf (hc : c ≤ 0x10ffff) (hspace : isWhiteSpace c = false) (hne : c ≠ 0x5c)
    (hlead : u16IsLead c = true → HeadFree rest) (htrail : u16IsTrail c = true → EndFree pre) :
    next (pre ++ (unitsOf c ++ rest)) pre.length =
      .ok ⟨c, false, pre.length + (unitsOf c).length⟩ := by
  rw [next, nextChar_unitsOf hc (fun _ => hspace) hlead htrail]
  dsimp only
  rw [if_neg (by omega)]

theorem nextChar_ascii {skip : Bool} {u : UInt16} (hu : u.toNat < 0x80)
    (hspace : skip = true → isWhiteSpace u.toNat = false) (fuel : Nat) :
    nextChar (pre ++ u :: rest) skip (fuel + 1) pre.length = ((u.toNat : Int), pre.length + 1) := by
  have hnot : ¬ u16IsLead u.toNat = true ∧ ¬ u16IsTrail u.toNat = true := by
    rw [u16IsLead_iff (by omega), u16IsTrail_iff (by omega)]
    omega
  have h := @nextChar_unitsOf pre rest u.toNat skip (by omega) hspace (fun h => absurd h hnot.1)
    (fun h => absurd h hnot.2) fuel
  rw [unitsOf_toNat] at h
  exact h

theorem next_escape {body : List UInt16} (hbody : body ≠ [])
    (h : ∀ fuel, uUnescapeAt ((body ++ rest).take maxUNotationLen) (fuel + 2) 0 =
      some (c, body.length)) :
    next (pre ++ 0x5c :: (body ++ rest)) pre.length =
      .ok ⟨c, true, pre.length + (0x5c :: body).length⟩ := by
  have hdrop : (pre ++ 0x5c :: (body ++ rest)).drop (pre.length + 1) = body ++ rest := by
    rw [List.drop_append, List.drop_eq_nil_of_le (Nat.le_add_right _ 1), Nat.add_sub_cancel_left]
    rfl
  have hlen : pre.length + 1 + body.length ≤ (pre ++ 0x5c :: (body ++ rest)).length := by
    rw [List.length_append, List.length_cons, List.length_append]
    omega
  have hpos : 0 < ((body ++ rest).take maxUNotationLen).length := by
    have hone := List.length_pos_iff.mpr hbody
    have hmax : maxUNotationLen = 12 := rfl
    rw [List.length_take, List.length_append]
    omega
  have hfuel := h (((body ++ rest).take maxUNotationLen).length - 1)
  rw [show ((body ++ rest).take maxUNotationLen).length - 1 + 2 =
    ((body ++ rest).take maxUNotationLen).length + 1 by omega] at hfuel
  rw [next, nextChar_ascii (by decide) (fun _ => by decide)]
  dsimp only
  rw [if_pos (by decide), hdrop, hfuel]
  dsimp only
  rw [advance_eq hlen, List.length_cons, Nat.add_assoc, Nat.add_comm 1]

end Iterator

/-! ## Tokens -/

structure Token (text : List UInt16) (c : Nat) : Prop where
  le : c ≤ 0x10ffff
  reads : ∀ {pre rest}, (u16IsLead c = true → NoJoin rest) → (u16IsTrail c = true → EndFree pre) →
    ∃ isEscaped, next (pre ++ (text ++ rest)) pre.length =
        .ok ⟨c, isEscaped, pre.length + text.length⟩ ∧
      (isEscaped = false → c ∉ syntaxChars) ∧
      resemblesPropertyPattern (pre ++ (text ++ rest)) pre.length = false
  noJoin : u16IsTrail c = false → ∀ {rest}, (u16IsLead c = true → HeadFree rest) →
    NoJoin (text ++ rest)
  endFree : u16IsLead c = false → EndFree text
  ne_nil : text ≠ []

def whiteSpaceChars :
    List Nat := [0x9, 0xa, 0xb, 0xc, 0xd, 0x20, 0x85, 0x200e, 0x200f, 0x2028, 0x2029]

theorem isWhiteSpace_latin1 {c : Nat} (hc : c < 0x100) :
    isWhiteSpace c = true → c ∈ whiteSpaceChars := by
  intro h
  have hrows : ∀ row ∈ latin1.zipIdx, row.1 >>> 2 &&& 1 = 1 → row.2 ∈ whiteSpaceChars := by
    set_option maxRecDepth 2000 in decide
  rw [isWhiteSpace, if_neg (by omega), if_pos (by omega), Int.toNat_natCast, beq_iff_eq,
    List.getD_eq_getElem?_getD] at h
  cases hbits : latin1[c]? with
  | none =>
    rw [hbits] at h
    cases h
  | some bits =>
    rw [hbits] at h
    exact hrows (bits, c) (List.mem_zipIdx_iff_getElem?.mpr hbits) h

theorem mem_whiteSpaceChars {c : Nat} (h : isWhiteSpace c = true) : c ∈ whiteSpaceChars := by
  by_cases hc : c < 0x100
  · exact isWhiteSpace_latin1 hc h
  rw [isWhiteSpace, if_neg (by omega), if_neg (by omega)] at h
  split at h
  · rw [Bool.or_eq_true, decide_eq_true_eq, decide_eq_true_eq] at h
    simp only [whiteSpaceChars, List.mem_cons, List.not_mem_nil, or_false]
    omega
  · cases h

theorem isPlain_of_mem {c : Nat} (h : c ∈ syntaxChars ++ whiteSpaceChars) :
    c ≤ 0xffff ∧ IsPlain c ∧ u16IsTrail c = false ∧ c ∉ [0x4e, 0x70, 0x50] := by
  revert c
  unfold IsPlain
  decide

theorem resembles_escape {pre rest : List UInt16} (hu : u.toNat ∉ [0x4e, 0x70, 0x50])
    (hlead : u16IsLead u.toNat = false) (htrail : u16IsTrail u.toNat = false) :
    resemblesPropertyPattern (pre ++ 0x5c :: u :: rest) pre.length = false := by
  have happ : pre ++ [0x5c] ++ (unitsOf u.toNat ++ rest) = pre ++ 0x5c :: u :: rest := by
    rw [unitsOf_toNat, List.append_assoc, List.singleton_append, List.singleton_append]
  have hnext := @nextChar_unitsOf (pre ++ [0x5c]) rest u.toNat false
    (by have := u.toNat_lt; omega) (fun h => by cases h) (fun h => by rw [hlead] at h; cases h)
    (fun h => by rw [htrail] at h; cases h) (pre ++ 0x5c :: u :: rest).length
  have hpos : (pre ++ [0x5c]).length = pre.length + 1 := by
    rw [List.length_append, List.length_singleton]
  rw [happ, hpos] at hnext
  simp only [List.mem_cons, List.not_mem_nil, or_false, not_or] at hu
  rw [resemblesPropertyPattern, nextChar_ascii (by decide) (fun _ => by decide)]
  dsimp only
  rw [if_pos (by decide), hnext, if_neg (by decide)]
  simp only [Bool.or_eq_false_iff, decide_eq_false_iff_not]
  omega

theorem resembles_unitsOf {pre rest : List UInt16} {c : Nat} (hc : c ≤ 0x10ffff)
    (hspace : isWhiteSpace c = false) (hplain : c ∉ syntaxChars)
    (hlead : u16IsLead c = true → HeadFree rest) (htrail : u16IsTrail c = true → EndFree pre) :
    resemblesPropertyPattern (pre ++ (unitsOf c ++ rest)) pre.length = false := by
  simp only [syntaxChars, List.mem_cons, List.not_mem_nil, or_false, not_or] at hplain
  rw [resemblesPropertyPattern, nextChar_unitsOf hc (fun _ => hspace) hlead htrail]
  dsimp only
  rw [if_neg (by omega)]

theorem token_plain {c : Nat} (h : c ∈ syntaxChars ++ whiteSpaceChars) :
    Token (0x5c :: unitsOf c) c := by
  obtain ⟨hle, hplain, htrail, hnot⟩ := isPlain_of_mem h
  obtain ⟨u, rfl⟩ : ∃ u : UInt16, u.toNat = c := ⟨UInt16.ofNat c, toNat_ofNat_bmp hle⟩
  have hlead := hplain.2.2.2
  rw [unitsOf_toNat]
  refine ⟨by omega, ?_, ?_, ?_, List.cons_ne_nil _ _⟩
  · intro pre rest _ _
    refine ⟨true, ?_, ?_, resembles_escape hnot hlead htrail⟩
    · refine next_escape (List.cons_ne_nil _ _) fun fuel => ?_
      rw [List.singleton_append, maxUNotationLen, List.take_succ_cons]
      exact uUnescapeAt_plain [] (fuel + 1) hplain _
    · intro h
      cases h
  · intro _ rest _
    exact noJoin_plain hplain htrail rest
  · intro _ v hv
    rw [List.getLast?_cons_cons, List.getLast?_singleton, Option.some.injEq] at hv
    rw [← hv]
    exact hlead

theorem escaped_not_syntax {P : Prop} : true = false → P := fun h => by cases h

theorem hexDigit_not_lead (c shift : Nat) : u16IsLead (hexDigit c shift).toNat = false := by
  have hall : ∀ u ∈ digits, u16IsLead u.toNat = false := List.all_iff_forall_prop.mp (by decide)
  rw [hexDigit, List.getD_eq_getElem?_getD]
  cases h : digits[0xf &&& c >>> shift]? with
  | none => decide
  | some u => exact hall u (List.mem_of_getElem? h)

theorem endFree_low4 (pre : List UInt16) (c : Nat) : EndFree (pre ++ low4 c) := by
  intro u hu
  rw [show pre ++ low4 c = pre ++ [hexDigit c 12, hexDigit c 8, hexDigit c 4] ++ [hexDigit c 0] by
    rw [List.append_assoc]; rfl, List.getLast?_concat, Option.some.injEq] at hu
  rw [← hu]
  exact hexDigit_not_lead c 0

theorem token_low4 {c : Nat} (hc : c ≤ 0xffff) : Token (0x5c :: 0x75 :: low4 c) c := by
  refine ⟨by omega, ?_, ?_, ?_, List.cons_ne_nil _ _⟩
  · intro pre rest hlead _
    refine ⟨true, ?_, escaped_not_syntax, resembles_escape (by decide) (by decide) (by decide)⟩
    refine next_escape (List.cons_ne_nil _ _) fun fuel => ?_
    have htake : (0x75 :: low4 c ++ rest).take maxUNotationLen =
        0x75 :: (low4 c ++ rest.take 7) := by
      rw [List.cons_append, maxUNotationLen, List.take_succ_cons, List.take_append,
        List.take_of_length_le (by rw [length_low4]; decide), length_low4]
    rw [htake]
    refine uUnescapeAt_low4_free [] (fuel + 1) hc _ fun hl hne => ?_
    exact hlead hl (0x75 :: low4 c) fuel hne
  · intro htrail rest hrest
    exact noJoin_low4 hc htrail hrest
  · exact fun _ => endFree_low4 [0x5c, 0x75] c

theorem token_high4 {c : Nat} (hc : 0xffff < c) (hle : c ≤ 0x10ffff) :
    Token (0x5c :: 0x55 :: (high4 c ++ low4 c)) c := by
  refine ⟨hle, ?_, ?_, ?_, List.cons_ne_nil _ _⟩
  · intro pre rest _ _
    refine ⟨true, ?_, escaped_not_syntax, resembles_escape (by decide) (by decide) (by decide)⟩
    refine next_escape (List.cons_ne_nil _ _) fun fuel => ?_
    have htake : (0x55 :: (high4 c ++ low4 c) ++ rest).take maxUNotationLen =
        0x55 :: (high4 c ++ low4 c ++ rest.take 3) := rfl
    rw [htake]
    exact uUnescapeAt_high4_low4 [] (fuel + 1) hc hle _
  · intro _ rest _
    exact noJoin_high4 c rest
  · exact fun _ => endFree_low4 (0x5c :: 0x55 :: high4 c) c

theorem endFree_unitsOf {c : Nat} (hlead : u16IsLead c = false) : EndFree (unitsOf c) := by
  intro u hu
  by_cases hbmp : c ≤ 0xffff
  · rw [unitsOf_bmp hbmp, List.getLast?_singleton, Option.some.injEq] at hu
    rw [← hu, toNat_ofNat_bmp hbmp]
    exact hlead
  rw [unitsOf_supplementary (by omega), List.getLast?_cons_cons, List.getLast?_singleton,
    Option.some.injEq] at hu
  have hval := toNat_u16Trail c
  rw [← hu, hval, ← Bool.not_eq_true, u16IsLead_iff (by omega)]
  omega

theorem headFree_unitsOf {c : Nat} (hc : c ≤ 0x10ffff) (htrail : u16IsTrail c = false)
    (rest : List UInt16) : HeadFree (unitsOf c ++ rest) := by
  intro u hu
  by_cases hbmp : c ≤ 0xffff
  · rw [unitsOf_bmp hbmp] at hu
    rw [← Option.some.inj hu, toNat_ofNat_bmp hbmp]
    exact htrail
  rw [unitsOf_supplementary (by omega)] at hu
  have hval := toNat_u16Lead (show 0xffff < c by omega) hc
  rw [← Option.some.inj hu, hval, ← Bool.not_eq_true, u16IsTrail_iff (by omega)]
  omega

theorem token_unitsOf {c : Nat} (hc : c ≤ 0x10ffff) (hplain : c ∉ syntaxChars)
    (hspace : isWhiteSpace c = false) : Token (unitsOf c) c := by
  have hne : c ≠ 0x5c := fun h => hplain (by rw [h]; decide)
  refine ⟨hc, ?_, ?_, ?_, unitsOf_ne_nil c⟩
  · intro pre rest hlead htrail
    refine ⟨false, ?_, fun _ => hplain, ?_⟩
    · exact next_unitsOf hc hspace hne (fun h => (hlead h).headFree) htrail
    · exact resembles_unitsOf hc hspace hplain (fun h => (hlead h).headFree) htrail
  · intro htrail rest _
    by_cases hbmp : c ≤ 0xffff
    · have hval := toNat_ofNat_bmp hbmp
      rw [unitsOf_bmp hbmp]
      refine noJoin_unit (fun h => hne ?_) (by rw [hval]; exact htrail) _
      rw [← hval, h]
      rfl
    have hval := toNat_u16Lead (show 0xffff < c by omega) hc
    rw [unitsOf_supplementary (by omega)]
    refine noJoin_unit (fun h => ?_) ?_ _
    · rw [h] at hval
      have : (0x5c : UInt16).toNat = 0x5c := rfl
      omega
    · rw [hval, ← Bool.not_eq_true, u16IsTrail_iff (by omega)]
      omega
  · exact endFree_unitsOf

theorem token_appendToPat (escape : Bool) {c : Nat} (hc : c ≤ 0x10ffff) :
    Token (appendToPat escape c) c := by
  unfold appendToPat
  split
  · rw [escapeUnprintable_eq]
    split
    · exact token_high4 (by omega) hc
    · exact token_low4 (by omega)
  split
  · next h =>
    refine token_plain ?_
    rcases h with h | h
    · exact List.mem_append_left _ h
    · exact List.mem_append_right _ (mem_whiteSpaceChars h)
  · next h =>
    rw [not_or, Bool.not_eq_true] at h
    exact token_unitsOf hc h.1 h.2

theorem appendToPat_surrogate (escape : Bool) {c : Nat} (h : 0xd800 ≤ c ∧ c ≤ 0xdfff) :
    appendToPat escape c = if escape then 0x5c :: 0x75 :: low4 c else unitsOf c := by
  have hunprintable : isUnprintable c = true := by
    simp only [isUnprintable, Bool.not_eq_true', Bool.and_eq_false_iff, decide_eq_false_iff_not]
    omega
  have hspecial : ¬ (c ∈ syntaxChars ∨ isWhiteSpace c = true) := by
    intro hmem
    have : c ∈ syntaxChars ++ whiteSpaceChars := by
      rcases hmem with hmem | hmem
      · exact List.mem_append_left _ hmem
      · exact List.mem_append_right _ (mem_whiteSpaceChars hmem)
    have hall : ∀ x ∈ syntaxChars ++ whiteSpaceChars, x < 0xd800 := by decide
    have := hall c this
    omega
  have hsmall : ¬ c > 0xffff := by omega
  rw [appendToPat, hunprintable, Bool.and_true, escapeUnprintable_eq, if_neg hsmall,
    if_neg hspecial]

theorem not_special_of_supplementary {c : Nat} (h : 0xffff < c) :
    c ∉ syntaxChars ∧ isWhiteSpace c = false := by
  have hall : ∀ x ∈ syntaxChars ++ whiteSpaceChars, x ≤ 0xffff := by decide
  refine ⟨fun hmem => ?_, ?_⟩
  · have := hall c (List.mem_append_left _ hmem)
    omega
  rw [← Bool.not_eq_true]
  intro hspace
  have := hall c (List.mem_append_right _ (mem_whiteSpaceChars hspace))
  omega

theorem uUnescapeAt_pair (hlead : 0xd800 ≤ lead ∧ lead ≤ 0xdbff)
    (htrail : 0xdc00 ≤ trail ∧ trail ≤ 0xdfff) (fuel : Nat) (rest : List UInt16) :
    uUnescapeAt (0x75 :: (low4 lead ++ 0x5c :: 0x75 :: (low4 trail ++ rest))) (fuel + 2) 0 =
      some (u16GetSupplementary lead trail, 11) := by
  have hl := (u16IsLead_iff (c := lead) (by omega)).mpr hlead
  have ht := (u16IsTrail_iff (c := trail) (by omega)).mpr htrail
  have hnot : ¬ u16IsLead trail = true := by
    rw [u16IsLead_iff (by omega)]
    omega
  have hinner : ∀ pre, uUnescapeAt (pre ++ 0x75 :: (low4 trail ++ rest)) (fuel + 1) pre.length =
      some (trail, pre.length + 5) := fun pre =>
    uUnescapeAt_low4_free pre fuel (by omega) rest fun h => absurd h hnot
  have hpeek : peekTrail
      (uUnescapeAt (0x75 :: low4 lead ++ 0x5c :: 0x75 :: (low4 trail ++ rest)) (fuel + 1))
      (0x75 :: low4 lead ++ 0x5c :: 0x75 :: (low4 trail ++ rest)) (0x75 :: low4 lead).length =
        (trail, 11) := by
    rw [peekTrail_escape, hinner]
    dsimp only
    rw [Nat.mod_eq_of_lt (by omega)]
    rfl
  have hread := uUnescapeAt_low4 [] (fuel + 1) (show lead ≤ 0xffff by omega)
    (0x5c :: 0x75 :: (low4 trail ++ rest))
  rw [if_pos ⟨List.cons_ne_nil _ _, hl⟩] at hread
  change uUnescapeAt (0x75 :: low4 lead ++ 0x5c :: 0x75 :: (low4 trail ++ rest)) (fuel + 2) 0 = _
  refine hread.trans ?_
  rw [List.nil_append, ← List.cons_append, show [].length + 5 = (0x75 :: low4 lead).length from rfl,
    hpeek]
  exact if_pos ht

theorem token_pair (escape : Bool) (hlead : 0xd800 ≤ lead ∧ lead ≤ 0xdbff)
    (htrail : 0xdc00 ≤ trail ∧ trail ≤ 0xdfff) :
    Token (appendToPat escape lead ++ appendToPat escape trail)
      (u16GetSupplementary lead trail) := by
  have hbounds := u16GetSupplementary_bounds hlead htrail
  rw [appendToPat_surrogate escape (by omega), appendToPat_surrogate escape (by omega)]
  cases escape with
  | false =>
    have hl : (UInt16.ofNat lead).toNat = lead := toNat_ofNat_bmp (by omega)
    have ht : (UInt16.ofNat trail).toNat = trail := toNat_ofNat_bmp (by omega)
    have hpair := @unitsOf_pair (UInt16.ofNat lead) (UInt16.ofNat trail)
      ((u16IsLead_iff (by omega)).mpr (by omega)) ((u16IsTrail_iff (by omega)).mpr (by omega))
    rw [hl, ht] at hpair
    obtain ⟨hplain, hspace⟩ := not_special_of_supplementary
      (show 0xffff < u16GetSupplementary lead trail by omega)
    have htoken := token_unitsOf hbounds.2 hplain hspace
    rw [hpair] at htoken
    rw [unitsOf_bmp (show lead ≤ 0xffff by omega), unitsOf_bmp (show trail ≤ 0xffff by omega)]
    exact htoken
  | true =>
    refine ⟨hbounds.2, ?_, ?_, ?_, List.cons_ne_nil _ _⟩
    · intro pre rest _ _
      refine ⟨true, ?_, escaped_not_syntax, resembles_escape (by decide) (by decide) (by decide)⟩
      refine @next_escape pre rest _ (0x75 :: low4 lead ++ 0x5c :: 0x75 :: low4 trail)
        (List.cons_ne_nil _ _) fun fuel => ?_
      exact uUnescapeAt_pair hlead htrail fuel (rest.take 1)
    · intro _ rest _
      have hnot : u16IsTrail lead = false := by
        rw [← Bool.not_eq_true, u16IsTrail_iff (by omega)]
        omega
      refine @noJoin_low4 lead (by omega) hnot (0x5c :: 0x75 :: (low4 trail ++ rest)) ?_
      intro _ u hu
      rw [← Option.some.inj hu]
      decide
    · exact fun _ => endFree_low4 (0x5c :: 0x75 :: low4 lead ++ [0x5c, 0x75]) trail

end Icu.Pattern
