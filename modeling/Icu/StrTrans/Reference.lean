import Icu.StrTrans.Decoders
import Mathlib.Data.List.TakeWhile

/-! # The reference decoding

A byte string is decoded unit by unit. A unit is a byte with the trail bytes that can follow
it, and an ill-formed unit is replaced as a whole.
-/

namespace Icu.StrTrans

open Lib Utf16 Utf8

variable {t : List UInt8} {i : Nat}

def unitEnd (s : List UInt8) (p : Nat) : Nat :=
  p + 1 + ((s.drop (p + 1)).take (u8CountTrailBytes ((byteAt s p).getD 0))).findIdx
    fun b => !u8IsTrail b.toNat

def decodeFrom (s : List UInt8) : Nat → Nat → List (Option Nat)
  | 0, _ => []
  | fuel + 1, p =>
    if p < s.length then codePoint s p (unitEnd s p) :: decodeFrom s fuel (unitEnd s p) else []

/-- The code points of a byte string, and `none` for each ill-formed unit. -/
def decode (s : List UInt8) : List (Option Nat) := decodeFrom s s.length 0

/-- The units for code points, with a substitution character for ill-formed units. -/
def outputs (sub : Option Nat) (codes : List (Option Nat)) : List UInt16 :=
  codes.flatMap fun code => unitsOf ((code.or sub).getD 0)

/-- The result of a conversion into a destination that is large enough. If it is `invalid`, then
the units are those before the ill-formed unit. -/
structure Reference where
  units : List UInt16
  substitutions : Nat
  invalid : Bool
  deriving DecidableEq, Repr

/-- The substitution character, if there is one. -/
def subOf (subchar : Int) : Option Nat := if subchar < 0 then none else some subchar.toNat

def referenceOf (sub : Option Nat) (codes : List (Option Nat)) : Reference :=
  let convertible := codes.takeWhile fun code => (code.or sub).isSome
  { units := outputs sub convertible
    substitutions := convertible.countP (·.isNone)
    invalid := codes.any fun code => (code.or sub).isNone }

def reference (s : List UInt8) (subchar : Int) : Reference := referenceOf (subOf subchar) (decode s)

def Reference.result (r : Reference) (destCapacity : Int) (error : UErrorCode) : Result :=
  if r.invalid then ⟨r.units.take destCapacity.toNat, none, some 0, .invalidCharFound⟩
  else
    { dest := r.units.take destCapacity.toNat ++ if r.units.length < destCapacity then [0] else []
      destLength := some r.units.length
      numSubstitutions := some r.substitutions
      error := (uTerminateUChars [] destCapacity r.units.length error).2 }

variable {s : List UInt8} {sub : Option Nat} {p e q : Nat} {codes codes' : List (Option Nat)}

/-! ## Units -/

theorem isUnit_unitEnd (hp : p < s.length) : IsUnit s p (unitEnd s p) := by
  obtain ⟨b, hb, -⟩ := byteAt_eq_some hp
  have hbyte : (byteAt s p).getD 0 = b := by rw [hb]; rfl
  rw [unitEnd, hbyte]
  set rest := (s.drop (p + 1)).take (u8CountTrailBytes b) with hrest
  set n := rest.findIdx fun b => !u8IsTrail b.toNat with hn
  have hlen : rest.length = min (u8CountTrailBytes b) (s.length - (p + 1)) := by
    rw [hrest, List.length_take, List.length_drop]
  have hle : n ≤ rest.length := List.findIdx_le_length
  have hget : ∀ k (hk : k < rest.length), byteAt s (p + 1 + k) = some rest[k].toNat := by
    intro k hk
    rw [byteAt, List.getElem?_eq_getElem (by omega)]
    simp [hrest]
  have htrail : ∀ k (hk : k < rest.length), TrailAt s (p + 1 + k) ↔ u8IsTrail rest[k].toNat =
    true := by
    intro k hk
    have hlt := byteAt_lt (hget k hk)
    constructor
    · intro ht
      exact (u8IsTrail_iff hlt).mpr (ht.of_byteAt (hget k hk))
    · intro ht
      exact ⟨_, hget k hk, (u8IsTrail_iff hlt).mp ht⟩
  refine ⟨by omega, by omega, fun i h1 h2 => ?_, fun b' hb' => ?_, fun b' hb' h1 ht => ?_⟩
  · obtain ⟨k, rfl⟩ : ∃ k, i = p + 1 + k := ⟨i - (p + 1), by omega⟩
    rw [htrail k (by omega)]
    have := List.not_of_lt_findIdx (show k < rest.findIdx (fun b => !u8IsTrail b.toNat) by omega)
    simpa using this
  · rw [hb, Option.some.injEq] at hb'
    rw [← hb']
    omega
  · rw [hb, Option.some.injEq] at hb'
    rw [← hb'] at h1
    have hlt : n < rest.length := by
      have := ht.lt
      omega
    have hstop := @List.findIdx_getElem _ (fun b : UInt8 => !u8IsTrail b.toNat) rest hlt
    rw [htrail n hlt] at ht
    simp [← hn, ht] at hstop

inductive Decodes (s : List UInt8) : Nat → Nat → List (Option Nat) → Prop
  | nil (p : Nat) : Decodes s p p []
  | cons {p e q : Nat} {codes : List (Option Nat)} : IsUnit s p e → Decodes s e q codes →
      Decodes s p q (codePoint s p e :: codes)

namespace Decodes

theorem snoc (h : Decodes s p q codes) (hunit : IsUnit s q e) :
    Decodes s p e (codes ++ [codePoint s q e]) := by
  induction h with
  | nil q => exact .cons hunit (.nil e)
  | cons hu _ ih => exact .cons hu (ih hunit)

theorem length_le (h : Decodes s p q codes) : p + codes.length ≤ q := by
  induction h with
  | nil q => simp
  | cons hu _ ih =>
    have := hu.lt
    rw [List.length_cons]
    omega

theorem decodeFrom_eq (h : Decodes s p q codes) (hq : q = s.length) :
    ∀ {fuel : Nat}, q - p ≤ fuel → decodeFrom s fuel p = codes := by
  induction h with
  | nil p =>
    intro fuel _
    cases fuel with
    | zero => rfl
    | succ fuel => rw [decodeFrom, if_neg (by omega)]
  | cons hu hrest ih =>
    intro fuel hfuel
    have hlt := hu.lt
    have hle := hrest.length_le
    obtain ⟨fuel, rfl⟩ : ∃ f, fuel = f + 1 := ⟨fuel - 1, by omega⟩
    have hp := hu.le
    have hend := (isUnit_unitEnd (show _ < s.length by omega)).unique hu
    rw [decodeFrom, if_pos (by omega), hend, ih hq (by omega)]

theorem decode_eq (h : Decodes s 0 s.length codes) : decode s = codes :=
  h.decodeFrom_eq rfl (by omega)

theorem exists_rest (hp : p ≤ s.length) : ∃ codes, Decodes s p s.length codes := by
  obtain ⟨n, hn⟩ : ∃ n, s.length - p = n := ⟨_, rfl⟩
  induction n using Nat.strongRecOn generalizing p with
  | ind n ih =>
    rcases Nat.eq_or_lt_of_le hp with rfl | hlt
    · exact ⟨[], .nil _⟩
    have hunit := isUnit_unitEnd hlt
    have := hunit.lt
    obtain ⟨codes, hcodes⟩ := ih (s.length - unitEnd s p) (by omega) hunit.le rfl
    exact ⟨_, .cons hunit hcodes⟩

theorem append (h : Decodes s p q codes) (h' : Decodes s q e codes') :
    Decodes s p e (codes ++ codes') := by
  induction h with
  | nil q => exact h'
  | cons hu _ ih => exact .cons hu (ih h')

theorem unique (h : Decodes s p q codes) (h' : Decodes s p q codes') : codes = codes' := by
  induction h generalizing codes' with
  | nil p =>
    have hle := h'.length_le
    exact (List.eq_nil_of_length_eq_zero (by omega)).symm
  | cons hu hrest ih =>
    cases h' with
    | nil =>
      have := hrest.length_le
      have := hu.lt
      omega
    | cons hu' hrest' =>
      obtain rfl := hu.unique hu'
      rw [ih hrest']

end Decodes

theorem byteAt_append_left (h : i < s.length) : byteAt (s ++ t) i = byteAt s i := by
  rw [byteAt, byteAt, List.getElem?_append_left h]

theorem byteAt_nul : byteAt (s ++ [0]) s.length = some 0 := by
  simp [byteAt]

theorem trailAt_append_left (h : i < s.length) : TrailAt (s ++ t) i ↔ TrailAt s i := by
  rw [TrailAt, TrailAt, byteAt_append_left h]

theorem not_trailAt_nul : ¬ TrailAt (s ++ [0]) s.length := by
  rintro ⟨b, hb, h0, -⟩
  rw [byteAt_nul, Option.some.injEq] at hb
  omega

theorem IsUnit_nul (h : IsUnit s p e) : IsUnit (s ++ [0]) p e := by
  have hlt := h.lt
  have hle := h.le
  have hbyte : byteAt (s ++ [0]) p = byteAt s p := byteAt_append_left (by omega)
  refine ⟨hlt, by rw [List.length_append]; omega, fun i h1 h2 => ?_, fun b hb => ?_,
    fun b hb h1 ht => ?_⟩
  · rw [trailAt_append_left (by omega)]
    exact h.trails i h1 h2
  · exact h.short b (hbyte ▸ hb)
  · rcases Nat.eq_or_lt_of_le hle with rfl | hlt'
    · exact not_trailAt_nul ht
    · exact h.maximal b (hbyte ▸ hb) h1 ((trailAt_append_left hlt').mp ht)

theorem assemble_nul : ∀ (count c i : Nat), i + count ≤ s.length →
    assemble (s ++ [0]) c count i = assemble s c count i
  | 0, _, _, _ => rfl
  | count + 1, c, i, h => by
    rw [assemble, assemble, payload, payload, byteAt_append_left (by omega),
      assemble_nul count _ _ (by omega)]

theorem codePoint_nul (h : IsUnit s p e) : codePoint (s ++ [0]) p e = codePoint s p e := by
  have hlt := h.lt
  have hle := h.le
  obtain ⟨b, hb, -⟩ := h.byteAt
  have hb' : byteAt (s ++ [0]) p = some b := by rw [byteAt_append_left (by omega), hb]
  by_cases hb80 : b < 0x80
  · rw [codePoint_single hb hb80, codePoint_single hb' hb80]
  rw [codePoint_multi hb hb80, codePoint_multi hb' hb80]
  by_cases he : e = p + 1 + u8CountTrailBytes b
  · rw [assemble_nul _ _ _ (by omega)]
  · rw [if_neg (fun hcon => he hcon.2.2.1), if_neg (fun hcon => he hcon.2.2.1)]

theorem Decodes.nul (h : Decodes s p q codes) : Decodes (s ++ [0]) p q codes := by
  induction h with
  | nil p => exact .nil p
  | cons hu _ ih =>
    rw [← codePoint_nul hu]
    exact .cons (IsUnit_nul hu) ih

theorem outputs_append : outputs sub (codes ++ codes') = outputs sub codes ++ outputs sub codes' :=
  List.flatMap_append

theorem length_unitsOf_le (c : Nat) : (unitsOf c).length ≤ 2 := by
  rw [length_unitsOf, u16Length]
  split <;> omega

theorem length_outputs_le (sub : Option Nat) : ∀ codes : List (Option Nat),
    (outputs sub codes).length ≤ 2 * codes.length
  | [] => by simp [outputs]
  | code :: codes => by
    have := length_unitsOf_le ((code.or sub).getD 0)
    have := length_outputs_le sub codes
    rw [outputs] at this ⊢
    rw [List.flatMap_cons, List.length_append, List.length_cons]
    omega

theorem referenceOf_valid (h : ∀ code ∈ codes, (code.or sub).isSome = true) :
    referenceOf sub codes = ⟨outputs sub codes, codes.countP (·.isNone), false⟩ := by
  have htake : codes.takeWhile (fun code => (code.or sub).isSome) = codes :=
    List.takeWhile_eq_self_iff.mpr h
  have hany : (codes.any fun code => (code.or sub).isNone) = false := by
    rw [List.any_eq_false]
    intro code hcode
    have := h code hcode
    cases hor : code.or sub with
    | none => simp [hor] at this
    | some c => simp
  rw [referenceOf, htake, hany]

theorem referenceOf_invalid {code : Option Nat} (h : ∀ code ∈ codes, (code.or sub).isSome = true)
    (hcode : code.or sub = none) :
    (referenceOf sub (codes ++ code :: codes')).units = outputs sub codes ∧
      (referenceOf sub (codes ++ code :: codes')).invalid = true := by
  have htake : (codes ++ code :: codes').takeWhile (fun code => (code.or sub).isSome) = codes := by
    rw [List.takeWhile_append_of_pos h, List.takeWhile_cons_of_neg (by simp [hcode]),
      List.append_nil]
  refine ⟨?_, ?_⟩
  · rw [referenceOf]
    rw [htake]
  rw [referenceOf]
  rw [List.any_eq_true]
  exact ⟨code, by simp, by rw [hcode]; rfl⟩

end Icu.StrTrans
