import Icu.StrTrans.Loops

/-! # Conversion does not depend on the capacity

`u_strFromUTF8WithSub` yields the reference decoding, however large the destination is and
however the length of the source is given, unless the decoding has more units than an `int32_t` can
count.
-/

namespace Icu.StrTrans

open Lib Utf16 Utf8

variable {s : List UInt8} {destCapacity : Nat} {subchar : Int} {error : UErrorCode}

namespace Conversion

theorem holds_start (t : List UInt8) (destCapacity : Nat) (sub : Option Nat) :
    Holds t destCapacity sub ⟨0, [], 0, 0⟩ [] :=
  ⟨.nil 0, fun code hcode => absurd hcode List.not_mem_nil, by simp [outputs],
    by simp [outputs, int32_zero], by simp [int32_zero]⟩

/-- All loops together. The string `t` may have a NUL behind its `limit`. -/
def Complete (t : List UInt8) (destCapacity : Nat) (sub : Option Nat) (limit : Nat)
    (r : Except Conversion Conversion) : Prop :=
  Ended t destCapacity sub limit r ∧ ∀ st, r = .ok st → st.pSrc = limit

theorem terminatedLoops_complete (hnul : (0 : UInt8) ∉ s) :
    ∃ r, terminatedLoops (s ++ [0]) destCapacity subchar ⟨0, [], 0, 0⟩ = some r ∧
      Complete (s ++ [0]) destCapacity (subOf subchar) s.length r := by
  have hlength : (s ++ [0]).length = s.length + 1 := by simp
  obtain ⟨r, hr, hended⟩ := terminatedWriteLoop_ended hnul ((s ++ [0]).length + 1)
    (holds_start (s ++ [0]) destCapacity (subOf subchar)) (Nat.zero_le _) (by omega)
  rw [terminatedLoops, hr, andThen]
  cases r with
  | error st => exact ⟨.error st, rfl, hended, fun _ h => nomatch h⟩
  | ok st =>
    obtain ⟨codes, h, hp, hfull⟩ := hended
    exact terminatedCountLoop_ended hnul _ h hp hfull (by omega)

theorem countedLoops_complete :
    ∃ r, countedLoops s destCapacity subchar s.length ⟨0, [], 0, 0⟩ = some r ∧
      Complete s destCapacity (subOf subchar) s.length r := by
  obtain ⟨r, hr, hpassed⟩ := fastLoop_passed (s.length + 1)
    (holds_start s destCapacity (subOf subchar)) (Nat.zero_le _) (by simp)
  rw [countedLoops, hr]
  cases r with
  | error st => exact ⟨.error st, rfl, hpassed, fun _ h => nomatch h⟩
  | ok st =>
    obtain ⟨codes, h, hp, -⟩ := hpassed
    obtain ⟨r, hr, hended⟩ := countedWriteLoop_ended (s.length + 1) h hp (by omega)
    simp only [andThen, Option.bind_eq_bind, Option.bind_some, hr]
    cases r with
    | error st => exact ⟨.error st, rfl, hended, fun _ h => nomatch h⟩
    | ok st =>
      obtain ⟨codes, h, hp, hfull⟩ := hended
      exact countedCountLoop_ended _ h hp hfull (by omega)

end Conversion

/-! ## Results -/

def finish (destCapacity : Int) (error : UErrorCode) : Except Conversion Conversion → Result
  | .error st => ⟨st.dest, none, some 0, .invalidCharFound⟩
  | .ok st =>
    let reqLength := int32 (st.reqLength + st.dest.length)
    let (dest, error) := uTerminateUChars st.dest destCapacity reqLength error
    ⟨dest, some reqLength, some st.numSubstitutions, error⟩

/-- The result with the length as an `int32_t`. -/
def Reference.reported (r : Reference) (destCapacity : Int) (error : UErrorCode) : Result :=
  if r.invalid then r.result destCapacity error
  else
    { r.result destCapacity error with
      destLength := some (int32 r.units.length)
      error := (uTerminateUChars [] destCapacity (int32 r.units.length) error).2 }

theorem Reference.reported_eq_iff {r : Reference} {destCapacity : Int} :
    r.reported destCapacity error = r.result destCapacity error ↔
      r.invalid = true ∨ r.units.length < 2 ^ 31 := by
  rw [Reference.reported]
  by_cases hinvalid : r.invalid = true
  · simp [hinvalid]
  rw [if_neg hinvalid]
  constructor
  · intro hresult
    have hlength := congrArg Result.destLength hresult
    rw [Reference.result, if_neg hinvalid] at hlength
    obtain ⟨-, hlarge⟩ := int32_eq_iff.mp (Option.some.inj hlength)
    exact .inr (by omega)
  · intro h
    have hsmall := h.resolve_left hinvalid
    rw [Reference.result, if_neg hinvalid, int32_of_lt hsmall]

theorem Reference.reported_dest {r : Reference} {destCapacity : Int} :
    (r.reported destCapacity error).dest = (r.result destCapacity error).dest ∧
      (r.reported destCapacity error).numSubstitutions =
        (r.result destCapacity error).numSubstitutions := by
  rw [Reference.reported]
  split <;> exact ⟨rfl, rfl⟩

theorem uTerminateUChars_neg {units : List UInt16} {destCapacity length : Int} (hneg : length < 0) :
    (uTerminateUChars units destCapacity length error).2 = error := by
  rw [uTerminateUChars, if_pos hneg]
  split <;> rfl

theorem uTerminateUChars_eq {units : List UInt16} {destCapacity : Int}
    (hsuccess : error.isSuccess = true) (hunits : units.length < 2 ^ 32) (h0 : 0 ≤ destCapacity)
    (hcapacity : destCapacity < 2 ^ 31) :
    uTerminateUChars (units.take destCapacity.toNat) destCapacity (int32 units.length) error =
      (units.take destCapacity.toNat ++ (if units.length < destCapacity then [0] else []),
        (uTerminateUChars [] destCapacity (int32 units.length) error).2) := by
  rw [uTerminateUChars, uTerminateUChars, if_pos hsuccess, if_pos hsuccess]
  by_cases hlarge : 2 ^ 31 ≤ units.length
  · have hneg := int32_of_ge hlarge hunits
    rw [if_pos hneg, if_pos hneg, if_neg (by omega), List.append_nil]
  have hzero : ¬ (units.length : Int) < 0 := by omega
  rw [int32_of_lt (by omega)]
  simp only [if_neg hzero, Int.toNat_natCast]
  by_cases hfits : (units.length : Int) < destCapacity
  · have hall : units.take destCapacity.toNat = units := List.take_of_length_le (by omega)
    simp only [if_pos hfits, hall, List.take_length]
    rw [List.drop_of_length_le (by omega), List.append_nil]
  · simp only [if_neg hfits, List.append_nil]
    split <;> rfl

theorem finish_eq {t : List UInt8} {r : Except Conversion Conversion} {destCapacity : Int}
    (hsuccess : error.isSuccess = true) (hs : s.length < 2 ^ 31)
    (h0 : 0 ≤ destCapacity) (hcapacity : destCapacity < 2 ^ 31)
    (hdecode : ∀ codes, Decodes t 0 s.length codes → decode s = codes)
    (hrest : ∀ p, p ≤ s.length → ∃ codes, Decodes t p s.length codes)
    (hunit : ∀ p e, IsUnit t p e → codePoint t p e = none → e ≤ s.length)
    (h : Conversion.Complete t destCapacity.toNat (subOf subchar) s.length r) :
    finish destCapacity error r = (reference s subchar).reported destCapacity error := by
  obtain ⟨hended, hend⟩ := h
  rw [reference]
  cases r with
  | error st =>
    obtain ⟨p, e, codes, hdecodes, hconvertible, hdest, hu, hnone⟩ := hended
    obtain ⟨codes', hcodes'⟩ := hrest e (hunit p e hu (Option.or_eq_none_iff.mp hnone).1)
    rw [hdecode _ (hdecodes.append (.cons hu hcodes'))]
    obtain ⟨hunits, hinvalid⟩ := @referenceOf_invalid _ codes codes' _ hconvertible hnone
    rw [Reference.reported, if_pos hinvalid, Reference.result, if_pos hinvalid, hunits, finish,
      hdest]
  | ok st =>
    obtain ⟨codes, hholds, -, -⟩ := hended
    have hdecodes := hholds.decodes
    rw [hend st rfl] at hdecodes
    have hle := length_outputs_le (subOf subchar) codes
    have hcodes := hdecodes.length_le
    have hlength : int32 (st.reqLength + st.dest.length) =
        int32 (outputs (subOf subchar) codes).length := by
      rw [hholds.reqLength, int32_add_left]
      congr 1
      omega
    have hcount : codes.countP (·.isNone) ≤ codes.length := List.countP_le_length
    rw [hdecode codes hdecodes, referenceOf_valid hholds.convertible, Reference.reported,
      Reference.result]
    simp only [Bool.false_eq_true, if_false, finish]
    rw [hlength, hholds.dest, uTerminateUChars_eq hsuccess (by omega) h0 hcapacity,
      hholds.numSubstitutions, @int32_of_lt (codes.countP (·.isNone)) (by omega)]

theorem legal_arguments {α : Type} {src : List α} {destIsNull : Bool} {destCapacity srcLength : Int}
    (h0 : 0 ≤ destCapacity) (hnull : destIsNull = true → destCapacity = 0)
    (hsub : subchar < 0 ∨ IsScalar subchar.toNat) (hlength : -1 ≤ srcLength) :
    ¬ ((some src = none ∧ srcLength ≠ 0) ∨ srcLength < -1 ∨ destCapacity < 0 ∨
      (destIsNull = true ∧ destCapacity > 0) ∨ subchar > 0x10ffff ∨
      (0 ≤ subchar ∧ uIsSurrogate subchar.toNat = true)) := by
  rintro (⟨h, -⟩ | h | h | ⟨h, h'⟩ | h | ⟨h, h'⟩)
  · cases h
  · omega
  · omega
  · have := hnull h
    omega
  · rcases hsub with hneg | hscalar
    · omega
    have := hscalar.le
    omega
  · rcases hsub with hneg | hscalar
    · omega
    rw [hscalar.not_surrogate] at h'
    cases h'

theorem uStrFromUTF8WithSub_finish {destIsNull : Bool} {destCapacity srcLength : Int}
    {src : List UInt8} (hsuccess : error.isSuccess = true)
    (h0 : 0 ≤ destCapacity) (hnull : destIsNull = true → destCapacity = 0)
    (hsub : subchar < 0 ∨ IsScalar subchar.toNat) (hlength : -1 ≤ srcLength) :
    uStrFromUTF8WithSub destIsNull destCapacity (some src) srcLength subchar error =
      (if srcLength < 0 then
          Conversion.terminatedLoops src destCapacity.toNat subchar ⟨0, [], 0, 0⟩
        else
          Conversion.countedLoops src destCapacity.toNat subchar srcLength.toNat
            ⟨0, [], 0, 0⟩).map (finish destCapacity error) := by
  rw [uStrFromUTF8WithSub, if_neg (by simp [hsuccess]),
    if_neg (legal_arguments h0 hnull hsub hlength)]
  simp only [Option.getD_some]
  generalize (if srcLength < 0 then
    Conversion.terminatedLoops src destCapacity.toNat subchar ⟨0, [], 0, 0⟩
    else Conversion.countedLoops src destCapacity.toNat subchar srcLength.toNat
      ⟨0, [], 0, 0⟩) = loops
  cases loops with
  | none => rfl
  | some r => cases r <;> rfl

theorem unit_le_of_nul {p e : Nat} (h : IsUnit (s ++ [0]) p e)
    (hcode : codePoint (s ++ [0]) p e = none) : e ≤ s.length := by
  have hlt := h.lt
  have hle : e ≤ s.length + 1 := by
    have := h.le
    simpa using this
  by_contra hgt
  rcases Nat.eq_or_lt_of_le (show p ≤ s.length by omega) with rfl | hp
  · rw [codePoint_single byteAt_nul (by decide)] at hcode
    cases hcode
  · exact not_trailAt_nul (h.trails s.length hp (by omega))

/-- A string without NUL has the same result if it is NUL-terminated. -/
theorem uStrFromUTF8WithSub_reported {destIsNull : Bool} {destCapacity : Int}
    (hs : s.length < 2 ^ 31) (hsub : subchar < 0 ∨ IsScalar subchar.toNat)
    (h0 : 0 ≤ destCapacity) (hcapacity : destCapacity < 2 ^ 31)
    (hnull : destIsNull = true → destCapacity = 0) (hsuccess : error.isSuccess = true) :
    uStrFromUTF8WithSub destIsNull destCapacity (some s) s.length subchar error =
        some ((reference s subchar).reported destCapacity error) ∧
      ((0 : UInt8) ∉ s →
        uStrFromUTF8WithSub destIsNull destCapacity (some (s ++ [0])) (-1) subchar error =
          some ((reference s subchar).reported destCapacity error)) := by
  refine ⟨?_, fun hnul => ?_⟩
  · obtain ⟨r, hr, hcomplete⟩ := @Conversion.countedLoops_complete s destCapacity.toNat subchar
    rw [uStrFromUTF8WithSub_finish hsuccess h0 hnull hsub (by omega), if_neg (by omega),
      Int.toNat_natCast, hr, Option.map_some,
      finish_eq hsuccess hs h0 hcapacity (fun codes h => h.decode_eq)
        (fun p hp => Decodes.exists_rest hp) (fun p e h _ => h.le) hcomplete]
  obtain ⟨r, hr, hcomplete⟩ := @Conversion.terminatedLoops_complete s destCapacity.toNat subchar
    hnul
  have hdecode : ∀ codes, Decodes (s ++ [0]) 0 s.length codes → decode s = codes := by
    intro codes h
    obtain ⟨codes', h'⟩ := Decodes.exists_rest (Nat.zero_le s.length)
    rw [h'.decode_eq]
    exact h'.nul.unique h
  have hrest : ∀ p, p ≤ s.length → ∃ codes, Decodes (s ++ [0]) p s.length codes := by
    intro p hp
    obtain ⟨codes, h⟩ := Decodes.exists_rest hp
    exact ⟨codes, h.nul⟩
  rw [uStrFromUTF8WithSub_finish hsuccess h0 hnull hsub (by omega), if_pos (by omega), hr,
    Option.map_some, finish_eq hsuccess hs h0 hcapacity hdecode hrest
      (fun p e h hcode => unit_le_of_nul h hcode) hcomplete]

/-- The conversion is the reference decoding, for every capacity, unless the decoding has more units
than an `int32_t` can count. The units and the number of substitutions are right in any case, and as
many units are written as fit. A string without NUL has the same result if it is NUL-terminated.
Nothing is read behind the source or its NUL, and nothing is written behind the destination. -/
theorem uStrFromUTF8WithSub_eq_reference_iff {destIsNull : Bool} {destCapacity : Int}
    {error : UErrorCode} (hs : s.length < 2 ^ 31) (hsub : subchar < 0 ∨ IsScalar subchar.toNat)
    (h0 : 0 ≤ destCapacity) (hcapacity : destCapacity < 2 ^ 31)
    (hnull : destIsNull = true → destCapacity = 0) (hsuccess : error.isSuccess = true) :
    ∃ r, uStrFromUTF8WithSub destIsNull destCapacity (some s) s.length subchar error = some r ∧
      ((0 : UInt8) ∉ s →
        uStrFromUTF8WithSub destIsNull destCapacity (some (s ++ [0])) (-1) subchar error = some r) ∧
      r.dest = ((reference s subchar).result destCapacity error).dest ∧
      r.numSubstitutions = ((reference s subchar).result destCapacity error).numSubstitutions ∧
      (r = (reference s subchar).result destCapacity error ↔
        (reference s subchar).invalid = true ∨ (reference s subchar).units.length < 2 ^ 31) := by
  obtain ⟨hcounted, hterminated⟩ := uStrFromUTF8WithSub_reported hs hsub h0 hcapacity hnull hsuccess
  obtain ⟨hdest, hsubstitutions⟩ := (reference s subchar).reported_dest
  exact ⟨_, hcounted, hterminated, hdest, hsubstitutions, Reference.reported_eq_iff⟩

/-- `a`, a truncated sequence, U+10000 and a stray trail byte, with a capacity that ends
between two surrogates. -/
theorem uStrFromUTF8WithSub_truncated :
    uStrFromUTF8WithSub false 3 (some [0x61, 0xe4, 0xb8, 0xf0, 0x90, 0x80, 0x80, 0x80]) 8 0xfffd
        .zeroError =
      some ⟨[0x61, 0xfffd, 0xd800], some 5, some 2, .bufferOverflowError⟩ := by
  obtain ⟨r, hr, -, -, -, hiff⟩ := @uStrFromUTF8WithSub_eq_reference_iff
    [0x61, 0xe4, 0xb8, 0xf0, 0x90, 0x80, 0x80, 0x80] 0xfffd false 3 .zeroError (by decide)
    (.inr (by decide)) (by decide) (by decide) (fun h => absurd h (by decide)) rfl
  have hresult := hiff.mpr (.inr (by decide +kernel))
  exact hr.trans (hresult ▸ by decide +kernel)

/-! ## A length that overflows -/

/-- A byte that never begins a sequence is a unit of its own. -/
theorem decodes_replicate (n : Nat) : ∀ k p, p + k = n →
    Decodes (List.replicate n 0xff) p n (List.replicate k none)
  | 0, p, h => h ▸ .nil p
  | k + 1, p, h => by
    have hbyte : byteAt (List.replicate n 0xff) p = some 0xff := by
      rw [byteAt, List.getElem?_replicate, if_pos (by omega)]
      rfl
    have hunit : IsUnit (List.replicate n 0xff) p (p + 1) := by
      have hcount : ∀ b, byteAt (List.replicate n 0xff) p = some b → u8CountTrailBytes b = 0 := by
        intro b hb
        rw [hbyte, Option.some.injEq] at hb
        rw [← hb]
        decide
      refine ⟨by omega, by rw [List.length_replicate]; omega, fun i h1 h2 => by omega, ?_, ?_⟩
      · intro b hb
        omega
      · intro b hb h1
        rw [hcount b hb] at h1
        omega
    have hnone : codePoint (List.replicate n 0xff) p (p + 1) = none := by
      rw [codePoint_multi hbyte (by decide), if_neg (fun h => absurd h.1 (by decide))]
    have hrest := decodes_replicate n k (p + 1) (by omega)
    have hcons := Decodes.cons hunit hrest
    rw [hnone] at hcons
    exact hcons

theorem reference_replicate (n : Nat) (hsub : 0xffff < subchar) :
    (reference (List.replicate n 0xff) subchar).invalid = false ∧
      (reference (List.replicate n 0xff) subchar).units.length = 2 * n := by
  have hdecode : decode (List.replicate n 0xff) = List.replicate n none := by
    have h := decodes_replicate n n 0 (Nat.zero_add n)
    exact Decodes.decode_eq (by rwa [List.length_replicate])
  have hsome : subOf subchar = some subchar.toNat := if_neg (by omega)
  have htwo : (unitsOf subchar.toNat).length = 2 := by
    rw [length_unitsOf, u16Length, if_neg (by omega)]
  rw [reference, hdecode, referenceOf_valid (by simp [hsome]), outputs, List.flatMap_replicate,
    hsome]
  refine ⟨rfl, ?_⟩
  simp [htwo, Nat.mul_comm]

theorem Reference.reported_wrapped {r : Reference} {destCapacity : Int} (hvalid : r.invalid = false)
    (hneg : int32 r.units.length < 0) :
    (r.reported destCapacity error).destLength = some (int32 r.units.length) ∧
      (r.reported destCapacity error).error = error := by
  rw [Reference.reported, if_neg (by simp [hvalid])]
  exact ⟨rfl, uTerminateUChars_neg hneg⟩

theorem length_from_wraps {n : Nat} (hn : 2 ^ 30 ≤ n) (hn' : n < 2 ^ 31) :
    ∃ r, uStrFromUTF8WithSub true 0 (some (List.replicate n 0xff)) n 0x10000 .zeroError = some r ∧
      r.destLength = some (int32 ((2 * n : Nat) : Int)) ∧ r.error = .zeroError ∧
      (reference (List.replicate n 0xff) 0x10000).units.length = 2 * n ∧
      r ≠ (reference (List.replicate n 0xff) 0x10000).result 0 .zeroError := by
  obtain ⟨hvalid, hlength⟩ := @reference_replicate 0x10000 n (by decide)
  obtain ⟨hr, -⟩ := @uStrFromUTF8WithSub_reported (List.replicate n 0xff) 0x10000 .zeroError true 0
    (by rwa [List.length_replicate]) (.inr (by decide)) (by decide) (by decide) (fun _ => rfl) rfl
  rw [List.length_replicate] at hr
  have hneg : int32 (reference (List.replicate n 0xff) 0x10000).units.length < 0 := by
    rw [hlength]
    exact int32_of_ge (by omega) (by omega)
  obtain ⟨hdestLength, herror⟩ := Reference.reported_wrapped hvalid hneg
  rw [hlength] at hdestLength
  refine ⟨_, hr, hdestLength, herror, hlength, ?_⟩
  rw [Ne, Reference.reported_eq_iff, hvalid, hlength]
  rintro (h | h)
  · cases h
  · omega

/-- The length of too many substitution characters of two units overflows, and there is no error. -/
theorem length_from_overflow :
    ∃ r, uStrFromUTF8WithSub true 0 (some (List.replicate 1073741824 0xff)) 1073741824 0x10000
        .zeroError = some r ∧ r.destLength = some (-2147483648) ∧ r.error = .zeroError ∧
      (reference (List.replicate 1073741824 0xff) 0x10000).units.length = 2147483648 ∧
      r ≠ (reference (List.replicate 1073741824 0xff) 0x10000).result 0 .zeroError := by
  obtain ⟨r, hr, hdestLength, herror, hlength, hne⟩ := @length_from_wraps 1073741824 (by decide)
    (by decide)
  refine ⟨r, hr, ?_, herror, hlength, hne⟩
  rw [hdestLength]
  decide

end Icu.StrTrans
