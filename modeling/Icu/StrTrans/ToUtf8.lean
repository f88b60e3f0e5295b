import Icu.StrTrans.Bytes
import Icu.StrTrans.FromUtf8
import Icu.StrTrans.ToUtf8Loops

/-! # Conversion to UTF-8 and back

`u_strToUTF8WithSub` yields the reference encoding for every capacity, as long as the length of
the encoding is an `int32_t`. The two conversions are inverse to each other on well-formed
strings.
-/

namespace Icu.StrTrans

open Lib Utf16 Utf8

variable {length : Int} {destIsNull : Bool}

def finishEncoding (destCapacity : Int) (error : UErrorCode) :
    Except Encoding Encoding → EncodingResult
  | .error st => ⟨st.dest, none, some 0, .invalidCharFound⟩
  | .ok st =>
    let reqLength := int32 (st.reqLength + st.dest.length)
    let (dest, error) := uTerminateChars st.dest destCapacity reqLength error
    ⟨dest, some reqLength, some st.numSubstitutions, error⟩

section

variable {sub : Option Nat} {codes codes' : List (Option Nat)}

theorem encodingReferenceOf_valid (h : ∀ code ∈ codes, (code.or sub).isSome = true) :
    encodingReferenceOf sub codes = ⟨characters sub codes, codes.countP (·.isNone), false⟩ := by
  have htake : codes.takeWhile (fun code => (code.or sub).isSome) = codes :=
    List.takeWhile_eq_self_iff.mpr h
  have hany : (codes.any fun code => (code.or sub).isNone) = false := by
    rw [List.any_eq_false]
    intro code hcode
    have := h code hcode
    cases hor : code.or sub with
    | none => simp [hor] at this
    | some c => simp
  rw [encodingReferenceOf, htake, hany]

theorem encodingReferenceOf_invalid {code : Option Nat}
    (h : ∀ code ∈ codes, (code.or sub).isSome = true) (hcode : code.or sub = none) :
    (encodingReferenceOf sub (codes ++ code :: codes')).characters = characters sub codes ∧
      (encodingReferenceOf sub (codes ++ code :: codes')).invalid = true := by
  have htake : (codes ++ code :: codes').takeWhile (fun code => (code.or sub).isSome) = codes := by
    rw [List.takeWhile_append_of_pos h, List.takeWhile_cons_of_neg (by simp [hcode]),
      List.append_nil]
  refine ⟨?_, ?_⟩
  · rw [encodingReferenceOf]
    rw [htake]
  rw [encodingReferenceOf]
  rw [List.any_eq_true]
  exact ⟨code, by simp, by rw [hcode]; rfl⟩

theorem characters_append : characters sub (codes ++ codes') =
    characters sub codes ++ characters sub codes' := List.map_append

theorem fitting_characters {capacity : Nat} (hfits : (bytes sub codes).length ≤ capacity)
    (hfull : ∀ code rest, codes' = code :: rest →
      capacity < (bytes sub codes).length + (bytes sub [code]).length) :
    fitting capacity (characters sub (codes ++ codes')) = bytes sub codes := by
  rw [characters_append, fitting_append hfits]
  cases codes' with
  | nil => exact List.append_nil _
  | cons code rest =>
    have hlt := hfull code rest rfl
    have hone : bytes sub [code] = appendUTF8 ((code.or sub).getD 0) := by
      rw [bytes, characters, List.map_singleton, List.flatten_singleton]
    rw [hone] at hlt
    have hnone : fitting (capacity - (characters sub codes).flatten.length)
        (characters sub (code :: rest)) = [] := by
      apply fitting_full
      change capacity - (bytes sub codes).length < (appendUTF8 ((code.or sub).getD 0)).length
      omega
    rw [hnone, List.append_nil]
    rfl

theorem countP_le_length : codes.countP (·.isNone) ≤ (bytes sub codes).length := by
  have hlength : codes.length ≤ (bytes sub codes).length := by
    induction codes with
    | nil => exact Nat.zero_le _
    | cons code codes ih =>
      have hpos : 0 < (appendUTF8 ((code.or sub).getD 0)).length := by
        rw [appendUTF8]
        split
        · simp
        split
        · simp [twoBytes]
        split
        · simp [threeBytes]
        · simp [fourBytes]
      rw [bytes, characters] at ih ⊢
      rw [List.map_cons, List.flatten_cons, List.length_append, List.length_cons]
      omega
  exact Nat.le_trans List.countP_le_length hlength

end

/-! ## The result -/

variable {s : List UInt16} {subchar : Int}

theorem uTerminateChars_eq {dest : List UInt8} {destCapacity : Int} {error : UErrorCode}
    (hsuccess : error.isSuccess = true) (hlength : length < destCapacity → dest.length = length) :
    uTerminateChars dest destCapacity length error =
      (dest ++ (if 0 ≤ length ∧ length < destCapacity then [0] else []),
        (uTerminateChars [] destCapacity length error).2) := by
  rw [uTerminateChars, uTerminateChars, if_pos hsuccess, if_pos hsuccess]
  by_cases hneg : length < 0
  · rw [if_pos hneg, if_pos hneg, if_neg (by omega), List.append_nil]
  rw [if_neg hneg, if_neg hneg]
  by_cases hfits : length < destCapacity
  · have hall := hlength hfits
    have hboth : 0 ≤ length ∧ length < destCapacity := ⟨by omega, hfits⟩
    simp only [if_pos hfits, if_pos hboth]
    rw [← hall, Int.toNat_natCast, List.take_length, List.drop_of_length_le (Nat.le_succ _),
      List.append_nil]
  · have hnot : ¬ (0 ≤ length ∧ length < destCapacity) := fun h => hfits h.2
    simp only [if_neg hfits, if_neg hnot, List.append_nil]
    split <;> rfl

theorem Encoding.Holds.length_eq {st : Encoding} {destCapacity : Nat} {sub : Option Nat}
    {codes codes' : List (Option Nat)} (h : st.Holds s destCapacity sub codes codes') :
    int32 (st.reqLength + st.dest.length) = int32 (bytes sub (codes ++ codes')).length := by
  rw [h.reqLength, h.dest, bytes_append, List.length_append, int32_add_left]
  congr 1
  push_cast
  omega

/-- What the loops have found is the reference encoding, if its length is an `int32_t`. -/
theorem finishEncoding_eq_iff {r : Except Encoding Encoding} {destCapacity : Int}
    {error : UErrorCode} (hsuccess : error.isSuccess = true) (h0 : 0 ≤ destCapacity)
    (hcapacity : destCapacity < 2 ^ 31)
    (h : Encoding.Complete s destCapacity.toNat (subOf subchar) r) :
    finishEncoding destCapacity error r = (encodingReference s subchar).result destCapacity error ↔
      (encodingReference s subchar).invalid = true ∨
        (encodingReference s subchar).characters.flatten.length < 2 ^ 31 := by
  rw [encodingReference]
  cases r with
  | error st =>
    obtain ⟨codes, codes', rest, hread, hsub, hconvertible, hdest, hfits, hfull⟩ := h
    obtain ⟨hcharacters, hinvalid⟩ := @encodingReferenceOf_invalid (subOf subchar)
      (codes ++ codes') rest none hconvertible (by rw [hsub]; rfl)
    rw [← hread] at hcharacters hinvalid
    refine ⟨fun _ => .inl hinvalid, fun _ => ?_⟩
    rw [EncodingReference.result, if_pos hinvalid, hcharacters, finishEncoding,
      fitting_characters (hdest ▸ hfits), hdest]
    intro code rest' hcodes
    subst hcodes
    rw [← hdest]
    exact (hfull code (rest' ++ [none]) rfl).resolve_left (by simp)
  | ok st =>
    obtain ⟨codes, codes', hholds, hend⟩ := h
    have hread := hholds.read
    rw [hend, List.drop_length] at hread
    have hscalars : scalars s = codes ++ codes' := hread.trans (List.append_nil _)
    have hlength := hholds.length_eq
    have hfitting := fitting_characters (hholds.dest ▸ hholds.fits)
      (fun code rest hcodes => hholds.dest ▸ hholds.full code rest hcodes)
    have hcount := @countP_le_length (subOf subchar) (codes ++ codes')
    rw [hscalars, encodingReferenceOf_valid hholds.convertible, EncodingReference.result]
    simp only [Bool.false_eq_true, if_false, false_or, finishEncoding]
    rw [hfitting, hlength, hholds.numSubstitutions]
    change _ ↔ (bytes (subOf subchar) (codes ++ codes')).length < 2 ^ 31
    constructor
    · -- the length that is reported is an `int32_t`
      intro hresult
      have hreported := congrArg EncodingResult.destLength hresult
      rw [Option.some.injEq] at hreported
      change int32 _ = ((bytes (subOf subchar) (codes ++ codes')).length : Int) at hreported
      have hbound : int32 ((bytes (subOf subchar) (codes ++ codes')).length : Int) < 2 ^ 31 :=
        Int.bmod_lt (by decide)
      omega
    intro hsmall
    have hall : ((bytes (subOf subchar) (codes ++ codes')).length : Int) < destCapacity →
        st.dest.length = ((bytes (subOf subchar) (codes ++ codes')).length : Int) := by
      intro hlt
      cases hcodes : codes' with
      | nil => rw [hholds.dest, List.append_nil]
      | cons code rest =>
        have hover := hholds.full code rest hcodes
        rw [hholds.dest] at hover
        rw [hcodes, bytes_append, List.length_append] at hlt
        have hone : (bytes (subOf subchar) [code]).length ≤
            (bytes (subOf subchar) (code :: rest)).length := by
          rw [show code :: rest = [code] ++ rest from rfl, bytes_append, List.length_append]
          omega
        omega
    rw [int32_of_lt hsmall, int32_of_lt (by omega), uTerminateChars_eq hsuccess hall, hholds.dest]
    have hif : (0 ≤ ((bytes (subOf subchar) (codes ++ codes')).length : Int) ∧
        ((bytes (subOf subchar) (codes ++ codes')).length : Int) < destCapacity) ↔
        ((bytes (subOf subchar) (codes ++ codes')).length : Int) < destCapacity :=
      and_iff_right (Int.natCast_nonneg _)
    simp only [hif]
    rfl

theorem uStrToUTF8WithSub_finish {destCapacity srcLength : Int}
    {pSrc : List UInt16} {error : UErrorCode} (hsuccess : error.isSuccess = true)
    (h0 : 0 ≤ destCapacity) (hnull : destIsNull = true → destCapacity = 0)
    (hsub : subchar < 0 ∨ IsScalar subchar.toNat) (hlength : -1 ≤ srcLength) :
    uStrToUTF8WithSub destIsNull destCapacity (some pSrc) srcLength subchar error =
      (if srcLength = -1 then
          Encoding.terminatedLoops pSrc destCapacity.toNat subchar ⟨0, [], 0, 0⟩
        else
          Encoding.countedLoops pSrc destCapacity.toNat subchar srcLength.toNat
            ⟨0, [], 0, 0⟩).map (finishEncoding destCapacity error) := by
  rw [uStrToUTF8WithSub, if_neg (by simp [hsuccess]),
    if_neg (legal_arguments h0 hnull hsub hlength)]
  simp only [Option.getD_some]
  generalize (if srcLength = -1 then
    Encoding.terminatedLoops pSrc destCapacity.toNat subchar ⟨0, [], 0, 0⟩
    else Encoding.countedLoops pSrc destCapacity.toNat subchar srcLength.toNat
      ⟨0, [], 0, 0⟩) = loops
  cases loops with
  | none => rfl
  | some r => cases r <;> rfl

theorem counted_eq_iff {destIsNull : Bool} {destCapacity : Int} {error : UErrorCode}
    (hsuccess : error.isSuccess = true) (h0 : 0 ≤ destCapacity) (hcapacity : destCapacity < 2 ^ 31)
    (hnull : destIsNull = true → destCapacity = 0) (hsub : subchar < 0 ∨ IsScalar subchar.toNat) :
    uStrToUTF8WithSub destIsNull destCapacity (some s) s.length subchar error =
        some ((encodingReference s subchar).result destCapacity error) ↔
      (encodingReference s subchar).invalid = true ∨
        (encodingReference s subchar).characters.flatten.length < 2 ^ 31 := by
  obtain ⟨r, hr, hcomplete⟩ := @Encoding.countedLoops_complete s subchar destCapacity.toNat hsub
  rw [uStrToUTF8WithSub_finish hsuccess h0 hnull hsub (by omega), if_neg (by omega),
    Int.toNat_natCast, hr, Option.map_some, Option.some.injEq]
  exact finishEncoding_eq_iff hsuccess h0 hcapacity hcomplete

theorem terminated_eq_iff {destCapacity : Int} {error : UErrorCode}
    (hnul : (0 : UInt16) ∉ s) (hsuccess : error.isSuccess = true) (h0 : 0 ≤ destCapacity)
    (hcapacity : destCapacity < 2 ^ 31) (hnull : destIsNull = true → destCapacity = 0)
    (hsub : subchar < 0 ∨ IsScalar subchar.toNat) :
    uStrToUTF8WithSub destIsNull destCapacity (some (s ++ [0])) (-1) subchar error =
        some ((encodingReference s subchar).result destCapacity error) ↔
      (encodingReference s subchar).invalid = true ∨
        (encodingReference s subchar).characters.flatten.length < 2 ^ 31 := by
  obtain ⟨r, hr, hcomplete⟩ := @Encoding.terminatedLoops_complete s subchar destCapacity.toNat hnul
    hsub
  rw [uStrToUTF8WithSub_finish hsuccess h0 hnull hsub (by omega), if_pos rfl, hr, Option.map_some,
    Option.some.injEq]
  exact finishEncoding_eq_iff hsuccess h0 hcapacity hcomplete

/-- The string that a conversion yields, without a NUL. -/
def EncodingResult.text (r : EncodingResult) : List UInt8 := r.dest.take (r.destLength.getD 0).toNat

def Result.text (r : Result) : List UInt16 := r.dest.take (r.destLength.getD 0).toNat

/-- `u_strToUTF8`, and then `u_strFromUTF8` of its result. -/
def toUTF8AndBack (destCapacity destCapacity' : Int) (s : List UInt16) (error : UErrorCode) :
    Option Result := do
  let r ← uStrToUTF8 false destCapacity (some s) s.length error
  uStrFromUTF8 false destCapacity' (some r.text) r.text.length r.error

/-- `u_strFromUTF8`, and then `u_strToUTF8` of its result. -/
def fromUTF8AndBack (destCapacity destCapacity' : Int) (t : List UInt8) (error : UErrorCode) :
    Option EncodingResult := do
  let r ← uStrFromUTF8 false destCapacity (some t) t.length error
  uStrToUTF8 false destCapacity' (some r.text) r.text.length r.error

section

variable {cs : List Nat} {destCapacity : Int} {error : UErrorCode} {destCapacity' : Int}

theorem scalars_utf16 (h : ∀ c ∈ cs, IsScalar c) : scalars (utf16 cs) = cs.map some := by
  rw [scalars, codePoints_utf16 h]
  apply List.map_congr_left
  intro c hc
  rw [(h c hc).not_surrogate]
  rfl

theorem encodingReference_utf16 (h : ∀ c ∈ cs, IsScalar c) :
    encodingReference (utf16 cs) (-1) = ⟨cs.map appendUTF8, 0, false⟩ := by
  have hnone : (cs.map some).countP (·.isNone) = 0 := by
    rw [List.countP_eq_zero]
    simp
  rw [encodingReference, scalars_utf16 h, encodingReferenceOf_valid (by simp), hnone, characters,
    List.map_map]
  rfl

theorem reference_flatMap (h : ∀ c ∈ cs, IsScalar c) :
    reference (cs.flatMap appendUTF8) (-1) = ⟨utf16 cs, 0, false⟩ := by
  have hnone : (cs.map some).countP (·.isNone) = 0 := by
    rw [List.countP_eq_zero]
    simp
  rw [reference, decode_flatMap h, referenceOf_valid (by simp), hnone, outputs, List.flatMap_map]
  rfl

theorem success_of_fits (hsuccess : error.isSuccess = true) (h0 : 0 ≤ length)
    (hfits : length ≤ destCapacity) :
    (uTerminateChars [] destCapacity length error).2.isSuccess = true ∧
      (uTerminateUChars [] destCapacity length error).2.isSuccess = true := by
  have hneg : ¬ length < 0 := by omega
  rw [uTerminateChars, uTerminateUChars, if_pos hsuccess, if_pos hsuccess, if_neg hneg, if_neg hneg]
  rcases Int.lt_or_eq_of_le hfits with hlt | heq
  · rw [if_pos hlt, if_pos hlt]
    split
    · exact ⟨rfl, rfl⟩
    · exact ⟨hsuccess, hsuccess⟩
  · have hnot : ¬ length < destCapacity := by omega
    rw [if_neg hnot, if_neg hnot, if_pos heq, if_pos heq]
    exact ⟨rfl, rfl⟩

theorem uStrToUTF8_utf16 (h : ∀ c ∈ cs, IsScalar c) (hsuccess : error.isSuccess = true)
    (hfits : (cs.flatMap appendUTF8).length ≤ destCapacity) (hcapacity : destCapacity < 2 ^ 31) :
    ∃ r, uStrToUTF8 false destCapacity (some (utf16 cs)) (utf16 cs).length error = some r ∧
      r.text = cs.flatMap appendUTF8 ∧ r.error.isSuccess = true := by
  have hflatten : (cs.map appendUTF8).flatten = cs.flatMap appendUTF8 := rfl
  have hreference := encodingReference_utf16 h
  have hr := (@counted_eq_iff (utf16 cs) (-1) false destCapacity error hsuccess (by omega) hcapacity
    (fun h => nomatch h) (.inl (by decide))).mpr
    (.inr (by rw [hreference]; dsimp only; rw [hflatten]; omega))
  rw [uStrToUTF8, hr]
  refine ⟨_, rfl, ?_, ?_⟩
  · rw [hreference, EncodingReference.result, if_neg (by simp), EncodingResult.text]
    rw [hflatten, Option.getD_some, Int.toNat_natCast]
    have hall : fitting destCapacity.toNat (cs.map appendUTF8) = cs.flatMap appendUTF8 := by
      have happend := @fitting_append destCapacity.toNat (cs.map appendUTF8) []
        (by rw [hflatten]; omega)
      rw [List.append_nil] at happend
      rw [happend, hflatten, fitting, List.append_nil]
    rw [hall, List.take_left]
  · rw [hreference, EncodingReference.result, if_neg (by simp)]
    exact (success_of_fits hsuccess (Int.natCast_nonneg _) hfits).1

theorem uStrFromUTF8_flatMap (h : ∀ c ∈ cs, IsScalar c) (hsuccess : error.isSuccess = true)
    (ht : (cs.flatMap appendUTF8).length < 2 ^ 31) (hfits : (utf16 cs).length ≤ destCapacity)
    (hcapacity : destCapacity < 2 ^ 31) :
    ∃ r, uStrFromUTF8 false destCapacity (some (cs.flatMap appendUTF8))
        (cs.flatMap appendUTF8).length error = some r ∧
      r.text = utf16 cs ∧ r.error.isSuccess = true := by
  have hreference := reference_flatMap h
  have hr := (@uStrFromUTF8WithSub_reported (cs.flatMap appendUTF8) (-1) error false destCapacity
    ht (.inl (by decide)) (by omega) hcapacity (fun h => nomatch h) hsuccess).1
  rw [Reference.reported_eq_iff.mpr (.inr (by rw [hreference]; dsimp only; omega))] at hr
  rw [uStrFromUTF8, hr]
  refine ⟨_, rfl, ?_, ?_⟩
  · rw [hreference, Reference.result, if_neg (by simp), Result.text]
    have hall : (utf16 cs).take destCapacity.toNat = utf16 cs := List.take_of_length_le (by omega)
    rw [Option.getD_some, Int.toNat_natCast, hall, List.take_left]
  · rw [hreference, Reference.result, if_neg (by simp)]
    exact (success_of_fits hsuccess (Int.natCast_nonneg _) hfits).2

theorem toUTF8AndBack_eq (hs : WellFormed s) (hsuccess : error.isSuccess = true)
    (hfits : (encodingReference s (-1)).characters.flatten.length ≤ destCapacity)
    (hcapacity : destCapacity < 2 ^ 31) (hfits' : s.length ≤ destCapacity')
    (hcapacity' : destCapacity' < 2 ^ 31) :
    ∃ r, toUTF8AndBack destCapacity destCapacity' s error = some r ∧ r.text = s ∧
      r.error.isSuccess = true := by
  rw [← utf16_codePoints s] at hfits hfits' ⊢
  rw [encodingReference_utf16 hs] at hfits
  change (((codePoints s).flatMap appendUTF8).length : Int) ≤ destCapacity at hfits
  obtain ⟨r, hr, htext, herror⟩ := uStrToUTF8_utf16 hs hsuccess hfits hcapacity
  obtain ⟨r', hr', htext', herror'⟩ := uStrFromUTF8_flatMap hs herror (by omega) hfits' hcapacity'
  refine ⟨r', ?_, htext', herror'⟩
  rw [toUTF8AndBack, hr, Option.bind_eq_bind, Option.bind_some, htext, hr']

theorem fromUTF8AndBack_eq {t : List UInt8} (ht : none ∉ decode t)
    (hsuccess : error.isSuccess = true) (hfits : (reference t (-1)).units.length ≤ destCapacity)
    (hcapacity : destCapacity < 2 ^ 31) (hfits' : t.length ≤ destCapacity')
    (hcapacity' : destCapacity' < 2 ^ 31) :
    ∃ r, fromUTF8AndBack destCapacity destCapacity' t error = some r ∧ r.text = t ∧
      r.error.isSuccess = true := by
  obtain ⟨cs, hcs, -, rfl⟩ := exists_scalars ht
  rw [reference_flatMap hcs] at hfits
  obtain ⟨r, hr, htext, herror⟩ := uStrFromUTF8_flatMap hcs hsuccess (by omega) hfits hcapacity
  obtain ⟨r', hr', htext', herror'⟩ := uStrToUTF8_utf16 hcs herror hfits' hcapacity'
  refine ⟨r', ?_, htext', herror'⟩
  rw [fromUTF8AndBack, hr, Option.bind_eq_bind, Option.bind_some, htext, hr']

end

theorem fitting_whole : ∀ (capacity : Nat) (cs : List (List UInt8)),
    ∃ n, fitting capacity cs = (cs.take n).flatten ∧ (fitting capacity cs).length ≤ capacity
  | _, [] => ⟨0, rfl, Nat.zero_le _⟩
  | capacity, c :: cs => by
    rw [fitting]
    split
    · next hc =>
      obtain ⟨n, hn, hle⟩ := fitting_whole (capacity - c.length) cs
      refine ⟨n + 1, by rw [hn, List.take_succ_cons, List.flatten_cons], ?_⟩
      rw [List.length_append]
      omega
    · exact ⟨0, rfl, Nat.zero_le _⟩

/-- The conversion is the reference encoding, for every capacity and for counted and
NUL-terminated strings, unless the encoding has more bytes than an `int32_t` can count. What is
written is a prefix of it that ends with a whole character. The conversions to UTF-8 and from
UTF-8 are inverse to each other on well-formed strings. -/
theorem uStrToUTF8WithSub_eq_reference_iff {destIsNull : Bool} {destCapacity : Int}
    {error : UErrorCode} (hsub : subchar < 0 ∨ IsScalar subchar.toNat) (h0 : 0 ≤ destCapacity)
    (hcapacity : destCapacity < 2 ^ 31) (hnull : destIsNull = true → destCapacity = 0)
    (hsuccess : error.isSuccess = true) :
    (uStrToUTF8WithSub destIsNull destCapacity (some s) s.length subchar error =
        some ((encodingReference s subchar).result destCapacity error) ↔
      (encodingReference s subchar).invalid = true ∨
        (encodingReference s subchar).characters.flatten.length < 2 ^ 31) ∧
    ((0 : UInt16) ∉ s →
      (uStrToUTF8WithSub destIsNull destCapacity (some (s ++ [0])) (-1) subchar error =
          some ((encodingReference s subchar).result destCapacity error) ↔
        (encodingReference s subchar).invalid = true ∨
          (encodingReference s subchar).characters.flatten.length < 2 ^ 31)) ∧
    (∃ n, fitting destCapacity.toNat (encodingReference s subchar).characters =
        ((encodingReference s subchar).characters.take n).flatten ∧
      (fitting destCapacity.toNat (encodingReference s subchar).characters).length ≤ destCapacity) ∧
    (∀ destCapacity' : Int, WellFormed s →
      (encodingReference s (-1)).characters.flatten.length ≤ destCapacity →
      s.length ≤ destCapacity' → destCapacity' < 2 ^ 31 →
      ∃ r, toUTF8AndBack destCapacity destCapacity' s error = some r ∧ r.text = s ∧
        r.error.isSuccess = true) ∧
    ∀ (t : List UInt8) (destCapacity' : Int), none ∉ decode t →
      (reference t (-1)).units.length ≤ destCapacity → t.length ≤ destCapacity' →
      destCapacity' < 2 ^ 31 →
      ∃ r, fromUTF8AndBack destCapacity destCapacity' t error = some r ∧ r.text = t ∧
        r.error.isSuccess = true := by
  refine ⟨counted_eq_iff hsuccess h0 hcapacity hnull hsub,
    fun hnul => terminated_eq_iff hnul hsuccess h0 hcapacity hnull hsub, ?_,
    fun destCapacity' hs hfits => toUTF8AndBack_eq hs hsuccess hfits hcapacity,
    fun t destCapacity' ht hfits => fromUTF8AndBack_eq ht hsuccess hfits hcapacity⟩
  obtain ⟨n, hn, hle⟩ := fitting_whole destCapacity.toNat (encodingReference s subchar).characters
  exact ⟨n, hn, by omega⟩

/-- `a`, an unpaired surrogate and U+20AC, with a capacity that ends in the last character. -/
theorem uStrToUTF8WithSub_unpaired :
    uStrToUTF8WithSub false 5 (some [0x61, 0xd800, 0x20ac]) 3 0xfffd .zeroError =
      some ⟨[0x61, 0xef, 0xbf, 0xbd], some 7, some 1, .bufferOverflowError⟩ := by
  have h := (@uStrToUTF8WithSub_eq_reference_iff [0x61, 0xd800, 0x20ac] 0xfffd false 5 .zeroError
    (.inr (by decide)) (by decide) (by decide) (fun h => nomatch h) rfl).1.mpr
    (.inr (by decide))
  exact h.trans (by decide)

theorem counted_destLength {cs : List Nat} (h : ∀ c ∈ cs, IsScalar c) :
    ∃ r, uStrToUTF8WithSub true 0 (some (utf16 cs)) (utf16 cs).length (-1) .zeroError = some r ∧
      r.destLength = some (int32 (cs.flatMap appendUTF8).length) := by
  obtain ⟨r, hr, hcomplete⟩ := @Encoding.countedLoops_complete (utf16 cs) (-1) 0 (.inl (by decide))
  have hscalars := scalars_utf16 h
  rw [uStrToUTF8WithSub_finish rfl (Int.le_refl 0) (fun _ => rfl) (.inl (by decide)) (by omega),
    if_neg (by omega), Int.toNat_natCast, Int.toNat_zero, hr]
  refine ⟨_, rfl, ?_⟩
  cases r with
  | error st =>
    obtain ⟨codes, codes', rest, hread, -⟩ := hcomplete
    have hmem : none ∈ scalars (utf16 cs) := by
      rw [hread]
      simp
    rw [hscalars] at hmem
    simp at hmem
  | ok st =>
    obtain ⟨codes, codes', hholds, hend⟩ := hcomplete
    have hread := hholds.read
    rw [hend, List.drop_length, hscalars] at hread
    have hcodes : codes ++ codes' = cs.map some := (hread.trans (List.append_nil _)).symm
    rw [finishEncoding]
    dsimp only
    rw [hholds.length_eq, hcodes, bytes, characters, List.map_map]
    rfl

theorem utf16_replicate : ∀ n : Nat, utf16 (List.replicate n 0x800) = List.replicate n 0x800 ∧
    ((List.replicate n 0x800).flatMap appendUTF8).length = 3 * n
  | 0 => ⟨rfl, rfl⟩
  | n + 1 => by
    obtain ⟨hunits, hlength⟩ := utf16_replicate n
    rw [List.replicate_succ, List.replicate_succ, utf16_cons, hunits, List.flatMap_cons,
      List.length_append, hlength]
    refine ⟨rfl, ?_⟩
    change 3 + 3 * n = 3 * (n + 1)
    omega

theorem length_wraps {n : Nat} (hn : 2 ^ 31 ≤ 3 * n) :
    ∃ r, uStrToUTF8WithSub true 0 (some (List.replicate n 0x800)) n (-1) .zeroError = some r ∧
      r.destLength = some (int32 ((3 * n : Nat) : Int)) ∧
      (encodingReference (List.replicate n 0x800) (-1)).characters.flatten.length = 3 * n ∧
      some r ≠ some ((encodingReference (List.replicate n 0x800) (-1)).result 0 .zeroError) := by
  have hscalar : ∀ c ∈ List.replicate n 0x800, IsScalar c := by
    intro c hc
    rw [List.eq_of_mem_replicate hc]
    decide
  obtain ⟨hunits, hlength⟩ := utf16_replicate n
  obtain ⟨r, hr, hdestLength⟩ := counted_destLength hscalar
  have hreference := encodingReference_utf16 hscalar
  have hiff := @counted_eq_iff (utf16 (List.replicate n 0x800)) (-1) true 0 .zeroError rfl
    (by decide) (by decide) (fun _ => rfl) (.inl (by decide))
  have hflatten : (encodingReference (utf16 (List.replicate n 0x800))
    (-1)).characters.flatten.length =
      3 * n := by
    rw [hreference, ← hlength]
    rfl
  rw [hr, hflatten, hreference] at hiff
  rw [hunits, List.length_replicate] at hr
  rw [hunits] at hflatten hreference
  refine ⟨r, hr, by rw [hdestLength, hlength], hflatten, ?_⟩
  rw [hreference]
  intro heq
  rcases hiff.mp heq with hinvalid | hlt
  · cases hinvalid
  · omega

/-- Too many of them overflow the length. -/
theorem length_overflow :
    ∃ r, uStrToUTF8WithSub true 0 (some (List.replicate 715827883 0x800)) 715827883
      (-1) .zeroError =
        some r ∧ r.destLength = some (-2147483647) ∧
      (encodingReference (List.replicate 715827883 0x800) (-1)).characters.flatten.length =
        2147483649 ∧
      some r ≠ some
        ((encodingReference (List.replicate 715827883 0x800) (-1)).result 0 .zeroError) := by
  obtain ⟨r, hr, hdestLength, hlength, hne⟩ := @length_wraps 715827883 (by decide)
  refine ⟨r, hr, ?_, hlength, hne⟩
  rw [hdestLength]
  decide

end Icu.StrTrans
