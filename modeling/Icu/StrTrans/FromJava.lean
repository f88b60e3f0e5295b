import Icu.StrTrans.FromUtf8
import Icu.StrTrans.JavaLoops

/-! # Conversion from Java modified UTF-8

`u_strFromJavaModifiedUTF8WithSub` yields the reference decoding if the loop without checks stays
in the string, and if no substitution of two units has to be counted.
-/

namespace Icu.StrTrans

open Lib Utf16 Utf8

variable {s : List UInt8} {destCapacity : Nat} {subchar : Int} {nul : Bool}

namespace Conversion

variable {sub : Option Nat} {st : Conversion} {codes : List (Option Nat)}

theorem javaHolds_start (s : List UInt8) (destCapacity : Nat) (sub : Option Nat) :
    JavaHolds s destCapacity sub ⟨0, [], 0, 0⟩ [] [] := by
  refine ⟨Nat.zero_le _, by simp, by simp, by simp [outputs], fun before hbefore hne => ?_,
    fun hne => absurd rfl hne, by simp [outputs, int32_zero], by simp [int32_zero]⟩
  exact absurd (List.prefix_nil.mp hbefore) hne

theorem loops_behind {fuel : Nat} (hend : st.pSrc = s.length + 1) :
    javaWriteLoop (memory s nul) destCapacity subchar s.length (fuel + 1) st = some (.ok st) ∧
      javaCountLoop (memory s nul) subchar s.length (fuel + 1) st = some (.ok st) := by
  constructor
  · rw [javaWriteLoop, if_neg (by omega)]
  · rw [javaCountLoop, if_neg (by omega)]

theorem javaLoops_result (h : st.JavaHolds s destCapacity (subOf subchar) codes []) :
    (roundsFit s nul (subOf subchar) destCapacity ((memory s nul).length + 1) st.pSrc
        st.dest.length = true →
      ∃ r, javaLoops (memory s nul) destCapacity subchar s.length st = some r ∧
        JavaComplete s destCapacity (subOf subchar) r) ∧
    (roundsFit s nul (subOf subchar) destCapacity ((memory s nul).length + 1) st.pSrc
        st.dest.length = false →
      Overruns s (subOf subchar) (javaLoops (memory s nul) destCapacity subchar s.length st)) := by
  have hmemory := @length_le_memory s nul
  obtain ⟨hfits, hover⟩ := @javaFastLoop_result s destCapacity subchar nul
    ((memory s nul).length + 1) st codes h (by omega)
  rw [javaLoops]
  refine ⟨fun hrounds => ?_, fun hrounds => ?_⟩
  · obtain ⟨r, hr, hpassed⟩ := hfits hrounds
    rw [hr]
    cases r with
    | error st' => exact ⟨.error st', rfl, hpassed⟩
    | ok st' =>
      obtain ⟨codes', h'⟩ := hpassed
      obtain ⟨r, hr, hended⟩ := @javaWriteLoop_ended s destCapacity subchar nul
        ((memory s nul).length + 1) st' codes' h' (by omega)
      simp only [andThen, Option.bind_eq_bind, Option.bind_some, hr]
      cases r with
      | error st'' => exact ⟨.error st'', rfl, hended⟩
      | ok st'' =>
        obtain ⟨codes'', h'', hend⟩ := hended
        exact javaCountLoop_complete _ h'' hend (by omega)
  · rcases hover hrounds with hr | ⟨st', hr, hbehind, hrest⟩
    · rw [hr]
      exact .inl rfl
    obtain ⟨hwrite, hcount⟩ := @loops_behind s destCapacity subchar nul st'
      (memory s nul).length hbehind
    rw [hr]
    simp only [andThen, Option.bind_eq_bind, Option.bind_some, hwrite, hcount]
    exact .inr ⟨st', rfl, hbehind, hrest⟩

def IsStart (st : Conversion) : Prop :=
  st.dest.length = st.pSrc ∧ st.reqLength = 0 ∧ st.numSubstitutions = 0

theorem javaStartLoop_eq (hnul : (0 : UInt8) ∉ s) : ∀ (fuel : Nat) {st : Conversion}
    {codes : List (Option Nat)}, st.JavaHolds s destCapacity sub codes [] → st.IsStart →
      s.length - st.pSrc < fuel →
      ∃ ch st' codes', javaStartLoop (memory s true) destCapacity fuel st = some (ch, st') ∧
        st'.JavaHolds s destCapacity sub codes' [] ∧ st'.IsStart ∧
        st'.pSrc = min destCapacity (st.pSrc + asciiLength s st.pSrc) ∧
        (ch = 0 ↔ st'.pSrc = s.length)
  | 0, _, _, _, _, hfuel => by omega
  | fuel + 1, st, codes, h, hstart, hfuel => by
    have hle := h.le
    have hfits := h.length_le
    rw [hstart.1] at hfits
    rw [javaStartLoop]
    by_cases hp : st.pSrc < s.length
    · obtain ⟨b, hb, -⟩ := byteAt_eq_some hp
      have hb0 : b ≠ 0 := by
        rintro rfl
        rw [byteAt, List.getElem?_eq_getElem hp, Option.map_some, Option.some.injEq] at hb
        have hzero : s[st.pSrc] = 0 := UInt8.toNat_inj.mp hb
        exact hnul (hzero ▸ List.getElem_mem hp)
      rw [byteAt_memory hp, hb, asciiLength_eq hb]
      simp only [Option.bind_eq_bind, Option.bind_some]
      by_cases hcond : b ≠ 0 ∧ b ≤ 0x7f ∧ st.dest.length < destCapacity
      · obtain ⟨-, hb80, hroom⟩ := hcond
        obtain ⟨st1, codes1, hput, h1, hend, hlength⟩ := put_ascii h hb hb80 hroom
        have hstart1 : st1.IsStart := by
          refine ⟨by rw [hend, hlength, hstart.1], ?_⟩
          rw [put, if_pos hroom, Option.some.injEq] at hput
          rw [← hput]
          exact hstart.2
        obtain ⟨ch, st', codes', hr, h', hstart', hend', hch⟩ :=
          javaStartLoop_eq hnul fuel h1 hstart1 (by omega)
        rw [if_pos ⟨hb0, hb80, hroom⟩, hput]
        refine ⟨ch, st', codes', hr, h', hstart', ?_, hch⟩
        rw [hend', hend, if_pos hb80]
        omega
      · rw [if_neg hcond]
        refine ⟨b, st, codes, rfl, h, hstart, ?_, by omega⟩
        rw [hstart.1] at hcond
        split <;> omega
    · have hend : st.pSrc = s.length := by omega
      rw [hend, byteAt_memory_end, asciiLength_nil (Nat.le_refl _)]
      simp only [if_true, Option.bind_eq_bind, Option.bind_some]
      rw [if_neg (by simp)]
      exact ⟨0, st, codes, rfl, h, hstart, by omega, by omega⟩

end Conversion

theorem strlen_memory (hnul : (0 : UInt8) ∉ s) {p : Nat} (hp : p ≤ s.length) :
    strlen (memory s true) p = some (s.length - p) := by
  have hdrop : (memory s true).drop p = s.drop p ++ [0] := List.drop_append_of_le_length hp
  have hindex : ((memory s true).drop p).findIdx (· == 0) = s.length - p := by
    rw [hdrop, List.findIdx_append, List.findIdx_eq_length_of_false, if_neg (by simp)]
    · simp
    intro u hu
    rw [beq_eq_false_iff_ne]
    rintro rfl
    exact hnul (List.mem_of_mem_drop hu)
  rw [strlen, hindex, length_memory, if_pos (by simp; omega)]

section

variable {p : Nat} {codes : List (Option Nat)}

theorem javaCodes_bmp :
    ∀ (n p : Nat), s.length - p = n → ∀ v, some v ∈ javaCodes s p → v ≤ 0xffff := by
  intro n
  induction n using Nat.strongRecOn with
  | ind n ih =>
    intro p hn v hv
    by_cases hp : p < s.length
    · obtain ⟨b, hb, -⟩ := byteAt_eq_some hp
      have hlt := (isUnit_unitEnd hp).lt
      rw [javaCodes_cons hp] at hv
      rcases List.mem_cons.mp hv with hcode | hrest
      · exact (@Conversion.javaCode_le s ⟨p, [], 0, 0⟩ b v hb hcode.symm).1
      · exact ih (s.length - unitEnd s p) (by omega) _ rfl v hrest
    · rw [javaCodes_nil (by omega)] at hv
      cases hv

theorem length_javaCodes_le : ∀ (n p : Nat), s.length - p = n → (javaCodes s p).length ≤ n := by
  intro n
  induction n using Nat.strongRecOn with
  | ind n ih =>
    intro p hn
    by_cases hp : p < s.length
    · have hlt := (isUnit_unitEnd hp).lt
      have hrest := ih (s.length - unitEnd s p) (by omega) _ rfl
      rw [javaCodes_cons hp, List.length_cons]
      omega
    · rw [javaCodes_nil (by omega)]
      exact Nat.zero_le _

theorem length_outputs : ∀ {codes : List (Option Nat)}, (∀ v, some v ∈ codes → v ≤ 0xffff) →
    (∀ code ∈ codes, (code.or (subOf subchar)).isSome = true) →
    (outputs (subOf subchar) codes).length =
      codes.length + if subchar > 0xffff then codes.countP (·.isNone) else 0
  | [], _, _ => by simp [outputs]
  | code :: codes, hbmp, hsome => by
    have hrest := @length_outputs codes (fun v hv => hbmp v (List.mem_cons_of_mem _ hv))
      (fun c hc => hsome c (List.mem_cons_of_mem _ hc))
    have hcode := hsome code List.mem_cons_self
    rw [outputs] at hrest ⊢
    rw [List.flatMap_cons, List.length_append, List.length_cons, hrest, List.countP_cons]
    cases code with
    | some v =>
      have hv := hbmp v List.mem_cons_self
      rw [Option.some_or, Option.getD_some, unitsOf_bmp hv, List.length_singleton]
      simp only [Option.isNone_some, Bool.false_eq_true, if_false, Nat.add_zero]
      omega
    | none =>
      have hneg : ¬ subchar < 0 := by
        intro hneg
        rw [subOf, if_pos hneg] at hcode
        cases hcode
      rw [Option.none_or, subOf, if_neg hneg, Option.getD_some, length_unitsOf, u16Length]
      simp only [Option.isNone_none, if_true]
      split_ifs <;> omega

end

def SubstitutionsFit (s : List UInt8) (subchar : Int) (destCapacity : Nat) : Prop :=
  subchar ≤ 0xffff ∨ ∀ before after, javaCodes s 0 = before ++ none :: after →
    (outputs (subOf subchar) before).length < destCapacity

theorem Conversion.JavaHolds.substitutionsFit_iff {st : Conversion}
    {codes codes' : List (Option Nat)}
    (h : st.JavaHolds s destCapacity (subOf subchar) codes codes') (hend : st.pSrc = s.length) :
    SubstitutionsFit s subchar destCapacity ↔ subchar ≤ 0xffff ∨ codes'.countP (·.isNone) = 0 := by
  have hread := h.read
  rw [hend, javaCodes_nil (Nat.le_refl _), List.append_nil] at hread
  apply or_congr_right
  constructor
  · intro hfits
    rw [List.countP_eq_zero]
    intro code hcode hnone
    obtain rfl := Option.isNone_iff_eq_none.mp hnone
    obtain ⟨l, l', hsplit⟩ := List.append_of_mem hcode
    have hlt := hfits (codes ++ l) l' (by rw [hread, hsplit, List.append_assoc])
    have hfull := h.full (List.ne_nil_of_mem hcode)
    have hlength := congrArg List.length h.dest
    rw [List.length_take] at hlength
    rw [outputs_append, List.length_append] at hlt
    omega
  intro hcount before after hsplit
  rw [hread, List.append_eq_append_iff] at hsplit
  rcases hsplit with ⟨l, hbefore, hcodes'⟩ | ⟨l, hcodes, hafter⟩
  · rw [List.countP_eq_zero] at hcount
    exact absurd rfl (hcount none (by rw [hcodes']; simp))
  cases l with
  | nil =>
    rw [List.nil_append] at hafter
    rw [List.countP_eq_zero] at hcount
    exact absurd rfl (hcount none (by rw [← hafter]; simp))
  | cons code l =>
    apply h.started before
    · rw [hcodes]
      exact List.prefix_append _ _
    intro heq
    have := congrArg List.length hcodes
    rw [heq, List.length_append, List.length_cons] at this
    omega

/-- What the loops have found is the reference decoding, if all substitutions were counted, and its
length is an `int32_t`. -/
theorem finish_java_iff {r : Except Conversion Conversion} {destCapacity : Int} {error : UErrorCode}
    (hsuccess : error.isSuccess = true) (hs : s.length < 2 ^ 31) (h0 : 0 ≤ destCapacity)
    (hcapacity : destCapacity < 2 ^ 31)
    (h : Conversion.JavaComplete s destCapacity.toNat (subOf subchar) r) :
    finish destCapacity error r = (javaReference s subchar).result destCapacity error ↔
      SubstitutionsFit s subchar destCapacity.toNat ∧ ((javaReference s subchar).invalid = true ∨
        (javaReference s subchar).units.length < 2 ^ 31) := by
  rw [javaReference]
  cases r with
  | error st =>
    obtain ⟨codes, rest, hread, hsub, hconvertible, hdest⟩ := h
    have hneg : subchar < 0 := by
      by_contra hneg
      rw [subOf, if_neg hneg] at hsub
      cases hsub
    obtain ⟨hunits, hinvalid⟩ := @referenceOf_invalid (subOf subchar) codes rest none hconvertible
      (by rw [hsub]; rfl)
    rw [← hread] at hunits hinvalid
    refine ⟨fun _ => ⟨.inl (by omega), .inl hinvalid⟩, fun _ => ?_⟩
    rw [Reference.result, if_pos hinvalid, hunits, finish, hdest]
  | ok st =>
    obtain ⟨codes, codes', hholds, hend⟩ := h
    have hread := hholds.read
    rw [hend, javaCodes_nil (Nat.le_refl _), List.append_nil] at hread
    have hbmp : ∀ v, some v ∈ codes' → v ≤ 0xffff := fun v hv =>
      javaCodes_bmp s.length 0 rfl v (by rw [hread]; exact List.mem_append_right _ hv)
    have hlength := length_javaCodes_le s.length 0 rfl
    have houtputs := length_outputs_le (subOf subchar) (codes ++ codes')
    have hcounted := length_outputs hbmp
      (fun code hcode => hholds.convertible code (List.mem_append_right _ hcode))
    have hcount : codes'.countP (·.isNone) ≤ codes'.length := List.countP_le_length
    have htotal : (outputs (subOf subchar) (codes ++ codes')).length =
        (outputs (subOf subchar) codes).length + (outputs (subOf subchar) codes').length := by
      rw [outputs_append, List.length_append]
    have hreported : int32 (st.reqLength + st.dest.length) =
        int32 ((outputs (subOf subchar) codes).length + codes'.length : Nat) := by
      rw [hholds.reqLength, int32_add_left]
      congr 1
      push_cast
      omega
    have hsubstitutions : (codes ++ codes').countP (·.isNone) ≤ (codes ++ codes').length :=
      List.countP_le_length
    rw [hread] at hlength
    rw [hholds.substitutionsFit_iff hend, hread, referenceOf_valid hholds.convertible,
      Reference.result]
    simp only [Bool.false_eq_true, if_false, false_or, finish]
    constructor
    · -- a length that is reported is an `int32_t`
      intro hresult
      have hle : (outputs (subOf subchar) codes).length + codes'.length ≤
          (outputs (subOf subchar) (codes ++ codes')).length := by omega
      have hsame := congrArg Result.destLength hresult
      rw [Option.some.injEq, hreported] at hsame
      have hsmall := lt_of_int32_eq hsame
      rw [int32_of_lt (Nat.lt_of_le_of_lt hle hsmall)] at hsame
      refine ⟨?_, hsmall⟩
      by_contra hnot
      rw [not_or] at hnot
      rw [if_pos (by omega)] at hcounted
      omega
    rintro ⟨hfits, hsmall⟩
    have hsame : (outputs (subOf subchar) codes).length + codes'.length =
        (outputs (subOf subchar) (codes ++ codes')).length := by
      rw [htotal, hcounted]
      rcases hfits with hsmall | hzero
      · rw [if_neg (by omega), Nat.add_zero]
      rw [hzero]
      split <;> rfl
    have hdest : st.dest =
        (outputs (subOf subchar) (codes ++ codes')).take destCapacity.toNat := by
      by_cases hnil : codes' = []
      · rw [hholds.dest, hnil, List.append_nil]
      have hfull := hholds.full hnil
      have hlen := congrArg List.length hholds.dest
      rw [List.length_take] at hlen
      rw [outputs_append, List.take_append_of_le_length (by omega), ← hholds.dest]
    rw [hreported, hsame, hdest, uTerminateUChars_eq hsuccess (by omega) h0 hcapacity,
      hholds.numSubstitutions, int32_of_lt hsmall,
      @int32_of_lt ((codes ++ codes').countP (·.isNone)) (by omega)]

/-- A conversion that has left the string is not the reference decoding. -/
theorem finish_overruns {r : Option (Except Conversion Conversion)} {destCapacity : Int}
    {error : UErrorCode} (h : Conversion.Overruns s (subOf subchar) r) :
    r.map (finish destCapacity error) ≠
      some ((javaReference s subchar).result destCapacity error) := by
  rcases h with rfl | ⟨st, rfl, -, hreq, hconvertible, hlength⟩
  · exact fun hcon => nomatch hcon
  intro hcon
  rw [Option.map_some, Option.some.injEq, javaReference, referenceOf_valid hconvertible,
    Reference.result] at hcon
  have hsame := congrArg Result.destLength hcon
  simp only [Bool.false_eq_true, if_false, finish, hreq, hlength, Int.zero_add] at hsame
  rw [Option.some.injEq, Nat.cast_succ] at hsame
  exact int32_succ_ne _ hsame

/-- The rounds stay in the string, the substitutions fit, and the length is an `int32_t`. -/
def JavaMeets (s : List UInt8) (nul : Bool) (subchar : Int) (destCapacity start : Nat) : Prop :=
  roundsFit s nul (subOf subchar) destCapacity ((memory s nul).length + 1) start start = true ∧
    SubstitutionsFit s subchar destCapacity ∧
    ((javaReference s subchar).invalid = true ∨ (javaReference s subchar).units.length < 2 ^ 31)

theorem finish_loops_iff {st : Conversion} {codes : List (Option Nat)} {destCapacity : Int}
    {error : UErrorCode} (h : st.JavaHolds s destCapacity.toNat (subOf subchar) codes [])
    (hstart : st.dest.length = st.pSrc) (hsuccess : error.isSuccess = true)
    (hs : s.length < 2 ^ 31) (h0 : 0 ≤ destCapacity) (hcapacity : destCapacity < 2 ^ 31) :
    (Conversion.javaLoops (memory s nul) destCapacity.toNat subchar s.length st).map
        (finish destCapacity error) = some ((javaReference s subchar).result destCapacity error) ↔
      JavaMeets s nul subchar destCapacity.toNat st.pSrc := by
  obtain ⟨hfits, hover⟩ := @Conversion.javaLoops_result s destCapacity.toNat subchar nul st codes h
  rw [hstart] at hfits hover
  rw [JavaMeets]
  cases hrounds : roundsFit s nul (subOf subchar) destCapacity.toNat ((memory s nul).length + 1)
      st.pSrc st.pSrc with
  | true =>
    obtain ⟨r, hr, hcomplete⟩ := hfits hrounds
    rw [hr, Option.map_some, Option.some.injEq,
      finish_java_iff hsuccess hs h0 hcapacity hcomplete]
    simp
  | false => simp [finish_overruns (hover hrounds)]

/-! ## The function -/

section

variable {destIsNull : Bool} {destCapacity : Int} {error : UErrorCode} {srcLength : Int}
  {src : List UInt8}

theorem javaConvert_eq {st : Conversion} : javaConvert src subchar destCapacity srcLength error st =
      (Conversion.javaLoops src destCapacity.toNat subchar (st.pSrc + srcLength).toNat st).map
        (finish destCapacity error) := by
  rw [javaConvert]
  generalize Conversion.javaLoops src destCapacity.toNat subchar (st.pSrc + srcLength).toNat st =
    loops
  cases loops with
  | none => rfl
  | some r => cases r <;> rfl

theorem legal_java (h0 : 0 ≤ destCapacity)
    (hnull : destIsNull = true → destCapacity = 0) (hsub : subchar < 0 ∨ IsScalar subchar.toNat)
    (hlength : -1 ≤ srcLength) : ¬ ((some src = none ∧ srcLength ≠ 0) ∨ srcLength < -1 ∨
      (destIsNull = true ∧ destCapacity ≠ 0) ∨ destCapacity < 0 ∨ subchar > 0x10ffff ∨
      (0 ≤ subchar ∧ uIsSurrogate subchar.toNat = true)) := by
  have hlegal := @legal_arguments subchar UInt8 src destIsNull destCapacity srcLength h0 hnull hsub
    hlength
  rintro (h | h | ⟨h, h'⟩ | h | h)
  · exact hlegal (.inl h)
  · exact hlegal (.inr (.inl h))
  · exact h' (hnull h)
  · omega
  · exact hlegal (.inr (.inr (.inr (.inr h))))

theorem counted_java_iff (hsuccess : error.isSuccess = true) (h0 : 0 ≤ destCapacity)
    (hnull : destIsNull = true → destCapacity = 0) (hsub : subchar < 0 ∨ IsScalar subchar.toNat)
    (hs : s.length < 2 ^ 31) (hcapacity : destCapacity < 2 ^ 31) :
    uStrFromJavaModifiedUTF8WithSub destIsNull destCapacity (some s) s.length subchar error =
        some ((javaReference s subchar).result destCapacity error) ↔
      JavaMeets s false subchar destCapacity.toNat 0 := by
  have hmemory : memory s false = s := List.append_nil s
  have hstart := Conversion.javaHolds_start s destCapacity.toNat (subOf subchar)
  have hiff := @finish_loops_iff s subchar false _ [] destCapacity error hstart rfl hsuccess hs h0
    hcapacity
  rw [hmemory] at hiff
  rw [uStrFromJavaModifiedUTF8WithSub, if_neg (by simp [hsuccess]),
    if_neg (legal_java h0 hnull hsub (by omega)), if_neg (by omega), javaConvert_eq,
      Option.getD_some,
    Int.natCast_zero, Int.zero_add, Int.toNat_natCast]
  exact hiff

theorem terminated_java_iff (hnul : (0 : UInt8) ∉ s) (hsuccess : error.isSuccess = true)
    (h0 : 0 ≤ destCapacity) (hnull : destIsNull = true → destCapacity = 0)
    (hsub : subchar < 0 ∨ IsScalar subchar.toNat) (hs : s.length < 2 ^ 31)
    (hcapacity : destCapacity < 2 ^ 31) :
    uStrFromJavaModifiedUTF8WithSub destIsNull destCapacity (some (s ++ [0])) (-1) subchar error =
        some ((javaReference s subchar).result destCapacity error) ↔
      JavaMeets s true subchar destCapacity.toNat (min destCapacity.toNat (asciiLength s 0)) := by
  have hmemory : memory s true = s ++ [0] := rfl
  obtain ⟨ch, st, codes, hr, h, hstart, hend, hch⟩ := @Conversion.javaStartLoop_eq s
    destCapacity.toNat (subOf subchar) hnul ((memory s true).length + 1) ⟨0, [], 0, 0⟩ []
    (Conversion.javaHolds_start s destCapacity.toNat (subOf subchar)) ⟨rfl, rfl, rfl⟩
    (by rw [length_memory]; omega)
  rw [Nat.zero_add] at hend
  have hiff := @finish_loops_iff s subchar true st codes destCapacity error h hstart.1 hsuccess hs
    h0
    hcapacity
  rw [hend] at hiff
  rw [← hmemory, uStrFromJavaModifiedUTF8WithSub, if_neg (by simp [hsuccess]),
    if_neg (legal_java h0 hnull hsub (by omega)), if_pos (by omega), Option.getD_some, hr]
  simp only [Option.bind_eq_bind, Option.bind_some]
  by_cases hzero : ch = 0
  · -- the string is ASCII, and was converted already
    have hdone : st.pSrc = s.length := hch.mp hzero
    have hfinish : finish destCapacity error (.ok st) =
        ⟨(uTerminateUChars st.dest destCapacity (int32 st.dest.length) error).1,
          some (int32 st.dest.length), some 0,
          (uTerminateUChars st.dest destCapacity (int32 st.dest.length) error).2⟩ := by
      rw [finish, hstart.2.1, hstart.2.2, Int.zero_add]
    have hcomplete : Conversion.JavaComplete s destCapacity.toNat (subOf subchar) (.ok st) :=
      ⟨codes, [], h, hdone⟩
    rw [if_pos hzero, ← hfinish, Option.pure_def, Option.some.injEq,
      finish_java_iff hsuccess hs h0 hcapacity hcomplete, JavaMeets, ← hend, hdone]
    refine (and_iff_right ?_).symm
    rw [roundsFit, if_pos]
    omega
  · have hle := h.le
    rw [if_neg hzero, strlen_memory hnul hle, Option.bind_some, javaConvert_eq,
      int32_of_lt (by omega), show ((st.pSrc : Int) + (s.length - st.pSrc : Nat)).toNat =
        s.length by omega]
    exact hiff

/-- The conversion is the reference decoding, for this capacity, exactly if no round of the loop
without checks leaves the string, no substitution of two units begins behind the destination, and
the decoding has no more units than an `int32_t` can count.
The rounds stay in a string without bytes from 0xf0 on, and without a substitution character. -/
theorem uStrFromJavaModifiedUTF8WithSub_eq_reference_iff (hs : s.length < 2 ^ 31)
    (hsub : subchar < 0 ∨ IsScalar subchar.toNat) (h0 : 0 ≤ destCapacity)
    (hcapacity : destCapacity < 2 ^ 31) (hnull : destIsNull = true → destCapacity = 0)
    (hsuccess : error.isSuccess = true) :
    (uStrFromJavaModifiedUTF8WithSub destIsNull destCapacity (some s) s.length subchar error =
        some ((javaReference s subchar).result destCapacity error) ↔
      JavaMeets s false subchar destCapacity.toNat 0) ∧
    ((0 : UInt8) ∉ s →
      (uStrFromJavaModifiedUTF8WithSub destIsNull destCapacity (some (s ++ [0]))
        (-1) subchar error =
          some ((javaReference s subchar).result destCapacity error) ↔
        JavaMeets s true subchar destCapacity.toNat (min destCapacity.toNat (asciiLength s 0)))) ∧
    ((subchar < 0 ∨ ∀ b ∈ s, b.toNat < 0xf0) → ∀ nul fuel p written,
      roundsFit s nul (subOf subchar) destCapacity.toNat fuel p written = true) := by
  refine ⟨counted_java_iff hsuccess h0 hnull hsub hs hcapacity,
    fun hnul => terminated_java_iff hnul hsuccess h0 hnull hsub hs hcapacity,
    fun hshort nul fuel p written => ?_⟩
  apply Conversion.roundsFit_of_short
  rcases hshort with hneg | hbytes
  · rw [subOf, if_pos hneg]
    exact Conversion.short_of_none
  intro p hp _
  obtain ⟨b, hb, -⟩ := byteAt_eq_some hp
  apply (Conversion.unit_le (isUnit_unitEnd hp) hb).2
  rw [byteAt, List.getElem?_eq_getElem hp, Option.map_some, Option.some.injEq] at hb
  rw [← hb]
  exact hbytes _ (List.getElem_mem hp)

/-- U+0000 in two bytes, an ill-formed sequence and a surrogate. -/
theorem uStrFromJavaModifiedUTF8WithSub_surrogate :
    uStrFromJavaModifiedUTF8WithSub false 2 (some [0xc0, 0x80, 0xe4, 0xb8, 0xed, 0xa0, 0x80]) 7
      0xfffd
        .zeroError =
      some ⟨[0, 0xfffd], some 3, some 1, .bufferOverflowError⟩ := by
  have h := (@uStrFromJavaModifiedUTF8WithSub_eq_reference_iff
    [0xc0, 0x80, 0xe4, 0xb8, 0xed, 0xa0, 0x80] 0xfffd false 2 .zeroError (by decide)
    (.inr (by decide)) (by decide) (by decide) (fun h => nomatch h) rfl).1.mpr
    ⟨by decide, .inl (by decide), .inr (by decide +kernel)⟩
  exact h.trans (by decide +kernel)

/-- The required length of an ill-formed byte with a supplementary substitution character depends
on the capacity, and two sequences of six and three bytes make the loop without checks read
behind nine bytes. -/
theorem java_depends_on_capacity :
    uStrFromJavaModifiedUTF8WithSub true 0 (some [0xff]) 1 0x10000 .zeroError =
        some ⟨[], some 1, some 1, .bufferOverflowError⟩ ∧
      uStrFromJavaModifiedUTF8WithSub false 2 (some [0xff]) 1 0x10000 .zeroError =
        some ⟨[0xd800, 0xdc00], some 2, some 1, .stringNotTerminatedWarning⟩ ∧
      uStrFromJavaModifiedUTF8WithSub false 5
        (some [0xfc, 0x80, 0x80, 0x80, 0x80, 0x80, 0xfc, 0x80, 0x80]) 9 0xfffd .zeroError =
        none := by
  decide +kernel

end

end Icu.StrTrans
