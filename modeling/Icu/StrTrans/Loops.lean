import Icu.StrTrans.Reference

/-! # The loops of `u_strFromUTF8WithSub`

Every loop keeps the same relation between what it has read and what it has written or counted,
so it does not matter which of them converts a unit.
-/

namespace Icu.StrTrans

open Lib Utf16 Utf8

namespace Conversion

variable (s : List UInt8) (destCapacity : Nat) (sub : Option Nat) {p c start : Nat}
  {code : Option Nat}

/-- The source was converted up to `pSrc`. -/
structure Holds (st : Conversion) (codes : List (Option Nat)) : Prop where
  decodes : Decodes s 0 st.pSrc codes
  convertible : ∀ code ∈ codes, (code.or sub).isSome = true
  dest : st.dest = (outputs sub codes).take destCapacity
  reqLength : st.reqLength = int32 ((outputs sub codes).length - st.dest.length)
  numSubstitutions : st.numSubstitutions = int32 (codes.countP (·.isNone))

/-- The source was converted up to an ill-formed unit for which there is no substitution. -/
def Fails (st : Conversion) : Prop :=
  ∃ p e codes, Decodes s 0 p codes ∧ (∀ code ∈ codes, (code.or sub).isSome = true) ∧
    st.dest = (outputs sub codes).take destCapacity ∧ IsUnit s p e ∧
    (codePoint s p e).or sub = none

variable {s destCapacity sub}

variable {st st' : Conversion} {codes : List (Option Nat)} {e v : Nat}

namespace Holds

variable (h : st.Holds s destCapacity sub codes)

include h

theorem outputs_eq (hroom : st.dest.length < destCapacity) : outputs sub codes = st.dest := by
  have hlength := congrArg List.length h.dest
  rw [List.length_take] at hlength
  rw [h.dest, List.take_of_length_le (by omega)]

theorem reqLength_eq (hroom : st.dest.length < destCapacity) : st.reqLength = 0 := by
  rw [h.reqLength, h.outputs_eq hroom, Int.sub_self]
  rfl

theorem length_le : st.dest.length ≤ destCapacity := by
  rw [h.dest, List.length_take]
  omega

theorem dest_full (hfull : destCapacity ≤ st.dest.length) (us : List UInt16) :
    st.dest = (outputs sub codes ++ us).take destCapacity := by
  have hlength := congrArg List.length h.dest
  rw [List.length_take] at hlength
  rw [List.take_append_of_le_length (by omega), ← h.dest]

theorem next (hunit : IsUnit s st.pSrc e) (hcode : (codePoint s st.pSrc e).or sub = some v)
    (hp : st'.pSrc = e) (hdest : st'.dest = (outputs sub codes ++ unitsOf v).take destCapacity)
    (hreq : st'.reqLength =
      int32 (((outputs sub codes).length + (unitsOf v).length : Nat) - st'.dest.length))
    (hnum : st'.numSubstitutions = if codePoint s st.pSrc e = none then
      int32 (st.numSubstitutions + 1) else st.numSubstitutions) :
    st'.Holds s destCapacity sub (codes ++ [codePoint s st.pSrc e]) := by
  have hout : outputs sub (codes ++ [codePoint s st.pSrc e]) = outputs sub codes ++ unitsOf v := by
    rw [outputs_append, outputs, outputs, List.flatMap_singleton, hcode]
    rfl
  refine ⟨by rw [hp]; exact h.decodes.snoc hunit, fun code hmem => ?_, by rw [hout, hdest], ?_, ?_⟩
  · rcases List.mem_append.mp hmem with hmem | hmem
    · exact h.convertible code hmem
    rw [List.mem_singleton.mp hmem, hcode]
    rfl
  · rw [hout, List.length_append, hreq]
  · rw [hnum, h.numSubstitutions, List.countP_append]
    by_cases hnone : codePoint s st.pSrc e = none
    · rw [if_pos hnone, int32_add_left, hnone]
      rfl
    obtain ⟨c, hc⟩ := Option.ne_none_iff_exists'.mp hnone
    rw [if_neg hnone, hc]
    rfl

theorem fails (hunit : IsUnit s st.pSrc e) (hcode : (codePoint s st.pSrc e).or sub = none)
    (hdest : st'.dest = st.dest) : st'.Fails s destCapacity sub :=
  ⟨st.pSrc, e, codes, h.decodes, h.convertible, by rw [hdest, h.dest], hunit, hcode⟩

end Holds

/-! ## One code point -/

/-- What an iteration does with the unit up to `e`. A `break` is for a full destination. -/
def Converts (s : List UInt8) (destCapacity : Nat) (sub : Option Nat) (st : Conversion)
    (codes : List (Option Nat)) (e : Nat) (r : Option Step) : Prop :=
  (∃ st', r = some (.invalid st') ∧ st'.Fails s destCapacity sub) ∨
  ∃ st', st'.Holds s destCapacity sub (codes ++ [codePoint s st.pSrc e]) ∧ st'.pSrc = e ∧
    (r = some (.go st') ∨ r = some (.stop st') ∧ destCapacity ≤ st'.dest.length)

variable {subchar : Int}

/-- The value after a substitution, as the code point of the unit or the substitution. -/
theorem substitute_eq {p : Nat} (st : Conversion) :
    (substitute subchar (unitValue (-1) s p e) st).2 = { st with
      numSubstitutions := if codePoint s p e = none then int32 (st.numSubstitutions + 1)
        else st.numSubstitutions } ∧
    (((codePoint s p e).or (subOf subchar) = none ∧
        (substitute subchar (unitValue (-1) s p e) st).1 < 0) ∨
      ∃ v : Nat, (codePoint s p e).or (subOf subchar) = some v ∧
        (substitute subchar (unitValue (-1) s p e) st).1 = v) := by
  cases hcode : codePoint s p e with
  | none =>
    have hvalue : unitValue (-1) s p e = -1 := by
      rw [unitValue, hcode]
      rfl
    rw [hvalue, substitute, if_pos (by decide)]
    refine ⟨by simp, ?_⟩
    rw [subOf]
    by_cases hsub : subchar < 0
    · rw [if_pos hsub]
      exact .inl ⟨rfl, hsub⟩
    · rw [if_neg hsub]
      exact .inr ⟨subchar.toNat, rfl, by simp only; omega⟩
  | some c =>
    have hvalue : unitValue (-1) s p e = c := by
      rw [unitValue, hcode]
    rw [hvalue, substitute, if_neg (by omega)]
    exact ⟨by simp, .inr ⟨c, rfl, rfl⟩⟩

theorem putChar_converts {checked : Bool} (h : st.Holds s destCapacity (subOf subchar) codes)
    (hunit : IsUnit s st.pSrc e) (hroom : st.dest.length < destCapacity)
    (hpair : checked = false → st.dest.length + 2 ≤ destCapacity ∨
      ∀ v, (codePoint s st.pSrc e).or (subOf subchar) = some v → v ≤ 0xffff) :
    Converts s destCapacity (subOf subchar) st codes e
      (putChar destCapacity subchar checked (unitValue (-1) s st.pSrc e)
      { st with pSrc := e }) := by
  obtain ⟨hst, hvalue⟩ := @substitute_eq s e subchar st.pSrc { st with pSrc := e }
  have hout := h.outputs_eq hroom
  have hreq := h.reqLength_eq hroom
  rw [putChar]
  generalize substitute subchar (unitValue (-1) s st.pSrc e) { st with pSrc := e } = r at hst hvalue
  obtain ⟨ch, st1⟩ := r
  dsimp only at hst hvalue ⊢
  subst hst
  rcases hvalue with ⟨hnone, hneg⟩ | ⟨v, hcode, rfl⟩
  · rw [if_pos hneg]
    exact .inl ⟨_, rfl, h.fails hunit hnone rfl⟩
  rw [if_neg (by omega)]
  right
  by_cases hbmp : v ≤ 0xffff
  · rw [if_pos (by omega), put, if_pos hroom]
    refine ⟨_, h.next hunit hcode rfl ?_ ?_ rfl, rfl, .inl rfl⟩
    · rw [unitsOf_bmp hbmp, hout, List.take_of_length_le (by simp; omega)]
      rfl
    · rw [unitsOf_bmp hbmp, hout]
      simp [hreq, int32_zero]
  rw [if_neg (by omega), put, if_pos hroom]
  simp only [Option.bind_eq_bind, Option.bind_some, Int.toNat_natCast]
  by_cases hpair' : checked = false ∨ st.dest.length + 1 < destCapacity
  · have hroom2 : st.dest.length + 1 < destCapacity := by
      rcases hpair' with hchecked | hlt
      · rcases hpair hchecked with hle | hsmall
        · omega
        · exact absurd (hsmall v hcode) hbmp
      · exact hlt
    rw [if_pos (by simpa using hpair'), put, if_pos (by simpa using hroom2)]
    refine ⟨_, h.next hunit hcode rfl ?_ ?_ rfl, rfl, .inl rfl⟩
    · rw [unitsOf_supplementary (by omega), hout, List.take_of_length_le (by simp; omega)]
      simp
    · rw [unitsOf_supplementary (by omega), hout]
      simp [hreq, int32_zero]
  · rw [if_neg (by simpa using hpair')]
    have hfull : st.dest.length + 1 = destCapacity := by omega
    refine ⟨_, h.next hunit hcode rfl ?_ ?_ rfl, rfl, .inr ⟨rfl, ?_⟩⟩
    · rw [unitsOf_supplementary (by omega), hout, ← hfull]
      rw [show st.dest ++ [u16Lead v, u16Trail v] = (st.dest ++ [u16Lead v]) ++ [u16Trail v] by
        simp, List.take_left' (by simp)]
    · rw [unitsOf_supplementary (by omega), hout]
      simp [hreq]
    · simp
      omega

theorem countChar_converts (h : st.Holds s destCapacity (subOf subchar) codes)
    (hunit : IsUnit s st.pSrc e) (hfull : destCapacity ≤ st.dest.length) :
    Converts s destCapacity (subOf subchar) st codes e
      (some (countChar subchar (unitValue (-1) s st.pSrc e) { st with pSrc := e })) := by
  obtain ⟨hst, hvalue⟩ := @substitute_eq s e subchar st.pSrc { st with pSrc := e }
  rw [countChar]
  generalize substitute subchar (unitValue (-1) s st.pSrc e) { st with pSrc := e } = r at hst hvalue
  obtain ⟨ch, st1⟩ := r
  dsimp only at hst hvalue ⊢
  subst hst
  rcases hvalue with ⟨hnone, hneg⟩ | ⟨v, hcode, rfl⟩
  · rw [if_pos hneg]
    exact .inl ⟨_, rfl, h.fails hunit hnone rfl⟩
  rw [if_neg (by omega)]
  refine .inr ⟨_, ?_, rfl, .inl rfl⟩
  refine h.next hunit hcode rfl (h.dest_full hfull _) ?_ rfl
  rw [h.reqLength, int32_add_left, length_unitsOf]
  simp only [Int.toNat_natCast]
  congr 1
  omega

section Steps

variable {room : Nat → Nat → Bool} {body : Nat → Nat → Option (Int × Nat)} {b : Nat}

structure Reads (s : List UInt8) (room : Nat → Bool) (body : Nat → Nat → Option (Int × Nat))
    (p e b : Nat) : Prop where
  unit : IsUnit s p e
  byte : byteAt s p = some b
  inlined : Inlined s p e (inlineChar s room b p)
  body : ¬ b < 0x80 → body (p + 1) b = some (unitValue (-1) s p e, e)

theorem Reads.single {room : Nat → Bool} (h : Reads s room body p e b) (hb : b < 0x80) :
    e = p + 1 ∧ codePoint s p e = some b := by
  have hlt := h.unit.lt
  have hshort := h.unit.short b h.byte
  rw [u8CountTrailBytes_eq_zero (by omega)] at hshort
  exact ⟨by omega, codePoint_single h.byte hb⟩

theorem put_converts (h : st.Holds s destCapacity sub codes) (hunit : IsUnit s st.pSrc e)
    (hcode : codePoint s st.pSrc e = some v) (hv : v ≤ 0xffff)
    (hroom : st.dest.length < destCapacity) :
    ∃ st', put destCapacity (UInt16.ofNat v) { st with pSrc := e } = some st' ∧
      st'.Holds s destCapacity sub (codes ++ [codePoint s st.pSrc e]) ∧ st'.pSrc = e ∧
      st'.dest.length = st.dest.length + 1 := by
  have hout := h.outputs_eq hroom
  have hreq := h.reqLength_eq hroom
  rw [put, if_pos hroom]
  refine ⟨_, rfl, h.next hunit (by rw [hcode]; rfl) rfl ?_ ?_ ?_, rfl, by simp⟩
  · rw [unitsOf_bmp hv, hout, List.take_of_length_le (by simp; omega)]
  · rw [unitsOf_bmp hv, hout]
    simp [hreq, int32_zero]
  · rw [if_neg (by simp [hcode])]

theorem writeStep_converts (h : st.Holds s destCapacity (subOf subchar) codes)
    (hread : Reads s (room st.pSrc) body st.pSrc e b) (hroom : st.dest.length < destCapacity) :
    Converts s destCapacity (subOf subchar) st codes e
      (writeStep s destCapacity subchar room body b st) := by
  rw [writeStep]
  by_cases hb : b ≤ 0x7f
  · obtain ⟨he, hcode⟩ := hread.single (by omega)
    obtain ⟨st', hput, hholds, hp, -⟩ := put_converts h hread.unit hcode (by omega) hroom
    rw [if_pos hb, ← he, hput]
    exact .inr ⟨st', hholds, hp, .inl rfl⟩
  rw [if_neg hb]
  rcases hread.inlined with hnone | ⟨v, hcode, hv, hsome⟩
  · rw [hnone]
    simp only [Option.bind_eq_bind, Option.bind_some, hread.body (by omega)]
    exact putChar_converts h hread.unit hroom (fun hfalse => absurd hfalse (by decide))
  obtain ⟨st', hput, hholds, hp, -⟩ := put_converts h hread.unit hcode hv hroom
  rw [hsome]
  simp only [Option.bind_eq_bind, Option.bind_some, hput]
  exact .inr ⟨st', hholds, hp, .inl rfl⟩

theorem countStep_converts (h : st.Holds s destCapacity (subOf subchar) codes)
    (hread : Reads s (room st.pSrc) body st.pSrc e b) (hfull : destCapacity ≤ st.dest.length) :
    Converts s destCapacity (subOf subchar) st codes e
      (countStep s subchar room body b st) := by
  have hone : ∀ v, codePoint s st.pSrc e = some v → v ≤ 0xffff →
      Converts s destCapacity (subOf subchar) st codes e (some (.go
        { st with pSrc := e, reqLength := int32 (st.reqLength + 1) })) := by
    intro v hcode hv
    refine .inr ⟨_, ?_, rfl, .inl rfl⟩
    refine h.next hread.unit (by rw [hcode]; rfl) rfl (h.dest_full hfull _) ?_ ?_
    · rw [h.reqLength, int32_add_left, unitsOf_bmp hv]
      simp only [List.length_singleton]
      congr 1
      omega
    · rw [if_neg (by simp [hcode])]
  rw [countStep]
  by_cases hb : b ≤ 0x7f
  · obtain ⟨he, hcode⟩ := hread.single (by omega)
    rw [if_pos hb, ← he]
    exact hone b hcode (by omega)
  rw [if_neg hb]
  rcases hread.inlined with hnone | ⟨v, hcode, hv, hsome⟩
  · rw [hnone]
    simp only [Option.bind_eq_bind, Option.bind_some, hread.body (by omega)]
    exact countChar_converts h hread.unit hfull
  · rw [hsome]
    simp only [Option.bind_eq_bind, Option.bind_some]
    exact hone v hcode hv

theorem countStep_ne_stop : countStep s subchar room body b st ≠ some (.stop st') := by
  have hchar : ∀ ch st, countChar subchar ch st ≠ .stop st' := by
    intro ch st hcon
    rw [countChar] at hcon
    split at hcon
    split at hcon <;> cases hcon
  intro hcon
  rw [countStep] at hcon
  split at hcon
  · cases hcon
  obtain ⟨r, -, hr⟩ := Option.bind_eq_some_iff.mp hcon
  cases r with
  | some r => cases hr
  | none =>
    obtain ⟨⟨c, p⟩, -, hr⟩ := Option.bind_eq_some_iff.mp hr
    exact hchar _ _ (Option.some.inj hr)

theorem Holds.full_next (h : st.Holds s destCapacity sub codes)
    (h' : st'.Holds s destCapacity sub (codes ++ [code])) (hfull : destCapacity ≤ st.dest.length) :
    destCapacity ≤ st'.dest.length := by
  have hlength := congrArg List.length h.dest
  have hlength' := congrArg List.length h'.dest
  rw [outputs_append, List.length_take, List.length_append] at hlength'
  rw [List.length_take] at hlength
  omega

end Steps

/-! ## Loops over a NUL-terminated string -/

/-- How a loop ends, for a string that ends at `limit`. -/
def Ended (s : List UInt8) (destCapacity : Nat) (sub : Option Nat) (limit : Nat) :
    Except Conversion Conversion → Prop
  | .ok st => ∃ codes, st.Holds s destCapacity sub codes ∧ st.pSrc ≤ limit ∧
      (st.pSrc = limit ∨ destCapacity ≤ st.dest.length)
  | .error st => st.Fails s destCapacity sub

theorem reads_terminated (hnul : (0 : UInt8) ∉ s) (hp : p < s.length) :
    ∃ e b, b ≠ 0 ∧ e ≤ s.length ∧ Reads (s ++ [0]) (fun _ => true)
      (utf8NextCharSafeBodyTerminated (s ++ [0])) p e b := by
  have hunit := isUnit_unitEnd hp
  obtain ⟨b, hb, -⟩ := hunit.byteAt
  have hb' : byteAt (s ++ [0]) p = some b := by rw [byteAt_append_left hp, hb]
  have hlength : (s ++ [0]).length = s.length + 1 := by simp
  refine ⟨unitEnd s p, b, ?_, hunit.le, IsUnit_nul hunit, hb', ?_, fun hb80 => ?_⟩
  · rintro rfl
    rw [byteAt, List.getElem?_eq_getElem hp, Option.map_some, Option.some.injEq] at hb
    have hzero : s[p] = 0 := UInt8.toNat_inj.mp hb
    exact hnul (hzero ▸ List.getElem_mem hp)
  · apply inlineChar_eq (IsUnit_nul hunit) hb'
    · intro _ _
      omega
    intro _ _
    rcases Nat.eq_or_lt_of_le (Nat.succ_le_of_lt hp) with heq | hlt
    · right
      rw [show p + 1 = s.length from heq]
      exact ⟨by omega, not_trailAt_nul⟩
    · left
      omega
  · have := hunit.le
    exact utf8NextCharSafeBodyTerminated_eq (IsUnit_nul hunit) hb' hb80 (by omega)

theorem terminatedWriteLoop_ended (hnul : (0 : UInt8) ∉ s) : ∀ (fuel : Nat) {st : Conversion}
    {codes : List (Option Nat)}, st.Holds (s ++ [0]) destCapacity (subOf subchar) codes →
      st.pSrc ≤ s.length → s.length - st.pSrc < fuel →
      ∃ r, terminatedWriteLoop (s ++ [0]) destCapacity subchar fuel st = some r ∧
        Ended (s ++ [0]) destCapacity (subOf subchar) s.length r
  | 0, _, _, _, _, hfuel => by omega
  | fuel + 1, st, codes, h, hp, hfuel => by
    rw [terminatedWriteLoop]
    rcases Nat.eq_or_lt_of_le hp with heq | hlt
    · rw [heq, byteAt_nul]
      exact ⟨.ok st, by simp, codes, h, hp, .inl heq⟩
    obtain ⟨e, b, hb, he, hread⟩ := reads_terminated hnul hlt
    have hpe := hread.unit.lt
    rw [hread.byte]
    by_cases hroom : st.dest.length < destCapacity
    · simp only [Option.bind_eq_bind, Option.bind_some, if_pos (And.intro hb hroom)]
      have hstep : Converts (s ++ [0]) destCapacity (subOf subchar) st codes e
          (terminatedWriteStep (s ++ [0]) destCapacity subchar b st) :=
        writeStep_converts h hread hroom
      rcases hstep with ⟨st', hr, hfails⟩ | ⟨st', hholds, hp', hr | ⟨hr, hfull⟩⟩
      · rw [hr]
        exact ⟨.error st', rfl, hfails⟩
      · rw [hr]
        exact terminatedWriteLoop_ended hnul fuel hholds (by omega) (by omega)
      · rw [hr]
        exact ⟨.ok st', rfl, _, hholds, by omega, .inr hfull⟩
    · simp only [Option.bind_eq_bind, Option.bind_some, if_neg (fun h => hroom (And.right h))]
      exact ⟨.ok st, rfl, codes, h, hp, .inr (by omega)⟩

theorem terminatedCountLoop_ended (hnul : (0 : UInt8) ∉ s) : ∀ (fuel : Nat) {st : Conversion}
    {codes : List (Option Nat)}, st.Holds (s ++ [0]) destCapacity (subOf subchar) codes →
      st.pSrc ≤ s.length → (st.pSrc = s.length ∨ destCapacity ≤ st.dest.length) →
      s.length - st.pSrc < fuel →
      ∃ r, terminatedCountLoop (s ++ [0]) subchar fuel st = some r ∧
        Ended (s ++ [0]) destCapacity (subOf subchar) s.length r ∧
        ∀ st', r = .ok st' → st'.pSrc = s.length
  | 0, _, _, _, _, _, hfuel => by omega
  | fuel + 1, st, codes, h, hp, hfull, hfuel => by
    rw [terminatedCountLoop]
    rcases Nat.eq_or_lt_of_le hp with heq | hlt
    · rw [heq, byteAt_nul]
      refine ⟨.ok st, by simp, ⟨codes, h, hp, .inl heq⟩, ?_⟩
      rintro st' ⟨⟩
      exact heq
    obtain ⟨e, b, hb, he, hread⟩ := reads_terminated hnul hlt
    have hpe := hread.unit.lt
    have hfull := hfull.resolve_left (by omega)
    rw [hread.byte]
    simp only [Option.bind_eq_bind, Option.bind_some, if_pos hb]
    have hstep : Converts (s ++ [0]) destCapacity (subOf subchar) st codes e
        (terminatedCountStep (s ++ [0]) subchar b st) := countStep_converts h hread hfull
    rcases hstep with ⟨st', hr, hfails⟩ | ⟨st', hholds, hp', hr | ⟨hr, -⟩⟩
    · rw [hr]
      exact ⟨.error st', rfl, hfails, fun _ hcon => nomatch hcon⟩
    · rw [hr]
      have hfull' := h.full_next hholds hfull
      exact terminatedCountLoop_ended hnul fuel hholds (by omega) (.inr hfull') (by omega)
    · exact absurd hr countStep_ne_stop

theorem reads_counted (hp : p < s.length) : ∃ e b, Reads s (fun n => decide (s.length - p ≥ n))
      (fun ps c => utf8NextCharSafeBodyPointer s ps s.length c) p e b := by
  have hunit := isUnit_unitEnd hp
  obtain ⟨b, hb, -⟩ := hunit.byteAt
  refine ⟨unitEnd s p, b, hunit, hb, ?_, fun hb80 => utf8NextCharSafeBodyPointer_eq hunit hb hb80⟩
  apply inlineChar_eq hunit hb
  · intro _ hroom
    rw [decide_eq_true_eq] at hroom
    omega
  · intro _ hroom
    rw [decide_eq_true_eq] at hroom
    exact .inl (by omega)

theorem countedWriteLoop_ended : ∀ (fuel : Nat) {st : Conversion} {codes : List (Option Nat)},
    st.Holds s destCapacity (subOf subchar) codes → st.pSrc ≤ s.length →
      s.length - st.pSrc < fuel →
      ∃ r, countedWriteLoop s destCapacity subchar s.length fuel st = some r ∧
        Ended s destCapacity (subOf subchar) s.length r
  | 0, _, _, _, _, hfuel => by omega
  | fuel + 1, st, codes, h, hp, hfuel => by
    rw [countedWriteLoop]
    by_cases hcond : st.pSrc < s.length ∧ st.dest.length < destCapacity
    · obtain ⟨e, b, hread⟩ := reads_counted hcond.1
      have hpe := hread.unit.lt
      have hle := hread.unit.le
      have hstep : Converts s destCapacity (subOf subchar) st codes e
          (countedWriteStep s destCapacity subchar s.length b st) :=
        writeStep_converts h hread hcond.2
      rw [if_pos hcond, hread.byte]
      simp only [Option.bind_eq_bind, Option.bind_some]
      rcases hstep with ⟨st', hr, hfails⟩ | ⟨st', hholds, hp', hr | ⟨hr, hfull⟩⟩
      · rw [hr]
        exact ⟨.error st', rfl, hfails⟩
      · rw [hr]
        exact countedWriteLoop_ended fuel hholds (by omega) (by omega)
      · rw [hr]
        exact ⟨.ok st', rfl, _, hholds, by omega, .inr hfull⟩
    · rw [if_neg hcond]
      exact ⟨.ok st, rfl, codes, h, hp, by omega⟩

theorem countedCountLoop_ended : ∀ (fuel : Nat) {st : Conversion} {codes : List (Option Nat)},
    st.Holds s destCapacity (subOf subchar) codes → st.pSrc ≤ s.length →
      (st.pSrc = s.length ∨ destCapacity ≤ st.dest.length) → s.length - st.pSrc < fuel →
      ∃ r, countedCountLoop s subchar s.length fuel st = some r ∧
        Ended s destCapacity (subOf subchar) s.length r ∧
        ∀ st', r = .ok st' → st'.pSrc = s.length
  | 0, _, _, _, _, _, hfuel => by omega
  | fuel + 1, st, codes, h, hp, hfull, hfuel => by
    rw [countedCountLoop]
    by_cases hlt : st.pSrc < s.length
    · obtain ⟨e, b, hread⟩ := reads_counted hlt
      have hpe := hread.unit.lt
      have hle := hread.unit.le
      have hfull := hfull.resolve_left (by omega)
      have hstep : Converts s destCapacity (subOf subchar) st codes e
          (countedCountStep s subchar s.length b st) := countStep_converts h hread hfull
      rw [if_pos hlt, hread.byte]
      simp only [Option.bind_eq_bind, Option.bind_some]
      rcases hstep with ⟨st', hr, hfails⟩ | ⟨st', hholds, hp', hr | ⟨hr, -⟩⟩
      · rw [hr]
        exact ⟨.error st', rfl, hfails, fun _ hcon => nomatch hcon⟩
      · rw [hr]
        have hfull' := h.full_next hholds hfull
        exact countedCountLoop_ended fuel hholds (by omega) (.inr hfull') (by omega)
      · exact absurd hr countStep_ne_stop
    · have heq : st.pSrc = s.length := by omega
      rw [if_neg hlt]
      refine ⟨.ok st, rfl, ⟨codes, h, hp, .inl heq⟩, ?_⟩
      rintro st' ⟨⟩
      exact heq

/-! ## The loop without checks -/

theorem codePoint_le_of_lead {b : Nat} (h : IsUnit s p e) (hb : byteAt s p = some b)
    (hlead : b < 0xf0) (hcode : codePoint s p e = some c) : c ≤ 0xffff := by
  by_cases hb80 : b < 0x80
  · rw [codePoint_single hb hb80, Option.some.injEq] at hcode
    omega
  rw [codePoint_multi hb hb80] at hcode
  split at hcode
  · next hcond =>
    obtain ⟨h1, -, he, -⟩ := hcond
    have htrail : ∀ k, k < u8CountTrailBytes b → TrailAt s (p + 1 + k) :=
      fun k hk => h.trails _ (by omega) (by omega)
    have hcount : u8CountTrailBytes b ≤ 2 := by
      rw [u8CountTrailBytes, if_pos hlead]
      split <;> split <;> omega
    obtain ⟨hm1, hm2, -⟩ := u8MaskLeadByte_bounds b
    rw [Option.some.injEq] at hcode
    obtain hc | hc : u8CountTrailBytes b = 1 ∨ u8CountTrailBytes b = 2 := by omega
    · rw [hc] at hcode htrail
      have h0 : payload s (p + 1) < 64 := payload_lt (htrail 0 (by omega))
      simp only [assemble] at hcode
      omega
    rw [hc] at hcode htrail
    have h0 : payload s (p + 1) < 64 := payload_lt (htrail 0 (by omega))
    have h1 : payload s (p + 1 + 1) < 64 := payload_lt (htrail 1 (by omega))
    simp only [assemble] at hcode
    omega
  · cases hcode

theorem unit_le {b : Nat} (h : IsUnit s p e) (hb : byteAt s p = some b) :
    e ≤ p + 6 ∧ (b < 0xf0 → e ≤ p + 3) := by
  have hshort := h.short b hb
  have hcount := u8CountTrailBytes_le b
  refine ⟨by omega, fun hlead => ?_⟩
  rw [u8CountTrailBytes, if_pos hlead] at hshort
  split at hshort <;> split at hshort <;> omega

theorem unit_le_of_bmp {b : Nat} (h : IsUnit s p e) (hb : byteAt s p = some b)
    (hcode : codePoint s p e = some c) (hc : c ≤ 0xffff) : e ≤ p + 3 := by
  by_cases hlead : b < 0xf0
  · exact (unit_le h hb).2 hlead
  rw [codePoint_multi hb (by omega)] at hcode
  split at hcode
  · next hcond =>
    obtain ⟨h1, h3, he, hlegal⟩ := hcond
    rw [Option.some.injEq] at hcode
    rw [legal, decide_eq_true_eq, hcode] at hlegal
    obtain hc' | hc' | hc' : u8CountTrailBytes b = 1 ∨ u8CountTrailBytes b = 2 ∨
        u8CountTrailBytes b = 3 := by omega
    · omega
    · omega
    · have hmin : utf8MinLegal (u8CountTrailBytes b) = 0x10000 := by rw [hc']; rfl
      omega
  · cases hcode

theorem Holds.length_next (h : st.Holds s destCapacity sub codes)
    (h' : st'.Holds s destCapacity sub (codes ++ [code])) (hroom : st.dest.length < destCapacity) :
    st'.dest.length ≤ st.dest.length + 2 ∧
      ((code.or sub).getD 0 ≤ 0xffff → st'.dest.length ≤ st.dest.length + 1) := by
  have hlength := congrArg List.length h'.dest
  have hle := length_unitsOf_le ((code.or sub).getD 0)
  rw [outputs_append, h.outputs_eq hroom, outputs, List.flatMap_singleton, List.length_take,
    List.length_append] at hlength
  refine ⟨by omega, fun hbmp => ?_⟩
  rw [unitsOf_bmp hbmp, List.length_singleton] at hlength
  omega

def Passed (s : List UInt8) (destCapacity : Nat) (sub : Option Nat) (start : Nat) :
    Except Conversion Conversion → Prop
  | .ok st => ∃ codes, st.Holds s destCapacity sub codes ∧ st.pSrc ≤ s.length ∧ start ≤ st.pSrc
  | .error st => st.Fails s destCapacity sub

theorem Passed.mono {start' : Nat} {r : Except Conversion Conversion}
    (h : Passed s destCapacity sub start r) (hle : start' ≤ start) :
    Passed s destCapacity sub start' r := by
  cases r with
  | error st => exact h
  | ok st =>
    obtain ⟨codes, hholds, h1, h2⟩ := h
    exact ⟨codes, hholds, h1, Nat.le_trans hle h2⟩

theorem passed_of_converts {r : Option Step} {n : Nat}
    (h : Converts s destCapacity sub st codes e r) (he : e ≤ s.length) (hstart : start ≤ e)
    (hrest : ∀ st', st'.Holds s destCapacity sub (codes ++ [codePoint s st.pSrc e]) →
      st'.pSrc = e → ∃ r, fastInnerLoop s destCapacity subchar s.length n st' = some r ∧
        Passed s destCapacity sub st'.pSrc r) :
    ∃ r', (r.bind fun step => match step with
      | .go st => fastInnerLoop s destCapacity subchar s.length n st
      | .stop st => pure (.ok st)
      | .invalid st => pure (.error st)) = some r' ∧ Passed s destCapacity sub start r' := by
  rcases h with ⟨st', rfl, hfails⟩ | ⟨st', hholds, hp, rfl | ⟨rfl, -⟩⟩
  · exact ⟨.error st', rfl, hfails⟩
  · obtain ⟨r, hr, hpassed⟩ := hrest st' hholds hp
    exact ⟨r, hr, hpassed.mono (by omega)⟩
  · exact ⟨.ok st', rfl, _, hholds, by omega, by omega⟩

theorem reads_unchecked {p : Nat} (hp : p + 3 ≤ s.length) : ∃ e b, Reads s (fun _ => true)
      (fun ps c => utf8NextCharSafeBodyPointer s ps s.length c) p e b := by
  have hunit := isUnit_unitEnd (show p < s.length by omega)
  obtain ⟨b, hb, -⟩ := hunit.byteAt
  exact ⟨unitEnd s p, b, hunit, hb,
    inlineChar_eq hunit hb (fun _ _ => by omega) (fun _ _ => .inl hp),
    fun hb80 => utf8NextCharSafeBodyPointer_eq hunit hb hb80⟩

theorem fastInnerLoop_passed : ∀ (count : Nat) {st : Conversion} {codes : List (Option Nat)},
    st.Holds s destCapacity (subOf subchar) codes → st.pSrc + 3 * count ≤ s.length →
      st.dest.length + count ≤ destCapacity →
      ∃ r, fastInnerLoop s destCapacity subchar s.length count st = some r ∧
        Passed s destCapacity (subOf subchar) (if 2 ≤ count then st.pSrc + 1 else st.pSrc) r
  | 0, st, codes, h, hsrc, _ => ⟨.ok st, rfl, codes, h, by omega, le_refl _⟩
  | count + 1, st, codes, h, hsrc, hdest => by
    obtain ⟨e, b, hread⟩ := @reads_unchecked s st.pSrc (by omega)
    have hpe := hread.unit.lt
    have hle := hread.unit.le
    obtain ⟨he6, he3⟩ := unit_le hread.unit hread.byte
    have hroom : st.dest.length < destCapacity := by omega
    have hstart : (if 2 ≤ count + 1 then st.pSrc + 1 else st.pSrc) ≤ e := by split <;> omega
    -- one unit of the destination, and at most three bytes
    have hone : ∀ v, codePoint s st.pSrc e = some v → v ≤ 0xffff → e ≤ st.pSrc + 3 →
        ∃ r, ((put destCapacity (UInt16.ofNat v) { st with pSrc := e }).bind
          fun st => fastInnerLoop s destCapacity subchar s.length count st) = some r ∧
          Passed s destCapacity (subOf subchar)
            (if 2 ≤ count + 1 then st.pSrc + 1 else st.pSrc) r := by
      intro v hcode hv he
      obtain ⟨st', hput, hholds, hp, hlength⟩ := put_converts h hread.unit hcode hv hroom
      obtain ⟨r, hr, hpassed⟩ := fastInnerLoop_passed count hholds (by omega) (by omega)
      rw [hput]
      exact ⟨r, hr, hpassed.mono (by split <;> split <;> omega)⟩
    rw [fastInnerLoop, hread.byte]
    simp only [Option.bind_eq_bind, Option.bind_some]
    by_cases hb : b ≤ 0x7f
    · obtain ⟨he, hcode⟩ := hread.single (by omega)
      have hfirst := hone b hcode (by omega) (by omega)
      rw [he] at hfirst
      rw [if_pos hb]
      exact hfirst
    rw [if_neg hb]
    rcases hread.inlined with hnone | ⟨v, hcode, hv, hsome⟩
    · rw [hnone]
      simp only [Option.bind_some]
      by_cases hadjust : b ≥ 0xf0 ∨ subchar > 0xffff
      · rw [if_pos hadjust]
        cases count with
        | zero => exact ⟨.ok st, rfl, codes, h, by omega, by simp⟩
        | succ count =>
          simp only [hread.body (by omega), Option.bind_some]
          refine passed_of_converts (putChar_converts h hread.unit hroom fun _ => .inl ?_) hle
            hstart ?_
          · omega
          intro st' hholds hp
          have hlength := (h.length_next hholds hroom).1
          obtain ⟨r, hr, hpassed⟩ := fastInnerLoop_passed count hholds (by omega) (by omega)
          exact ⟨r, hr, hpassed.mono (by split <;> omega)⟩
      rw [if_neg hadjust]
      have hbmp : ∀ v, (codePoint s st.pSrc e).or (subOf subchar) = some v → v ≤ 0xffff := by
        intro v hv
        cases hcode : codePoint s st.pSrc e with
        | some c =>
          rw [hcode, Option.some_or, Option.some.injEq] at hv
          have := codePoint_le_of_lead hread.unit hread.byte (by omega) hcode
          omega
        | none =>
          rw [hcode, Option.none_or, subOf] at hv
          split at hv
          · cases hv
          rw [Option.some.injEq] at hv
          omega
      simp only [hread.body (by omega), Option.bind_some]
      refine passed_of_converts (putChar_converts h hread.unit hroom fun _ => .inr hbmp) hle
        hstart ?_
      intro st' hholds hp
      have hsmall : ((codePoint s st.pSrc e).or (subOf subchar)).getD 0 ≤ 0xffff := by
        cases hor : (codePoint s st.pSrc e).or (subOf subchar) with
        | none => simp
        | some v => exact hbmp v hor
      have hlength := (h.length_next hholds hroom).2 hsmall
      have he := he3 (by omega)
      obtain ⟨r, hr, hpassed⟩ := fastInnerLoop_passed count hholds (by omega) (by omega)
      exact ⟨r, hr, hpassed.mono (by split <;> omega)⟩
    · rw [hsome]
      simp only [Option.bind_some]
      exact hone v hcode hv (unit_le_of_bmp hread.unit hread.byte hcode hv)

theorem fastLoop_passed : ∀ (fuel : Nat) {st : Conversion} {codes : List (Option Nat)},
    st.Holds s destCapacity (subOf subchar) codes → st.pSrc ≤ s.length →
      s.length - st.pSrc < fuel →
      ∃ r, fastLoop s destCapacity subchar s.length fuel st = some r ∧
        Passed s destCapacity (subOf subchar) 0 r
  | 0, _, _, _, _, hfuel => by omega
  | fuel + 1, st, codes, h, hp, hfuel => by
    rw [fastLoop]
    split
    · exact ⟨.ok st, rfl, codes, h, hp, Nat.zero_le _⟩
    · next hcount =>
      obtain ⟨r, hr, hpassed⟩ := @fastInnerLoop_passed s destCapacity subchar
        (min (destCapacity - st.dest.length) ((s.length - st.pSrc) / 3)) st codes h (by omega)
        (by omega)
      rw [if_pos (by omega)] at hpassed
      rw [hr]
      cases r with
      | error st' => exact ⟨.error st', rfl, hpassed⟩
      | ok st' =>
        obtain ⟨codes', h', hp', hprogress⟩ := hpassed
        exact fastLoop_passed fuel h' hp' (by omega)

end Conversion

end Icu.StrTrans
