import Icu.StrTrans.JavaReference
import Icu.StrTrans.Loops
import Icu.Utf16.Joining

/-! # The loops of `u_strFromJavaModifiedUTF8WithSub`

The loops with checks follow the reference decoding, but the one that counts takes every
substitution for one unit. The loop without checks follows it as long as the string has enough
units for the number of iterations.
-/

namespace Icu.StrTrans

open Lib Utf16 Utf8

section Rounds

variable (s : List UInt8) (nul : Bool) (sub : Option Nat)

/-- Where a round of `count` iterations from the offset `p` ends, with the number of units that
are written then, or nothing if it leaves the string. A substitution of two units takes two
iterations. -/
def roundEnd : Nat → Nat → Nat → Option (Nat × Nat)
  | 0, p, written => some (p, written)
  | count + 1, p, written =>
    if p < s.length ∧ (nul = true ∨ isCut s p = false) then
      match (javaCodePoint s p (unitEnd s p)).or sub with
      | none => some (p, written)
      | some v =>
        if v ≤ 0xffff then roundEnd count (unitEnd s p) (written + 1)
        else
          match count with
          | 0 => some (p, written)
          | count + 1 => roundEnd count (unitEnd s p) (written + 2)
    else none

theorem roundEnd_succ (count p written : Nat) : roundEnd s nul sub (count + 1) p written =
    if p < s.length ∧ (nul = true ∨ isCut s p = false) then
      match (javaCodePoint s p (unitEnd s p)).or sub with
      | none => some (p, written)
      | some v =>
        if v ≤ 0xffff then roundEnd s nul sub count (unitEnd s p) (written + 1)
        else if count = 0 then some (p, written)
        else roundEnd s nul sub (count - 1) (unitEnd s p) (written + 2)
    else none := by
  cases count with
  | zero => rw [roundEnd.eq_def]; rfl
  | succ count => rw [roundEnd.eq_def]; rfl

def asciiLength (p : Nat) : Nat := ((s.drop p).takeWhile fun b => b.toNat ≤ 0x7f).length

def asciiRun (destCapacity p written : Nat) : Nat :=
  if destCapacity - written ≥ s.length - p then asciiLength s p else 0

/-- All rounds stay in the string. A round has as many iterations as there is room for, but at
most a third of the bytes that are left. -/
def roundsFit (destCapacity : Nat) : Nat → Nat → Nat → Bool
  | 0, _, _ => true
  | fuel + 1, p, written =>
    let n := asciiRun s destCapacity p written
    let count := min (destCapacity - (written + n)) ((s.length - (p + n)) / 3)
    if count < 3 then true
    else
      match roundEnd s nul sub count (p + n) (written + n) with
      | none => false
      | some (p, written) => roundsFit destCapacity fuel p written

end Rounds

namespace Conversion

variable (s : List UInt8) (destCapacity : Nat) (sub : Option Nat) {fuel p : Nat}

/-- The source was converted up to `pSrc`. The units of `codes` were written as far as they fit,
and those of `codes'` were counted, with one unit for each. -/
structure JavaHolds (st : Conversion) (codes codes' : List (Option Nat)) : Prop where
  le : st.pSrc ≤ s.length
  read : javaCodes s 0 = codes ++ codes' ++ javaCodes s st.pSrc
  convertible : ∀ code ∈ codes ++ codes', (code.or sub).isSome = true
  dest : st.dest = (outputs sub codes).take destCapacity
  started : ∀ before, before <+: codes → before ≠ codes → (outputs sub before).length < destCapacity
  full : codes' ≠ [] → destCapacity ≤ st.dest.length
  reqLength : st.reqLength =
    int32 ((outputs sub codes).length - st.dest.length + codes'.length)
  numSubstitutions : st.numSubstitutions = int32 ((codes ++ codes').countP (·.isNone))

/-- The source was converted up to an ill-formed unit for which there is no substitution. -/
def JavaFails (st : Conversion) : Prop :=
  ∃ codes rest, javaCodes s 0 = codes ++ none :: rest ∧ sub = none ∧
    (∀ code ∈ codes, (code.or sub).isSome = true) ∧ st.dest = (outputs sub codes).take destCapacity

variable {s destCapacity sub} {st st' : Conversion} {codes codes' : List (Option Nat)} {b v : Nat}

/-- The code point at `pSrc`. -/
def javaCode (s : List UInt8) (st : Conversion) : Option Nat :=
  javaCodePoint s st.pSrc (unitEnd s st.pSrc)

namespace JavaHolds

variable (h : st.JavaHolds s destCapacity sub codes [])

include h

theorem outputs_eq (hroom : st.dest.length < destCapacity) : outputs sub codes = st.dest := by
  have hlength := congrArg List.length h.dest
  rw [List.length_take] at hlength
  rw [h.dest, List.take_of_length_le (by omega)]

theorem reqLength_eq (hroom : st.dest.length < destCapacity) : st.reqLength = 0 := by
  rw [h.reqLength, h.outputs_eq hroom, Int.sub_self]
  rfl

theorem length_le : st.dest.length ≤ destCapacity := by
  rw [h.dest, List.length_take]
  omega

theorem read_next (hp : st.pSrc < s.length) :
    javaCodes s 0 = codes ++ [javaCode s st] ++ javaCodes s (unitEnd s st.pSrc) := by
  rw [h.read, javaCodes_cons hp, List.append_nil, List.append_assoc]
  rfl

theorem next (hp : st.pSrc < s.length) (hroom : st.dest.length < destCapacity)
    (hcode : (javaCode s st).or sub = some v) (hend : st'.pSrc = unitEnd s st.pSrc)
    (hdest : st'.dest = (st.dest ++ unitsOf v).take destCapacity)
    (hreq : st'.reqLength = int32 ((st.dest.length + (unitsOf v).length : Nat) - st'.dest.length))
    (hnum : st'.numSubstitutions = if javaCode s st = none then int32 (st.numSubstitutions + 1)
      else st.numSubstitutions) :
    st'.JavaHolds s destCapacity sub (codes ++ [javaCode s st]) [] := by
  have hout : outputs sub (codes ++ [javaCode s st]) = st.dest ++ unitsOf v := by
    rw [outputs_append, h.outputs_eq hroom, outputs, List.flatMap_singleton, hcode]
    rfl
  refine ⟨?_, ?_, fun code hmem => ?_, by rw [hout, hdest], fun before hbefore hne => ?_,
    fun hne => absurd rfl hne, ?_, ?_⟩
  · rw [hend]
    exact (isUnit_unitEnd hp).le
  · rw [hend, h.read_next hp, List.append_nil]
  · rw [List.append_nil] at hmem
    rcases List.mem_append.mp hmem with hmem | hmem
    · exact h.convertible code (by rw [List.append_nil]; exact hmem)
    rw [List.mem_singleton.mp hmem, hcode]
    rfl
  · have hfront := (List.prefix_concat_iff.mp hbefore).resolve_left hne
    by_cases heq : before = codes
    · rw [heq, h.outputs_eq hroom]
      exact hroom
    · exact h.started before hfront heq
  · rw [hout, List.length_append, hreq, List.length_nil, Int.natCast_zero, Int.add_zero]
  · rw [hnum, h.numSubstitutions, List.append_nil, List.append_nil, List.countP_append]
    by_cases hnone : javaCode s st = none
    · rw [if_pos hnone, int32_add_left, hnone]
      rfl
    obtain ⟨c, hc⟩ := Option.ne_none_iff_exists'.mp hnone
    rw [if_neg hnone, hc]
    rfl

theorem fails (hp : st.pSrc < s.length) (hcode : (javaCode s st).or sub = none)
    (hdest : st'.dest = st.dest) : st'.JavaFails s destCapacity sub := by
  obtain ⟨hnone, hsub⟩ := Option.or_eq_none_iff.mp hcode
  refine ⟨codes, javaCodes s (unitEnd s st.pSrc), ?_, hsub, fun code hmem =>
    ?_, by rw [hdest, h.dest]⟩
  · rw [h.read_next hp, hnone, List.append_assoc]
    rfl
  · exact h.convertible code (by rw [List.append_nil]; exact hmem)

end JavaHolds

/-- What an iteration that writes does with the next unit. A `break` is for a full destination. -/
def JavaConverts (s : List UInt8) (destCapacity : Nat) (sub : Option Nat) (st : Conversion)
    (codes : List (Option Nat)) (r : Option Step) : Prop :=
  (∃ st', r = some (.invalid st') ∧ (javaCode s st).or sub = none ∧
    st'.JavaFails s destCapacity sub) ∨
  ∃ st' v, (javaCode s st).or sub = some v ∧
    st'.JavaHolds s destCapacity sub (codes ++ [javaCode s st]) [] ∧
    st'.pSrc = unitEnd s st.pSrc ∧
    (r = some (.go st') ∧ st'.dest.length = st.dest.length + (unitsOf v).length ∨
      r = some (.stop st') ∧ destCapacity ≤ st'.dest.length)

variable {subchar : Int} {nul : Bool}

theorem put_java (h : st.JavaHolds s destCapacity sub codes []) (hp : st.pSrc < s.length)
    (hcode : javaCode s st = some v) (hv : v ≤ 0xffff) (hroom : st.dest.length < destCapacity) :
    ∃ st', put destCapacity (UInt16.ofNat v) { st with pSrc := unitEnd s st.pSrc } = some st' ∧
      st'.JavaHolds s destCapacity sub (codes ++ [javaCode s st]) [] ∧
      st'.pSrc = unitEnd s st.pSrc ∧ st'.dest.length = st.dest.length + 1 := by
  have hreq := h.reqLength_eq hroom
  rw [put, if_pos hroom]
  refine ⟨_, rfl, h.next hp hroom (by rw [hcode]; rfl) rfl ?_ ?_ ?_, rfl, by simp⟩
  · rw [unitsOf_bmp hv, List.take_of_length_le (by simp; omega)]
  · rw [unitsOf_bmp hv]
    simp [hreq, int32_zero]
  · rw [if_neg (by simp [hcode])]

theorem javaCode_le (hb : byteAt s st.pSrc = some b) (hcode : javaCode s st = some v) :
    v ≤ 0xffff ∧ unitEnd s st.pSrc ≤ st.pSrc + 3 := by
  have hunit := isUnit_unitEnd (lt_of_byteAt hb)
  have hshort := hunit.short b hb
  rw [javaCode] at hcode
  by_cases hb80 : b < 0x80
  · rw [javaCodePoint_single hb hb80, Option.some.injEq] at hcode
    rw [u8CountTrailBytes_eq_zero (by omega)] at hshort
    omega
  rw [javaCodePoint_multi hb hb80] at hcode
  split at hcode
  · next hcond =>
    obtain ⟨h1, h2, he⟩ := hcond
    have htrail : ∀ k, k < u8CountTrailBytes b → TrailAt s (st.pSrc + 1 + k) :=
      fun k hk => hunit.trails _ (by omega) (by omega)
    obtain ⟨hm1, hm2, -⟩ := u8MaskLeadByte_bounds b
    rw [Option.some.injEq] at hcode
    obtain hc | hc : u8CountTrailBytes b = 1 ∨ u8CountTrailBytes b = 2 := by omega
    · rw [hc] at hcode htrail
      have h0 : payload s (st.pSrc + 1) < 64 := payload_lt (htrail 0 (by omega))
      simp only [assemble] at hcode
      omega
    rw [hc] at hcode htrail
    have h0 : payload s (st.pSrc + 1) < 64 := payload_lt (htrail 0 (by omega))
    have h1 : payload s (st.pSrc + 1 + 1) < 64 := payload_lt (htrail 1 (by omega))
    simp only [assemble] at hcode
    omega
  · cases hcode

theorem javaPutSubstitution_converts {checked : Bool}
    (h : st.JavaHolds s destCapacity (subOf subchar) codes []) (hb : byteAt s st.pSrc = some b)
    (hb80 : ¬ b < 0x80) (hcode : javaCode s st = none) (hroom : st.dest.length < destCapacity)
    (hpair : checked = false → subchar > 0xffff → st.dest.length + 2 ≤ destCapacity) :
    JavaConverts s destCapacity (subOf subchar) st codes
      (javaPutSubstitution (memory s nul) destCapacity subchar checked s.length b st) := by
  have hp := lt_of_byteAt hb
  have hreq := h.reqLength_eq hroom
  rw [javaPutSubstitution]
  by_cases hneg : subchar < 0
  · have hor : (javaCode s st).or (subOf subchar) = none := by rw [hcode, subOf, if_pos hneg]; rfl
    rw [if_pos hneg]
    exact .inl ⟨st, rfl, hor, h.fails hp hor rfl⟩
  have hor : (javaCode s st).or (subOf subchar) = some subchar.toNat := by
    rw [hcode, subOf, if_neg hneg]
    rfl
  rw [if_neg hneg, pointer_memory (isUnit_unitEnd hp) hb hb80]
  simp only [Option.bind_eq_bind, Option.bind_some]
  right
  by_cases hbmp : subchar ≤ 0xffff
  · have hv : subchar.toNat ≤ 0xffff := by omega
    rw [if_pos hbmp, put, if_pos hroom]
    refine ⟨_, _, hor, h.next hp hroom hor rfl ?_ ?_ ?_, rfl, .inl ⟨rfl, ?_⟩⟩
    · rw [unitsOf_bmp hv, List.take_of_length_le (by simp; omega)]
    · rw [unitsOf_bmp hv]
      simp [hreq, int32_zero]
    · rw [if_pos hcode]
    · rw [unitsOf_bmp hv]
      simp
  have hv : 0xffff < subchar.toNat := by omega
  rw [if_neg hbmp, put, if_pos hroom]
  simp only [Option.bind_some]
  by_cases hpair' : checked = false ∨ st.dest.length + 1 < destCapacity
  · have hroom2 : st.dest.length + 1 < destCapacity := by
      rcases hpair' with hchecked | hlt
      · have := hpair hchecked (by omega)
        omega
      · exact hlt
    rw [if_pos (by simpa using hpair'), put, if_pos (by simpa using hroom2)]
    refine ⟨_, _, hor, h.next hp hroom hor rfl ?_ ?_ ?_, rfl, .inl ⟨rfl, ?_⟩⟩
    · rw [unitsOf_supplementary hv, List.take_of_length_le (by simp; omega)]
      simp
    · rw [unitsOf_supplementary hv]
      simp [hreq, int32_zero]
    · rw [if_pos hcode]
    · rw [unitsOf_supplementary hv]
      simp
  · rw [if_neg (by simpa using hpair')]
    have hfull : st.dest.length + 1 = destCapacity := by omega
    refine ⟨_, _, hor, h.next hp hroom hor rfl ?_ ?_ ?_, rfl, .inr ⟨rfl, ?_⟩⟩
    · rw [unitsOf_supplementary hv, ← hfull]
      rw [show st.dest ++ [u16Lead subchar.toNat, u16Trail subchar.toNat] =
        (st.dest ++ [u16Lead subchar.toNat]) ++ [u16Trail subchar.toNat] by simp,
        List.take_left' (by simp)]
    · rw [unitsOf_supplementary hv]
      simp [hreq]
    · rw [if_pos hcode]
    · simp
      omega

theorem javaCode_ascii (hb : byteAt s st.pSrc = some b) (hb80 : b < 0x80) :
    javaCode s st = some b ∧ unitEnd s st.pSrc = st.pSrc + 1 := by
  have hunit := isUnit_unitEnd (lt_of_byteAt hb)
  have hlt := hunit.lt
  have hshort := hunit.short b hb
  rw [u8CountTrailBytes_eq_zero (by omega)] at hshort
  exact ⟨javaCodePoint_single hb hb80, by omega⟩

theorem inlined_javaCode : inlined s st.pSrc (unitEnd s st.pSrc) =
    (javaCode s st).map fun v => (UInt16.ofNat v, unitEnd s st.pSrc) := rfl

/-! ## Loops with checks -/

theorem javaWriteStep_converts (h : st.JavaHolds s destCapacity (subOf subchar) codes [])
    (hb : byteAt s st.pSrc = some b) (hroom : st.dest.length < destCapacity) :
    JavaConverts s destCapacity (subOf subchar) st codes
      (javaWriteStep (memory s nul) destCapacity subchar s.length b st) := by
  have hp := lt_of_byteAt hb
  have hone : ∀ v, javaCode s st = some v → JavaConverts s destCapacity (subOf subchar) st codes
      ((put destCapacity (UInt16.ofNat v) { st with pSrc := unitEnd s st.pSrc }).map .go) := by
    intro v hcode
    have hv := (javaCode_le hb hcode).1
    obtain ⟨st', hput, hholds, hend, hlength⟩ := put_java h hp hcode hv hroom
    rw [hput]
    refine .inr ⟨st', v, by rw [hcode]; rfl, hholds, hend, .inl ⟨rfl, ?_⟩⟩
    rw [hlength, unitsOf_bmp hv]
    rfl
  rw [javaWriteStep]
  by_cases hb80 : b ≤ 0x7f
  · obtain ⟨hcode, hend⟩ := javaCode_ascii hb (by omega)
    rw [if_pos hb80, ← hend]
    exact hone b hcode
  rw [if_neg hb80, javaInlineChar_checked (isUnit_unitEnd hp) hb (by omega), inlined_javaCode]
  cases hcode : javaCode s st with
  | none =>
    exact javaPutSubstitution_converts h hb (by omega) hcode hroom
      (fun hfalse => absurd hfalse (by decide))
  | some v => exact hone v hcode

def JavaEnded (s : List UInt8) (destCapacity : Nat) (sub : Option Nat) :
    Except Conversion Conversion → Prop
  | .ok st => ∃ codes, st.JavaHolds s destCapacity sub codes [] ∧
      (st.pSrc = s.length ∨ destCapacity ≤ st.dest.length)
  | .error st => st.JavaFails s destCapacity sub

theorem javaWriteLoop_ended : ∀ (fuel : Nat) {st : Conversion} {codes : List (Option Nat)},
    st.JavaHolds s destCapacity (subOf subchar) codes [] → s.length - st.pSrc < fuel →
      ∃ r, javaWriteLoop (memory s nul) destCapacity subchar s.length fuel st = some r ∧
        JavaEnded s destCapacity (subOf subchar) r
  | 0, _, _, _, hfuel => by omega
  | fuel + 1, st, codes, h, hfuel => by
    have hle := h.le
    rw [javaWriteLoop]
    by_cases hcond : st.pSrc < s.length ∧ st.dest.length < destCapacity
    · obtain ⟨b, hb, -⟩ := byteAt_eq_some hcond.1
      have hlt := (isUnit_unitEnd hcond.1).lt
      rw [if_pos hcond, byteAt_memory hcond.1, hb]
      simp only [Option.bind_eq_bind, Option.bind_some]
      rcases @javaWriteStep_converts s destCapacity st codes b subchar nul h hb hcond.2 with
        ⟨st', hr, -, hfails⟩ | ⟨st', v, -, hholds, hend, ⟨hr, -⟩ | ⟨hr, hfull⟩⟩
      · rw [hr]
        exact ⟨.error st', rfl, hfails⟩
      · rw [hr]
        exact javaWriteLoop_ended fuel hholds (by omega)
      · rw [hr]
        exact ⟨.ok st', rfl, _, hholds, .inr hfull⟩
    · rw [if_neg hcond]
      exact ⟨.ok st, rfl, codes, h, by omega⟩

theorem JavaHolds.count (h : st.JavaHolds s destCapacity sub codes codes') (hp : st.pSrc < s.length)
    (hfull : destCapacity ≤ st.dest.length) (hcode : (javaCode s st).or sub = some v)
    (hend : st'.pSrc = unitEnd s st.pSrc) (hdest : st'.dest = st.dest)
    (hreq : st'.reqLength = int32 (st.reqLength + 1))
    (hnum : st'.numSubstitutions = if javaCode s st = none then int32 (st.numSubstitutions + 1)
      else st.numSubstitutions) :
    st'.JavaHolds s destCapacity sub codes (codes' ++ [javaCode s st]) := by
  refine ⟨?_, ?_, fun code hmem => ?_, by rw [hdest, h.dest], h.started,
    fun _ => by rw [hdest]; exact hfull, ?_, ?_⟩
  · rw [hend]
    exact (isUnit_unitEnd hp).le
  · rw [hend, h.read, javaCodes_cons hp]
    simp only [List.append_assoc, List.cons_append, List.nil_append]
    rfl
  · rw [← List.append_assoc] at hmem
    rcases List.mem_append.mp hmem with hmem | hmem
    · exact h.convertible code hmem
    rw [List.mem_singleton.mp hmem, hcode]
    rfl
  · rw [hreq, h.reqLength, int32_add_left, hdest, List.length_append, List.length_singleton]
    congr 1
    push_cast
    omega
  · rw [hnum, h.numSubstitutions, ← List.append_assoc, @List.countP_append _ _ (codes ++ codes')]
    by_cases hnone : javaCode s st = none
    · rw [if_pos hnone, int32_add_left, hnone]
      rfl
    obtain ⟨c, hc⟩ := Option.ne_none_iff_exists'.mp hnone
    rw [if_neg hnone, hc]
    rfl

theorem JavaHolds.count_fails (h : st.JavaHolds s destCapacity sub codes codes')
    (hp : st.pSrc < s.length) (hfull : destCapacity ≤ st.dest.length)
    (hcode : (javaCode s st).or sub = none) : st.JavaFails s destCapacity sub := by
  obtain ⟨hnone, hsub⟩ := Option.or_eq_none_iff.mp hcode
  refine ⟨codes ++ codes', javaCodes s (unitEnd s st.pSrc), ?_, hsub, h.convertible, ?_⟩
  · rw [h.read, javaCodes_cons hp]
    change codes ++ codes' ++ javaCode s st :: _ = _
    rw [hnone]
  · have hlength := congrArg List.length h.dest
    rw [List.length_take] at hlength
    rw [outputs_append, List.take_append_of_le_length (by omega), ← h.dest]

theorem javaCountStep_eq (h : st.JavaHolds s destCapacity (subOf subchar) codes codes')
    (hb : byteAt s st.pSrc = some b) (hfull : destCapacity ≤ st.dest.length) :
    (javaCountStep (memory s nul) subchar s.length b st = some (.invalid st) ∧
      st.JavaFails s destCapacity (subOf subchar)) ∨
    ∃ st', javaCountStep (memory s nul) subchar s.length b st = some (.go st') ∧
      st'.JavaHolds s destCapacity (subOf subchar) codes (codes' ++ [javaCode s st]) ∧
      st'.pSrc = unitEnd s st.pSrc ∧ st'.dest = st.dest := by
  have hp := lt_of_byteAt hb
  have hone : ∀ v, javaCode s st = some v →
      { st with pSrc := unitEnd s st.pSrc, reqLength := int32 (st.reqLength + 1) }.JavaHolds s
        destCapacity (subOf subchar) codes (codes' ++ [javaCode s st]) := by
    intro v hcode
    exact h.count hp hfull (by rw [hcode]; rfl) rfl rfl rfl (by rw [if_neg (by simp [hcode])])
  rw [javaCountStep]
  by_cases hb80 : b ≤ 0x7f
  · obtain ⟨hcode, hend⟩ := javaCode_ascii hb (by omega)
    rw [if_pos hb80, ← hend]
    exact .inr ⟨_, rfl, hone b hcode, rfl, rfl⟩
  rw [if_neg hb80, javaInlineChar_checked (isUnit_unitEnd hp) hb (by omega), inlined_javaCode]
  cases hcode : javaCode s st with
  | some v =>
    have hholds := hone v hcode
    rw [hcode] at hholds
    exact .inr ⟨_, rfl, hholds, rfl, rfl⟩
  | none =>
    have hlength : u16Length b = 1 := if_pos (by have := byteAt_lt hb; omega)
    simp only [Option.map_none, Option.bind_eq_bind, Option.bind_some]
    by_cases hneg : subchar < 0
    · rw [if_pos hneg]
      refine .inl ⟨rfl, h.count_fails hp hfull ?_⟩
      rw [hcode, subOf, if_pos hneg]
      rfl
    rw [if_neg hneg, pointer_memory (isUnit_unitEnd hp) hb (by omega)]
    simp only [Option.bind_some, hlength]
    rw [← hcode]
    refine .inr ⟨_, rfl, h.count hp hfull (v := subchar.toNat) ?_ rfl rfl rfl ?_, rfl, rfl⟩
    · rw [hcode, subOf, if_neg hneg]
      rfl
    · rw [if_pos hcode]

def JavaComplete (s : List UInt8) (destCapacity : Nat) (sub : Option Nat) :
    Except Conversion Conversion → Prop
  | .ok st => ∃ codes codes', st.JavaHolds s destCapacity sub codes codes' ∧ st.pSrc = s.length
  | .error st => st.JavaFails s destCapacity sub

theorem javaCountLoop_complete :
    ∀ (fuel : Nat) {st : Conversion} {codes codes' : List (Option Nat)},
    st.JavaHolds s destCapacity (subOf subchar) codes codes' →
      (st.pSrc = s.length ∨ destCapacity ≤ st.dest.length) → s.length - st.pSrc < fuel →
      ∃ r, javaCountLoop (memory s nul) subchar s.length fuel st = some r ∧
        JavaComplete s destCapacity (subOf subchar) r
  | 0, _, _, _, _, _, hfuel => by omega
  | fuel + 1, st, codes, codes', h, hend, hfuel => by
    have hle := h.le
    rw [javaCountLoop]
    by_cases hp : st.pSrc < s.length
    · obtain ⟨b, hb, -⟩ := byteAt_eq_some hp
      have hlt := (isUnit_unitEnd hp).lt
      have hfull := hend.resolve_left (by omega)
      rw [if_pos hp, byteAt_memory hp, hb]
      simp only [Option.bind_eq_bind, Option.bind_some]
      rcases @javaCountStep_eq s destCapacity st codes codes' b subchar nul h hb hfull with
        ⟨hr, hfails⟩ | ⟨st', hr, hholds, hend', hdest⟩
      · rw [hr]
        exact ⟨.error st, rfl, hfails⟩
      · rw [hr]
        exact javaCountLoop_complete fuel hholds (.inr (by rw [hdest]; exact hfull)) (by omega)
    · rw [if_neg hp]
      exact ⟨.ok st, rfl, codes, codes', h, by omega⟩

/-! ## The loop without checks -/

/-- What happens if a round leaves the string: there is no result, or the NUL was taken for a
character. -/
def Overruns (s : List UInt8) (sub : Option Nat) (r : Option (Except Conversion Conversion)) :
    Prop :=
  r = none ∨ ∃ st, r = some (.ok st) ∧ st.pSrc = s.length + 1 ∧ st.reqLength = 0 ∧
    (∀ code ∈ javaCodes s 0, (code.or sub).isSome = true) ∧
    st.dest.length = (outputs sub (javaCodes s 0)).length + 1

def JavaPassed (s : List UInt8) (destCapacity : Nat) (sub : Option Nat) (start p written : Nat) :
    Except Conversion Conversion → Prop
  | .ok st => (∃ codes, st.JavaHolds s destCapacity sub codes []) ∧ st.pSrc = p ∧
      st.dest.length = written ∧ start ≤ p
  | .error st => st.JavaFails s destCapacity sub

def RoundResult (s : List UInt8) (destCapacity : Nat) (sub : Option Nat) (start : Nat)
    (r : Option (Except Conversion Conversion)) : Option (Nat × Nat) → Prop
  | none => Overruns s sub r
  | some (p, written) => ∃ r', r = some r' ∧ JavaPassed s destCapacity sub start p written r'

theorem byteAt_memory_end : byteAt (memory s nul) s.length = if nul then some 0 else none := by
  cases nul <;> simp [memory, byteAt]

theorem byteAt_memory_behind : byteAt (memory s nul) (s.length + 1) = none := by
  cases nul <;> simp [memory, byteAt]

theorem javaFastInnerLoop_overruns {count : Nat} (h : st.JavaHolds s destCapacity sub codes [])
    (hfuel : count + 1 < fuel) (hroom : st.dest.length < destCapacity) (hend : st.pSrc = s.length) :
    Overruns s sub
      (javaFastInnerLoop (memory s nul) destCapacity subchar s.length fuel (count + 1) st) := by
  obtain ⟨fuel, rfl⟩ : ∃ f, fuel = f + 2 := ⟨fuel - 2, by omega⟩
  have hread := h.read
  rw [hend, javaCodes_nil (Nat.le_refl _), List.append_nil, List.append_nil] at hread
  rw [javaFastInnerLoop, if_pos (Nat.succ_pos count), hend, byteAt_memory_end]
  cases nul with
  | false => exact .inl rfl
  | true =>
    simp only [if_true, Option.bind_eq_bind, Option.bind_some, if_pos (Nat.zero_le 0x7f), put,
      if_pos hroom, Nat.add_sub_cancel]
    rw [javaFastInnerLoop]
    cases count with
    | zero =>
      refine .inr ⟨_, if_neg (by decide), rfl, h.reqLength_eq hroom, ?_, ?_⟩
      · rw [hread]
        intro code hmem
        exact h.convertible code (by rw [List.append_nil]; exact hmem)
      · rw [hread, h.outputs_eq hroom]
        simp
    | succ count =>
      left
      rw [if_pos (Nat.succ_pos count), byteAt_memory_behind]
      rfl

theorem javaPutSubstitution_ne_stop {limit : Nat} :
    javaPutSubstitution s destCapacity subchar false limit b st ≠ some (.stop st') := by
  intro hcon
  rw [javaPutSubstitution] at hcon
  split at hcon
  · cases hcon
  obtain ⟨⟨c, p⟩, -, hcon⟩ := Option.bind_eq_some_iff.mp hcon
  dsimp only at hcon
  split at hcon
  · obtain ⟨_, -, hcon⟩ := Option.map_eq_some_iff.mp hcon
    cases hcon
  obtain ⟨st1, -, hcon⟩ := Option.bind_eq_some_iff.mp hcon
  rw [if_pos (.inl rfl)] at hcon
  obtain ⟨_, -, hcon⟩ := Option.map_eq_some_iff.mp hcon
  cases hcon

theorem javaPutSubstitution_go (h : st.JavaHolds s destCapacity (subOf subchar) codes [])
    (hb : byteAt s st.pSrc = some b) (hb80 : ¬ b < 0x80) (hcode : javaCode s st = none)
    (hsub : 0 ≤ subchar) (hroom : st.dest.length + (unitsOf subchar.toNat).length ≤ destCapacity) :
    ∃ st' codes', javaPutSubstitution (memory s nul) destCapacity subchar false s.length b st =
        some (.go st') ∧ st'.JavaHolds s destCapacity (subOf subchar) codes' [] ∧
      st'.pSrc = unitEnd s st.pSrc ∧
      st'.dest.length = st.dest.length + (unitsOf subchar.toNat).length := by
  have hpos := length_unitsOf_pos subchar.toNat
  have hor : (javaCode s st).or (subOf subchar) = some subchar.toNat := by
    rw [hcode, subOf, if_neg (by omega)]
    rfl
  have hpair : false = false → subchar > 0xffff → st.dest.length + 2 ≤ destCapacity := by
    intro _ hlarge
    rw [unitsOf_supplementary (by omega)] at hroom
    exact hroom
  rcases @javaPutSubstitution_converts s destCapacity st codes b subchar nul false h hb hb80 hcode
    (by omega) hpair with
    ⟨st', -, hnone, -⟩ | ⟨st', v, hv, hholds, hend, ⟨hr, hlength⟩ | ⟨hr, -⟩⟩
  · rw [hor] at hnone
    cases hnone
  · rw [hor, Option.some.injEq] at hv
    rw [← hv] at hlength
    exact ⟨st', _, hr, hholds, hend, hlength⟩
  · exact absurd hr javaPutSubstitution_ne_stop

theorem javaFastInnerLoop_result : ∀ (fuel : Nat) {count start : Nat} {st : Conversion}
    {codes : List (Option Nat)}, st.JavaHolds s destCapacity (subOf subchar) codes [] →
      count < fuel → st.dest.length + count ≤ destCapacity →
      (start ≤ st.pSrc ∨ 2 ≤ count ∧ start ≤ st.pSrc + 1) →
      RoundResult s destCapacity (subOf subchar) start
        (javaFastInnerLoop (memory s nul) destCapacity subchar s.length fuel count st)
        (roundEnd s nul (subOf subchar) count st.pSrc st.dest.length)
  | 0, _, _, _, _, _, hfuel, _, _ => by omega
  | fuel + 1, 0, start, st, codes, h, _, _, hstart => by
    rw [javaFastInnerLoop, if_neg (by omega), roundEnd]
    exact ⟨.ok st, rfl, ⟨codes, h⟩, rfl, rfl, by omega⟩
  | fuel + 1, count + 1, start, st, codes, h, hfuel, hdest, hstart => by
    have hroom : st.dest.length < destCapacity := by omega
    rw [roundEnd_succ]
    by_cases hp : st.pSrc < s.length
    · obtain ⟨b, hb, -⟩ := byteAt_eq_some hp
      have hlt := (isUnit_unitEnd hp).lt
      -- one unit of the destination
      have hone : ∀ v, javaCode s st = some v → v ≤ 0xffff →
        RoundResult s destCapacity (subOf subchar)
          start ((put destCapacity (UInt16.ofNat v) { st with pSrc := unitEnd s st.pSrc }).bind
            fun st => javaFastInnerLoop (memory s nul) destCapacity subchar s.length fuel count st)
          (roundEnd s nul (subOf subchar) count (unitEnd s st.pSrc) (st.dest.length + 1)) := by
        intro v hcode hv
        obtain ⟨st', hput, hholds, hend, hlength⟩ := put_java h hp hcode hv hroom
        rw [hput, Option.bind_some, ← hend, ← hlength]
        exact javaFastInnerLoop_result fuel hholds (by omega) (by omega) (.inl (by omega))
      rw [javaFastInnerLoop, if_pos (Nat.succ_pos count), byteAt_memory hp, hb]
      simp only [Option.bind_eq_bind, Option.bind_some, Nat.add_sub_cancel]
      by_cases hb80 : b ≤ 0x7f
      · obtain ⟨hcode, hend⟩ := javaCode_ascii hb (by omega)
        have hcut : isCut s st.pSrc = false := (isCut_eq_false_iff hb).mpr (by omega)
        have hfirst := hone b hcode (by omega)
        rw [if_pos hb80, if_pos ⟨hp, .inr hcut⟩, show javaCodePoint s st.pSrc (unitEnd s st.pSrc) =
          some b from hcode, Option.some_or]
        simp only [if_pos (show b ≤ 0xffff by omega), ← hend]
        exact hfirst
      rw [if_neg hb80, javaInlineChar_unchecked hb (by omega)]
      by_cases hread : nul = true ∨ isCut s st.pSrc = false
      · have hboth : st.pSrc < s.length ∧ (nul = true ∨ isCut s st.pSrc = false) := ⟨hp, hread⟩
        rw [if_pos hread, if_pos hboth, inlined_javaCode, Option.bind_some]
        change RoundResult _ _ _ _ _ (match (javaCode s st).or (subOf subchar) with
          | none => _
          | some v => _)
        cases hcode : javaCode s st with
        | some v =>
          have hv := (javaCode_le hb hcode).1
          simp only [Option.map_some, Option.some_or, if_pos hv]
          exact hone v hcode hv
        | none =>
          simp only [Option.map_none, Option.none_or]
          by_cases hneg : subchar < 0
          · have hput : javaPutSubstitution (memory s nul) destCapacity subchar false s.length b
              st =
                some (.invalid st) := by rw [javaPutSubstitution, if_pos hneg]
            have hsub : subOf subchar = none := if_pos hneg
            rw [if_neg (show ¬ subchar > 0xffff by omega), if_neg (Nat.succ_ne_zero count), hput,
              hsub]
            rw [hsub] at h
            exact ⟨.error st, rfl, h.fails hp (by rw [hcode]; rfl) rfl⟩
          have hsub : subOf subchar = some subchar.toNat := if_neg hneg
          rw [hsub]
          simp only
          by_cases hbmp : subchar.toNat ≤ 0xffff
          · have hunits := congrArg List.length (unitsOf_bmp hbmp)
            rw [List.length_singleton] at hunits
            obtain ⟨st', codes', hr, hholds, hend, hlength⟩ :=
              @javaPutSubstitution_go s destCapacity st codes b subchar nul h hb (by omega) hcode
              (by omega) (by omega)
            rw [hunits] at hlength
            rw [if_neg (show ¬ subchar > 0xffff by omega), if_neg (Nat.succ_ne_zero count), hr,
              if_pos hbmp, ← hend, ← hlength, ← hsub]
            exact @javaFastInnerLoop_result fuel count start st' codes' hholds (by omega)
              (by omega) (.inl (by omega))
          have hunits := congrArg List.length
            (unitsOf_supplementary (by omega : 0xffff < subchar.toNat))
          rw [if_pos (show subchar > 0xffff by omega), if_neg hbmp]
          by_cases hcount : count = 0
          · rw [if_pos hcount, if_pos hcount]
            exact ⟨.ok st, rfl, ⟨codes, hsub ▸ h⟩, rfl, rfl, by omega⟩
          change _ = 2 at hunits
          obtain ⟨st', codes', hr, hholds, hend, hlength⟩ :=
            @javaPutSubstitution_go s destCapacity st codes b subchar nul h hb (by omega) hcode
            (by omega) (by omega)
          rw [hunits] at hlength
          rw [if_neg hcount, if_neg hcount, hr, ← hend, ← hlength, ← hsub]
          exact @javaFastInnerLoop_result fuel (count - 1) start st' codes' hholds
            (by omega) (by omega) (.inl (by omega))
      · have hnot : ¬ (st.pSrc < s.length ∧ (nul = true ∨ isCut s st.pSrc = false)) :=
          fun hcon => hread hcon.2
        rw [if_neg hread, if_neg hnot]
        exact Or.inl rfl
    · have hend : st.pSrc = s.length := Nat.le_antisymm h.le (by omega)
      rw [if_neg (fun hcon => hp hcon.1)]
      exact javaFastInnerLoop_overruns h (by omega) hroom hend

theorem asciiLength_nil (hp : s.length ≤ p) : asciiLength s p = 0 := by
  rw [asciiLength, List.drop_of_length_le hp]
  rfl

theorem asciiLength_eq (hb : byteAt s p = some b) :
    asciiLength s p = if b ≤ 0x7f then asciiLength s (p + 1) + 1 else 0 := by
  have hp := lt_of_byteAt hb
  have hget : s[p].toNat = b := by
    rw [byteAt, List.getElem?_eq_getElem hp, Option.map_some, Option.some.injEq] at hb
    exact hb
  rw [asciiLength, List.drop_eq_getElem_cons hp, List.takeWhile_cons, hget]
  by_cases hb80 : b ≤ 0x7f
  · rw [if_pos hb80, if_pos (decide_eq_true hb80)]
    rfl
  · rw [if_neg hb80, if_neg (by simpa using hb80)]
    rfl

theorem put_ascii (h : st.JavaHolds s destCapacity sub codes []) (hb : byteAt s st.pSrc = some b)
    (hb80 : b ≤ 0x7f) (hroom : st.dest.length < destCapacity) :
    ∃ st' codes', put destCapacity (UInt16.ofNat b) { st with pSrc := st.pSrc + 1 } = some st' ∧
      st'.JavaHolds s destCapacity sub codes' [] ∧ st'.pSrc = st.pSrc + 1 ∧
      st'.dest.length = st.dest.length + 1 := by
  obtain ⟨hcode, hend⟩ := javaCode_ascii hb (by omega)
  obtain ⟨st', hput, hholds, hend', hlength⟩ := put_java h (lt_of_byteAt hb) hcode (by omega) hroom
  rw [hend] at hput hend'
  exact ⟨st', _, hput, hholds, hend', hlength⟩

theorem javaAsciiLoop_eq : ∀ (fuel : Nat) {st : Conversion} {codes : List (Option Nat)},
    st.JavaHolds s destCapacity sub codes [] → s.length - st.pSrc < fuel →
      st.dest.length + (s.length - st.pSrc) ≤ destCapacity →
      ∃ st' codes', javaAsciiLoop (memory s nul) destCapacity s.length fuel st = some st' ∧
        st'.JavaHolds s destCapacity sub codes' [] ∧
        st'.pSrc = st.pSrc + asciiLength s st.pSrc ∧
        st'.dest.length = st.dest.length + asciiLength s st.pSrc
  | 0, _, _, _, hfuel, _ => by omega
  | fuel + 1, st, codes, h, hfuel, hdest => by
    rw [javaAsciiLoop]
    by_cases hp : st.pSrc < s.length
    · obtain ⟨b, hb, -⟩ := byteAt_eq_some hp
      rw [if_pos hp, byteAt_memory hp, hb, asciiLength_eq hb]
      simp only [Option.bind_eq_bind, Option.bind_some]
      by_cases hb80 : b ≤ 0x7f
      · obtain ⟨st1, codes1, hput, hholds, hend, hlength⟩ := put_ascii h hb hb80 (by omega)
        obtain ⟨st', codes', hr, hholds', hend', hlength'⟩ :=
          javaAsciiLoop_eq fuel hholds (by omega) (by omega)
        rw [if_pos hb80, hput]
        rw [hend] at hend' hlength'
        exact ⟨st', codes', hr, hholds', by rw [if_pos hb80]; omega, by rw [if_pos hb80]; omega⟩
      · rw [if_neg hb80]
        exact ⟨st, codes, rfl, h, by rw [if_neg hb80]; rfl, by rw [if_neg hb80]; rfl⟩
    · rw [if_neg hp, asciiLength_nil (by omega)]
      exact ⟨st, codes, rfl, h, rfl, rfl⟩

theorem length_le_memory : s.length ≤ (memory s nul).length := by
  rw [length_memory]
  omega

theorem javaAsciiRun_eq (h : st.JavaHolds s destCapacity sub codes []) :
    ∃ st' codes', javaAsciiRun (memory s nul) destCapacity s.length st = some st' ∧
      st'.JavaHolds s destCapacity sub codes' [] ∧
      st'.pSrc = st.pSrc + asciiRun s destCapacity st.pSrc st.dest.length ∧
      st'.dest.length = st.dest.length + asciiRun s destCapacity st.pSrc st.dest.length := by
  have hle := h.le
  have hroom := h.length_le
  have hmemory := @length_le_memory s nul
  rw [javaAsciiRun, asciiRun]
  by_cases hfits : destCapacity - st.dest.length ≥ s.length - st.pSrc
  · rw [if_pos hfits]
    by_cases hp : s.length - st.pSrc > 0
    · obtain ⟨b, hb, -⟩ := byteAt_eq_some (show st.pSrc < s.length by omega)
      rw [if_pos ⟨hfits, hp⟩, byteAt_memory (by omega), hb]
      simp only [Option.bind_eq_bind, Option.bind_some]
      by_cases hb80 : b ≤ 0x7f
      · rw [if_pos hb80]
        exact javaAsciiLoop_eq _ h (by omega) (by omega)
      · rw [if_neg hb80, asciiLength_eq hb, if_neg hb80]
        exact ⟨st, codes, rfl, h, rfl, rfl⟩
    · rw [if_neg (fun hcon => hp hcon.2), asciiLength_nil (by omega)]
      exact ⟨st, codes, rfl, h, rfl, rfl⟩
  · rw [if_neg hfits, if_neg (fun hcon => hfits hcon.1)]
    exact ⟨st, codes, rfl, h, rfl, rfl⟩

theorem roundEnd_isSome (hshort : ∀ p < s.length,
    (javaCodePoint s p (unitEnd s p)).or sub ≠ none → unitEnd s p ≤ p + 3) (count : Nat) :
    ∀ {p written : Nat}, p + 3 * count ≤ s.length →
      (roundEnd s nul sub count p written).isSome = true := by
  induction count using Nat.strongRecOn with
  | ind count ih =>
    intro p written hle
    cases count with
    | zero =>
      rw [roundEnd]
      rfl
    | succ count =>
      obtain ⟨b, hb, -⟩ := byteAt_eq_some (show p < s.length by omega)
      have hcut : isCut s p = false := by
        rw [isCut_eq_false_iff hb]
        intro h1 h2 hend
        have hstop := (isUnit_unitEnd (lt_of_byteAt hb)).short b hb
        have hcount : u8CountTrailBytes b ≤ 2 := by
          rw [u8CountTrailBytes, if_pos (by omega)]
          split_ifs <;> omega
        omega
      rw [roundEnd_succ, if_pos ⟨by omega, .inr hcut⟩]
      cases hor : (javaCodePoint s p (unitEnd s p)).or sub with
      | none => rfl
      | some v =>
        have hend := hshort p (by omega) (by rw [hor]; exact Option.some_ne_none v)
        dsimp only
        split_ifs
        · exact ih count (by omega) (by omega)
        · rfl
        · exact ih (count - 1) (by omega) (by omega)

theorem roundsFit_of_short (hshort : ∀ p < s.length,
    (javaCodePoint s p (unitEnd s p)).or sub ≠ none → unitEnd s p ≤ p + 3) :
    ∀ (fuel p written : Nat),
    roundsFit s nul sub destCapacity fuel p written = true
  | 0, _, _ => rfl
  | fuel + 1, p, written => by
    rw [roundsFit]
    split
    · rfl
    · next hcount =>
      have hsome := @roundEnd_isSome s sub nul hshort
        (min (destCapacity - (written + asciiRun s destCapacity p written))
          ((s.length - (p + asciiRun s destCapacity p written)) / 3))
        (p + asciiRun s destCapacity p written)
        (written + asciiRun s destCapacity p written) (by omega)
      obtain ⟨⟨p', written'⟩, hq⟩ := Option.isSome_iff_exists.mp hsome
      rw [hq]
      exact roundsFit_of_short hshort fuel p' written'

/-- How the loop without checks ends if all rounds stay in the string. -/
def AllPassed (s : List UInt8) (destCapacity : Nat) (sub : Option Nat) :
    Except Conversion Conversion → Prop
  | .ok st => ∃ codes, st.JavaHolds s destCapacity sub codes []
  | .error st => st.JavaFails s destCapacity sub

theorem javaFastLoop_behind (hend : st.pSrc = s.length + 1) :
    javaFastLoop (memory s nul) destCapacity subchar s.length (fuel + 1) st = some (.ok st) := by
  have hzero : s.length - st.pSrc = 0 := by omega
  rw [javaFastLoop, javaAsciiRun, hzero, if_neg (by omega)]
  simp only [Option.bind_eq_bind, Option.bind_some, hzero]
  rw [if_pos (by omega)]
  rfl

/-- Without a substitution character, only well-formed units are passed. -/
theorem short_of_none : ∀ p < s.length,
    (javaCodePoint s p (unitEnd s p)).or none ≠ none → unitEnd s p ≤ p + 3 := by
  intro p hp hsome
  obtain ⟨b, hb, -⟩ := byteAt_eq_some hp
  rw [Option.or_none] at hsome
  obtain ⟨v, hv⟩ := Option.ne_none_iff_exists'.mp hsome
  exact (@javaCode_le s ⟨p, [], 0, 0⟩ b v hb hv).2

theorem javaFastLoop_result : ∀ (fuel : Nat) {st : Conversion} {codes : List (Option Nat)},
    st.JavaHolds s destCapacity (subOf subchar) codes [] → s.length - st.pSrc < fuel →
      (roundsFit s nul (subOf subchar) destCapacity fuel st.pSrc st.dest.length = true →
        ∃ r, javaFastLoop (memory s nul) destCapacity subchar s.length fuel st = some r ∧
          AllPassed s destCapacity (subOf subchar) r) ∧
      (roundsFit s nul (subOf subchar) destCapacity fuel st.pSrc st.dest.length = false →
        Overruns s (subOf subchar)
          (javaFastLoop (memory s nul) destCapacity subchar s.length fuel st))
  | 0, _, _, _, hfuel => by omega
  | fuel + 1, st, codes, h, hfuel => by
    obtain ⟨st1, codes1, hrun, h1, hend, hlength⟩ := @javaAsciiRun_eq s _ _ st codes nul h
    rw [javaFastLoop, hrun, roundsFit, ← hend, ← hlength]
    simp only [Option.bind_eq_bind, Option.bind_some]
    have hfits := h1.length_le
    set count := min (destCapacity - st1.dest.length) ((s.length - st1.pSrc) / 3) with hcount
    by_cases hsmall : count < 3
    · rw [if_pos hsmall, if_pos hsmall]
      exact ⟨fun _ => ⟨.ok st1, rfl, ⟨codes1, h1⟩⟩, fun hcon => nomatch hcon⟩
    rw [if_neg hsmall, if_neg hsmall]
    have hround := @javaFastInnerLoop_result s destCapacity subchar nul (count + 1) count
      (st1.pSrc + 1) st1 codes1 h1 (by omega) (by omega) (.inr ⟨by omega, Nat.le_refl _⟩)
    cases hq : roundEnd s nul (subOf subchar) count st1.pSrc st1.dest.length with
    | none =>
      rw [hq] at hround
      refine ⟨(fun hcon => nomatch hcon), fun _ => ?_⟩
      rcases hround with hr | ⟨st', hr, hbehind, hrest⟩
      · rw [hr]
        exact .inl rfl
      obtain ⟨fuel, rfl⟩ : ∃ f, fuel = f + 1 := ⟨fuel - 1, by omega⟩
      rw [hr]
      exact .inr ⟨st', javaFastLoop_behind hbehind, hbehind, hrest⟩
    | some q =>
      obtain ⟨p, written⟩ := q
      rw [hq] at hround
      obtain ⟨r, hr, hpassed⟩ := hround
      rw [hr]
      cases r with
      | error st' =>
        refine ⟨fun _ => ⟨.error st', rfl, hpassed⟩, fun hcon => ?_⟩
        obtain ⟨_, _, -, hnone, -⟩ := hpassed
        dsimp only at hcon
        rw [hnone, roundsFit_of_short short_of_none] at hcon
        cases hcon
      | ok st' =>
        obtain ⟨⟨codes', hholds⟩, rfl, rfl, hprogress⟩ := hpassed
        exact javaFastLoop_result fuel hholds (by omega)

end Conversion

end Icu.StrTrans
