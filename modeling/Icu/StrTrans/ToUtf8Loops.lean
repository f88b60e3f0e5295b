import Icu.StrTrans.Reference
import Icu.StrTrans.ToUtf8Model
import Icu.Utf16.Joining

/-! # The loops of `u_strToUTF8WithSub`

All loops convert the same characters. The ones that write stop at the first character that does
not fit, and from there on the bytes are counted.
-/

namespace Icu.StrTrans

open Lib Utf16

variable {c : Nat}

/-- The code points of a string, and `none` for each unpaired surrogate. -/
def scalars (s : List UInt16) : List (Option Nat) :=
  (codePoints s).map fun c => if uIsSurrogate c then none else some c

/-- The bytes of each character, with a substitution character for unpaired surrogates. -/
def characters (sub : Option Nat) (codes : List (Option Nat)) : List (List UInt8) :=
  codes.map fun code => appendUTF8 ((code.or sub).getD 0)

def bytes (sub : Option Nat) (codes : List (Option Nat)) :
    List UInt8 := (characters sub codes).flatten

def fitting : Nat → List (List UInt8) → List UInt8
  | _, [] => []
  | capacity, c :: cs => if c.length ≤ capacity then c ++ fitting (capacity - c.length) cs else []

/-- The result of a conversion into a destination that is large enough. If it is `invalid`, then
the characters are those before the unpaired surrogate. -/
structure EncodingReference where
  characters : List (List UInt8)
  substitutions : Nat
  invalid : Bool

def encodingReferenceOf (sub : Option Nat) (codes : List (Option Nat)) : EncodingReference :=
  let convertible := codes.takeWhile fun code => (code.or sub).isSome
  { characters := characters sub convertible
    substitutions := convertible.countP (·.isNone)
    invalid := codes.any fun code => (code.or sub).isNone }

def encodingReference (s : List UInt16) (subchar : Int) : EncodingReference :=
  encodingReferenceOf (subOf subchar) (scalars s)

def EncodingReference.result (r : EncodingReference) (destCapacity : Int) (error : UErrorCode) :
    EncodingResult :=
  if r.invalid then ⟨fitting destCapacity.toNat r.characters, none, some 0, .invalidCharFound⟩
  else
    { dest := fitting destCapacity.toNat r.characters ++
        if r.characters.flatten.length < destCapacity then [0] else []
      destLength := some r.characters.flatten.length
      numSubstitutions := some r.substitutions
      error := (uTerminateChars [] destCapacity r.characters.flatten.length error).2 }

theorem length_appendUTF8 (h : IsScalar c) : u8Length c = (appendUTF8 c).length := by
  have hrange := h.not_range
  have hle := h.le
  rw [u8Length, appendUTF8]
  split
  · rfl
  split
  · rfl
  split
  · rw [if_pos (by omega)]
    rfl
  · rw [if_neg (by omega)]
    split <;> rfl

theorem fitting_append : ∀ {capacity : Nat} {cs cs' : List (List UInt8)},
    cs.flatten.length ≤ capacity →
    fitting capacity (cs ++ cs') = cs.flatten ++ fitting (capacity - cs.flatten.length) cs'
  | _, [], _, _ => rfl
  | capacity, c :: cs, cs', h => by
    rw [List.flatten_cons, List.length_append] at h
    rw [List.cons_append, fitting, if_pos (by omega), fitting_append (by omega), List.flatten_cons,
      List.append_assoc, List.length_append, Nat.sub_sub]

theorem fitting_full {capacity : Nat} {c : List UInt8} {cs : List (List UInt8)}
    (h : capacity < c.length) : fitting capacity (c :: cs) = [] := by
  rw [fitting, if_neg (by omega)]

variable {s : List UInt16} {sub : Option Nat} {codes codes' : List (Option Nat)}

theorem bytes_append : bytes sub (codes ++ codes') = bytes sub codes ++ bytes sub codes' := by
  rw [bytes, characters, List.map_append, List.flatten_append]
  rfl

theorem bytes_singleton {code : Option Nat} {v : Nat} (h : code.or sub = some v) :
    bytes sub [code] = appendUTF8 v := by
  rw [bytes, characters, List.map_singleton, h, List.flatten_singleton]
  rfl

/-! ## Reading -/

/-- The next character of a string is at `p`, and the one after it at `e`. -/
structure NextCode (s : List UInt16) (p e : Nat) (code : Option Nat) : Prop where
  lt : p < e
  le : e ≤ s.length
  scalars_eq : scalars (s.drop p) = code :: scalars (s.drop e)
  scalar : ∀ c, code = some c → IsScalar c

theorem scalars_cons {p e : Nat} (h : codePoints (s.drop p) = c :: codePoints (s.drop e)) :
    scalars (s.drop p) = (if uIsSurrogate c then none else some c) :: scalars (s.drop e) := by
  rw [scalars, h, List.map_cons]
  rfl

inductive UnitsAt (s : List UInt16) (p : Nat) : Nat → Nat → Option Nat → Prop
  | plain {ch : Nat} : unitAt s p = some ch → uIsSurrogate ch = false →
    NextCode s p (p + 1) (some ch) →
      UnitsAt s p ch (p + 1) (some ch)
  | pair {ch ch2 : Nat} : unitAt s p = some ch → u16IsLead ch = true → unitAt s (p + 1) = some ch2 →
      u16IsTrail ch2 = true → NextCode s p (p + 2) (some (u16GetSupplementary ch ch2)) →
      UnitsAt s p ch (p + 2) (some (u16GetSupplementary ch ch2))
  | unpaired {ch : Nat} : unitAt s p = some ch → uIsSurrogate ch = true →
      (u16IsLead ch = true → ∀ ch2, unitAt s (p + 1) = some ch2 → u16IsTrail ch2 = false) →
      NextCode s p (p + 1) none → UnitsAt s p ch (p + 1) none

theorem UnitsAt.next {p e ch : Nat} {code : Option Nat} (h : UnitsAt s p ch e code) :
    NextCode s p e code ∧ unitAt s p = some ch := by
  cases h with
  | plain h1 _ h2 => exact ⟨h2, h1⟩
  | pair h1 _ _ _ h2 => exact ⟨h2, h1⟩
  | unpaired h1 _ _ h2 => exact ⟨h2, h1⟩

theorem isScalar_pair {u v : UInt16} (hu : u16IsLead u.toNat = true)
    (hv : u16IsTrail v.toNat = true) :
    IsScalar (u16GetSupplementary u.toNat v.toNat) := by
  obtain ⟨h1, h2⟩ := supplementary_bounds hu hv
  generalize u16GetSupplementary u.toNat v.toNat = c at h1 h2
  refine ⟨h2, ?_⟩
  rw [← Bool.not_eq_true, uIsSurrogate_iff (by omega)]
  omega

theorem exists_unitsAt {p : Nat} (hp : p < s.length) : ∃ ch e code, UnitsAt s p ch e code := by
  obtain ⟨u, hget⟩ : ∃ u, s[p]? = some u := ⟨_, List.getElem?_eq_getElem hp⟩
  have hu : unitAt s p = some u.toNat := by rw [unitAt, hget]; rfl
  have hdrop : ∀ {i : Nat} {u : UInt16}, s[i]? = some u → s.drop i = u :: s.drop (i + 1) := by
    intro i u h
    obtain ⟨hi, rfl⟩ := List.getElem?_eq_some_iff.mp h
    exact List.drop_eq_getElem_cons hi
  by_cases hpair : u16IsLead u.toNat = true ∧ ∃ ch2, unitAt s (p + 1) = some ch2 ∧ u16IsTrail ch2 =
    true
  · obtain ⟨hlead, ch2, hch2, htrail⟩ := hpair
    obtain ⟨v, hv, rfl⟩ := Option.map_eq_some_iff.mp hch2
    have hlt := (List.getElem?_eq_some_iff.mp hv).1
    have hscalar := isScalar_pair hlead htrail
    have hcodes : codePoints (s.drop p) =
        u16GetSupplementary u.toNat v.toNat :: codePoints (s.drop (p + 2)) := by
      rw [hdrop hget, hdrop hv, codePoints_pair hlead htrail]
    refine ⟨_, _, _, .pair hu hlead hch2 htrail ⟨Nat.lt_add_of_pos_right Nat.two_pos, hlt, ?_, ?_⟩⟩
    · rw [scalars_cons hcodes, hscalar.not_surrogate]
      rfl
    intro c hc
    rw [← Option.some.inj hc]
    exact hscalar
  have hunit : codePoints (s.drop p) = u.toNat :: codePoints (s.drop (p + 1)) := by
    rw [hdrop hget, codePoints_unit]
    intro hlead v hv
    rw [← Bool.not_eq_true]
    intro htrail
    rw [List.head?_drop] at hv
    exact hpair ⟨hlead, v.toNat, by rw [unitAt, hv]; rfl, htrail⟩
  have hcodes := scalars_cons hunit
  cases hsurrogate : uIsSurrogate u.toNat with
  | false =>
    rw [hsurrogate] at hcodes
    refine ⟨_, _, _, .plain hu hsurrogate ⟨Nat.lt_succ_self p, hp, hcodes, ?_⟩⟩
    rintro c ⟨⟩
    have := u.toNat_lt
    exact ⟨by omega, hsurrogate⟩
  | true =>
    rw [hsurrogate] at hcodes
    refine ⟨_, _, _, .unpaired hu hsurrogate (fun hlead ch2 hch2 => ?_)
      ⟨Nat.lt_succ_self p, hp, hcodes, fun c hc => by cases hc⟩⟩
    rw [← Bool.not_eq_true]
    exact fun htrail => hpair ⟨hlead, ch2, hch2, htrail⟩

theorem u16IsSurrogateLead_eq {ch : Nat} (h : uIsSurrogate ch = true) (hch : ch < 0x10000) :
    u16IsSurrogateLead ch = u16IsLead ch := by
  rw [uIsSurrogate_iff (by omega)] at h
  have hbit : ch &&& 0x400 = (ch.testBit 10).toNat * 2 ^ 10 := Nat.and_two_pow ch 10
  rw [Bool.eq_iff_iff, u16IsLead_iff (by omega), u16IsSurrogateLead, hbit, beq_iff_eq,
    Nat.testBit_eq_decide_div_mod_eq]
  by_cases hdiv : ch / 2 ^ 10 % 2 = 1
  · rw [decide_eq_true hdiv]
    simp only [Bool.toNat_true]
    omega
  · rw [decide_eq_false hdiv]
    simp only [Bool.toNat_false]
    omega

/-- The memory `t` has the string `s`, and no trail surrogate behind it. -/
structure Source (s t : List UInt16) (room : Nat → Bool) : Prop where
  same : ∀ i < s.length, unitAt t i = unitAt s i
  inside : ∀ i < s.length, room i = true
  behind : room s.length = true → ∃ ch, unitAt t s.length = some ch ∧ u16IsTrail ch = false

theorem source_counted (s : List UInt16) : Source s s fun i => decide (i < s.length) :=
  ⟨fun _ _ => rfl, fun _ hi => decide_eq_true hi, fun h => absurd h (by simp)⟩

theorem source_terminated (s : List UInt16) : Source s (s ++ [0]) fun _ => true := by
  refine ⟨fun i hi => ?_, fun _ _ => rfl, fun _ => ⟨0, ?_, by decide⟩⟩
  · rw [unitAt, List.getElem?_append_left hi, unitAt]
  · simp [unitAt]

namespace Encoding

variable {t : List UInt16} {room : Nat → Bool} {p e ch : Nat} {code : Option Nat} {subchar : Int}
  {step : Nat → Encoding → Option EncodingStep}
  {loop : Nat → Encoding → Option (Except Encoding Encoding)}

theorem pairAt_eq (hsource : Source s t room) (h : UnitsAt s p ch e code)
    (hsurrogate : uIsSurrogate ch = true) : pairAt t room ch (p + 1) = some code := by
  cases h with
  | plain _ hnot _ =>
    rw [hnot] at hsurrogate
    contradiction
  | @pair ch2 hch hlead hch2 htrail hnext =>
    have hlt : p + 1 < s.length := hnext.le
    rw [pairAt, u16IsSurrogateLead_eq hsurrogate (unitAt_lt hch),
      if_pos ⟨hlead, hsource.inside _ hlt⟩,
      hsource.same _ hlt, hch2]
    simp only [Option.bind_eq_bind, Option.bind_some, if_pos htrail]
    rfl
  | unpaired hch _ hno hnext =>
    rw [pairAt, u16IsSurrogateLead_eq hsurrogate (unitAt_lt hch)]
    split
    · next hcond =>
      obtain ⟨hlead, hroom⟩ := hcond
      obtain ⟨ch2, hch2, hnot⟩ : ∃ ch2, unitAt t (p + 1) = some ch2 ∧ u16IsTrail ch2 = false := by
        rcases Nat.eq_or_lt_of_le hnext.le with heq | hlt
        · rw [heq] at hroom ⊢
          exact hsource.behind hroom
        · obtain ⟨ch2, hch2, -⟩ := unitAt_eq_some hlt
          exact ⟨ch2, by rw [hsource.same _ hlt, hch2], hno hlead ch2 hch2⟩
      rw [hch2]
      simp only [Option.bind_eq_bind, Option.bind_some, hnot, Bool.false_eq_true, if_false]
      rfl
    · rfl

def behind (st : Encoding) (e : Nat) (code : Option Nat) : Encoding :=
  { st with
    pSrc := e
    numSubstitutions := if code = none then int32 (st.numSubstitutions + 1)
      else st.numSubstitutions }

theorem behind_some (st : Encoding) (e c : Nat) : st.behind e (some c) = { st with pSrc := e } :=
    rfl

theorem lead_of_supplementary {p ch ch2 : Nat} (hch : unitAt s p = some ch)
    (hlead : u16IsLead ch = true) (hch2 : unitAt s (p + 1) = some ch2)
    (htrail : u16IsTrail ch2 = true) :
    uIsSurrogate ch = true ∧ 0xffff < u16GetSupplementary ch ch2 := by
  obtain ⟨u, -, rfl⟩ := Option.map_eq_some_iff.mp hch
  obtain ⟨v, -, rfl⟩ := Option.map_eq_some_iff.mp hch2
  exact ⟨uIsSurrogate_of_lead hlead, (supplementary_bounds hlead htrail).1⟩

theorem not_surrogate_range (h : uIsSurrogate ch = false) (hch : ch < 0x10000) :
    ch ≤ 0xd7ff ∨ ch ≥ 0xe000 := by
  rw [← Bool.not_eq_true, uIsSurrogate_iff (by omega)] at h
  omega

theorem surrogate_range (h : uIsSurrogate ch = true) (hch : ch < 0x10000) :
    ¬ ch ≤ 0x7f ∧ ¬ ch ≤ 0x7ff ∧ ¬ (ch ≤ 0xd7ff ∨ ch ≥ 0xe000) := by
  rw [uIsSurrogate_iff (by omega)] at h
  omega

theorem subOf_eq (hsub : subchar < 0 ∨ IsScalar subchar.toNat) :
    (subchar < 0 ∧ subOf subchar = none) ∨
      (subchar ≥ 0 ∧ subOf subchar = some subchar.toNat ∧ IsScalar subchar.toNat) := by
  rw [subOf]
  rcases hsub with h | h
  · exact .inl ⟨h, if_pos h⟩
  by_cases hneg : subchar < 0
  · exact .inl ⟨hneg, if_pos hneg⟩
  · exact .inr ⟨by omega, if_neg hneg, h⟩

/-- What a step does with the value for the character, if there is one. -/
def stepWith (st : Encoding) (e : Nat) (code value : Option Nat)
    (f : Nat → Encoding → Option EncodingStep) : Option EncodingStep :=
  match value with
  | none => some (.invalid { st with pSrc := e })
  | some v => f v (st.behind e code)

theorem writeStep_pair {st : Encoding} {destCapacity : Nat} (h1 : ¬ ch ≤ 0x7f) (h2 : ¬ ch ≤ 0x7ff)
    (h3 : ¬ (ch ≤ 0xd7ff ∨ ch ≥ 0xe000)) (hpair : pairAt t room ch (st.pSrc + 1) = some (some c))
    (hscalar : IsScalar c) : writeStep t destCapacity subchar room ch st =
      putOrStop destCapacity (appendUTF8 c).length (appendUTF8 c)
        (st.behind (st.pSrc + 2) (some c)) := by
  rw [writeStep, if_neg h1, if_neg h2, if_neg h3, surrogate, hpair]
  simp only [Option.bind_eq_bind, Option.bind_some, Option.pure_def]
  rw [length_appendUTF8 hscalar]
  rfl

theorem writeStep_eq {st : Encoding} {destCapacity : Nat} (hsource : Source s t room)
    (h : UnitsAt s st.pSrc ch e code) (hsub : subchar < 0 ∨ IsScalar subchar.toNat) :
    writeStep t destCapacity subchar room ch st = stepWith st e code (code.or (subOf subchar))
      fun v st => putOrStop destCapacity (appendUTF8 v).length (appendUTF8 v) st := by
  have hpair := fun hsurrogate => pairAt_eq hsource h hsurrogate
  cases h with
  | plain hch hnot hnext =>
    have hlt := unitAt_lt hch
    have hrange := not_surrogate_range hnot hlt
    rw [writeStep, Option.some_or, stepWith, behind_some]
    by_cases h1 : ch ≤ 0x7f
    · rw [if_pos h1, appendUTF8, if_pos h1]
      rfl
    rw [if_neg h1]
    by_cases h2 : ch ≤ 0x7ff
    · rw [if_pos h2, appendUTF8, if_neg h1, if_pos h2]
      rfl
    · rw [if_neg h2, if_pos hrange, appendUTF8, if_neg h1, if_neg h2, if_pos (by omega)]
      rfl
  | @pair ch2 hch hlead hch2 htrail hnext =>
    obtain ⟨hsurrogate, -⟩ := lead_of_supplementary hch hlead hch2 htrail
    obtain ⟨h1, h2, h3⟩ := surrogate_range hsurrogate (unitAt_lt hch)
    exact writeStep_pair h1 h2 h3 (hpair hsurrogate) (hnext.scalar _ rfl)
  | unpaired hch hsurrogate hno hnext =>
    obtain ⟨h1, h2, h3⟩ := surrogate_range hsurrogate (unitAt_lt hch)
    rw [writeStep, if_neg h1, if_neg h2, if_neg h3, surrogate, hpair hsurrogate, Option.none_or]
    simp only [Option.bind_eq_bind, Option.bind_some]
    rcases subOf_eq hsub with ⟨hneg, heq⟩ | ⟨hpos, heq, hscalar⟩
    · rw [if_neg (by omega), heq]
      rfl
    rw [if_pos hpos, heq]
    simp only [Option.pure_def, Option.bind_some]
    rw [length_appendUTF8 hscalar]
    rfl

theorem countStep_eq {st : Encoding} (hsource : Source s t room)
    (h : UnitsAt s st.pSrc ch e code) (hsub : subchar < 0 ∨ IsScalar subchar.toNat) :
    countStep t subchar room ch st = stepWith st e code (code.or (subOf subchar))
      fun v st => some
        (.go { st with reqLength := int32 (st.reqLength + (appendUTF8 v).length) }) := by
  have hpair := fun hsurrogate => pairAt_eq hsource h hsurrogate
  cases h with
  | plain hch hnot hnext =>
    have hlt := unitAt_lt hch
    rw [countStep, Option.some_or, stepWith, behind_some]
    by_cases h1 : ch ≤ 0x7f
    · rw [if_pos h1, appendUTF8, if_pos h1]
      rfl
    rw [if_neg h1]
    by_cases h2 : ch ≤ 0x7ff
    · rw [if_pos h2, appendUTF8, if_neg h1, if_pos h2]
      rfl
    rw [if_neg h2, if_pos (by rw [hnot]; rfl), appendUTF8, if_neg h1, if_neg h2,
      if_pos (by omega)]
    rfl
  | @pair ch2 hch hlead hch2 htrail hnext =>
    obtain ⟨hsurrogate, hlarge⟩ := lead_of_supplementary hch hlead hch2 htrail
    obtain ⟨h1, h2, -⟩ := surrogate_range hsurrogate (unitAt_lt hch)
    rw [countStep, if_neg h1, if_neg h2, if_neg (by rw [hsurrogate]; decide), hpair hsurrogate]
    generalize u16GetSupplementary ch ch2 = c at hlarge ⊢
    simp only [Option.bind_eq_bind, Option.bind_some, Option.some_or, stepWith]
    rw [appendUTF8, if_neg (by omega), if_neg (by omega), if_neg (by omega)]
    rfl
  | unpaired hch hsurrogate hno hnext =>
    obtain ⟨h1, h2, -⟩ := surrogate_range hsurrogate (unitAt_lt hch)
    rw [countStep, if_neg h1, if_neg h2, if_neg (by rw [hsurrogate]; decide), hpair hsurrogate,
      Option.none_or]
    simp only [Option.bind_eq_bind, Option.bind_some]
    rcases subOf_eq hsub with ⟨hneg, heq⟩ | ⟨hpos, heq, hscalar⟩
    · rw [if_neg (by omega), heq]
      rfl
    · rw [if_pos hpos, heq, length_appendUTF8 hscalar]
      rfl

variable (s) (destCapacity : Nat) (sub : Option Nat)

/-- The source was converted up to `pSrc`: the bytes of `codes` were written, and those of
`codes'` were counted because the first of these characters does not fit. -/
structure Holds (st : Encoding) (codes codes' : List (Option Nat)) : Prop where
  le : st.pSrc ≤ s.length
  read : scalars s = codes ++ codes' ++ scalars (s.drop st.pSrc)
  convertible : ∀ code ∈ codes ++ codes', (code.or sub).isSome = true
  dest : st.dest = bytes sub codes
  fits : st.dest.length ≤ destCapacity
  full : ∀ code rest, codes' = code :: rest →
    destCapacity < st.dest.length + (bytes sub [code]).length
  reqLength : st.reqLength = int32 (bytes sub codes').length
  numSubstitutions : st.numSubstitutions = int32 ((codes ++ codes').countP (·.isNone))

/-- The source was converted up to an unpaired surrogate for which there is no substitution. -/
def Fails (st : Encoding) : Prop :=
  ∃ codes codes' rest, scalars s = codes ++ codes' ++ none :: rest ∧ sub = none ∧
    (∀ code ∈ codes ++ codes', (code.or sub).isSome = true) ∧ st.dest = bytes sub codes ∧
    st.dest.length ≤ destCapacity ∧ ∀ code rest', codes' ++ [none] = code :: rest' →
      codes' = [] ∨ destCapacity < st.dest.length + (bytes sub [code]).length

variable {s destCapacity sub} {st st' : Encoding} {codes' : List (Option Nat)} {v : Nat}

theorem isNone_or_eq (h : code.or sub = none) :
    code = none ∧ sub = none := Option.or_eq_none_iff.mp h

namespace Holds

variable (h : st.Holds s destCapacity sub codes codes')

include h

theorem numSubstitutions_behind (code : Option Nat) :
    (st.behind e code).numSubstitutions =
      int32 ((codes ++ codes' ++ [code]).countP (·.isNone)) := by
  rw [List.countP_append, behind]
  cases code with
  | none =>
    dsimp only
    rw [if_pos rfl, h.numSubstitutions, int32_add_left]
    rfl
  | some c =>
    rw [if_neg (by simp), h.numSubstitutions]
    rfl

/-- Counting a character, once one did not fit or when this one does not. -/
theorem count (hnext : NextCode s st.pSrc e code) (hcode : code.or sub = some v)
    (hfull : codes' ≠ [] ∨ destCapacity < st.dest.length + (appendUTF8 v).length) :
    ({ st.behind e code with reqLength := int32 (st.reqLength + (appendUTF8 v).length) } :
      Encoding).Holds s destCapacity sub codes (codes' ++ [code]) := by
  have hbytes := bytes_singleton hcode
  refine ⟨hnext.le, ?_, ?_, h.dest, h.fits, ?_, ?_, ?_⟩
  · rw [h.read, hnext.scalars_eq]
    simp [behind]
  · rw [← List.append_assoc, List.forall_mem_append]
    exact ⟨h.convertible, List.forall_mem_singleton.mpr (by rw [hcode]; rfl)⟩
  · intro c rest hc
    cases codes' with
    | nil =>
      obtain ⟨rfl, -⟩ := List.cons.inj hc
      rw [hbytes]
      exact hfull.resolve_left fun hcon => hcon rfl
    | cons c' codes' =>
      obtain ⟨rfl, -⟩ := List.cons.inj hc
      exact h.full c' codes' rfl
  · dsimp only
    rw [h.reqLength, bytes_append, hbytes, List.length_append, int32_add_left]
    rfl
  · dsimp only
    rw [h.numSubstitutions_behind, ← List.append_assoc]

theorem write (hnil : codes' = []) (hnext : NextCode s st.pSrc e code)
    (hcode : code.or sub = some v) (hfits : st.dest.length + (appendUTF8 v).length ≤ destCapacity) :
    ({ st.behind e code with dest := st.dest ++ appendUTF8 v } :
      Encoding).Holds s destCapacity sub (codes ++ [code]) [] := by
  subst hnil
  have hbytes := bytes_singleton hcode
  have hread := h.read
  have hconvertible := h.convertible
  have hnum := h.numSubstitutions_behind (e := e) code
  rw [List.append_nil] at hread hconvertible hnum
  refine ⟨hnext.le, ?_, ?_, ?_, ?_, ?_, h.reqLength, ?_⟩
  · rw [hread, hnext.scalars_eq]
    simp [behind]
  · rw [List.append_nil, List.forall_mem_append]
    exact ⟨hconvertible, List.forall_mem_singleton.mpr (by rw [hcode]; rfl)⟩
  · dsimp only
    rw [bytes_append, hbytes, h.dest]
  · dsimp only
    rw [List.length_append]
    exact hfits
  · intro c rest hc
    cases hc
  · rw [List.append_nil]
    exact hnum

theorem fails (hnext : NextCode s st.pSrc e code) (hcode : code.or sub = none)
    (hdest : st'.dest = st.dest) : st'.Fails s destCapacity sub := by
  obtain ⟨rfl, hsub⟩ := isNone_or_eq hcode
  refine ⟨codes, codes', scalars (s.drop e), by rw [h.read, hnext.scalars_eq], hsub, h.convertible,
    by rw [hdest, h.dest], by rw [hdest]; exact h.fits, fun c rest hc => ?_⟩
  cases codes' with
  | nil => exact .inl rfl
  | cons c' codes' =>
    obtain ⟨rfl, -⟩ := List.cons.inj hc
    rw [hdest]
    exact .inr (h.full c' codes' rfl)

end Holds

def Ended (s : List UInt16) (destCapacity : Nat) (sub : Option Nat) :
    Except Encoding Encoding → Prop
  | .ok st => ∃ codes codes', st.Holds s destCapacity sub codes codes' ∧
      (st.pSrc = s.length ∨ codes' ≠ [])
  | .error st => st.Fails s destCapacity sub

def Complete (s : List UInt16) (destCapacity : Nat) (sub : Option Nat) :
    Except Encoding Encoding → Prop
  | .ok st => ∃ codes codes', st.Holds s destCapacity sub codes codes' ∧ st.pSrc = s.length
  | .error st => st.Fails s destCapacity sub

structure IsLoop (s : List UInt16) (step : Nat → Encoding → Option EncodingStep)
    (loop : Nat → Encoding → Option (Except Encoding Encoding)) : Prop where
  atEnd : ∀ fuel (st : Encoding), st.pSrc = s.length → loop (fuel + 1) st = some (.ok st)
  next : ∀ fuel (st : Encoding) ch, st.pSrc < s.length → unitAt s st.pSrc = some ch →
    loop (fuel + 1) st = (step ch st).bind fun r => match r with
      | .go st => loop fuel st
      | .stop st => some (.ok st)
      | .invalid st => some (.error st)

theorem terminatedLoop_isLoop
    (hnul : (0 : UInt16) ∉ s) : IsLoop s step (terminatedLoop (s ++ [0]) step) := by
  have hsource := source_terminated s
  refine ⟨fun fuel st hend => ?_, fun fuel st ch hlt hch => ?_⟩
  · rw [terminatedLoop, hend]
    simp [unitAt]
  have hne : ch ≠ 0 := by
    obtain ⟨u, hu, rfl⟩ := Option.map_eq_some_iff.mp hch
    intro hzero
    rw [UInt16.toNat_inj.mp (show u.toNat = (0 : UInt16).toNat from hzero)] at hu
    exact hnul (List.mem_of_getElem? hu)
  rw [terminatedLoop, hsource.same _ hlt, hch]
  simp only [Option.bind_eq_bind, Option.bind_some, if_pos hne]
  rfl

theorem countedLoop_isLoop : IsLoop s step (countedLoop s s.length step) := by
  refine ⟨fun fuel st hend => ?_, fun fuel st ch hlt hch => ?_⟩
  · rw [countedLoop, if_neg (by omega)]
  rw [countedLoop, if_pos hlt, hch]
  rfl

theorem length_appendUTF8_le (c : Nat) : (appendUTF8 c).length ≤ 4 := by
  rw [appendUTF8]
  split
  · simp
  split
  · simp [twoBytes]
  split
  · simp [threeBytes]
  · simp [fourBytes]

theorem putOrStop_spec (h : st.Holds s destCapacity sub codes [])
    (hnext : NextCode s st.pSrc e code)
    (hcode : code.or sub = some v) :
    (∃ st', putOrStop destCapacity (appendUTF8 v).length (appendUTF8 v) (st.behind e code) =
      some (.go st') ∧ st'.Holds s destCapacity sub (codes ++ [code]) [] ∧ st'.pSrc = e) ∨
    ∃ st', putOrStop destCapacity (appendUTF8 v).length (appendUTF8 v) (st.behind e code) =
      some (.stop st') ∧ st'.Holds s destCapacity sub codes [code] := by
  have hfits := h.fits
  rw [putOrStop]
  have hdest : (st.behind e code).dest = st.dest := rfl
  by_cases hroom : destCapacity - (st.behind e code).dest.length ≥ (appendUTF8 v).length
  · rw [if_pos hroom, put, if_pos (by rw [hdest] at hroom ⊢; omega)]
    rw [hdest] at hroom
    exact .inl ⟨_, rfl, h.write rfl hnext hcode (by omega), rfl⟩
  rw [if_neg hroom]
  rw [hdest] at hroom
  have hcount := h.count hnext hcode (.inr (by omega))
  have hzero : st.reqLength = 0 := by rw [h.reqLength]; simp [bytes, characters, int32]
  have hfour := length_appendUTF8_le v
  rw [hzero, Int.zero_add, int32_of_lt (by omega)] at hcount
  exact .inr ⟨_, rfl, hcount⟩

theorem writeLoop_ended (hsource : Source s t room) (hsub : subchar < 0 ∨ IsScalar subchar.toNat)
    (hloop : IsLoop s (writeStep t destCapacity subchar room) loop) : ∀ (fuel : Nat) {st : Encoding}
    {codes : List (Option Nat)}, st.Holds s destCapacity (subOf subchar) codes [] →
    s.length - st.pSrc < fuel → ∃ r, loop fuel st = some r ∧ Ended s destCapacity (subOf subchar) r
  | 0, _, _, _, hfuel => by omega
  | fuel + 1, st, codes, h, hfuel => by
    rcases Nat.eq_or_lt_of_le h.le with heq | hlt
    · exact ⟨.ok st, hloop.atEnd fuel st heq, codes, [], h, .inl heq⟩
    obtain ⟨ch, e, code, hunits⟩ := exists_unitsAt hlt
    obtain ⟨hnext, hch⟩ := hunits.next
    have hpe := hnext.lt
    rw [hloop.next fuel st ch hlt hch, writeStep_eq hsource hunits hsub]
    cases hcode : code.or (subOf subchar) with
    | none => exact ⟨_, rfl, h.fails hnext hcode rfl⟩
    | some v =>
      rw [stepWith]
      rcases putOrStop_spec h hnext hcode with ⟨st', hr, hholds, hp⟩ | ⟨st', hr, hholds⟩
      · rw [hr]
        exact writeLoop_ended hsource hsub hloop fuel hholds (by omega)
      · rw [hr]
        exact ⟨_, rfl, _, _, hholds, .inr (by simp)⟩

theorem countLoop_complete (hsource : Source s t room) (hsub : subchar < 0 ∨ IsScalar subchar.toNat)
    (hloop : IsLoop s (countStep t subchar room) loop) : ∀ (fuel : Nat) {st : Encoding}
    {codes codes' : List (Option Nat)}, st.Holds s destCapacity (subOf subchar) codes codes' →
    st.pSrc = s.length ∨ codes' ≠ [] → s.length - st.pSrc < fuel →
    ∃ r, loop fuel st = some r ∧ Complete s destCapacity (subOf subchar) r
  | 0, _, _, _, _, _, hfuel => by omega
  | fuel + 1, st, codes, codes', h, hfull, hfuel => by
    rcases Nat.eq_or_lt_of_le h.le with heq | hlt
    · exact ⟨.ok st, hloop.atEnd fuel st heq, codes, codes', h, heq⟩
    obtain ⟨ch, e, code, hunits⟩ := exists_unitsAt hlt
    obtain ⟨hnext, hch⟩ := hunits.next
    have hpe := hnext.lt
    have hne := hfull.resolve_left (by omega)
    rw [hloop.next fuel st ch hlt hch, countStep_eq hsource hunits hsub]
    cases hcode : code.or (subOf subchar) with
    | none => exact ⟨_, rfl, h.fails hnext hcode rfl⟩
    | some v =>
      exact countLoop_complete hsource hsub hloop fuel (h.count hnext hcode (.inl hne))
        (.inr (by simp)) (show s.length - e < fuel by omega)

/-! ## The loop without checks -/

theorem length_appendUTF8_bmp (h : c ≤ 0xffff) : (appendUTF8 c).length ≤ 3 := by
  rw [appendUTF8]
  split
  · simp
  split
  · simp [twoBytes]
  · simp [threeBytes]

/-- How the inner loop ends, from `p` on. -/
def Passed (s : List UInt16) (destCapacity : Nat) (sub : Option Nat) (p : Nat) :
    Except Encoding Encoding → Prop
  | .ok st => ∃ codes, st.Holds s destCapacity sub codes [] ∧ p ≤ st.pSrc
  | .error st => st.Fails s destCapacity sub

theorem put_behind (h : st.Holds s destCapacity sub codes []) (hnext : NextCode s st.pSrc e code)
    (hcode : code.or sub = some v) (hroom : st.dest.length + (appendUTF8 v).length ≤ destCapacity) :
    ∃ st', put destCapacity (appendUTF8 v) (st.behind e code) = some st' ∧
      st'.Holds s destCapacity sub (codes ++ [code]) [] ∧ st'.pSrc = e ∧
      st'.dest.length = st.dest.length + (appendUTF8 v).length := by
  rw [put]
  exact ⟨_, if_pos hroom, h.write rfl hnext hcode hroom, rfl, List.length_append⟩

theorem fastInnerLoop_passed (hsub : subchar < 0 ∨ IsScalar subchar.toNat) : ∀ (count : Nat)
    {st : Encoding} {codes : List (Option Nat)}, st.Holds s destCapacity (subOf subchar) codes [] →
    st.dest.length + 3 * count ≤ destCapacity → st.pSrc + count ≤ s.length →
    ∃ r, fastInnerLoop s destCapacity subchar count st = some r ∧
      Passed s destCapacity (subOf subchar) (if 2 ≤ count then st.pSrc + 1 else st.pSrc) r := by
  intro count
  induction count using Nat.strongRecOn with
  | ind count ih =>
    intro st codes h hroom hsource
    cases count with
    | zero => exact ⟨.ok st, rfl, codes, h, le_refl _⟩
    | succ count =>
      obtain ⟨ch, e, code, hunits⟩ := exists_unitsAt (show st.pSrc < s.length by omega)
      obtain ⟨hnext, hch⟩ := hunits.next
      have hpe := hnext.lt
      -- one character was written, and `n` of the count are left
      have hgo : ∀ {n : Nat} {v : Nat}, n < count + 1 → code.or (subOf subchar) = some v →
          (appendUTF8 v).length + 3 * n ≤ 3 * (count + 1) → e + n ≤ st.pSrc + (count + 1) →
          ∃ r, (put destCapacity (appendUTF8 v) (st.behind e code)).bind
              (fastInnerLoop s destCapacity subchar n) = some r ∧
            Passed s destCapacity (subOf subchar)
              (if 2 ≤ count + 1 then st.pSrc + 1 else st.pSrc) r := by
        intro n v hn hcode hlength he
        obtain ⟨st', hput, hholds, hp, hlen⟩ := put_behind h hnext hcode (by omega)
        rw [hput, Option.bind_some]
        obtain ⟨r, hr, hpassed⟩ := ih n hn hholds (by omega) (by omega)
        refine ⟨r, hr, ?_⟩
        cases r with
        | error st'' => exact hpassed
        | ok st'' =>
          obtain ⟨codes'', hholds'', hle⟩ := hpassed
          refine ⟨codes'', hholds'', ?_⟩
          split at hle <;> split <;> omega
      have hpair : 0 < count → uIsSurrogate ch = true →
          pairAt s (fun _ => true) ch (st.pSrc + 1) = some code := by
        intro hcount hsurrogate
        have hroom : decide (st.pSrc + 1 < s.length) = true := decide_eq_true (by omega)
        rw [← pairAt_eq (source_counted s) hunits hsurrogate, pairAt, pairAt, hroom]
      rw [fastInnerLoop, hch]
      simp only [Option.bind_eq_bind, Option.bind_some]
      cases hunits with
      | plain hch hnot hnext =>
        have hlt := unitAt_lt hch
        have hrange := not_surrogate_range hnot hlt
        have hlength := length_appendUTF8_bmp (show ch ≤ 0xffff by omega)
        have hwritten := hgo (Nat.lt_succ_self count) (Option.some_or) (by omega) (by omega)
        by_cases h1 : ch ≤ 0x7f
        · rw [if_pos h1]
          rw [appendUTF8, if_pos h1] at hwritten
          exact hwritten
        rw [if_neg h1]
        by_cases h2 : ch ≤ 0x7ff
        · rw [if_pos h2]
          rw [appendUTF8, if_neg h1, if_pos h2] at hwritten
          exact hwritten
        · rw [if_neg h2, if_pos hrange]
          rw [appendUTF8, if_neg h1, if_neg h2, if_pos (by omega)] at hwritten
          exact hwritten
      | @pair ch2 hch hlead hch2 htrail hnext =>
        obtain ⟨hsurrogate, hlarge⟩ := lead_of_supplementary hch hlead hch2 htrail
        obtain ⟨h1, h2, h3⟩ := surrogate_range hsurrogate (unitAt_lt hch)
        rw [if_neg h1, if_neg h2, if_neg h3]
        cases count with
        | zero => exact ⟨.ok st, rfl, codes, h, le_refl _⟩
        | succ count =>
          rw [hpair (Nat.succ_pos count) hsurrogate]
          have hle := length_appendUTF8_le (u16GetSupplementary ch ch2)
          have hwritten := @hgo count (u16GetSupplementary ch ch2) (by omega)
            Option.some_or (by omega) (by omega)
          rw [appendUTF8, if_neg (by omega), if_neg (by omega), if_neg (by omega)] at hwritten
          exact hwritten
      | unpaired hch hsurrogate hno hnext =>
        obtain ⟨h1, h2, h3⟩ := surrogate_range hsurrogate (unitAt_lt hch)
        rw [if_neg h1, if_neg h2, if_neg h3]
        cases count with
        | zero => exact ⟨.ok st, rfl, codes, h, le_refl _⟩
        | succ count =>
          rw [hpair (Nat.succ_pos count) hsurrogate]
          simp only [Option.bind_some]
          rcases subOf_eq hsub with ⟨hneg, heq⟩ | ⟨hpos, heq, hscalar⟩
          · rw [if_neg (by omega)]
            exact ⟨_, rfl, h.fails hnext (by rw [heq]; rfl) rfl⟩
          rw [if_pos hpos]
          have hle := length_appendUTF8_le subchar.toNat
          exact @hgo count subchar.toNat (by omega) (by rw [heq]; rfl) (by omega) (by omega)

theorem fastLoop_passed (hsub : subchar < 0 ∨ IsScalar subchar.toNat) : ∀ (fuel : Nat)
    {st : Encoding} {codes : List (Option Nat)}, st.Holds s destCapacity (subOf subchar) codes [] →
    s.length - st.pSrc < fuel → ∃ r, fastLoop s destCapacity subchar s.length fuel st = some r ∧
      Passed s destCapacity (subOf subchar) st.pSrc r
  | 0, _, _, _, hfuel => by omega
  | fuel + 1, st, codes, h, hfuel => by
    have hfits := h.fits
    rw [fastLoop]
    by_cases hcount : min ((destCapacity - st.dest.length) / 3) (s.length - st.pSrc) < 3
    · exact ⟨.ok st, if_pos hcount, codes, h, le_refl _⟩
    obtain ⟨r, hr, hpassed⟩ := fastInnerLoop_passed hsub
      (min ((destCapacity - st.dest.length) / 3) (s.length - st.pSrc)) h (by omega) (by omega)
    rw [if_neg hcount, hr]
    rw [if_pos (by omega)] at hpassed
    cases r with
    | error st' => exact ⟨.error st', rfl, hpassed⟩
    | ok st' =>
      obtain ⟨codes', hholds, hle⟩ := hpassed
      obtain ⟨r, hr, hpassed⟩ := fastLoop_passed hsub fuel hholds (by omega)
      refine ⟨r, hr, ?_⟩
      cases r with
      | error st'' => exact hpassed
      | ok st'' =>
        obtain ⟨codes'', hholds'', hle'⟩ := hpassed
        exact ⟨codes'', hholds'', by omega⟩

theorem holds_start (s : List UInt16) (destCapacity : Nat) (sub : Option Nat) :
    Holds s destCapacity sub ⟨0, [], 0, 0⟩ [] [] :=
  ⟨Nat.zero_le _, by simp, by simp, by simp [bytes, characters], Nat.zero_le _, by simp,
    by simp [bytes, characters, int32], by simp [int32]⟩

theorem terminatedLoops_complete (hnul : (0 : UInt16) ∉ s)
    (hsub : subchar < 0 ∨ IsScalar subchar.toNat) :
    ∃ r, terminatedLoops (s ++ [0]) destCapacity subchar ⟨0, [], 0, 0⟩ = some r ∧
      Complete s destCapacity (subOf subchar) r := by
  have hsource := source_terminated s
  obtain ⟨r, hr, hended⟩ := writeLoop_ended hsource hsub (terminatedLoop_isLoop hnul)
    ((s ++ [0]).length + 1) (holds_start s destCapacity (subOf subchar))
    (by rw [List.length_append]; omega)
  rw [terminatedLoops, hr, andThen]
  cases r with
  | error st => exact ⟨.error st, rfl, hended⟩
  | ok st =>
    obtain ⟨codes, codes', h, hfull⟩ := hended
    exact countLoop_complete hsource hsub (terminatedLoop_isLoop hnul) _ h hfull (by simp; omega)

theorem countedLoops_complete (hsub : subchar < 0 ∨ IsScalar subchar.toNat) :
    ∃ r, countedLoops s destCapacity subchar s.length ⟨0, [], 0, 0⟩ = some r ∧
      Complete s destCapacity (subOf subchar) r := by
  have hsource := source_counted s
  obtain ⟨r, hr, hpassed⟩ := fastLoop_passed hsub (s.length + 1)
    (holds_start s destCapacity (subOf subchar)) (by simp)
  rw [countedLoops, hr]
  cases r with
  | error st => exact ⟨.error st, rfl, hpassed⟩
  | ok st =>
    obtain ⟨codes, h, -⟩ := hpassed
    obtain ⟨r, hr, hended⟩ := writeLoop_ended hsource hsub countedLoop_isLoop (s.length + 1) h
      (by omega)
    simp only [andThen, Option.bind_eq_bind, Option.bind_some, hr]
    cases r with
    | error st => exact ⟨.error st, rfl, hended⟩
    | ok st =>
      obtain ⟨codes, codes', h, hfull⟩ := hended
      exact countLoop_complete hsource hsub countedLoop_isLoop _ h hfull (by omega)

end Encoding

end Icu.StrTrans
