import Icu.Lib.LinearSearch
import Icu.Utf16.Boundaries

/-! # `u_strFindFirst` and `u_strFindLast`

A substring is found where its units are, if these units do not begin or end in a surrogate pair of
the text. A string is given with its length, or with a NUL behind it.

The memory from a pointer on is a list, and pointers are offsets. `none` is the result of a read
behind the memory, and `some none` is `NULL`. Lengths do not overflow.
-/

namespace Icu.UString

open Lib Utf16

/-! ## Model -/

/-- `u_strlen(s)` -/
def uStrlen : List UInt16 → Option Nat
  | [] => none
  | c :: s => if c = 0 then some 0 else (uStrlen s).map (· + 1)

/-- `if(length<0) { length=u_strlen(s); }` -/
def lengthOf (s : List UInt16) (length : Int) : Option Nat :=
  if length < 0 then uStrlen s else some length.toNat

/-- The first condition of `isMatchAtCPBoundary`: the leading edge of the match is in the middle of
a surrogate pair. -/
def splitsLeading (units : List UInt16) (start matchStart : Nat) : Option Bool := do
  let c ← units[matchStart]?
  if u16IsTrail c.toNat && start != matchStart then
    let before ← units[matchStart - 1]?
    return u16IsLead before.toNat
  else return false

/-- The second condition of `isMatchAtCPBoundary`, for the trailing edge. It compares the start of
the match with the limit. -/
def splitsTrailing (units : List UInt16) (matchStart matchLimit : Nat) (limit : Option Nat) :
    Option Bool := do
  let c ← units[matchLimit - 1]?
  if u16IsLead c.toNat && limit != some matchStart then
    let behind ← units[matchLimit]?
    return u16IsTrail behind.toNat
  else return false

/-- `isMatchAtCPBoundary(start, match, matchLimit, limit)` -/
def isMatchAtCPBoundary (units : List UInt16) (start matchStart matchLimit : Nat)
    (limit : Option Nat) : Option Bool := do
  if ← splitsLeading units start matchStart then return false
  else return !(← splitsTrailing units matchStart matchLimit limit)

/-- A well-formed match, or no match because a surrogate pair is split. -/
def matchVerdict (units : List UInt16) (matchStart matchLimit : Nat) (limit : Option Nat) :
    Option Verdict := do
  if ← isMatchAtCPBoundary units 0 matchStart matchLimit limit then return .found else return .next

/-- Compare the rest of a substring with a length, where `n` units are left. Without a limit, the
text is NUL-terminated. -/
def compareRest (units sub : List UInt16) (limit : Option Nat) (i : Nat) :
    Nat → Nat → Nat → Option Verdict
  | p, _, 0 => matchVerdict units i p limit
  | p, q, n + 1 => do
    let c ← units[p]?
    -- no match, and none possible after s
    if limit = none ∧ c = 0 then return .stop
    else
      let cq ← sub[q]?
      if c ≠ cq then return .next else compareRest units sub limit i (p + 1) (q + 1) n

/-- Compare the rest of a NUL-terminated substring with a NUL-terminated text. -/
def compareTerminated (units : List UInt16) (i : Nat) : Nat → List UInt16 → Option Verdict
  | _, [] => none
  | p, cq :: q =>
    if cq = 0 then matchVerdict units i p none
    else do
      let c ← units[p]?
      if c = 0 then return .stop
      else if c ≠ cq then return .next
      else compareTerminated units i (p + 1) q

/-- Compare the units before the last one, where `q` units of the substring are left. -/
def compareBackward (units sub : List UInt16) (limit length : Nat) : Nat → Nat → Option Verdict
  | p, 0 => matchVerdict units p (limit + 1) (some length)
  | p, q + 1 => do
    let c ← units[p - 1]?
    let cq ← sub[q]?
    if c ≠ cq then return .next else compareBackward units sub limit length (p - 1) q

/-- One position of the search for a unit, and what to do where it is. -/
def testUnit (units : List UInt16) (terminated : Bool) (cs : UInt16)
    (compare : Nat → Option Verdict) (i : Nat) : Option Verdict := do
  let c ← units[i]?
  if terminated ∧ c = 0 then return .stop
  else if c = cs then compare i
  else return .next

/-- The loop of `u_strchr` for a unit that is not a surrogate. -/
def strchrLoop (units : List UInt16) (c : UInt16) : Option (Option Nat) :=
  searchUp (fun i => do
    let cs ← units[i]?
    if cs = c then return .found else if cs = 0 then return .stop else return .next)
    none units.length 0

/-- The loop of `u_memchr` for a unit that is not a surrogate. -/
def memchrLoop (units : List UInt16) (c : UInt16) (count : Nat) : Option (Option Nat) :=
  searchUp (fun i => do
    let cs ← units[i]?
    if cs = c then return .found else return .next)
    (some none) count 0

/-- The loop of `u_strrchr` for a unit that is not a surrogate. -/
def strrchrLoop (c : UInt16) : List UInt16 → Nat → Option Nat → Option (Option Nat)
  | [], _, _ => none
  | cs :: s, i, result =>
    let result := if cs = c then some i else result
    if cs = 0 then some result else strrchrLoop c s (i + 1) result

/-- The loop of `u_memrchr` for a unit that is not a surrogate. -/
def memrchrLoop (units : List UInt16) (c : UInt16) (count : Nat) : Option (Option Nat) :=
  searchDown (fun i => do
    let cs ← units[i]?
    if cs = c then return .found else return .next)
    0 count

def findFirst (units : List UInt16) (length : Int) (sub : List UInt16) (subLength : Int) :
    Option (Option Nat) := do
  if length < 0 ∧ subLength < 0 then
    -- both strings are NUL-terminated
    let cs ← sub[0]?
    if cs = 0 then return some 0
    else
      let next ← sub[1]?
      if next = 0 ∧ ¬ uIsSurrogate cs.toNat then strchrLoop units cs
      else
        searchUp (testUnit units true cs fun i => compareTerminated units i (i + 1) (sub.drop 1))
          none units.length 0
  else
    let subLength ← lengthOf sub subLength
    if subLength = 0 then return some 0
    else
      -- get sub[0] to search for it fast
      let cs ← sub[0]?
      let subLength := subLength - 1
      if subLength = 0 ∧ ¬ uIsSurrogate cs.toNat then
        if length < 0 then strchrLoop units cs
        else if length.toNat = 0 then return none
        else memchrLoop units cs length.toNat
      else if length < 0 then
        searchUp (testUnit units true cs fun i => compareRest units sub none i (i + 1) 1 subLength)
          none units.length 0
      else
        let length := length.toNat
        if length ≤ subLength then return none
        else
          -- the substring must start before preLimit
          let preLimit := length - subLength
          searchUp (testUnit units false cs fun i =>
            compareRest units sub (some length) i (i + 1) 1 subLength) (some none) preLimit 0

def findLast (units : List UInt16) (length : Int) (sub : List UInt16) (subLength : Int) :
    Option (Option Nat) := do
  let subLength ← lengthOf sub subLength
  if subLength = 0 then return some 0
  else
    -- get sub[subLength-1] to search for it fast
    let subLength := subLength - 1
    let cs ← sub[subLength]?
    if subLength = 0 ∧ ¬ uIsSurrogate cs.toNat then
      if length < 0 then strrchrLoop cs units 0 none
      else if length.toNat = 0 then return none
      else memrchrLoop units cs length.toNat
    else
      let length ← lengthOf units length
      if length ≤ subLength then return none
      else
        -- the substring must start no later than s+subLength; limit is p+subLength
        searchDown (fun p => testUnit units false cs (fun limit =>
          compareBackward units sub limit length limit subLength) (p + subLength))
          0 (length - subLength)

/-- The checks of the arguments, before one of the searches. -/
def withArguments (find : List UInt16 → Int → List UInt16 → Int → Option (Option Nat))
    (s : Option (List UInt16)) (length : Int) (sub : Option (List UInt16)) (subLength : Int) :
    Option (Option Nat) :=
  let start : Option Nat := s.map fun _ => 0
  match sub with
  | none => some start
  | some sub =>
    if subLength < -1 then some start
    else
      match s with
      | none => some none
      | some s => if length < -1 then some none else find s length sub subLength

def uStrFindFirst : Option (List UInt16) → Int → Option (List UInt16) → Int → Option (Option Nat) :=
  withArguments findFirst

def uStrFindLast : Option (List UInt16) → Int → Option (List UInt16) → Int → Option (Option Nat) :=
  withArguments findLast

/-- The substring is at the offset, and both edges are code point boundaries of the text. -/
structure IsMatch (text sub : List UInt16) (i : Nat) : Prop where
  occurs : sub <+: text.drop i
  leading : IsBoundary text i
  trailing : IsBoundary text (i + sub.length)

/-- A string with its length, or with a NUL behind it. -/
inductive Passing
  | counted
  | terminated
  deriving DecidableEq, Repr

/-- The memory, which goes on with any units. -/
def Passing.units (text rest : List UInt16) : Passing → List UInt16
  | counted => text ++ rest
  | terminated => text ++ 0 :: rest

def Passing.length (text : List UInt16) : Passing → Int
  | counted => text.length
  | terminated => -1

def Passing.Allows (text : List UInt16) (passing : Passing) :
    Prop := passing = terminated → 0 ∉ text

/-- The substring is at the end of the text, with a lead surrogate at its end. -/
structure EndsInLead (text sub : List UInt16) : Prop where
  suffix : sub <:+ text
  lead : ∃ u ∈ sub.getLast?, u16IsLead u.toNat = true
  leading : IsBoundary text (text.length - sub.length)

variable {text sub tail subRest : List UInt16} {i : Nat} {limit : Option Nat}

theorem occurs_iff : sub <+: text.drop i ↔ ∀ q < sub.length, text[i + q]? = sub[q]? := by
  rw [List.prefix_iff_getElem?]
  simp only [List.getElem?_drop]
  exact ⟨fun h q hq => by rw [h q hq, List.getElem?_eq_getElem hq],
    fun h q hq => by rw [h q hq, List.getElem?_eq_getElem hq]⟩

theorem IsMatch.add_le (h : IsMatch text sub i) : i + sub.length ≤ text.length := h.trailing.1

theorem EndsInLead.isMatch (h : EndsInLead text sub) :
    IsMatch text sub (text.length - sub.length) where
  occurs := ⟨[], by rw [List.append_nil]; exact List.suffix_iff_eq_drop.mp h.suffix⟩
  leading := h.leading
  trailing := by
    rw [Nat.sub_add_cancel h.suffix.length_le]
    exact isBoundary_length text

theorem isBoundary_succ_iff (hi : i + 1 ≤ text.length) :
    IsBoundary text (i + 1) ↔ ¬ PairAt text i := by
  refine ⟨fun h => h.2 i rfl, fun h => ⟨hi, fun k hk => ?_⟩⟩
  obtain rfl : k = i := by omega
  exact h

theorem pairAt_iff_units {u v : UInt16} (hu : text[i]? = some u) (hv : text[i + 1]? = some v) :
    PairAt text i ↔ u16IsLead u.toNat = true ∧ u16IsTrail v.toNat = true := by
  simp [PairAt, unitAt, hu, hv]

theorem splitsLeading_eq (hi : i < text.length) :
    ∃ b, splitsLeading (text ++ tail) 0 i = some b ∧ (b = true ↔ ¬ IsBoundary text i) := by
  obtain ⟨v, hv⟩ : ∃ v, text[i]? = some v := ⟨text[i], List.getElem?_eq_getElem hi⟩
  have hread : (text ++ tail)[i]? = some v := by rw [List.getElem?_append_left hi, hv]
  cases i with
  | zero => exact ⟨false, by simp [splitsLeading, hread], by simp [isBoundary_zero]⟩
  | succ k =>
    obtain ⟨u, hu⟩ : ∃ u, text[k]? = some u := ⟨text[k], List.getElem?_eq_getElem (by omega)⟩
    have hbefore : (text ++ tail)[k]? = some u := by
      rw [List.getElem?_append_left (by omega), hu]
    refine ⟨u16IsTrail v.toNat && u16IsLead u.toNat, ?_, ?_⟩
    · cases htrail : u16IsTrail v.toNat <;> simp [splitsLeading, hread, htrail, hbefore]
    rw [isBoundary_succ_iff (by omega), pairAt_iff_units hu hv]
    simp [and_comm]

/-- The unit behind the match can be read, or it is not looked at. -/
def Readable (text sub tail : List UInt16) (i : Nat) : Prop :=
  i + sub.length < text.length ∨ (∃ rest, tail = 0 :: rest) ∨
    ∀ u ∈ sub.getLast?, u16IsLead u.toNat = false

theorem splitsTrailing_eq (hsub : sub ≠ []) (hoccurs : sub <+: text.drop i)
    (hle : i + sub.length ≤ text.length) (hlimit : limit ≠ some i)
    (hreadable : Readable text sub tail i) :
    ∃ b, splitsTrailing (text ++ tail) i (i + sub.length) limit = some b ∧
      (b = true ↔ ¬ IsBoundary text (i + sub.length)) := by
  obtain ⟨k, hk⟩ : ∃ k, sub.length = k + 1 := Nat.exists_eq_succ_of_ne_zero (by simpa using hsub)
  obtain ⟨u, hu⟩ : ∃ u, sub[k]? = some u := ⟨sub[k], List.getElem?_eq_getElem (by omega)⟩
  have hlast : sub.getLast? = some u := by rw [List.getLast?_eq_getElem?, hk]; exact hu
  have htext : text[i + k]? = some u := by rw [occurs_iff.mp hoccurs k (by omega), hu]
  have hread : (text ++ tail)[i + k]? = some u := by
    rw [List.getElem?_append_left (by omega), htext]
  rw [hk, ← Nat.add_assoc, splitsTrailing, Nat.add_sub_cancel, hread]
  simp only [Option.bind_eq_bind, Option.bind_some]
  cases hlead : u16IsLead u.toNat with
  | false =>
    refine ⟨false, rfl, ?_⟩
    have hboundary : IsBoundary text (i + k + 1) := by
      rw [isBoundary_succ_iff (by omega)]
      rintro ⟨c, c2, hc, -, hl, -⟩
      rw [unitAt, htext, Option.map_some, Option.some.injEq] at hc
      rw [← hc, hlead] at hl
      cases hl
    simp [hboundary]
  | true =>
    have hgo : (true && limit != some i) = true := by simpa using hlimit
    rw [if_pos hgo]
    rcases hreadable with hlt | ⟨rest, rfl⟩ | hno
    · obtain ⟨v, hv⟩ : ∃ v, text[i + k + 1]? = some v :=
        ⟨text[i + k + 1], List.getElem?_eq_getElem (by omega)⟩
      rw [List.getElem?_append_left (by omega), hv]
      refine ⟨u16IsTrail v.toNat, rfl, ?_⟩
      rw [isBoundary_succ_iff (by omega), pairAt_iff_units htext hv]
      simp [hlead]
    · by_cases hlt : i + k + 1 < text.length
      · obtain ⟨v, hv⟩ : ∃ v, text[i + k + 1]? = some v :=
          ⟨text[i + k + 1], List.getElem?_eq_getElem (by omega)⟩
        rw [List.getElem?_append_left (by omega), hv]
        refine ⟨u16IsTrail v.toNat, rfl, ?_⟩
        rw [isBoundary_succ_iff (by omega), pairAt_iff_units htext hv]
        simp [hlead]
      · have hend : i + k + 1 = text.length := by omega
        rw [hend, List.getElem?_append_right (Nat.le_refl _), Nat.sub_self]
        exact ⟨false, rfl, by simp [isBoundary_length]⟩
    · rw [hno u hlast] at hlead
      cases hlead

theorem matchVerdict_decides (hsub : sub ≠ []) (hoccurs : sub <+: text.drop i)
    (hle : i + sub.length ≤ text.length) (hlimit : limit ≠ some i)
    (hreadable : IsBoundary text i → Readable text sub tail i) :
    Decides (IsMatch text sub) i (matchVerdict (text ++ tail) i (i + sub.length) limit) := by
  have hpos := List.length_pos_iff.mpr hsub
  obtain ⟨b, hleading, hb⟩ := @splitsLeading_eq text tail i (by omega)
  rw [matchVerdict, isMatchAtCPBoundary, hleading]
  cases b with
  | true => exact .next fun h => hb.mp rfl h.leading
  | false =>
    have hboundary : IsBoundary text i := by
      by_contra hno
      exact Bool.false_ne_true (hb.mpr hno)
    obtain ⟨b2, htrailing, hb2⟩ :=
      splitsTrailing_eq hsub hoccurs hle hlimit (hreadable hboundary)
    simp only [Option.bind_eq_bind, Option.bind_some, htrailing]
    cases b2 with
    | true => exact .next fun h => hb2.mp rfl h.trailing
    | false =>
      refine .found ⟨hoccurs, hboundary, ?_⟩
      by_contra hno
      exact Bool.false_ne_true (hb2.mpr hno)

theorem matchVerdict_endsInLead (h : EndsInLead text sub) (hsub : sub ≠ [])
    (hlimit : limit ≠ some (text.length - sub.length)) :
    matchVerdict text (text.length - sub.length) text.length limit = none := by
  have hpos := List.length_pos_iff.mpr hsub
  have hle := h.suffix.length_le
  obtain ⟨b, hleading, hb⟩ := @splitsLeading_eq text [] (text.length - sub.length) (by omega)
  have hfalse : b = false := by
    rw [← Bool.not_eq_true]
    exact fun htrue => hb.mp htrue h.leading
  obtain ⟨u, hu, hlead⟩ := h.lead
  have hlast : text[text.length - 1]? = some u := by
    obtain ⟨front, rfl⟩ := h.suffix
    rw [← List.getLast?_eq_getElem?, List.getLast?_append, hu]
    rfl
  rw [List.append_nil, hfalse] at hleading
  rw [matchVerdict, isMatchAtCPBoundary, hleading]
  simp [splitsTrailing, hlast, hlead, hlimit]

section Compare

variable {p q n : Nat}

theorem compareRest_of_occurs (hoccurs : sub <+: text.drop i) (hle : i + sub.length ≤ text.length)
    (hlimit : limit = none → 0 ∉ text) (hq : q + n = sub.length) :
    compareRest (text ++ tail) (sub ++ subRest) limit i (i + q) q n =
      matchVerdict (text ++ tail) i (i + sub.length) limit := by
  induction n generalizing q with
  | zero =>
    rw [compareRest, ← hq]
    rfl
  | succ n ih =>
    obtain ⟨c, hc⟩ : ∃ c, sub[q]? = some c := ⟨sub[q], List.getElem?_eq_getElem (by omega)⟩
    have htext : text[i + q]? = some c := by rw [occurs_iff.mp hoccurs q (by omega), hc]
    have hread : (text ++ tail)[i + q]? = some c := by
      rw [List.getElem?_append_left (by omega), htext]
    have hreadSub : (sub ++ subRest)[q]? = some c := by
      rw [List.getElem?_append_left (by omega), hc]
    have hnul : ¬ (limit = none ∧ c = 0) := by
      rintro ⟨hnone, rfl⟩
      exact hlimit hnone (List.mem_of_getElem? htext)
    have hnext := @ih (q + 1) (by omega)
    rw [← Nat.add_assoc] at hnext
    simp [compareRest, hread, hreadSub, hnul, hnext]

/-- How the comparison ends: at the NUL behind the text, or with the substring. -/
def Ends (text sub tail : List UInt16) (i q : Nat) : Option Nat → Prop
  | none => 0 ∉ text ∧ i + q ≤ text.length ∧ ∃ rest, tail = 0 :: rest
  | some _ => i + sub.length ≤ text.length

/-- The rest does not agree, or a NUL-terminated text is too short. -/
theorem compareRest_of_not_occurs (hno : ¬ sub <+: text.drop i)
    (hagree : ∀ k < q, text[i + k]? = sub[k]?) (hq : q + n = sub.length)
    (hend : Ends text sub tail i q limit) : Decides (IsMatch text sub) i
      (compareRest (text ++ tail) (sub ++ subRest) limit i (i + q) q n) := by
  induction n generalizing q with
  | zero =>
    refine absurd (occurs_iff.mpr fun k hk => hagree k (by omega)) hno
  | succ n ih =>
    obtain ⟨cq, hcq⟩ : ∃ cq, sub[q]? = some cq := ⟨sub[q], List.getElem?_eq_getElem (by omega)⟩
    have hreadSub : (sub ++ subRest)[q]? = some cq := by
      rw [List.getElem?_append_left (by omega), hcq]
    by_cases hshort : i + q < text.length
    · obtain ⟨c, hc⟩ : ∃ c, text[i + q]? = some c :=
        ⟨text[i + q], List.getElem?_eq_getElem hshort⟩
      have hread : (text ++ tail)[i + q]? = some c := by
        rw [List.getElem?_append_left hshort, hc]
      have hnul : ¬ (limit = none ∧ c = 0) := by
        rintro ⟨rfl, rfl⟩
        exact hend.1 (List.mem_of_getElem? hc)
      by_cases hsame : c = cq
      · have hagree' : ∀ k < q + 1, text[i + k]? = sub[k]? := by
          intro k hk
          by_cases heq : k = q
          · rw [heq, hc, hcq, hsame]
          · exact hagree k (by omega)
        have hend' : Ends text sub tail i (q + 1) limit := by
          cases limit with
          | none => exact ⟨hend.1, by omega, hend.2.2⟩
          | some l => exact hend
        have hnext := ih hagree' (by omega) hend'
        rw [← Nat.add_assoc] at hnext
        rw [hsame] at hread hnul
        simpa [compareRest, hread, hreadSub, hnul] using hnext
      · have hv : compareRest (text ++ tail) (sub ++ subRest) limit i (i + q) q (n + 1) =
            some .next := by simp [compareRest, hread, hreadSub, hnul, hsame]
        rw [hv]
        exact .next fun h => hno h.occurs
    · cases limit with
      | some l =>
        have hle : i + sub.length ≤ text.length := hend
        omega
      | none =>
        obtain ⟨-, hle, rest, rfl⟩ := hend
        have hread : (text ++ 0 :: rest)[i + q]? = some 0 := by
          rw [List.getElem?_append_right (by omega), show i + q - text.length = 0 by omega]
          rfl
        have hv : compareRest (text ++ 0 :: rest) (sub ++ subRest) none i (i + q) q (n + 1) =
            some .stop := by simp [compareRest, hread]
        rw [hv]
        refine .stop fun k hk hmatch => ?_
        have := hmatch.add_le
        omega

theorem compareTerminated_eq (hnul : 0 ∉ sub) (units subRest : List UInt16)
    (hq : q + n = sub.length) :
    compareTerminated units i p (sub.drop q ++ 0 :: subRest) =
      compareRest units (sub ++ 0 :: subRest) none i p q n := by
  induction n generalizing p q with
  | zero =>
    rw [List.drop_of_length_le (by omega)]
    simp [compareTerminated, compareRest]
  | succ n ih =>
    have hlt : q < sub.length := by omega
    have hne : sub[q] ≠ 0 := fun h => hnul (h ▸ List.getElem_mem hlt)
    have hread : (sub ++ 0 :: subRest)[q]? = some sub[q] := by
      rw [List.getElem?_append_left hlt, List.getElem?_eq_getElem hlt]
    rw [List.drop_eq_getElem_cons hlt, List.cons_append, compareTerminated, if_neg hne,
      compareRest]
    simp only [true_and, hread, Option.bind_eq_bind, Option.bind_some, ih (p := p + 1) (q :=
      q + 1) (by omega)]

theorem compareBackward_of_occurs (hoccurs : sub <+: text.drop i)
    (hle : i + sub.length ≤ text.length) (hsub : sub ≠ []) (hq : q ≤ sub.length - 1)
    (length : Nat) :
    compareBackward (text ++ tail) (sub ++ subRest) (i + sub.length - 1) length (i + q) q =
      matchVerdict (text ++ tail) i (i + sub.length) (some length) := by
  have hpos := List.length_pos_iff.mpr hsub
  induction q with
  | zero =>
    rw [compareBackward, Nat.sub_add_cancel (by omega)]
    rfl
  | succ q ih =>
    obtain ⟨c, hc⟩ : ∃ c, sub[q]? = some c := ⟨sub[q], List.getElem?_eq_getElem (by omega)⟩
    have htext : text[i + q]? = some c := by rw [occurs_iff.mp hoccurs q (by omega), hc]
    have hread : (text ++ tail)[i + q]? = some c := by
      rw [List.getElem?_append_left (by omega), htext]
    have hreadSub : (sub ++ subRest)[q]? = some c := by
      rw [List.getElem?_append_left (by omega), hc]
    simp [compareBackward, hread, hreadSub, ih (by omega)]

theorem compareBackward_of_not_occurs (hno : ¬ sub <+: text.drop i)
    (hle : i + sub.length ≤ text.length) (hq : q ≤ sub.length)
    (hagree : ∀ k, q ≤ k → k < sub.length → text[i + k]? = sub[k]?) (length : Nat) :
    compareBackward (text ++ tail) (sub ++ subRest) (i + sub.length - 1) length (i + q) q =
      some .next := by
  induction q with
  | zero => exact absurd (occurs_iff.mpr fun k hk => hagree k (by omega) hk) hno
  | succ q ih =>
    obtain ⟨c, hc⟩ : ∃ c, text[i + q]? = some c :=
      ⟨text[i + q], List.getElem?_eq_getElem (by omega)⟩
    obtain ⟨cq, hcq⟩ : ∃ cq, sub[q]? = some cq := ⟨sub[q], List.getElem?_eq_getElem (by omega)⟩
    have hread : (text ++ tail)[i + q]? = some c := by
      rw [List.getElem?_append_left (by omega), hc]
    have hreadSub : (sub ++ subRest)[q]? = some cq := by
      rw [List.getElem?_append_left (by omega), hcq]
    by_cases hsame : c = cq
    · have hnext := ih (by omega) fun k hk hklt => by
        by_cases heq : k = q
        · rw [heq, hc, hcq, hsame]
        · exact hagree k (by omega) hklt
      simpa [compareBackward, hread, hreadSub, hsame] using hnext
    · simp [compareBackward, hread, hreadSub, hsame]

end Compare

end Icu.UString
