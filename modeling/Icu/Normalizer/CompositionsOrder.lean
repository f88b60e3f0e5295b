import Icu.Normalizer.CompositionsProof

/-! # Which compositions lists are read right

`combine` is right for a trail character as long as no pair with a larger or equal key is before
the place of the character, and no pair with an equal key takes its place.
-/

namespace Icu.Normalizer

open Lib.Bits Normalizer2DataBuilder Normalizer2Impl CompositionPair

variable {combinesForward : Nat → Bool} {pair : CompositionPair} {pairs : List CompositionPair}
  {trail : Nat}

theorem joinUnits_eq {high low : Nat} (hhigh : high < 0x8000) (hlow : low < 0x10000) :
    joinUnits high low = (high * 0x10000 + low : Nat) := by
  unfold joinUnits
  rw [or_low hlow, Int.bmod_def]
  split <;> omega

theorem atPair_low (hvalid : pair.Valid) (hlow : pair.trail < 0x3400) :
    atPair combinesForward pair = compositeAndFwd combinesForward pair := by
  have hcomposite := compositeAndFwd_lt combinesForward hvalid
  unfold atPair isTriple secondUnit
  by_cases hbmp : compositeAndFwd combinesForward pair ≤ 0xffff
  · simp [hlow, hbmp]
  rw [if_pos hlow, if_neg hbmp, if_pos (by simp; omega),
    joinUnits_eq (by omega) (by omega)]
  omega

theorem atPair_high (hvalid : pair.Valid) (hhigh : 0x3400 ≤ pair.trail) :
    atPair combinesForward pair ≠ -1 := by
  have hcomposite := compositeAndFwd_lt combinesForward hvalid
  have htriple : isTriple combinesForward pair = true := by
    simp [isTriple, hhigh]
  unfold atPair secondUnit joinUnits
  rw [if_pos htriple, if_neg (Nat.not_lt.mpr hhigh), or_low (by omega), Int.bmod_def]
  split <;> omega

theorem combine_low_right (hlow : trail < 0x3400) (hne : pairs ≠ [])
    (hsorted : Sorted pairs) (hvalid : ∀ q ∈ pairs, q.Valid)
    (hplace : (∀ q ∈ pairs, 0x3400 ≤ q.trail → q.key ≠ 2 * trail) ∨
      ∃ q ∈ pairs, trail ≤ q.trail ∧ q.trail < 0x3400) :
    combine (tuples combinesForward pairs) trail =
      some (expected combinesForward pairs trail) := by
  obtain ⟨before, pair, rest, rfl, hbefore, hstop⟩ :=
    exists_stop (fun q => q.key < 2 * trail) hne
  have hstop : 2 * trail ≤ pair.key ∨ rest = [] := hstop.imp_left Nat.not_lt.mp
  have horder := trail_lt_of_mem hsorted
  have hpair := hvalid pair (by simp)
  rw [combine_low hlow (fun q hq => hvalid q (List.mem_append_left _ hq)) hpair hbefore
    hstop]
  by_cases hkey : pair.key = 2 * trail
  · have hpairLow : pair.trail < 0x3400 := by
      by_contra hhigh
      obtain hnone | ⟨q, hq, htrail, hqlow⟩ := hplace
      · exact hnone pair (by simp) (by omega) hkey
      obtain hq | hq := List.mem_append.mp hq
      · have := hbefore q hq
        rw [key, keyOf_low hqlow] at this
        omega
      obtain rfl | hq := List.mem_cons.mp hq
      · omega
      have := horder.2 q hq
      omega
    have htrail : trail = pair.trail := by
      rw [key, keyOf_low hpairLow] at hkey
      omega
    rw [if_pos hkey, htrail, expected_of_mem hsorted (by simp), atPair_low hpair hpairLow]
  · rw [if_neg hkey, expected_of_not_mem]
    intro q hq heq
    have hqkey : q.key = 2 * trail := by
      rw [key, keyOf_low (by omega), heq]
    obtain hq | hq := List.mem_append.mp hq
    · have := hbefore q hq
      omega
    obtain rfl | hq := List.mem_cons.mp hq
    · exact hkey hqkey
    have hbefore' := horder.2 q hq
    obtain hlarger | rfl := hstop
    · rw [key, keyOf_low (by omega)] at hlarger
      omega
    · simp at hq

theorem combine_low_wrong (hlow : trail < 0x3400) (hsorted : Sorted pairs)
    (hvalid : ∀ q ∈ pairs, q.Valid) (hnone : ∀ q ∈ pairs, trail ≤ q.trail → 0x3400 ≤ q.trail)
    (hmem : pair ∈ pairs) (hhigh : 0x3400 ≤ pair.trail) (hkey : pair.key = 2 * trail) :
    combine (tuples combinesForward pairs) trail ≠ some (expected combinesForward pairs trail) := by
  have hne : pairs ≠ [] := List.ne_nil_of_mem hmem
  obtain ⟨before, first, rest, rfl, hbefore, hstop⟩ :=
    exists_stop (fun q => q.key < 2 * trail) hne
  have hstop : 2 * trail ≤ first.key ∨ rest = [] := hstop.imp_left Nat.not_lt.mp
  have horder := trail_lt_of_mem hsorted
  have hfirst := hvalid first (by simp)
  have hafter : first.key = 2 * trail ∧ 0x3400 ≤ first.trail := by
    obtain hq | hq := List.mem_append.mp hmem
    · have := hbefore pair hq
      omega
    obtain rfl | hq := List.mem_cons.mp hq
    · exact ⟨hkey, hhigh⟩
    have hlt := horder.2 pair hq
    have hlarger : 2 * trail ≤ first.key := by
      obtain hlarger | rfl := hstop
      · exact hlarger
      · simp at hq
    have hfirstHigh : 0x3400 ≤ first.trail := by
      apply hnone first (by simp)
      by_contra hless
      rw [key, keyOf_low (by omega)] at hlarger
      omega
    rw [key, keyOf_high hhigh] at hkey
    rw [key, keyOf_high hfirstHigh] at hlarger ⊢
    omega
  rw [combine_low hlow (fun q hq => hvalid q (List.mem_append_left _ hq)) hfirst hbefore
    (by omega), if_pos hafter.1, expected_of_not_mem]
  · intro h
    exact atPair_high hfirst hafter.2 (Option.some.inj h)
  intro q hq heq
  have := hnone q hq (by omega)
  omega

/-! ## Trail characters from U+3400 -/

theorem secondUnit_high (combinesForward : Nat → Bool) (hvalid : pair.Valid)
    (hhigh : 0x3400 ≤ pair.trail) :
    secondUnit combinesForward pair =
      pair.trail % 0x400 * 0x40 + compositeAndFwd combinesForward pair / 0x10000 ∧
    compositeAndFwd combinesForward pair / 0x10000 < 0x40 := by
  have hcomposite := compositeAndFwd_lt combinesForward hvalid
  unfold secondUnit
  rw [if_neg (Nat.not_lt.mpr hhigh)]
  omega

theorem passes_iff (combinesForward : Nat → Bool) (hhigh : 0x3400 ≤ trail) (hvalid : pair.Valid)
    (hkey : pair.trail < 0x3400 → pair.key < keyOf trail) :
    Passes combinesForward (keyOf trail) (trail % 0x400 * 0x40) pair ↔ pair.trail < trail := by
  unfold Passes
  by_cases hlow : pair.trail < 0x3400
  · exact iff_of_true (Or.inl (hkey hlow)) (by omega)
  have hsecond := secondUnit_high combinesForward hvalid (by omega)
  rw [key, keyOf_high (by omega), keyOf_high hhigh, hsecond.1]
  omega

theorem third_high (hvalid : pair.Valid) (hhigh : 0x3400 ≤ pair.trail)
    (rest : List CompositionPair) : (tuples combinesForward (pair :: rest))[2]? =
      some (compositeAndFwd combinesForward pair % 0x10000) := by
  have htriple : isTriple combinesForward pair = true := by
    simp [isTriple, hhigh]
  rw [tuples_cons hvalid, if_pos htriple]
  rfl

theorem combine_high_right (hhigh : 0x3400 ≤ trail) (htrail : trail ≤ 0x10ffff)
    (hne : pairs ≠ []) (hsorted : Sorted pairs) (hvalid : ∀ q ∈ pairs, q.Valid)
    (hplace : ∀ q ∈ pairs, q.trail < 0x3400 → q.key < keyOf trail) :
    combine (tuples combinesForward pairs) trail =
      some (expected combinesForward pairs trail) := by
  obtain ⟨before, pair, rest, rfl, hbefore, hstop⟩ :=
    exists_stop (Passes combinesForward (keyOf trail) (trail % 0x400 * 0x40)) hne
  have horder := trail_lt_of_mem hsorted
  have hpair := hvalid pair (by simp)
  have hpasses := passes_iff combinesForward hhigh hpair
    (hplace pair (by simp))
  have hbefore' : ∀ q ∈ before, q.trail < trail := by
    intro q hq
    exact (passes_iff combinesForward hhigh (hvalid q (List.mem_append_left _ hq))
      (hplace q (List.mem_append_left _ hq))).mp (hbefore q hq)
  obtain ⟨fuel, hcombine⟩ := combine_high hhigh htrail pair rest
    (fun q hq => hvalid q (List.mem_append_left _ hq)) hbefore
  rw [hcombine, searchTriples_succ hpair (keyOf_even trail) (keyOf_lt htrail)]
  by_cases hfound : pair.trail = trail
  · have hsecond := secondUnit_high combinesForward hpair (by omega)
    have hlt := compositeAndFwd_lt combinesForward hpair
    have hkey : pair.key = keyOf trail := by rw [key, hfound]
    rw [if_neg (by omega), if_pos hkey.symm, if_neg (by omega), if_pos (by omega),
      third_high hpair (by omega), ← hfound, expected_of_mem hsorted (by simp), Option.map_some,
      joinUnits_eq (by omega) (by omega)]
    congr 2
    omega
  have hother : expected combinesForward (before ++ pair :: rest) trail = -1 := by
    apply expected_of_not_mem
    intro q hq heq
    obtain hq | hq := List.mem_append.mp hq
    · have := hbefore' q hq
      omega
    obtain rfl | hq := List.mem_cons.mp hq
    · exact hfound heq
    have := horder.2 q hq
    obtain hnot | rfl := hstop
    · exact hnot (hpasses.mpr (by omega))
    · simp at hq
  rw [hother]
  by_cases hless : pair.trail < trail
  · have hlast : rest.isEmpty = true := by
      obtain hnot | rfl := hstop
      · exact absurd (hpasses.mpr hless) hnot
      · rfl
    rw [if_neg (by simp [hlast])]
    split
    · next hkey =>
      obtain hsmaller | ⟨hsame, hpairHigh, hsecond⟩ := hpasses.mpr hless
      · omega
      · rw [if_pos hsecond, if_neg (by simp [hlast])]
    · rfl
  · have hpairHigh : 0x3400 ≤ pair.trail := by omega
    have hsecond := secondUnit_high combinesForward hpair hpairHigh
    rw [if_neg (by rw [key, keyOf_high hpairHigh, keyOf_high hhigh]; omega)]
    split
    · next hkey =>
      rw [key, keyOf_high hpairHigh, keyOf_high hhigh] at hkey
      rw [if_neg (by omega), if_neg (by omega)]
    · rfl

theorem combine_high_blocked (hhigh : 0x3400 ≤ trail) (htrail : trail ≤ 0x10ffff)
    (hsorted : Sorted pairs) (hvalid : ∀ q ∈ pairs, q.Valid)
    (hfree : ∀ q ∈ pairs, q.trail < 0x3400 → q.key ≠ keyOf trail)
    (hmem : pair ∈ pairs) (hlow : pair.trail < 0x3400) (hkey : keyOf trail < pair.key) :
    combine (tuples combinesForward pairs) trail = some (-1) := by
  obtain ⟨before, first, rest, rfl, hbefore, hstop⟩ :=
    exists_stop (fun q => q.key < keyOf trail) (List.ne_nil_of_mem hmem)
  have hstop : keyOf trail ≤ first.key ∨ rest = [] := hstop.imp_left Nat.not_lt.mp
  have horder := trail_lt_of_mem hsorted
  have hfirst := hvalid first (by simp)
  have hlarger : keyOf trail < first.key := by
    obtain hq | hq := List.mem_append.mp hmem
    · have := hbefore pair hq
      omega
    obtain rfl | hq := List.mem_cons.mp hq
    · exact hkey
    have hle : keyOf trail ≤ first.key := by
      obtain hlarger | rfl := hstop
      · exact hlarger
      · simp at hq
    have := hfree first (by simp) (by have := horder.2 pair hq; omega)
    omega
  obtain ⟨fuel, hcombine⟩ := combine_high hhigh htrail first rest
    (fun q hq => hvalid q (List.mem_append_left _ hq)) (fun q hq => Or.inl (hbefore q hq))
  rw [hcombine, searchTriples_succ hfirst (keyOf_even trail) (keyOf_lt htrail),
    if_neg (by omega), if_neg (by omega)]

/-- `combine` is right for all code points. -/
def CombinesRight (combinesForward : Nat → Bool) (pairs : List CompositionPair) : Prop :=
  ∀ trail ≤ 0x10ffff, combine (tuples combinesForward pairs) trail =
    some (expected combinesForward pairs trail)

def sharesKey (trail : Nat) : Prop :=
  0x1a0d ≤ trail ∧ trail ≤ 0x1e3f ∨ 0x3400 ≤ trail

instance (trail : Nat) : Decidable (sharesKey trail) := by
  unfold sharesKey
  infer_instance

theorem combinesRight_of_keys (hne : pairs ≠ []) (hsorted : Sorted pairs)
    (hvalid : ∀ q ∈ pairs, q.Valid) (hkeys : ∀ q ∈ pairs, ¬ sharesKey q.trail) :
    CombinesRight combinesForward pairs := by
  unfold sharesKey at hkeys
  intro trail htrail
  by_cases hlow : trail < 0x3400
  · apply combine_low_right hlow hne hsorted hvalid
    left
    intro q hq hhigh
    have := hkeys q hq
    omega
  by_cases hblocked : ∃ q ∈ pairs, keyOf trail < q.key
  · obtain ⟨pair, hmem, hkey⟩ := hblocked
    have hnot := hkeys pair hmem
    rw [combine_high_blocked (by omega) htrail hsorted hvalid ?_ hmem (by omega) hkey,
      expected_of_not_mem]
    · intro q hq heq
      have := hkeys q hq
      omega
    intro q hq hqlow
    have := hkeys q hq
    rw [key, keyOf_low hqlow, keyOf_high (by omega)]
    omega
  · apply combine_high_right (by omega) htrail hne hsorted hvalid
    intro q hq hqlow
    have hnot := hkeys q hq
    have hle : q.key ≤ keyOf trail := by
      by_contra hlarger
      exact hblocked ⟨q, hq, by omega⟩
    rw [key, keyOf_low hqlow, keyOf_high (by omega)] at *
    omega

/-! ## The lists that are read wrong -/

/-- The trail character whose search takes the units of the pair for its own. -/
def misreadTrail (combinesForward : Nat → Bool) (pair : CompositionPair) : Nat :=
  (pair.trail - 0x1a00) * 0x400 + secondUnit combinesForward pair / 0x40

/-- What this search reads, from the pair and the pairs after it. -/
def misread (combinesForward : Nat → Bool) (pair : CompositionPair)
    (rest : List CompositionPair) : Option Int :=
  ((tuples combinesForward (pair :: rest))[2]?).map
    (joinUnits (secondUnit combinesForward pair % 0x40))

/-- The value that is misread for a pair below U+3400 happens to be the right one. -/
def Coincides (combinesForward : Nat → Bool) (pairs : List CompositionPair) : Prop :=
  ∃ before pair rest other, pairs = before ++ pair :: rest ∧
    0x1a0d ≤ pair.trail ∧ pair.trail ≤ 0x1e3f ∧ other ∈ rest ∧
    other.trail = misreadTrail combinesForward pair ∧
    misread combinesForward pair rest = some (compositeAndFwd combinesForward other : Int)

theorem unit_lt {unit : Nat} (hunit : unit ∈ tuples combinesForward pairs) : unit < 0x10000 := by
  have huchar (n : Nat) : toUChar n < 0x10000 := Nat.mod_lt n (by decide)
  induction pairs with
  | nil =>
    simp [tuples] at hunit
  | cons pair rest ih =>
    rw [tuples, List.mem_append] at hunit
    obtain hfirst | hrest := hunit
    · simp only [tuple, List.mem_cons, Option.mem_toList,
        Option.map_eq_some_iff] at hfirst
      obtain rfl | rfl | ⟨third, -, rfl⟩ := hfirst
      · exact huchar _
      · exact huchar _
      · exact huchar third
    · exact ih hrest

theorem misread_ne (rest : List CompositionPair) :
    misread combinesForward pair rest ≠ some (-1) := by
  unfold misread
  rw [Ne, Option.map_eq_some_iff]
  rintro ⟨third, hthird, hjoin⟩
  have hlt := unit_lt (List.mem_of_getElem? hthird)
  rw [joinUnits_eq (by omega) hlt] at hjoin
  omega

theorem combine_misread {before rest : List CompositionPair}
    (hsorted : Sorted (before ++ pair :: rest)) (hvalid : ∀ q ∈ before ++ pair :: rest, q.Valid)
    (hlow : 0x1a0d ≤ pair.trail) (hhigh : pair.trail ≤ 0x1e3f) :
    combine (tuples combinesForward (before ++ pair :: rest)) (misreadTrail combinesForward pair) =
      misread combinesForward pair rest := by
  have hpair := hvalid pair (by simp)
  have hunit := secondUnit_lt combinesForward hpair
  have horder := trail_lt_of_mem hsorted
  have htrail : 0x3400 ≤ misreadTrail combinesForward pair ∧
      misreadTrail combinesForward pair ≤ 0x10ffff := by
    unfold misreadTrail
    omega
  have hkey : keyOf (misreadTrail combinesForward pair) = pair.key := by
    rw [keyOf_high htrail.1, key, keyOf_low (by omega)]
    unfold misreadTrail
    omega
  have hkey2 : misreadTrail combinesForward pair % 0x400 * 0x40 =
      secondUnit combinesForward pair / 0x40 * 0x40 := by
    unfold misreadTrail
    omega
  obtain ⟨fuel, hcombine⟩ := @combine_high combinesForward _ htrail.1 htrail.2 before pair rest
    (fun q hq => hvalid q (List.mem_append_left _ hq)) (fun q hq => by
      have := horder.1 q hq
      left
      rw [hkey, key, key, keyOf_low (by omega), keyOf_low (by omega)]
      omega)
  rw [hcombine, searchTriples_succ hpair (keyOf_even _) (keyOf_lt htrail.2), hkey,
    if_neg (by omega), if_pos rfl, hkey2, if_neg (by omega), if_pos rfl]
  rfl

/-- A pair that shares its key with other characters makes `combine` wrong for one of them. -/
theorem coincides_of_shared (hsorted : Sorted pairs) (hvalid : ∀ q ∈ pairs, q.Valid)
    (hright : CombinesRight combinesForward pairs) (hmem : pair ∈ pairs)
    (hlow : 0x1a0d ≤ pair.trail) (hhigh : pair.trail ≤ 0x1e3f) :
    Coincides combinesForward pairs := by
  obtain ⟨before, rest, rfl⟩ := List.append_of_mem hmem
  have hunit := secondUnit_lt combinesForward (hvalid pair hmem)
  have horder := trail_lt_of_mem hsorted
  have htrail : pair.trail < misreadTrail combinesForward pair ∧
      misreadTrail combinesForward pair ≤ 0x10ffff := by
    unfold misreadTrail
    omega
  have hcombine := hright _ htrail.2
  rw [combine_misread hsorted hvalid hlow hhigh] at hcombine
  have hlisted : ∃ other ∈ before ++ pair :: rest,
      other.trail = misreadTrail combinesForward pair := by
    by_contra hnone
    rw [expected_of_not_mem (fun q hq heq => hnone ⟨q, hq, heq⟩)] at hcombine
    exact misread_ne rest hcombine
  obtain ⟨other, hother, heq⟩ := hlisted
  refine ⟨before, pair, rest, other, rfl, hlow, hhigh, ?_, heq, ?_⟩
  · obtain hq | hq := List.mem_append.mp hother
    · have := horder.1 other hq
      omega
    obtain rfl | hq := List.mem_cons.mp hq
    · omega
    · exact hq
  · rw [hcombine, ← heq, expected_of_mem hsorted hother]

theorem exists_shared_of_high (hsorted : Sorted pairs) (hvalid : ∀ q ∈ pairs, q.Valid)
    (hright : CombinesRight combinesForward pairs) (hmem : pair ∈ pairs)
    (hhigh : 0x3400 ≤ pair.trail) : ∃ q ∈ pairs, 0x1a0d ≤ q.trail ∧ q.trail ≤ 0x1e3f := by
  by_contra hnone
  have htrail := (hvalid pair hmem).trail_le
  have hkey : pair.key = 2 * (0x1a00 + pair.trail / 0x400) := by
    rw [key, keyOf_high hhigh]
    omega
  have hfree : ∀ q ∈ pairs, q.trail < 0x3400 → q.key ≠ keyOf pair.trail := by
    intro q hq hqlow hsame
    apply hnone
    refine ⟨q, hq, ?_⟩
    rw [key, keyOf_low hqlow, keyOf_high hhigh] at hsame
    omega
  by_cases hblocked : ∃ q ∈ pairs, q.trail < 0x3400 ∧ keyOf pair.trail < q.key
  · obtain ⟨q, hq, hqlow, hlarger⟩ := hblocked
    have hcombine := hright pair.trail htrail
    rw [combine_high_blocked hhigh htrail hsorted hvalid hfree hq hqlow hlarger,
      expected_of_mem hsorted hmem, Option.some.injEq] at hcombine
    omega
  have hlow : 0x1a00 + pair.trail / 0x400 < 0x3400 := by omega
  refine combine_low_wrong hlow hsorted hvalid ?_ hmem hhigh hkey (hright _ (by omega))
  intro q hq hle
  by_contra hqlow
  have hqfree := hfree q hq (by omega)
  apply hblocked
  refine ⟨q, hq, by omega, ?_⟩
  rw [key, keyOf_low (show q.trail < 0x3400 by omega), keyOf_high hhigh] at hqfree ⊢
  omega

theorem combinesRight_iff (hne : pairs ≠ []) (hsorted : Sorted pairs)
    (hvalid : ∀ q ∈ pairs, q.Valid) :
    CombinesRight combinesForward pairs ∧ ¬ Coincides combinesForward pairs ↔
      ∀ q ∈ pairs, ¬ sharesKey q.trail := by
  constructor
  · rintro ⟨hright, hcoincides⟩ q hq hshares
    have hshared : ∃ q ∈ pairs, 0x1a0d ≤ q.trail ∧ q.trail ≤ 0x1e3f := by
      obtain hlow | hhigh := hshares
      · exact ⟨q, hq, hlow⟩
      · exact exists_shared_of_high hsorted hvalid hright hq hhigh
    obtain ⟨other, hother, hlow, hhigh⟩ := hshared
    exact hcoincides (coincides_of_shared hsorted hvalid hright hother hlow hhigh)
  · intro hkeys
    refine ⟨combinesRight_of_keys hne hsorted hvalid hkeys, ?_⟩
    rintro ⟨before, pair, rest, other, rfl, hlow, hhigh, -⟩
    exact hkeys pair (by simp) (Or.inl ⟨hlow, hhigh⟩)

/-- `combine` is right for all code points exactly if no trail character of the list shares its key,
up to lists that have what is misread. `addComposites` visits the composites of any list. -/
theorem compositions_iff {p : Norm} {list : List Nat}
    (hwrite : writeCompositions combinesForward p = some list) (hne : p.compositions ≠ [])
    (hsorted : Sorted p.compositions) (hvalid : ∀ q ∈ p.compositions, q.Valid) :
    ((∀ trail ≤ 0x10ffff, combine list trail =
          some (expected combinesForward p.compositions trail)) ∧
        ¬ Coincides combinesForward p.compositions ↔
      ∀ q ∈ p.compositions, ¬ sharesKey q.trail) ∧
    ∀ getCompositionsListForComposite depth set,
      addComposites getCompositionsListForComposite (depth + 1) list set =
        p.compositions.foldlM (visit combinesForward fun composite =>
          addComposites getCompositionsListForComposite depth
            (getCompositionsListForComposite composite)) set := by
  unfold writeCompositions at hwrite
  split at hwrite
  · contradiction
  obtain rfl := Option.some.inj hwrite
  exact ⟨combinesRight_iff hne hsorted hvalid, fun _ _ _ => addTuples_eq hne hvalid _ _ _
    (Nat.le_succ_of_le (length_le_tuples combinesForward _))⟩

theorem compositions_iff_grave : combine [0x600, 0x180, 0x8602, 0x182] 0x301 =
    some (expected (fun _ => false) [⟨0x300, 0xc0⟩, ⟨0x301, 0xc1⟩] 0x301) :=
  ((@compositions_iff (fun _ => false) ⟨0, [⟨0x300, 0xc0⟩, ⟨0x301, 0xc1⟩]⟩ _
    (by decide) (by decide) (by simp [Sorted])
    (by simp [valid_iff])).1.mpr (by decide)).1 0x301 (by decide)

/-- U+11099 and U+110BA compose, and so would U+11099 and U+1A44. -/
theorem compositions_kaithi : ¬ ∀ (combinesForward : Nat → Bool) (p : Norm) (list : List Nat),
    writeCompositions combinesForward p = some list → p.compositions ≠ [] →
    Sorted p.compositions → (∀ q ∈ p.compositions, q.Valid) → ∀ trail ≤ 0x10ffff,
      combine list trail = some (expected combinesForward p.compositions trail) := by
  intro h
  have hcombine := h (fun _ => false) ⟨0, [⟨0x110ba, 0x1109a⟩]⟩ [0xb489, 0x2e82, 0x2134]
    (by decide) (by decide) (by simp [Sorted]) (by simp [valid_iff]) 0x1a44 (by decide)
  exact absurd hcombine (by decide)

end Icu.Normalizer
