import Icu.Lib.Mirror
import Icu.BiDi.IndexMaps
import Icu.BiDi.Reorder
import Mathlib.Data.List.Nodup
import Mathlib.Data.List.Perm.Subperm

/-! # Index maps for levels

The functions `ubidi_reorderLogical` and `ubidi_invertMap` of `ubidiln.c`, next to
`ubidi_reorderVisual`. One function moves the logical indexes to their visual places, and the other
one computes the visual index for each logical index.
-/

namespace Icu.BiDi

open Lib.LevelReversal

variable {limit : Nat}

/-- `do { indexMap[start]=sumOfSosEos-indexMap[start]; } while(++start<limit);` -/
def mirrorIndexes (sumOfSosEos : Int) (limit : Nat) : Nat → List Int → Nat → List Int
  | 0, indexMap, _ => indexMap
  | fuel + 1, indexMap, start =>
    let indexMap := indexMap.modify start (sumOfSosEos - ·)
    if start + 1 < limit then mirrorIndexes sumOfSosEos limit fuel indexMap (start + 1)
      else indexMap

/-- The loop for all sequences of levels to reorder at the current `maxLevel`. -/
def mirrorSequences (high : Nat → Bool) (length : Nat) : Nat → List Int → Nat → List Int
  | 0, indexMap, _ => indexMap
  | fuel + 1, indexMap, start =>
    let start := skipWhile (fun i => !high i) length length start
    if length ≤ start then indexMap -- no more such sequences
    else
      let limit := skipWhile high length length (start + 1)
      let indexMap := mirrorIndexes (start + limit - 1) limit length indexMap start
      if limit = length then indexMap else mirrorSequences high length fuel indexMap (limit + 1)

/-- `do { ... } while(--maxLevel>=minLevel);` of `ubidi_reorderLogical`. -/
def reorderLogicalFrom (levels : List Nat) (minLevel : Nat) : Nat → List Int → List Int
  | 0, indexMap => indexMap
  | maxLevel + 1, indexMap =>
    let indexMap := mirrorSequences (fun i => decide (maxLevel + 1 ≤ levels.getD i 0)) levels.length
      (levels.length + 1) indexMap 0
    if minLevel ≤ maxLevel then reorderLogicalFrom levels minLevel maxLevel indexMap else indexMap

/-- `ubidi_reorderLogical(levels, length, indexMap)`, with `none` for a map that is not set. -/
def reorderLogical (levels : List Nat) : Option (List Int) :=
  if levels = [] ∨ levels.any (fun l => decide (maxExplicitLevel + 1 < l)) then none
  else
    let minLevel := levels.foldr min (maxExplicitLevel + 1)
    let maxLevel := levels.foldr max 0
    let indexMap := (List.range levels.length).map Int.ofNat
    if minLevel = maxLevel ∧ minLevel % 2 = 0 then some indexMap
    else some (reorderLogicalFrom levels (minLevel ||| 1) maxLevel indexMap)

/-- `uprv_memset(destMap, 0xFF, length*sizeof(int32_t))` -/
def IndexMap.clear (m : IndexMap) (length : Int) : IndexMap :=
  fun i => if (i : Int) < length then some (-1) else m i

/-- `ubidi_invertMap(srcMap, destMap, length)` -/
def invertMap (srcMap : List Int) (destMap : IndexMap) : IndexMap :=
  if srcMap = [] then destMap
  else
    -- find highest value and count positive indexes in srcMap
    let destLength := srcMap.foldr max (-1) + 1
    let count := srcMap.countP fun v => decide (0 ≤ v)
    -- we must fill unmatched destMap entries with -1
    let destMap := if count < destLength then destMap.clear destLength else destMap
    srcMap.zipIdx.foldr (fun x m => if 0 ≤ x.1 then m.set x.1.toNat x.2 else m) destMap

def lowestOdd (levels : List Nat) : Option Nat := (levels.filter fun l => l % 2 == 1).min?

/-- The logical indexes in visual order: every maximal sequence at a level or higher is reversed,
for the levels from the highest one down to the lowest odd one. -/
def ruleL2 (levels : List Nat) : List Nat :=
  match lowestOdd levels with
  | none => List.range levels.length
  | some lo =>
    (passes Prod.fst lo (levels.foldr max 0 - lo) (levels.zip (List.range levels.length))).map
      Prod.snd

/-! ## One level -/

theorem length_mirrorIndexes (sum : Int) (limit : Nat) :
    ∀ (fuel : Nat) (m : List Int) (start : Nat),
    (mirrorIndexes sum limit fuel m start).length = m.length
  | 0, m, _ => rfl
  | fuel + 1, m, start => by
    rw [mirrorIndexes]
    split
    · rw [length_mirrorIndexes sum limit fuel, List.length_modify]
    · rw [List.length_modify]

theorem getElem?_mirrorIndexes (sum : Int) :
    ∀ (fuel : Nat) (m : List Int) (start : Nat), start < limit → limit - start ≤ fuel → ∀ i,
      (mirrorIndexes sum limit fuel m start)[i]? =
        if start ≤ i ∧ i < limit then m[i]?.map (sum - ·) else m[i]?
  | 0, m, start, h, hf, i => by omega
  | fuel + 1, m, start, h, hf, i => by
    rw [mirrorIndexes]
    split
    · next hmore =>
      rw [getElem?_mirrorIndexes sum fuel _ (start + 1) hmore (by omega) i, List.getElem?_modify]
      by_cases heq : i = start
      · rw [if_neg (by omega), if_pos (by omega), heq]
        simp
      have hne : ¬ start = i := fun hcon => heq hcon.symm
      by_cases hin : start + 1 ≤ i ∧ i < limit
      · rw [if_pos hin, if_pos (by omega)]
        simp [hne]
      · rw [if_neg hin, if_neg (by omega)]
        simp [hne]
    · next hmore =>
      rw [List.getElem?_modify]
      by_cases heq : i = start
      · rw [if_pos (by omega), heq]
        simp
      have hne : ¬ start = i := fun hcon => heq hcon.symm
      rw [if_neg (by omega)]
      simp [hne]

/-- What the loop for one level does from a position that no sequence goes across. -/
structure Mirrors (high : Nat → Bool) (length start : Nat) (m m' : List Int) : Prop where
  length_eq : m'.length = m.length
  before : ∀ i, i < start → m'[i]? = m[i]?
  unmarked : ∀ i, i < length → high i = false → m'[i]? = m[i]?
  marked : ∀ first limit i, Maximal high length first limit → start ≤ first → first ≤ i →
    i < limit →
    m'[i]? = m[i]?.map ((first + limit - 1 : Int) - ·)

theorem maximal_unique {high : Nat → Bool} {length first first' limit' : Nat}
    (h : Maximal high length first limit) (h' : Maximal high length first' limit')
    (hmeet : first < limit') (hmeet' : first' < limit) : first = first' ∧ limit = limit' := by
  have hle := h.le
  have hle' := h'.le
  refine ⟨?_, ?_⟩
  · rcases Nat.lt_trichotomy first first' with hlt | heq | hgt
    · have hno := h'.first_end (by omega)
      rw [h.marked (first' - 1) (by omega) (by omega)] at hno
      cases hno
    · exact heq
    · have hno := h.first_end (by omega)
      rw [h'.marked (first - 1) (by omega) (by omega)] at hno
      cases hno
  · rcases Nat.lt_trichotomy limit limit' with hlt | heq | hgt
    · have hno := h.limit_end (by omega)
      rw [h'.marked limit (by omega) hlt] at hno
      cases hno
    · exact heq
    · have hno := h'.limit_end (by omega)
      rw [h.marked limit' (by omega) hgt] at hno
      cases hno

theorem mirrorSequences_spec {high : Nat → Bool} {length : Nat} :
    ∀ (fuel : Nat) (m : List Int) (start : Nat),
    start ≤ length → length - start < fuel → (0 < start → high (start - 1) = false) →
      Mirrors high length start m (mirrorSequences high length fuel m start)
  | 0, m, start, _, hf, _ => by omega
  | fuel + 1, m, start, hstart, hf, hbefore => by
    rw [mirrorSequences]
    obtain ⟨hlow, hhigh, hskipped, hfound⟩ :=
      skipWhile_spec (fun i => !high i) length length start hstart (by omega)
    generalize skipWhile (fun i => !high i) length length start = first at *
    simp only [Bool.not_eq_eq_eq_not, Bool.not_true, Bool.not_false] at hskipped hfound
    -- no sequence begins before the one that is found
    have hnext : ∀ {first' limit'}, Maximal high length first' limit' → start ≤ first' →
      first ≤ first' := by
      intro first' limit' hmax hle
      by_contra hlt
      have hno := hskipped first' hle (by omega)
      rw [hmax.marked first' (Nat.le_refl _) hmax.pos] at hno
      cases hno
    dsimp only
    by_cases hend : length ≤ first
    · rw [if_pos hend]
      refine ⟨rfl, fun _ _ => rfl, fun _ _ _ => rfl, fun first' limit' i hmax hle _ _ => ?_⟩
      have hpos := hmax.pos
      have hle' := hmax.le
      have hcon := hnext hmax hle
      omega
    rw [if_neg hend]
    obtain ⟨hl1, hl2, hl3, hl4⟩ :=
      skipWhile_spec high length length (first + 1) (by omega) (by omega)
    generalize skipWhile high length length (first + 1) = limit at *
    have hmax : Maximal high length first limit := by
      refine ⟨by omega, hl2, fun j hj hlt => ?_, fun hpos => ?_, hl4⟩
      · rcases Nat.eq_or_lt_of_le hj with rfl | hj
        · exact hfound (by omega)
        · exact hl3 j hj hlt
      rcases Nat.eq_or_lt_of_le hlow with heq | hlt
      · rw [← heq] at hpos ⊢
        exact hbefore hpos
      · exact hskipped (first - 1) (by omega) (by omega)
    have hmirror := getElem?_mirrorIndexes ((first : Int) + limit - 1) length m first
      (by omega : first < limit) (by omega)
    generalize hm' : mirrorIndexes ((first : Int) + limit - 1) limit length m first = m' at *
    have hlength : m'.length = m.length := by rw [← hm', length_mirrorIndexes]
    have hunmarked : ∀ i, high i = false → m'[i]? = m[i]? := by
      intro i hi
      rw [hmirror i, if_neg]
      rintro ⟨h1, h2⟩
      rw [hmax.marked i h1 h2] at hi
      cases hi
    have hmarked : ∀ first' limit' i, Maximal high length first' limit' → start ≤ first' →
        first' < limit → first' ≤ i → i < limit' →
          m'[i]? = m[i]?.map ((first' + limit' - 1 : Int) - ·) := by
      intro first' limit' i hmax' hle hmeet hi hi'
      have hpos' := hmax'.pos
      have hmeet' := hnext hmax' hle
      obtain ⟨rfl, rfl⟩ := maximal_unique hmax' hmax hmeet (by omega)
      rw [hmirror i, if_pos ⟨hi, hi'⟩]
    by_cases hlast : limit = length
    · rw [if_pos hlast]
      refine ⟨hlength, fun i hi => ?_, fun i _ hi => hunmarked i hi,
        fun first' limit' i hmax' hle hi hi' => ?_⟩
      · rw [hmirror i, if_neg (by omega)]
      have hpos' := hmax'.pos
      have hle' := hmax'.le
      exact hmarked first' limit' i hmax' hle (by omega) hi hi'
    rw [if_neg hlast]
    have hrest := @mirrorSequences_spec high length fuel m' (limit + 1) (by omega) (by omega)
      fun _ => hl4 (by omega)
    refine ⟨hrest.length_eq.trans hlength, fun i hi => ?_, fun i hin hi => ?_,
      fun first' limit' i hmax' hle hi hi' => ?_⟩
    · rw [hrest.before i (by omega), hmirror i, if_neg (by omega)]
    · rw [hrest.unmarked i hin hi, hunmarked i hi]
    · by_cases hmeet : first' < limit
      · have hpos' := hmax'.pos
        have hcon := hnext hmax' hle
        obtain ⟨-, rfl⟩ := maximal_unique hmax' hmax hmeet (by omega)
        rw [hrest.before i (by omega)]
        exact hmarked first' _ i hmax' hle hmeet hi hi'
      have hne : first' ≠ limit := by
        rintro rfl
        have hno := hl4 (by omega)
        rw [hmax'.marked first' (Nat.le_refl _) hmax'.pos] at hno
        cases hno
      rw [hrest.marked first' limit' i hmax' (by omega) hi hi', hmirror i, if_neg (by omega)]

end Icu.BiDi
