import Icu.ArraySort.QuickSort

/-! # Sorting arrays

`uprv_sortArray` sorts by one of the two algorithms, and the insertion sort keeps the order of equal
items. Offsets and sums of indexes are `int32_t` values, which very large arrays let overflow.
-/

namespace Icu.ArraySort

open Lib

variable {α : Type} {cmp : α → α → Int} {array : List α} {itemSize : Int}

/-- The index of the last equal item, or the complement of the insertion point. -/
def IsPlace (cmp : α → α → Int) (array : List α) (limit : Nat) (item : α) (place : Int) : Prop :=
  (∃ i < limit, place = i ∧ (∃ a, array[i]? = some a ∧ cmp item a = 0) ∧
    ∀ j b, i < j → j < limit → array[j]? = some b → cmp item b < 0) ∨
  ∃ i ≤ limit, place = -(i : Int) - 1 ∧
    (∀ j b, j < i → array[j]? = some b → 0 < cmp item b) ∧
    ∀ j b, i ≤ j → j < limit → array[j]? = some b → cmp item b < 0

theorem uprvStableBinarySearch_isPlace (h : IsTotalPreorder cmp) (hpos : 0 < itemSize)
    {limit : Nat} (hfits : Fits itemSize limit) (hsorted : SortedBelow cmp array limit)
    (hlimit : limit ≤ array.length) (item : α) :
    ∃ place, uprvStableBinarySearch cmp itemSize array limit item = some place ∧
      IsPlace cmp array limit item place := by
  obtain ⟨start, found, hsearch, hn⟩ :=
    uprvStableBinarySearch_spec h hpos hfits hsorted hlimit item
  have hle := hn.le_limit
  refine ⟨_, hsearch, ?_⟩
  cases found with
  | true =>
    obtain ⟨a, hpos, ha, hequal⟩ := hn.last rfl
    left
    refine ⟨start - 1, by omega, ?_, ⟨a, ha, hequal⟩, ?_⟩
    · simp
      omega
    · intro j b hj hj' hb
      exact hn.behind j b (by omega) hj' hb
  | false =>
    right
    exact ⟨start, hle, by simp, hn.smaller rfl, hn.behind⟩

/-- A sorted array, in which equal items have kept their order if the sort is stable. -/
structure Sorted (cmp : α → α → Int) (sortStable : Bool) (array array' : List α) : Prop where
  perm : array'.Perm array
  sorted : array'.Pairwise (le cmp)
  stable : sortStable = true → ∀ a, array'.filter (fun b => decide (cmp a b = 0)) =
    array.filter (fun b => decide (cmp a b = 0))

theorem sorted_of_stableSort (h : IsTotalPreorder cmp) (sortStable : Bool) {array' : List α}
    (hstable : StableSort (le cmp) array array') : Sorted cmp sortStable array array' where
  perm := hstable.perm
  sorted := hstable.sorted
  stable := by
    intro _ a
    have halike : alike (le cmp) a = fun b => decide (cmp a b = 0) := by
      funext b
      rw [Bool.eq_iff_iff, h.alike_iff, decide_eq_true_iff]
    rw [← halike]
    exact hstable.stable a

theorem sorted_of_length_le (sortStable : Bool)
    (hlength : array.length ≤ 1) : Sorted cmp sortStable array array := by
  refine ⟨List.Perm.refl array, ?_, fun _ _ => rfl⟩
  match array, hlength with
  | [], _ => exact List.Pairwise.nil
  | [a], _ => exact List.pairwise_singleton _ _

/-- There is no error: the arguments are legal, and there is memory for large items. -/
def CanSort (array : List α) (itemSize : Int) (malloc : Bool) (errorCode : UErrorCode) : Prop :=
  errorCode.isSuccess = true ∧ 0 < itemSize ∧
    (array.length ≤ 1 ∨ itemSize ≤ stackItemSize ∨ malloc = true)

theorem insertionSort_sorts (h : IsTotalPreorder cmp) (hpos : 0 < itemSize)
    (hfits : Fits itemSize array.length) (sortStable malloc : Bool) (errorCode : UErrorCode) :
    (itemSize ≤ stackItemSize ∨ malloc = true → ∃ array',
      insertionSort cmp itemSize array malloc errorCode = some (errorCode, array') ∧
        Sorted cmp sortStable array array') ∧
    (¬ (itemSize ≤ stackItemSize ∨ malloc = true) →
      insertionSort cmp itemSize array malloc errorCode = some
        (.memoryAllocationError, array)) := by
  rw [insertionSort]
  constructor
  · intro hmemory
    obtain ⟨array', hsort, hstable⟩ := doInsertionSort_spec h hpos array hfits
    refine ⟨array', ?_, sorted_of_stableSort h sortStable hstable⟩
    have henough : ¬ (decide (stackItemSize < itemSize) && !malloc) = true := by
      rintro hnot
      simp only [Bool.and_eq_true, decide_eq_true_eq, Bool.not_eq_true'] at hnot
      rcases hmemory with hsmall | hmalloc
      · omega
      · rw [hmalloc] at hnot
        cases hnot.2
    rw [if_neg henough, hsort]
    rfl
  · intro hnone
    rw [not_or, Int.not_le, Bool.not_eq_true] at hnone
    rw [if_pos (by simp [hnone])]

theorem quickSort_sorts (h : IsTotalPreorder cmp) (hpos : 0 < itemSize)
    (hfits : Fits itemSize array.length) (hlength : minQSort ≤ array.length) (malloc : Bool)
    (errorCode : UErrorCode) :
    (itemSize ≤ stackItemSize ∨ malloc = true → ∃ array',
      quickSort cmp itemSize array malloc errorCode = some (errorCode, array') ∧
        Sorted cmp false array array') ∧
    (¬ (itemSize ≤ stackItemSize ∨ malloc = true) →
      quickSort cmp itemSize array malloc errorCode = some (.memoryAllocationError, array)) := by
  have htwo : checked32 (2 * itemSize) = some (2 * itemSize) := by
    have := hfits.offset 2 (by unfold minQSort at hlength; omega)
    exact checked32_eq (by omega) (by omega)
  rw [quickSort]
  constructor
  · intro hmemory
    obtain ⟨array', hsort, hperm, hsorted⟩ :=
      subQuickSort_spec h hpos (array.length + 1) array (Nat.lt_succ_self _) [] []
        (by rintro rfl; cases hlength) (by simpa using hfits)
    simp only [List.nil_append, List.append_nil, List.length_nil, Nat.zero_add] at hsort
    refine ⟨array', ?_, hperm, hsorted, fun hstable => by cases hstable⟩
    have henough : (if itemSize ≤ stackItemSize then some true
        else (checked32 (2 * itemSize)).map fun _ => malloc) = some true := by
      split
      · rfl
      · next hlarge =>
        rw [htwo, Option.map_some, hmemory.resolve_left hlarge]
    rw [henough]
    simp only [Option.bind_eq_bind, Option.bind_some, if_true, hsort, Option.pure_def]
  · intro hnone
    rw [not_or, Bool.not_eq_true] at hnone
    rw [if_neg hnone.1, htwo, hnone.2]
    rfl

/-- For an array whose offsets fit, `uprv_sortArray` sorts unless it reports an error, and then it
leaves the array alone. The binary search finds the last equal item or the place of a new one. -/
theorem uprvSortArray_sorts (h : IsTotalPreorder cmp) :
    (∀ (array : List α) (itemSize : Int) (sortStable malloc : Bool) (errorCode : UErrorCode),
      Fits itemSize array.length → ∃ errorCode' array',
        uprvSortArray cmp itemSize array sortStable malloc errorCode = some (errorCode', array') ∧
        (CanSort array itemSize malloc errorCode →
          errorCode' = errorCode ∧ Sorted cmp sortStable array array') ∧
        (¬ CanSort array itemSize malloc errorCode →
          errorCode'.isSuccess = false ∧ array' = array)) ∧
    ∀ (array : List α) (itemSize : Int) (limit : Nat), 0 < itemSize → Fits itemSize limit →
      limit ≤ array.length → SortedBelow cmp array limit →
      ∀ item, ∃ place, uprvStableBinarySearch cmp itemSize array limit item = some place ∧
        IsPlace cmp array limit item place := by
  refine ⟨?_, fun array itemSize limit hpos hfits hlimit hsorted item =>
    uprvStableBinarySearch_isPlace h hpos hfits hsorted hlimit item⟩
  intro array itemSize sortStable malloc errorCode hfits
  unfold uprvSortArray CanSort
  by_cases hsuccess : errorCode.isSuccess = true
  · by_cases hsize : itemSize ≤ 0
    · refine ⟨.illegalArgumentError, array, by simp [hsuccess, hsize], by omega,
        fun _ => ⟨rfl, rfl⟩⟩
    have hpos := Int.not_le.mp hsize
    by_cases hshort : array.length ≤ 1
    · refine ⟨errorCode, array, by simp [hsuccess, hsize, hshort],
        fun _ => ⟨rfl, sorted_of_length_le sortStable hshort⟩, fun hnot => ?_⟩
      exact absurd ⟨hsuccess, hpos, Or.inl hshort⟩ hnot
    rw [if_neg (by simp [hsuccess]), if_neg hsize, if_neg hshort]
    obtain ⟨hsorts, hfails⟩ : (itemSize ≤ stackItemSize ∨ malloc = true → ∃ array',
        (if (decide (array.length < minQSort) || sortStable) = true then
          insertionSort cmp itemSize array malloc errorCode
        else quickSort cmp itemSize array malloc errorCode) = some (errorCode, array') ∧
          Sorted cmp sortStable array array') ∧
        (¬ (itemSize ≤ stackItemSize ∨ malloc = true) →
          (if (decide (array.length < minQSort) || sortStable) = true then
            insertionSort cmp itemSize array malloc errorCode
          else quickSort cmp itemSize array malloc errorCode) =
            some (.memoryAllocationError, array)) := by
      by_cases hinsertion : (decide (array.length < minQSort) || sortStable) = true
      · rw [if_pos hinsertion]
        exact insertionSort_sorts h hpos hfits sortStable malloc errorCode
      · rw [if_neg hinsertion]
        rw [Bool.or_eq_true, not_or, decide_eq_true_eq, Nat.not_lt, Bool.not_eq_true] at hinsertion
        rw [hinsertion.2]
        exact quickSort_sorts h hpos hfits hinsertion.1 malloc errorCode
    by_cases hmemory : itemSize ≤ stackItemSize ∨ malloc = true
    · obtain ⟨array', hsort, hsorted⟩ := hsorts hmemory
      exact ⟨errorCode, array', hsort, fun _ => ⟨rfl, hsorted⟩,
        fun hnot => absurd ⟨hsuccess, hpos, Or.inr hmemory⟩ hnot⟩
    · refine ⟨.memoryAllocationError, array, hfails hmemory, ?_, fun _ => ⟨rfl, rfl⟩⟩
      rintro ⟨-, -, hcan⟩
      exact absurd (hcan.resolve_left hshort) hmemory
  · exact ⟨errorCode, array, by simp [hsuccess], fun hcan => absurd hcan.1 hsuccess,
      fun _ => ⟨by simpa using hsuccess, rfl⟩⟩

theorem isTotalPreorder_sub : IsTotalPreorder (fun a b : Int => a - b) where
  symm := by
    intro a b
    omega
  trans := by
    intro a b c hab hbc
    omega

theorem uprvSortArray_sorts_ten : ∃ errorCode array',
    uprvSortArray (fun a b : Int => a - b) 4 [5, 3, 9, 1, 5, 7, 2, 8, 5, 0] false true .zeroError =
      some (errorCode, array') ∧
    Sorted (fun a b : Int => a - b) false [5, 3, 9, 1, 5, 7, 2, 8, 5, 0] array' := by
  obtain ⟨errorCode, array', hsort, hsorted, -⟩ := (uprvSortArray_sorts isTotalPreorder_sub).1
    [5, 3, 9, 1, 5, 7, 2, 8, 5, 0] 4 false true .zeroError ⟨by decide, by decide⟩
  exact ⟨errorCode, array', hsort, (hsorted ⟨rfl, by decide, Or.inr (Or.inl (by decide))⟩).2⟩

/-! ## Arrays that are too large -/

section Equal

variable {a : α} {n j insertionPoint : Nat}

theorem itemAt_replicate (hj : j < n) :
    itemAt itemSize (List.replicate n a) j = none ∨
      itemAt itemSize (List.replicate n a) j = some a := by
  rw [itemAt]
  cases checked32 (j * itemSize) with
  | none => exact .inl rfl
  | some offset => exact .inr (List.getElem?_replicate_of_lt hj)

theorem moveItem_replicate (hj : j < n) (hle : insertionPoint ≤ j) :
    moveItem itemSize (List.replicate n a) insertionPoint j a = none ∨
      moveItem itemSize (List.replicate n a) insertionPoint j a = some (List.replicate n a) := by
  have hsame : (List.replicate n a).take insertionPoint ++
      a :: ((List.replicate n a).drop insertionPoint).take (j - insertionPoint) ++
        (List.replicate n a).drop (j + 1) = List.replicate n a := by
    rw [List.eq_replicate_iff]
    refine ⟨by simp; omega, fun b hb => ?_⟩
    simp only [List.take_replicate, List.drop_replicate, List.mem_append, List.mem_cons,
      List.mem_replicate] at hb
    rcases hb with (hb | rfl | hb) | hb
    · exact hb.2
    · rfl
    · exact hb.2
    · exact hb.2
  rw [moveItem, hsame]
  cases checked32 (insertionPoint * itemSize) with
  | none => exact .inl rfl
  | some offset =>
    cases checked32 ((j - insertionPoint) * itemSize) with
    | none => exact .inl rfl
    | some size => exact .inr rfl

theorem insert_replicate (hj : j < n) (place : Int) :
    (if place < j then moveItem itemSize (List.replicate n a) place.toNat j a
      else some (List.replicate n a)) = none ∨
    (if place < j then moveItem itemSize (List.replicate n a) place.toNat j a
      else some (List.replicate n a)) = some (List.replicate n a) := by
  by_cases hmove : place < j
  · rw [if_pos hmove]
    exact moveItem_replicate hj (by omega)
  · exact .inr (if_neg hmove)

/-- Equal items stay where they are, so the insertion sort comes to the last of them. -/
theorem insertItems_replicate (hlast : uprvStableBinarySearch cmp itemSize (List.replicate n a)
    (n - 1) a = none) (m : Nat) (hm : 0 < m) (hj : j + m = n) :
    insertItems cmp itemSize m j (List.replicate n a) = none := by
  induction m generalizing j with
  | zero => omega
  | succ m ih =>
    rw [insertItems]
    rcases itemAt_replicate (show j < n by omega) with hitem | hitem
    · rw [hitem]
      rfl
    rw [hitem]
    simp only [Option.bind_eq_bind, Option.bind_some]
    cases hsearch : uprvStableBinarySearch cmp itemSize (List.replicate n a) j a with
    | none => rfl
    | some place =>
      have hmore : 0 < m := by
        by_contra hzero
        obtain rfl : j = n - 1 := by omega
        rw [hlast] at hsearch
        cases hsearch
      rw [Option.bind_some]
      rcases @insert_replicate _ itemSize a n j (by omega)
        (if place < 0 then -place - 1 else place + 1) with hnone | hsame
      · rw [hnone]
        rfl
      · rw [hsame, Option.bind_some]
        exact ih hmore (by omega)

/-- The second sum of the search among equal items is half as large again as the index. -/
theorem uprvStableBinarySearch_replicate (hequal : cmp a a = 0) (hn : j < n) (hj : j ≤ 0x7fffffff)
    (hlarge : 0x7fffffff < j / 2 + 1 + j) :
    uprvStableBinarySearch cmp 1 (List.replicate n a) j a = none := by
  have hfirst : middle 0 j = some (j / 2) := by
    rw [middle, checked32_eq (by omega) (by omega)]
    simp
  have hitem : itemAt 1 (List.replicate n a) (j / 2) = some a := by
    rw [itemAt, checked32_eq (by omega) (by omega)]
    exact List.getElem?_replicate_of_lt (by omega)
  have hsecond : middle (j / 2 + 1) j = none := by
    rw [middle, checked32, if_neg (by omega)]
    rfl
  have hhalves : searchHalves cmp 1 (List.replicate n a) a (j + 1) 0 j false = none := by
    obtain ⟨fuel, hfuel⟩ : ∃ fuel, j = fuel + 1 := ⟨j - 1, by omega⟩
    rw [searchHalves, if_pos (by unfold minQSort; omega), hfirst]
    simp only [Option.bind_eq_bind, Option.bind_some, hitem, if_pos hequal]
    have hnext : ∀ fuel', fuel' = fuel + 1 →
        searchHalves cmp 1 (List.replicate n a) a fuel' (j / 2 + 1) j true = none := by
      rintro _ rfl
      rw [searchHalves, if_pos (by unfold minQSort; omega), hsecond]
      rfl
    exact hnext j hfuel
  rw [uprvStableBinarySearch, hhalves]
  rfl

theorem doInsertionSort_replicate (hequal : cmp a a = 0) (hn : n ≤ 0x7fffffff)
    (hlarge : 0x7fffffff < (n - 1) / 2 + 1 + (n - 1)) :
    doInsertionSort cmp 1 (List.replicate n a) = none := by
  rw [doInsertionSort, List.length_replicate]
  exact insertItems_replicate
    (uprvStableBinarySearch_replicate hequal (by omega) (by omega) hlarge) (n - 1) (by omega)
    (by omega)

end Equal

/-- The offset of the third item of 2³⁰ bytes overflows, and so does a sum of two indexes in an
array of 2³¹-1 bytes. -/
theorem sortArray_overflows :
    uprvSortArray (fun a b : Int => a - b) 0x40000000 [0, 1, 2] true true .zeroError = none ∧
    uprvSortArray (fun a b : Int => a - b) 1 (List.replicate 0x7fffffff 0) true true .zeroError =
      none := by
  refine ⟨by decide, ?_⟩
  have hsort := @doInsertionSort_replicate Int (fun a b => a - b) 0 0x7fffffff (by decide)
    (by decide)
    (by decide)
  rw [uprvSortArray, if_neg (by decide), if_neg (by decide), List.length_replicate,
    if_neg (by decide), if_pos (by simp), insertionSort, if_neg (by decide), hsort]
  rfl

end Icu.ArraySort
