import Icu.ArraySort.Model
import Icu.Lib.StableSort

/-! # The stable binary search

The items before `start` are not greater than the item and those from `limit` are greater, and once
an equal item is found the last one of them is just before `start`.
-/

namespace Icu.ArraySort

open Lib

variable {α : Type} {cmp : α → α → Int} {itemSize : Int}

/-- The offsets of the items are `int32_t` values, and so is the sum of two indexes that have at
least `MIN_QSORT` items between them. -/
structure Fits (itemSize : Int) (length : Nat) : Prop where
  offset : ∀ i < length, i * itemSize ≤ 0x7fffffff
  sum : 2 * length ≤ 0x7fffffff + minQSort

namespace Fits

variable {length start limit i : Nat}

theorem mono (h : Fits itemSize length) (hle : limit ≤ length) : Fits itemSize limit where
  offset := fun i hi => h.offset i (by omega)
  sum := by
    have := h.sum
    omega

theorem checked (h : Fits itemSize length) (hpos : 0 < itemSize) (hi : i < length) :
    checked32 (i * itemSize) = some (i * itemSize) := by
  have hzero := Int.mul_nonneg (Int.natCast_nonneg i) (Int.le_of_lt hpos)
  exact checked32_eq (by omega) (h.offset i hi)

theorem itemAt_eq (h : Fits itemSize length) (hpos : 0 < itemSize) (hi : i < length)
    (array : List α) : itemAt itemSize array i = array[i]? := by
  rw [itemAt, h.checked hpos hi]
  rfl

theorem middle_eq (h : Fits itemSize length) (hwide : minQSort ≤ limit - start)
    (hlimit : limit ≤ length) : middle start limit = some ((start + limit) / 2) := by
  have hsum := h.sum
  unfold minQSort at hwide hsum
  rw [middle, checked32_eq (by omega) (by omega)]
  rfl

end Fits

structure IsTotalPreorder (cmp : α → α → Int) : Prop where
  symm : ∀ a b, cmp a b < 0 ↔ 0 < cmp b a
  trans : ∀ a b c, cmp a b ≤ 0 → cmp b c ≤ 0 → cmp a c ≤ 0

def le (cmp : α → α → Int) (a b : α) : Prop := cmp a b ≤ 0

instance : DecidableRel (le cmp) := fun a b => inferInstanceAs (Decidable (cmp a b ≤ 0))

namespace IsTotalPreorder

variable (h : IsTotalPreorder cmp) {a b c : α}

include h

theorem le_trans (hab : le cmp a b) (hbc : le cmp b c) : le cmp a c := h.trans a b c hab hbc

theorem le_iff : le cmp a b ↔ 0 ≤ cmp b a := by
  have := h.symm b a
  unfold le
  omega

theorem not_le : ¬ le cmp a b ↔ cmp b a < 0 := by
  rw [h.le_iff]
  omega

theorem le_refl : le cmp a a := by
  have := h.symm a a
  unfold le
  omega

theorem alike_iff : alike (le cmp) a b = true ↔ cmp a b = 0 := by
  have hab := h.symm a b
  have hba := h.symm b a
  unfold alike
  rw [Bool.and_eq_true, decide_eq_true_iff, decide_eq_true_iff]
  unfold le
  omega

end IsTotalPreorder

def SortedBelow (cmp : α → α → Int) (array : List α) (limit : Nat) : Prop :=
  ∀ i j a b, i ≤ j → j < limit → array[i]? = some a → array[j]? = some b → le cmp a b

/-- What the search knows: the items outside of `start` and `limit'`, and whether an equal item is
the last one before `start`. -/
structure Narrowed (cmp : α → α → Int) (array : List α) (limit : Nat) (item : α)
    (start limit' : Nat) (found : Bool) : Prop where
  le : start ≤ limit'
  le_limit : limit' ≤ limit
  before : ∀ j a, j < start → array[j]? = some a → 0 ≤ cmp item a
  behind : ∀ j a, limit' ≤ j → j < limit → array[j]? = some a → cmp item a < 0
  last : found = true → ∃ a, 0 < start ∧ array[start - 1]? = some a ∧ cmp item a = 0
  smaller : found = false → ∀ j a, j < start → array[j]? = some a → 0 < cmp item a

section Search

variable {array : List α} {limit start limit' i : Nat} {item a : α} {found : Bool}

section

variable (h : IsTotalPreorder cmp)
include h

theorem Narrowed.equal (hsorted : SortedBelow cmp array limit)
    (hn : Narrowed cmp array limit item start limit' found) (hi' : i < limit')
    (ha : array[i]? = some a) (hdiff : cmp item a = 0) :
    Narrowed cmp array limit item (i + 1) limit' true where
  le := by omega
  le_limit := hn.le_limit
  before := by
    intro j b hj hb
    have hle := hsorted j i b a (by omega) (by have := hn.le_limit; omega) hb ha
    have hitem : ArraySort.le cmp a item := by
      rw [h.le_iff]
      omega
    exact h.le_iff.mp (h.le_trans hle hitem)
  behind := hn.behind
  last := fun _ => ⟨a, by omega, ha, hdiff⟩
  smaller := fun hfalse => by contradiction

theorem Narrowed.greater (hsorted : SortedBelow cmp array limit)
    (hn : Narrowed cmp array limit item start limit' found) (hi : start ≤ i)
    (hi' : i < limit') (ha : array[i]? = some a) (hdiff : cmp item a < 0) :
    Narrowed cmp array limit item start i found where
  le := hi
  le_limit := by
    have := hn.le_limit
    omega
  before := hn.before
  behind := by
    intro j b hj hj' hb
    have hle := hsorted i j a b hj hj' ha hb
    rw [← h.not_le] at hdiff ⊢
    exact fun hb' => hdiff (h.le_trans hle hb')
  last := hn.last
  smaller := hn.smaller

theorem Narrowed.less (hsorted : SortedBelow cmp array limit)
    (hn : Narrowed cmp array limit item start limit' found) (hi : start ≤ i) (hi' : i < limit')
    (ha : array[i]? = some a) (hdiff : 0 < cmp item a) :
    found = false ∧ ∀ j b, j ≤ i → array[j]? = some b → 0 < cmp item b := by
  have hlimit := hn.le_limit
  have hless : ∀ j b, j ≤ i → array[j]? = some b → 0 < cmp item b := by
    intro j b hj hb
    by_contra hnot
    have hle := hsorted j i b a hj (by omega) hb ha
    have := h.trans item b a (by omega) hle
    omega
  refine ⟨?_, hless⟩
  by_contra hfound
  rw [Bool.not_eq_false] at hfound
  obtain ⟨b, hpos, hb, hequal⟩ := hn.last hfound
  have := hless (start - 1) b (by omega) hb
  omega

theorem searchHalves_spec (hpos : 0 < itemSize) (hfits : Fits itemSize limit)
    (hsorted : SortedBelow cmp array limit) (hlimit : limit ≤ array.length) (fuel : Nat)
    (hn : Narrowed cmp array limit item start limit' found) (hfuel : limit' - start < fuel) :
    ∃ start' limit'' found', searchHalves cmp itemSize array item fuel start limit' found =
      some (start', limit'', found') ∧ Narrowed cmp array limit item start' limit'' found' := by
  induction fuel generalizing start limit' found with
  | zero =>
    omega
  | succ fuel ih =>
    unfold searchHalves
    by_cases hwide : minQSort ≤ limit' - start
    · have hle := hn.le_limit
      have hmiddle := hfits.middle_eq hwide hle
      rw [if_pos hwide]
      unfold minQSort at hwide
      have hitem := hfits.itemAt_eq hpos (show (start + limit') / 2 < limit by omega) array
      obtain ⟨a, ha⟩ : ∃ a, array[(start + limit') / 2]? = some a :=
        ⟨_, List.getElem?_eq_getElem (by omega)⟩
      simp only [hmiddle, hitem, ha, Option.bind_eq_bind, Option.bind_some]
      obtain hless | hequal | hgreater := Int.lt_trichotomy (cmp item a) 0
      · rw [if_neg (by omega), if_pos hless]
        exact ih (hn.greater h hsorted (by omega) (by omega) ha hless) (by omega)
      · rw [if_pos hequal]
        exact ih (hn.equal h hsorted (by omega) ha hequal) (by omega)
      · obtain ⟨rfl, hsmaller⟩ := hn.less h hsorted (by omega) (by omega) ha hgreater
        rw [if_neg (by omega), if_neg (by omega)]
        refine ih ⟨by omega, hle, ?_, hn.behind, fun hf => by contradiction, ?_⟩ (by omega)
        · intro j b hj hb
          exact Int.le_of_lt (hsmaller j b (by omega) hb)
        · intro _ j b hj hb
          exact hsmaller j b (by omega) hb
    · rw [if_neg hwide]
      exact ⟨start, limit', found, rfl, hn⟩

theorem searchLinear_spec (hpos : 0 < itemSize) (hfits : Fits itemSize limit)
    (hsorted : SortedBelow cmp array limit) (hlimit : limit ≤ array.length) (fuel : Nat)
    (hn : Narrowed cmp array limit item start limit' found) (hfuel : limit' - start < fuel) :
    ∃ start' found',
      searchLinear cmp itemSize array item limit' fuel start found = some (start', found') ∧
      Narrowed cmp array limit item start' start' found' := by
  induction fuel generalizing start found with
  | zero =>
    omega
  | succ fuel ih =>
    have hle := hn.le
    unfold searchLinear
    by_cases hmore : start < limit'
    · have hle' := hn.le_limit
      obtain ⟨a, ha⟩ : ∃ a, array[start]? = some a := ⟨_, List.getElem?_eq_getElem (by omega)⟩
      have hitem := hfits.itemAt_eq hpos (show start < limit by omega) array
      rw [if_pos hmore]
      simp only [hitem, ha, Option.bind_eq_bind, Option.bind_some]
      obtain hless | hequal | hgreater := Int.lt_trichotomy (cmp item a) 0
      · rw [if_pos hless]
        exact ⟨start, found, rfl, hn.greater h hsorted (Nat.le_refl start) hmore ha hless⟩
      · rw [if_neg (by omega), decide_eq_true hequal, Bool.or_true]
        exact ih (hn.equal h hsorted hmore ha hequal) (by omega)
      · obtain ⟨rfl, hsmaller⟩ := hn.less h hsorted (Nat.le_refl start) hmore ha hgreater
        rw [if_neg (by omega), decide_eq_false (by omega), Bool.or_false]
        refine ih ⟨by omega, hle', ?_, hn.behind, fun hf => by contradiction, ?_⟩ (by omega)
        · intro j b hj hb
          exact Int.le_of_lt (hsmaller j b (by omega) hb)
        · intro _ j b hj hb
          exact hsmaller j b (by omega) hb
    · rw [if_neg hmore]
      obtain rfl : start = limit' := by omega
      exact ⟨start, found, rfl, hn⟩

/-- The search ends at the place behind all items that are not greater. -/
theorem uprvStableBinarySearch_spec (hpos : 0 < itemSize) (hfits : Fits itemSize limit)
    (hsorted : SortedBelow cmp array limit) (hlimit : limit ≤ array.length) (item : α) :
    ∃ start found, uprvStableBinarySearch cmp itemSize array limit item =
        some (if found then (start : Int) - 1 else -(start : Int) - 1) ∧
      Narrowed cmp array limit item start start found := by
  have hinitial : Narrowed cmp array limit item 0 limit false :=
    ⟨by omega, Nat.le_refl limit, by omega, by omega, fun hf => by contradiction, by omega⟩
  obtain ⟨start, limit', found, hhalves, hn⟩ :=
    searchHalves_spec h hpos hfits hsorted hlimit (limit + 1) hinitial (by omega)
  obtain ⟨start', found', hlinear, hn'⟩ :=
    searchLinear_spec h hpos hfits hsorted hlimit (limit' + 1) hn (by omega)
  refine ⟨start', found', ?_, hn'⟩
  unfold uprvStableBinarySearch
  simp only [hhalves, hlinear, Option.bind_eq_bind, Option.bind_some, Option.pure_def]

end

end Search

section InsertionSort

variable {xs ys rest : List α} {v : α}

theorem sortedBelow_append (h : IsTotalPreorder cmp) (hsorted : ys.Pairwise (le cmp))
    (rest : List α) : SortedBelow cmp (ys ++ rest) ys.length := by
  intro i j a b hij hj ha hb
  rw [List.getElem?_append_left (by omega)] at ha hb
  obtain ⟨hi', rfl⟩ := List.getElem?_eq_some_iff.mp ha
  obtain ⟨hj', rfl⟩ := List.getElem?_eq_some_iff.mp hb
  obtain rfl | hlt := Nat.eq_or_lt_of_le hij
  · exact h.le_refl
  · exact List.pairwise_iff_getElem.mp hsorted i j hi' hj' hlt

theorem moveItem_eq {array : List α} {j insertionPoint : Nat} (hpos : 0 < itemSize)
    (hfits : Fits itemSize (j + 1)) (hle : insertionPoint ≤ j) :
    moveItem itemSize array insertionPoint j v = some (array.take insertionPoint ++
      v :: (array.drop insertionPoint).take (j - insertionPoint) ++ array.drop (j + 1)) := by
  have hdist := hfits.checked hpos (show j - insertionPoint < j + 1 by omega)
  rw [Int.natCast_sub hle] at hdist
  rw [moveItem, hfits.checked hpos (show insertionPoint < j + 1 by omega), hdist]
  rfl

theorem moveItem_append (hpos : 0 < itemSize) (hfits : Fits itemSize (ys.length + 1))
    (insertionPoint : Nat) (hle : insertionPoint ≤ ys.length) :
    moveItem itemSize (ys ++ v :: rest) insertionPoint ys.length v =
      some (ys.take insertionPoint ++ v :: ys.drop insertionPoint ++ rest) := by
  have hmiddle : ((ys ++ v :: rest).drop insertionPoint).take (ys.length - insertionPoint) =
      ys.drop insertionPoint := by
    rw [List.drop_append_of_le_length hle]
    exact List.take_left' (List.length_drop ..)
  have hlast : (ys ++ v :: rest).drop (ys.length + 1) = rest := by
    rw [List.append_cons]
    exact List.drop_left' (by simp)
  rw [moveItem_eq hpos hfits hle, hmiddle, hlast, List.take_append_of_le_length hle]

theorem insertItem_spec (h : IsTotalPreorder cmp) (hpos : 0 < itemSize)
    (hfits : Fits itemSize (ys.length + 1)) (hys : StableSort (le cmp) xs ys) (v : α)
    (rest : List α) : ∃ insertionPoint,
      uprvStableBinarySearch cmp itemSize (ys ++ v :: rest) ys.length v = some insertionPoint ∧
      ∃ zs, (if (if insertionPoint < 0 then -insertionPoint - 1 else insertionPoint + 1) <
          (ys.length : Int) then moveItem itemSize (ys ++ v :: rest) (if insertionPoint < 0 then
            -insertionPoint - 1 else insertionPoint + 1).toNat ys.length v
          else some (ys ++ v :: rest)) = some (zs ++ rest) ∧
        StableSort (le cmp) (xs ++ [v]) zs := by
  obtain ⟨start, found, hsearch, hn⟩ := uprvStableBinarySearch_spec h hpos
    (hfits.mono (Nat.le_succ _)) (sortedBelow_append h hys.sorted (v :: rest)) (by simp) v
  refine ⟨_, hsearch, ys.take start ++ v :: ys.drop start, ?_, ?_⟩
  · have hpoint : (if (if found = true then (start : Int) - 1 else -(start : Int) - 1) < 0 then
        -(if found = true then (start : Int) - 1 else -(start : Int) - 1) - 1
        else (if found = true then (start : Int) - 1 else -(start : Int) - 1) + 1) = start := by
      cases found with
      | false =>
        rw [if_neg Bool.false_ne_true, if_pos (by omega)]
        omega
      | true =>
        obtain ⟨a, hpos, -⟩ := hn.last rfl
        rw [if_pos rfl, if_neg (by omega)]
        omega
    rw [hpoint, Int.toNat_natCast]
    by_cases hmove : start < ys.length
    · rw [if_pos (by omega), moveItem_append hpos hfits start hn.le_limit]
    have hend : start = ys.length := by
      have := hn.le_limit
      omega
    rw [if_neg (by omega), hend, List.take_length, List.drop_length]
    simp
  · apply @StableSort.insert _ (le cmp) _ (fun hab hbc => h.le_trans hab hbc)
    · rwa [List.take_append_drop]
    · intro b hb
      obtain ⟨j, hj, hget⟩ := List.mem_iff_getElem.mp hb
      rw [List.length_take] at hj
      rw [List.getElem_take] at hget
      rw [h.le_iff]
      apply hn.before j b (by omega)
      rw [List.getElem?_append_left (by omega), List.getElem?_eq_getElem (by omega), hget]
    · intro b hb
      obtain ⟨j, hj, hget⟩ := List.mem_iff_getElem.mp hb
      rw [List.length_drop] at hj
      rw [List.getElem_drop] at hget
      have hgreater := hn.behind (start + j) b (by omega) (by omega) (by
        rw [List.getElem?_append_left (by omega), List.getElem?_eq_getElem (by omega), hget])
      refine ⟨Int.le_of_lt hgreater, ?_⟩
      rw [h.not_le]
      exact hgreater

theorem insertItems_spec (h : IsTotalPreorder cmp) (hpos : 0 < itemSize) (rest : List α)
    (hfits : Fits itemSize (ys.length + rest.length)) (hys : StableSort (le cmp) xs ys) :
    ∃ zs, insertItems cmp itemSize rest.length ys.length (ys ++ rest) = some zs ∧
      StableSort (le cmp) (xs ++ rest) zs := by
  induction rest generalizing xs ys with
  | nil =>
    refine ⟨ys, ?_, ?_⟩
    · simp [insertItems]
    · rwa [List.append_nil]
  | cons v rest ih =>
    rw [List.length_cons] at hfits
    obtain ⟨insertionPoint, hsearch, zs, hmove, hzs⟩ :=
      insertItem_spec h hpos (hfits.mono (by omega)) hys v rest
    have hlength : zs.length = ys.length + 1 := by
      rw [hzs.perm.length_eq, List.length_append, hys.perm.length_eq]
      rfl
    obtain ⟨ws, hws, hstable⟩ := ih (hfits.mono (by omega)) hzs
    rw [List.append_assoc, List.singleton_append] at hstable
    refine ⟨ws, ?_, hstable⟩
    have hitem : itemAt itemSize (ys ++ v :: rest) ys.length = some v := by
      rw [hfits.itemAt_eq hpos (by omega)]
      simp
    rw [List.length_cons, insertItems, hitem]
    simp only [hsearch, hmove, Option.bind_eq_bind, Option.bind_some]
    rw [← hlength]
    exact hws

theorem doInsertionSort_spec (h : IsTotalPreorder cmp) (hpos : 0 < itemSize) (xs : List α)
    (hfits : Fits itemSize xs.length) :
    ∃ zs, doInsertionSort cmp itemSize xs = some zs ∧ StableSort (le cmp) xs zs := by
  cases xs with
  | nil =>
    exact ⟨[], rfl, ⟨List.Pairwise.nil, List.Perm.refl _, fun _ => rfl⟩⟩
  | cons a rest =>
    exact insertItems_spec h hpos rest (hfits.mono (by simp; omega)) (StableSort.singleton a)

end InsertionSort

end Icu.ArraySort
