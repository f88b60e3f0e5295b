import Icu.Lib.LevelReversal

/-! # Positions under a pass

A pass over a list mirrors the positions of each maximal sequence of marked positions. So two
passes with the same marks change nothing, and a map from old positions to new ones follows the
list, if it mirrors its values.
-/

namespace Icu.Lib.LevelReversal

variable {α : Type} {p : Nat → Bool} {count i start first limit : Nat} {xs : List α}

structure Maximal (p : Nat → Bool) (count first limit : Nat) : Prop where
  pos : first < limit
  le : limit ≤ count
  marked : ∀ j, first ≤ j → j < limit → p j = true
  first_end : 0 < first → p (first - 1) = false
  limit_end : limit < count → p limit = false

def firstOf (p : Nat → Bool) : Nat → Nat
  | 0 => 0
  | i + 1 => if p i = true then firstOf p i else i + 1

theorem firstOf_spec (p : Nat → Bool) : ∀ i, firstOf p i ≤ i ∧
    (∀ j, firstOf p i ≤ j → j < i → p j = true) ∧ (0 < firstOf p i → p (firstOf p i - 1) = false)
  | 0 => ⟨Nat.le_refl 0, fun j _ h => absurd h (Nat.not_lt_zero j), fun h =>
    absurd h (Nat.lt_irrefl 0)⟩
  | i + 1 => by
    rw [firstOf]
    split
    · next hp =>
      obtain ⟨hle, hmarked, hend⟩ := firstOf_spec p i
      refine ⟨by omega, fun j hj hlt => ?_, hend⟩
      rcases Nat.lt_or_ge j i with h | h
      · exact hmarked j hj h
      · rwa [show j = i by omega]
    · next hp =>
      exact ⟨Nat.le_refl _, fun j _ h => by omega, fun _ => Bool.not_eq_true _ ▸ hp⟩

theorem exists_maximal (hi : i < count) (hp : p i = true) :
    ∃ first limit, Maximal p count first limit ∧ first ≤ i ∧ i < limit := by
  obtain ⟨hfirst, hbefore, hfirstEnd⟩ := firstOf_spec p i
  obtain ⟨hlow, hhigh, hbehind, hend⟩ := skipWhile_spec p count count (i + 1) hi (by omega)
  refine ⟨firstOf p i, skipWhile p count count (i + 1),
    ⟨by omega, hhigh, fun j hj hlt => ?_, hfirstEnd, hend⟩, hfirst, by omega⟩
  rcases Nat.lt_trichotomy j i with h | rfl | h
  · exact hbefore j hj h
  · exact hp
  · exact hbehind j h hlt

/-! ## Elements under a pass -/

theorem reverseMarked_cut (bs : List Bool) (x : α) (ys : List α) :
    ∀ (as : List Bool) (xs acc : List α),
    as.length = xs.length →
      reverseMarked (as ++ false :: bs) (xs ++ x :: ys) acc =
        reverseMarked as xs acc ++ x :: reverseMarked bs ys []
  | [], [], acc, _ => by simp
  | true :: as, y :: xs, acc, h => by
    simp only [List.cons_append, reverseMarked_true]
    exact reverseMarked_cut bs x ys as xs (y :: acc) (by simpa using h)
  | false :: as, y :: xs, acc, h => by
    simp only [List.cons_append, reverseMarked_false, List.append_assoc]
    rw [reverseMarked_cut bs x ys as xs [] (by simpa using h)]

theorem length_reverseMarked (as : List Bool) (xs : List α) :
    (reverseMarked as xs []).length = xs.length := by
  rw [(reverseMarked_perm as xs []).length_eq, List.nil_append]

def passAt (p : Nat → Bool) (xs : List α) : List α := reverseMarked (marks p 0 xs.length) xs []

theorem length_passAt (xs : List α) : (passAt p xs).length = xs.length := length_reverseMarked _ xs

theorem length_marks (start count : Nat) : (marks p start count).length = count - start := by
  rw [marks, List.length_map, List.length_range']

theorem marks_cons (h : start < count) :
    marks p start count = p start :: marks p (start + 1) count := by
  rw [marks, show count - start = count - (start + 1) + 1 by omega, List.range'_succ, List.map_cons,
    marks]

theorem marks_append {mid : Nat} (h1 : start ≤ mid) (h2 : mid ≤ count) :
    marks p start count = marks p start mid ++ marks p mid count := by
  have hsplit : List.range' start (count - start) =
      List.range' start (mid - start) ++ List.range' mid (count - mid) := by
    rw [show count - start = (mid - start) + (count - mid) by omega, ← List.range'_append_1,
      show start + (mid - start) = mid by omega]
  rw [marks, hsplit, List.map_append, marks, marks]

theorem passAt_cut (hi : i < xs.length) (hp : p i = false) :
    passAt p xs = reverseMarked (marks p 0 i) (xs.take i) [] ++
      xs[i] :: reverseMarked (marks p (i + 1) xs.length) (xs.drop (i + 1)) [] := by
  have hmarks : marks p 0 xs.length = marks p 0 i ++ false :: marks p (i + 1) xs.length := by
    rw [← hp, ← marks_cons hi, ← marks_append (Nat.zero_le i) (Nat.le_of_lt hi)]
  have hxs : xs = xs.take i ++ xs[i] :: xs.drop (i + 1) := by
    rw [← List.drop_eq_getElem_cons hi, List.take_append_drop]
  rw [passAt, hmarks]
  nth_rewrite 2 [hxs]
  exact reverseMarked_cut _ _ _ _ _ [] (by rw [length_marks, List.length_take]; omega)

theorem getElem?_passAt_unmarked (hi : i < xs.length) (hp : p i = false) :
    (passAt p xs)[i]? = xs[i]? := by
  have hlength : (reverseMarked (marks p 0 i) (xs.take i) []).length = i := by
    rw [length_reverseMarked, List.length_take]
    omega
  rw [passAt_cut hi hp, List.getElem?_append_right (by omega), hlength, Nat.sub_self,
    List.getElem?_cons_zero, List.getElem?_eq_getElem hi]

section

variable (h : Maximal p xs.length first limit)
include h

theorem reverseMarked_sequence : reverseMarked (marks p first xs.length) (xs.drop first) [] =
      ((xs.drop first).take (limit - first)).reverse ++
        reverseMarked (marks p limit xs.length) (xs.drop limit) [] := by
  rw [reverseMarked_high (Nat.le_of_lt h.pos) h.le (Nat.le_refl _) h.marked]
  by_cases hend : limit < xs.length
  · rw [marks_cons hend, h.limit_end hend, List.drop_eq_getElem_cons hend, reverseMarked_false,
      reverseMarked_false, List.nil_append]
  have hle := h.le
  rw [show limit = xs.length by omega, List.drop_length, reverseMarked_nil, reverseMarked_nil,
    List.append_nil]

theorem passAt_maximal : ∃ pre post, pre.length = first ∧
      passAt p xs = pre ++ (((xs.drop first).take (limit - first)).reverse ++ post) := by
  have hsequence := reverseMarked_sequence h
  have hpos := h.pos
  have hle := h.le
  by_cases hfirst : 0 < first
  · have hcut := passAt_cut (show first - 1 < xs.length by omega) (h.first_end hfirst)
    rw [Nat.sub_add_cancel hfirst, hsequence] at hcut
    refine ⟨reverseMarked (marks p 0 (first - 1)) (xs.take (first - 1)) [] ++ [xs[first - 1]],
      reverseMarked (marks p limit xs.length) (xs.drop limit) [], ?_, ?_⟩
    · rw [List.length_append, length_reverseMarked, List.length_take, List.length_singleton]
      omega
    · rw [hcut, List.append_assoc, List.singleton_append]
  · obtain rfl : first = 0 := by omega
    rw [List.drop_zero] at hsequence
    exact ⟨[], _, rfl, hsequence⟩

theorem getElem?_passAt_marked (hfirst : first ≤ i) (hlimit : i < limit) :
    (passAt p xs)[first + limit - 1 - i]? = xs[i]? := by
  obtain ⟨pre, post, hpre, heq⟩ := passAt_maximal h
  have hle := h.le
  have hlength := @length_take_between _ xs first limit hle
  rw [heq, List.getElem?_append_right (by omega), hpre, List.getElem?_append_left
    (by rw [List.length_reverse, hlength]; omega), List.getElem?_reverse (by rw [hlength]; omega),
      hlength,
    List.getElem?_take_of_lt (by omega), List.getElem?_drop]
  congr 1
  omega

end

theorem passAt_passAt (xs : List α) : passAt p (passAt p xs) = xs := by
  apply List.ext_getElem?
  intro i
  have hlength := @length_passAt _ p xs
  by_cases hi : i < xs.length
  · by_cases hp : p i = true
    · obtain ⟨first, limit, hmax, hfirst, hlimit⟩ := exists_maximal hi hp
      have hmax' : Maximal p (passAt p xs).length first limit := by rwa [hlength]
      have hback := getElem?_passAt_marked hmax' (i := first + limit - 1 - i) (by omega) (by omega)
      rw [show first + limit - 1 - (first + limit - 1 - i) = i by omega] at hback
      rw [hback, getElem?_passAt_marked hmax hfirst hlimit]
    · rw [Bool.not_eq_true] at hp
      rw [getElem?_passAt_unmarked (by omega) hp, getElem?_passAt_unmarked hi hp]
  · rw [List.getElem?_eq_none (by rw [length_passAt, hlength]; omega),
      List.getElem?_eq_none (by omega)]

theorem marks_of_list (bs : List Bool) : marks (fun i => bs.getD i false) 0 bs.length = bs := by
  apply List.ext_getElem
  · rw [length_marks, Nat.sub_zero]
  intro i h1 h2
  simp [marks, List.getElem?_eq_getElem h2]

theorem reverseMarked_eq_passAt {bs : List Bool} (h : bs.length = xs.length) :
    reverseMarked bs xs [] = passAt (fun i => bs.getD i false) xs := by
  rw [passAt, ← h, marks_of_list]

variable {level : α → Nat}

theorem pass_pass (m : Nat) (xs : List α) : pass level m (pass level m xs) = xs := by
  have hmarks := @pass_marks _ level m m (Nat.le_refl m) xs
  have hlength : (pass level m xs).length = xs.length := (pass_perm m xs).length_eq
  rw [pass, hmarks, reverseMarked_eq_passAt (by rw [List.length_map, hlength]), pass,
    reverseMarked_eq_passAt (by rw [List.length_map]), passAt_passAt]

theorem pass_congr {m m' : Nat} (h : ∀ x ∈ xs, m ≤ level x ↔ m' ≤ level x) :
    pass level m xs = pass level m' xs := by
  have hmarks : (xs.map fun x => decide (m ≤ level x)) = xs.map fun x => decide (m' ≤ level x) :=
    List.map_congr_left fun x hx => decide_eq_decide.mpr (h x hx)
  rw [pass, hmarks, pass]

/-- The passes for an odd level that no element has and the even level above it cancel. -/
theorem passes_cancel {lo : Nat} (hodd : lo % 2 = 1) (n : Nat) : ∀ {t : Nat} {xs : List α},
    (∀ x ∈ xs, level x % 2 = 1 → lo + 2 * t ≤ level x) →
      passes level lo (n + 2 * t) xs = passes level (lo + 2 * t) n xs
  | 0, xs, _ => rfl
  | t + 1, xs, h => by
    have hpair : passes level lo (n + 2 * t + 1 + 1) xs =
        pass level lo (pass level (lo + 1) (passes level (lo + 2) (n + 2 * t) xs)) := by
      rw [passes_succ, passes_succ]
    have hsame : pass level (lo + 1) (passes level (lo + 2) (n + 2 * t) xs) =
        pass level lo (passes level (lo + 2) (n + 2 * t) xs) := by
      refine pass_congr fun x hx => ?_
      have hx' := h x ((passes_perm _ _ xs).mem_iff.mp hx)
      omega
    rw [show n + 2 * (t + 1) = n + 2 * t + 1 + 1 by omega, hpair, hsame, pass_pass]
    have hrest := @passes_cancel (lo + 2) (by omega) n t xs fun x hx hx' => by
      have hhigh := h x hx hx'
      omega
    rw [hrest, show lo + 2 + 2 * t = lo + 2 * (t + 1) by omega]

end Icu.Lib.LevelReversal
