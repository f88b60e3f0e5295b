import Mathlib.Data.List.Basic
import Mathlib.Tactic.Common

/-! # Writing over a part of a list

The effect of a block copy: the new elements replace as many old ones. A replacement inside of one
array moves the tail behind the new length of the hole, and then fills the hole.
-/

namespace Icu.Lib

variable {α : Type}

/-- `ys` written over the list at the position. -/
def overwrite (l : List α) (i : Nat) (ys : List α) : List α :=
  l.take i ++ ys ++ l.drop (i + ys.length)

variable {l ys tail : List α} {i k : Nat}

theorem length_overwrite (h : i + ys.length ≤ l.length) : (overwrite l i ys).length = l.length := by
  rw [overwrite, List.length_append, List.length_append, List.length_take, List.length_drop]
  omega

@[simp] theorem overwrite_nil (l : List α) (i : Nat) : overwrite l i [] = l := by
  simp [overwrite]

theorem take_overwrite (hi : i ≤ l.length) (hk : k ≤ i) : (overwrite l i ys).take k = l.take k := by
  rw [overwrite, List.append_assoc, List.take_append_of_le_length (by rw [List.length_take]; omega),
    List.take_take, Nat.min_eq_left hk]

theorem drop_overwrite (hi : i ≤ l.length) :
    (overwrite l i ys).drop i = ys ++ l.drop (i + ys.length) := by
  rw [overwrite, List.append_assoc, List.drop_append_of_le_length (by rw [List.length_take]; omega),
    List.drop_eq_nil_of_le (by rw [List.length_take]; omega), List.nil_append]

theorem getElem?_overwrite (hi : i ≤ l.length) (k : Nat) : (overwrite l i ys)[k]? =
    if k < i then l[k]? else if k < i + ys.length then ys[k - i]? else l[k]? := by
  by_cases hk : k < i
  · rw [if_pos hk, ← List.getElem?_take_of_lt (Nat.lt_succ_self k) (l := overwrite l i ys),
      take_overwrite hi hk, List.getElem?_take_of_lt (Nat.lt_succ_self k)]
  rw [if_neg hk]
  obtain ⟨n, rfl⟩ : ∃ n, k = i + n := ⟨k - i, by omega⟩
  rw [← List.getElem?_drop, drop_overwrite hi, Nat.add_sub_cancel_left]
  by_cases hn : n < ys.length
  · rw [if_pos (by omega), List.getElem?_append_left hn]
  rw [if_neg (by omega), List.getElem?_append_right (by omega), List.getElem?_drop]
  congr 1
  omega

theorem overwrite_self (l : List α) (i n : Nat) : overwrite l i ((l.drop i).take n) = l := by
  have hrest : l.drop (i + ((l.drop i).take n).length) = (l.drop i).drop n := by
    rw [List.drop_drop, List.length_take, List.length_drop]
    by_cases hn : n ≤ l.length - i
    · rw [Nat.min_eq_left hn]
    · rw [List.drop_eq_nil_of_le (by omega), List.drop_eq_nil_of_le (by omega)]
  rw [overwrite, hrest, List.append_assoc, List.take_append_drop, List.take_append_drop]

theorem take_overwrite_overwrite (hle : i + ys.length + tail.length ≤ l.length) :
    (overwrite (overwrite l (i + ys.length) tail) i ys).take (i + ys.length + tail.length) =
      l.take i ++ ys ++ tail := by
  have hfirst : i ≤ (overwrite l (i + ys.length) tail).length := by
    rw [length_overwrite hle]
    omega
  rw [overwrite, take_overwrite (by omega) (by omega), drop_overwrite (by omega), List.take_append,
    List.take_of_length_le (by simp; omega)]
  congr 1
  rw [List.length_append, List.length_take, Nat.min_eq_left (by omega), Nat.add_sub_cancel_left,
    List.take_left]

theorem take_overwrite_end (hle : i + ys.length ≤ l.length) :
    (overwrite l i ys).take (i + ys.length) = l.take i ++ ys := by
  have h := @take_overwrite_overwrite _ l ys [] i (by simpa using hle)
  simpa using h

theorem range_overwrite_eq_iff (hi : i ≤ l.length) (a n : Nat) :
    ((overwrite l i ys).drop a).take n = (l.drop a).take n ↔
      ∀ k, a ≤ k → k < a + n → i ≤ k → k < i + ys.length → ys[k - i]? = l[k]? := by
  constructor
  · intro heq k hak hkn hik hkl
    have h := congrArg (fun xs => xs[k - a]?) heq
    rw [List.getElem?_take_of_lt (by omega), List.getElem?_take_of_lt (by omega),
      List.getElem?_drop, List.getElem?_drop, Nat.add_sub_cancel' hak, getElem?_overwrite hi,
      if_neg (by omega), if_pos hkl] at h
    exact h
  intro hsame
  refine List.ext_getElem? fun k => ?_
  by_cases hk : k < n
  · rw [List.getElem?_take_of_lt hk, List.getElem?_take_of_lt hk, List.getElem?_drop,
      List.getElem?_drop, getElem?_overwrite hi]
    split
    · rfl
    split
    · exact hsame (a + k) (by omega) (by omega) (by omega) (by omega)
    · rfl
  · rw [List.getElem?_take_eq_none (by omega), List.getElem?_take_eq_none (by omega)]

end Icu.Lib
