import Mathlib.Order.Basic
import Mathlib.Data.List.Pairwise
import Mathlib.Data.Bool.Basic
import Mathlib.Data.Set.Basic

/-! # Inversion lists over a linear order

An increasing list of boundaries stands for the union of the half-open ranges
between its odd and its even boundaries. Membership is the parity of the number
of boundaries at or below the queried point, so it is defined for every list and
composes with append and reversal; strict order is only needed to read a list as
a union of ranges and to recover it from the set it stands for.
-/

namespace Icu.Lib.InversionList

variable {α : Type*} [LinearOrder α] {l : List α} {c x s : α}

/-- Is `c` at or above an odd number of the boundaries? -/
def covers : List α → α → Bool
  | [], _ => false
  | x :: xs, c => decide (x ≤ c) ^^ covers xs c

@[simp] theorem covers_nil (c : α) : covers [] c = false := rfl

theorem covers_cons (x : α) (xs : List α) (c : α) :
    covers (x :: xs) c = (decide (x ≤ c) ^^ covers xs c) := rfl

theorem covers_append (l r : List α) (c : α) : covers (l ++ r) c = (covers l c ^^ covers r c) := by
  induction l with
  | nil => simp
  | cons x xs ih => simp [covers_cons, ih]

theorem covers_reverse (l : List α) (c : α) : covers l.reverse c = covers l c := by
  induction l with
  | nil => rfl
  | cons x xs ih =>
    rw [List.reverse_cons, covers_append, ih, covers_cons, covers_cons, covers_nil,
      Bool.xor_false, Bool.xor_comm]

theorem covers_of_forall_lt (h : ∀ x ∈ l, c < x) : covers l c = false := by
  induction l with
  | nil => rfl
  | cons x xs ih =>
    have hx : ¬ x ≤ c := not_le.mpr (h x List.mem_cons_self)
    rw [covers_cons, ih fun y hy => h y (List.mem_cons_of_mem x hy)]
    simp [hx]

/-- Above every boundary only the number of boundaries counts. -/
theorem covers_of_forall_le (h : ∀ x ∈ l, x ≤ c) : covers l c = decide (l.length % 2 = 1) := by
  induction l with
  | nil => rfl
  | cons x xs ih =>
    rw [covers_cons, ih fun y hy => h y (List.mem_cons_of_mem x hy)]
    rcases Nat.mod_two_eq_zero_or_one xs.length with hp | hp <;>
      simp [h x List.mem_cons_self, hp, Nat.add_mod]

theorem covers_pair {y : α} (hxy : x ≤ y) (hl : ∀ z ∈ l, y ≤ z) (c : α) :
    covers (x :: y :: l) c = (decide (x ≤ c ∧ c < y) || covers l c) := by
  rw [covers_cons, covers_cons]
  by_cases hy : y ≤ c
  · have hx : x ≤ c := le_trans hxy hy
    simp [hx, hy]
  have hl' : covers l c = false :=
    covers_of_forall_lt fun z hz => lt_of_lt_of_le (not_le.mp hy) (hl z hz)
  simp [hy, hl', not_le.mp hy]

theorem covers_open (he : l.length % 2 = 0) (hl : ∀ z ∈ l, z ≤ s) (c : α) :
    covers (s :: l) c = (decide (s ≤ c) || covers l c) := by
  rw [covers_cons]
  by_cases hs : s ≤ c
  · rw [covers_of_forall_le fun z hz => le_trans (hl z hz) hs]
    simp [hs, he]
  · simp [hs]

theorem covers_close {e : α} (he : l.length % 2 = 0) (hl : ∀ z ∈ l, z ≤ s) (hse : s ≤ e) (c : α) :
    covers (e :: s :: l) c = (decide (s ≤ c ∧ c < e) || covers l c) := by
  rw [covers_cons, covers_open he hl]
  by_cases hec : e ≤ c
  · have hsc : s ≤ c := le_trans hse hec
    rw [covers_of_forall_le fun z hz => le_trans (hl z hz) hsc]
    simp [hec, hsc, he]
  · simp [hec, not_le.mp hec]

theorem covers_head (hs : (x :: l).Pairwise (· < ·)) : covers (x :: l) x = true := by
  rw [covers_cons, covers_of_forall_lt (List.pairwise_cons.mp hs).1]
  simp

/-- Increasing lists are determined by the set they stand for; agreement at the
boundaries themselves is enough. -/
theorem eq_of_covers_eq {m : List α} (hl : l.Pairwise (· < ·)) (hm : m.Pairwise (· < ·))
    (h : ∀ c, c ∈ l ∨ c ∈ m → covers l c = covers m c) : l = m := by
  induction l generalizing m with
  | nil =>
    cases m with
    | nil => rfl
    | cons y ys =>
      have hy := h y (.inr List.mem_cons_self)
      rw [covers_head hm] at hy
      exact absurd hy (by simp)
  | cons x xs ih =>
    cases m with
    | nil =>
      have hx := h x (.inl List.mem_cons_self)
      rw [covers_head hl] at hx
      exact absurd hx (by simp)
    | cons y ys =>
      -- The smaller of two different heads is covered by one list only.
      have hxy : x = y := by
        rcases lt_trichotomy x y with hlt | heq | hgt
        · have hx := h x (.inl List.mem_cons_self)
          rw [covers_head hl, covers_of_forall_lt] at hx
          · exact absurd hx (by simp)
          intro z hz
          rcases List.mem_cons.mp hz with rfl | hz
          · exact hlt
          · exact lt_trans hlt ((List.pairwise_cons.mp hm).1 z hz)
        · exact heq
        · have hy := h y (.inr List.mem_cons_self)
          rw [covers_head hm, covers_of_forall_lt] at hy
          · exact absurd hy (by simp)
          intro z hz
          rcases List.mem_cons.mp hz with rfl | hz
          · exact hgt
          · exact lt_trans hgt ((List.pairwise_cons.mp hl).1 z hz)
      subst hxy
      have htail : xs = ys := by
        refine ih (List.pairwise_cons.mp hl).2 (List.pairwise_cons.mp hm).2 ?_
        intro c hc
        have hc' := h c (hc.imp (List.mem_cons_of_mem x) (List.mem_cons_of_mem x))
        rw [covers_cons, covers_cons] at hc'
        exact Bool.xor_right_inj.mp hc'
      rw [htail]

/-- The number of boundaries at or below `c`: in an increasing list, the index of
the first boundary above `c`. -/
def rank (l : List α) (c : α) : Nat := l.countP (· ≤ c)

theorem covers_eq_rank (l : List α) (c : α) : covers l c = decide (rank l c % 2 = 1) := by
  induction l with
  | nil => rfl
  | cons x xs ih =>
    rw [covers_cons, ih, rank, rank, List.countP_cons]
    rcases Nat.mod_two_eq_zero_or_one (xs.countP (· ≤ c)) with hp | hp <;>
      by_cases hx : x ≤ c <;> simp [hx, hp, Nat.add_mod]

theorem rank_le_length (l : List α) (c : α) : rank l c ≤ l.length := List.countP_le_length

theorem le_iff_lt_rank (hl : l.Pairwise (· < ·)) {i : Nat}
    (hx : l[i]? = some x) : x ≤ c ↔ i < rank l c := by
  induction l generalizing i with
  | nil => simp at hx
  | cons y ys ih =>
    obtain ⟨hy, hys⟩ := List.pairwise_cons.mp hl
    by_cases hyc : y ≤ c
    · have hr : rank (y :: ys) c = rank ys c + 1 := by simp [rank, hyc]
      cases i with
      | zero =>
        have hxy : y = x := by simpa using hx
        simp [hr, ← hxy, hyc]
      | succ i => rw [hr, ih hys (by simpa using hx)]; omega
    -- Nothing after a boundary above `c` is at or below `c`.
    have hr : rank (y :: ys) c = 0 := by
      rw [rank, List.countP_eq_zero]
      intro z hz
      have hz' : c < z := by
        rcases List.mem_cons.mp hz with rfl | hz
        · exact not_le.mp hyc
        · exact lt_trans (not_le.mp hyc) (hy z hz)
      simpa using hz'
    have hxc : c < x := by
      have hm := List.mem_of_getElem? hx
      rcases List.mem_cons.mp hm with rfl | hm
      · exact not_le.mp hyc
      · exact lt_trans (not_le.mp hyc) (hy x hm)
    simp [hr, hxc]

theorem rank_mono (l : List α) {d : α} (h : c ≤ d) : rank l c ≤ rank l d :=
  List.countP_mono_left fun x _ hx => by simpa using le_trans (by simpa using hx) h

end Icu.Lib.InversionList
