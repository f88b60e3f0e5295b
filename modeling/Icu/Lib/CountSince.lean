import Mathlib.Data.Finset.Card
import Mathlib.Order.Interval.Finset.Nat

/-!
# Counting since the last separator

Events and separators are at positions.  What counts before a position are the events behind which
no separator is before it, so that a counter goes on with the events and restarts at a separator.
-/

namespace Icu.Lib

variable {Event Separator : Nat → Prop} [DecidablePred Event] [DecidablePred Separator] {n : Nat}

/-- The number of the events before `n` that no separator before `n` is behind. -/
def countSince (Event Separator : Nat → Prop) [DecidablePred Event] [DecidablePred Separator]
    (n : Nat) : Nat :=
  ((Finset.range n).filter fun p => Event p ∧ ∀ b < n, p < b → ¬ Separator b).card

theorem countSince_succ_of_separator (h : Separator n) :
    countSince Event Separator (n + 1) = if Event n then 1 else 0 := by
  have hset : ((Finset.range (n + 1)).filter fun p =>
      Event p ∧ ∀ b < n + 1, p < b → ¬ Separator b) = ({n} : Finset Nat).filter Event := by
    ext p
    simp only [Finset.mem_filter, Finset.mem_range, Finset.mem_singleton]
    constructor
    · rintro ⟨hp, hevent, hclear⟩
      refine ⟨?_, hevent⟩
      by_contra hne
      exact hclear n (by omega) (by omega) h
    · rintro ⟨rfl, hevent⟩
      exact ⟨by omega, hevent, fun b hb hlt => by omega⟩
  rw [countSince, hset, Finset.filter_singleton]
  split
  · exact Finset.card_singleton n
  · exact Finset.card_empty

theorem countSince_succ (h : ¬ Separator n) :
    countSince Event Separator (n + 1) =
      countSince Event Separator n + if Event n then 1 else 0 := by
  have hclear : ∀ p < n, (∀ b < n + 1, p < b → ¬ Separator b) ↔ ∀ b < n, p < b → ¬ Separator b := by
    intro p _
    refine ⟨fun hb b hlt => hb b (by omega), fun hb b hlt hpb => ?_⟩
    rcases Nat.lt_succ_iff_lt_or_eq.mp hlt with hlt | rfl
    · exact hb b hlt hpb
    · exact h
  have hold : ((Finset.range n).filter fun p => Event p ∧ ∀ b < n + 1, p < b → ¬ Separator b) =
      (Finset.range n).filter fun p => Event p ∧ ∀ b < n, p < b → ¬ Separator b := by
    refine Finset.filter_congr fun p hp => and_congr_right fun _ => ?_
    exact hclear p (Finset.mem_range.mp hp)
  have hlast : (Event n ∧ ∀ b < n + 1, n < b → ¬ Separator b) ↔ Event n :=
    and_iff_left fun b hb hlt => by omega
  rw [countSince, Finset.range_add_one, Finset.filter_insert, hold]
  simp only [hlast]
  split
  · refine Finset.card_insert_of_notMem fun hmem => ?_
    exact absurd (Finset.mem_range.mp (Finset.mem_filter.mp hmem).1) (Nat.lt_irrefl n)
  · rfl

end Icu.Lib
