import Mathlib.Data.Finset.Card
import Mathlib.Logic.Function.Iterate
import Mathlib.Order.Interval.Finset.Basic

/-!
# Steps to the next member

A step from each element to the next member of a set.  The number of steps from an element to a
member behind it is the number of the members on the way.
-/

namespace Icu.Lib

variable {α : Type*} [LinearOrder α]

/-- `step` leads from each element to the least element above it that has the property. -/
structure IsNext (p : α → Prop) (step : α → α) : Prop where
  lt : ∀ a, a < step a
  mem : ∀ a, p (step a)
  not_between : ∀ {a b}, a < b → b < step a → ¬ p b

namespace IsNext

variable {p : α → Prop} {step : α → α} {a b : α}

theorem step_le (h : IsNext p step) (hab : a < b) (hb : p b) : step a ≤ b := by
  by_contra hlt
  exact h.not_between hab (not_le.mp hlt) hb

theorem lt_iterate_succ (h : IsNext p step) (a : α) (n : Nat) : a < step^[n + 1] a := by
  induction n generalizing a with
  | zero => exact h.lt a
  | succ n ih =>
    rw [Function.iterate_succ_apply]
    exact (h.lt a).trans (ih (step a))

variable [LocallyFiniteOrder α] [DecidablePred p]

theorem filter_Ioc (h : IsNext p step) (hab : a < b) (hb : p b) :
    (Finset.Ioc a b).filter p = insert (step a) ((Finset.Ioc (step a) b).filter p) := by
  have hstep := h.step_le hab hb
  ext c
  simp only [Finset.mem_filter, Finset.mem_insert, Finset.mem_Ioc]
  constructor
  · rintro ⟨⟨hac, hcb⟩, hc⟩
    rcases (h.step_le hac hc).eq_or_lt with heq | hlt
    · exact Or.inl heq.symm
    · exact Or.inr ⟨⟨hlt, hcb⟩, hc⟩
  · rintro (rfl | ⟨⟨hlt, hcb⟩, hc⟩)
    · exact ⟨⟨h.lt a, hstep⟩, h.mem a⟩
    · exact ⟨⟨(h.lt a).trans hlt, hcb⟩, hc⟩

theorem iterate_eq_iff (h : IsNext p step) (hab : a ≤ b) (hb : p b) (n : Nat) :
    step^[n] a = b ↔ ((Finset.Ioc a b).filter p).card = n := by
  induction n generalizing a with
  | zero =>
    rw [Function.iterate_zero_apply, Finset.card_eq_zero]
    constructor
    · rintro rfl
      rw [Finset.Ioc_self, Finset.filter_empty]
    · intro hempty
      by_contra hne
      have hmem : b ∈ (Finset.Ioc a b).filter p :=
        Finset.mem_filter.mpr ⟨Finset.mem_Ioc.mpr ⟨lt_of_le_of_ne hab hne, le_refl b⟩, hb⟩
      rw [hempty] at hmem
      exact Finset.notMem_empty b hmem
  | succ n ih =>
    rcases hab.eq_or_lt with rfl | hlt
    · rw [Finset.Ioc_self, Finset.filter_empty, Finset.card_empty]
      exact ⟨fun heq => absurd heq (h.lt_iterate_succ a n).ne', fun hzero => by omega⟩
    · have hnotMem : step a ∉ (Finset.Ioc (step a) b).filter p := fun hmem =>
        absurd (Finset.mem_Ioc.mp (Finset.mem_filter.mp hmem).1).1 (lt_irrefl _)
      rw [Function.iterate_succ_apply, ih (h.step_le hlt hb), h.filter_Ioc hlt hb,
        Finset.card_insert_of_notMem hnotMem, Nat.add_right_cancel_iff]

end IsNext

/-- `step` leads from each element to the greatest element below it that has the property. -/
structure IsPrev (p : α → Prop) (step : α → α) : Prop where
  lt : ∀ a, step a < a
  mem : ∀ a, p (step a)
  not_between : ∀ {a b}, b < a → step a < b → ¬ p b

theorem IsPrev.isNext_toDual {p : α → Prop} {step : α → α} (h : IsPrev p step) :
    @IsNext αᵒᵈ _ (fun a => p (OrderDual.ofDual a)) fun a =>
      OrderDual.toDual (step (OrderDual.ofDual a)) :=
  ⟨h.lt, h.mem, h.not_between⟩

theorem IsPrev.iterate_eq_iff {p : α → Prop} {step : α → α} {a b : α} [LocallyFiniteOrder α]
    [DecidablePred p] (h : IsPrev p step) (hba : b ≤ a) (hb : p b) (n : Nat) :
    step^[n] a = b ↔ ((Finset.Ico b a).filter p).card = n := by
  have hiff := @IsNext.iterate_eq_iff αᵒᵈ _ _ _ (OrderDual.toDual a) (OrderDual.toDual b) _ _
    h.isNext_toDual hba hb n
  have hcard : (Finset.Ioc (OrderDual.toDual a) (OrderDual.toDual b)) =
      (Finset.Ico b a).map OrderDual.toDual.toEmbedding := Finset.Ioc_toDual ..
  rw [hcard, Finset.filter_map, Finset.card_map] at hiff
  exact hiff

end Icu.Lib
