import Icu.Lib.Sweep
import Mathlib.Order.SuccPred.Archimedean
import Mathlib.Data.Nat.SuccPred

/-! # Longest steps

A path of longest steps goes from each position to the farthest one that a single step reaches. It
has one end, which may be nearer than the end of another path.
-/

namespace Icu.Lib.LongestStep

open Relation

variable {Step : Nat → Nat → Prop} {i j n : Nat}

def Longest (Step : Nat → Nat → Prop) (i j : Nat) : Prop := IsGreatest {k | Step i k} j

def IsEnd (Step : Nat → Nat → Prop) (n : Nat) : Prop :=
  ReflTransGen (Longest Step) 0 n ∧ ∀ j, ¬ Step n j

theorem Longest.step (h : Longest Step i j) : Step i j := h.1

theorem Longest.unique {k : Nat} (hj : Longest Step i j) (hk : Longest Step i k) : j = k :=
  IsGreatest.unique hj hk

theorem exists_longest {N : Nat} (hle : ∀ i j, Step i j → j ≤ N) (h : Step i j) :
    ∃ k, Longest Step i k :=
  BddAbove.exists_isGreatest_of_nonempty ⟨N, fun k hk => hle i k hk⟩ ⟨j, h⟩

/-- Longest steps that do not lead over a position reach it. -/
theorem reaches (hforward : ∀ i j, Step i j → i < j) {q p : Nat} (hle : q ≤ p)
    (hstep : ∀ r, ReflTransGen (Longest Step) q r → r < p → ∃ r', Longest Step r r' ∧ r' ≤ p) :
    ReflTransGen (Longest Step) q p := by
  induction hk : p - q using Nat.strongRecOn generalizing q with
  | ind k ih =>
  rcases Nat.eq_or_lt_of_le hle with rfl | hlt
  · exact .refl
  obtain ⟨r, hr, hrp⟩ := hstep q .refl hlt
  have hqr := hforward q r hr.step
  exact .head hr (ih (p - r) (by omega) hrp (fun r' hr' => hstep r' (.head hr hr')) rfl)

theorem rightUnique_longest : Relator.RightUnique (Longest Step) := fun _ _ _ hj hk => hj.unique hk

/-- No longest step leads over a position that longest steps reach. -/
theorem Longest.le_of_reach (hforward : ∀ i j, Step i j → i < j) (h : Longest Step i j)
    (hi : ReflTransGen (Longest Step) 0 i) (hn : ReflTransGen (Longest Step) 0 n) (hlt : i < n) :
    j ≤ n := by
  have hforward' : ∀ i j, Longest Step i j → i < j := fun i j hij => hforward i j hij.step
  rcases ReflTransGen.total_of_right_unique rightUnique_longest hi hn with hin | hni
  · rcases ReflTransGen.cases_head hin with rfl | ⟨k, hk, hkn⟩
    · exact absurd hlt (Nat.lt_irrefl _)
    rw [h.unique hk]
    exact Sweep.le_of_reach hforward' hkn
  · have := Sweep.le_of_reach hforward' hni
    omega

theorem IsEnd.ge_of_reach (hforward : ∀ i j, Step i j → i < j) (h : IsEnd Step n)
    (hi : ReflTransGen (Longest Step) 0 i) : i ≤ n := by
  rcases ReflTransGen.total_of_right_unique rightUnique_longest hi h.1 with hin | hni
  · exact Sweep.le_of_reach (fun i j hij => hforward i j hij.step) hin
  · rcases ReflTransGen.cases_head hni with rfl | ⟨j, hj, -⟩
    · exact Nat.le_refl _
    · exact absurd hj.step (h.2 j)

theorem IsEnd.unique {m : Nat} (hn : IsEnd Step n) (hm : IsEnd Step m) : n = m := by
  rcases ReflTransGen.total_of_right_unique rightUnique_longest hn.1 hm.1 with h | h
  · rcases ReflTransGen.cases_head h with rfl | ⟨j, hj, -⟩
    · rfl
    · exact absurd hj.step (hn.2 j)
  · rcases ReflTransGen.cases_head h with rfl | ⟨j, hj, -⟩
    · rfl
    · exact absurd hj.step (hm.2 j)

theorem IsEnd.iff_eq (h : IsEnd Step n) (m : Nat) : IsEnd Step m ↔ m = n := by
  constructor
  · exact fun hm => hm.unique h
  rintro rfl
  exact h

end Icu.Lib.LongestStep
