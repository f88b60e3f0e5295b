import Mathlib.Logic.Relation
import Mathlib.Order.Bounds.Basic
import Mathlib.Tactic.Common

/-! # The farthest position

Positions are natural numbers, and all steps go forward. A sweep visits the positions that can be
reached from 0 in their order. It remembers where the steps end that lead over its position: then
nothing behind it is lost, and the next position is the first one of these.

A piece is a step from one boundary to the next one. A chain of pieces visits every boundary.
-/

namespace Icu.Lib.Sweep

open Relation

variable {Step : Nat → Nat → Prop} {pos pos' : Nat} {a b i j : Nat}

section Steps

variable (hforward : ∀ i j, Step i j → i < j)

include hforward

theorem le_of_reach (h : ReflTransGen Step a b) : a ≤ b := by
  induction h with
  | refl => exact Nat.le_refl _
  | tail _ hstep ih => exact Nat.le_of_lt (Nat.lt_of_le_of_lt ih (hforward _ _ hstep))

theorem exists_crossing (h : ReflTransGen Step a b) (ha : a ≤ pos) (hb : pos < b) :
    ∃ i j, ReflTransGen Step a i ∧ i ≤ pos ∧ Step i j ∧ pos < j ∧ j ≤ b := by
  induction h with
  | refl => omega
  | @tail c d hreach hstep ih =>
    by_cases hc : pos < c
    · obtain ⟨i, j, hi, hip, hij, hj, hjc⟩ := ih hc
      have := hforward _ _ hstep
      exact ⟨i, j, hi, hip, hij, hj, by omega⟩
    · exact ⟨c, d, hreach, by omega, hstep, hb, Nat.le_refl _⟩

end Steps

/-- The steps of a relation seen from the end at `length`. -/
def mirror (length : Nat) (Step : Nat → Nat → Prop) (a b : Nat) : Prop :=
  b ≤ length ∧ Step (length - b) (length - a)

variable {length : Nat}

theorem reach_mirror (hforward : ∀ i j, Step i j → i < j)
    (h : ReflTransGen Step i j) (hj : j ≤ length) :
    ReflTransGen (mirror length Step) (length - j) (length - i) := by
  induction h using ReflTransGen.head_induction_on with
  | refl => exact .refl
  | @head a b hstep hreach ih =>
    have hlt := hforward a b hstep
    have hle := le_of_reach hforward hreach
    refine ih.tail ⟨Nat.sub_le _ _, ?_⟩
    rw [Nat.sub_sub_self (by omega), Nat.sub_sub_self (by omega)]
    exact hstep

theorem reach_of_mirror (h : ReflTransGen (mirror length Step) a b) :
    ReflTransGen Step (length - b) (length - a) := by
  induction h with
  | refl => exact .refl
  | tail _ hstep ih => exact .head hstep.2 ih

/-- Every step over `pos` from a position that can be reached ends at one of `Ahead`. -/
def Frontier (Step : Nat → Nat → Prop) (pos : Nat) (Ahead : Nat → Prop) : Prop :=
  ∀ i j, ReflTransGen Step 0 i → i ≤ pos → Step i j → pos < j → Ahead j

variable {Ahead : Nat → Prop}

theorem Frontier.isGreatest (hforward : ∀ i j, Step i j → i < j)
    (h : Frontier Step pos fun _ => False)
    (hreach : ReflTransGen Step 0 pos) : IsGreatest {j | ReflTransGen Step 0 j} pos := by
  refine ⟨hreach, fun j hj => ?_⟩
  by_contra hlt
  obtain ⟨i, k, hi, hip, hik, hk, -⟩ := exists_crossing hforward hj (Nat.zero_le pos) (by omega)
  exact h i k hi hip hik hk

theorem Frontier.le_of_reach (hforward : ∀ i j, Step i j → i < j) (h : Frontier Step pos Ahead)
    (hfirst : ∀ k, Ahead k → pos < k → pos' ≤ k) (hi : ReflTransGen Step 0 i)
    (hlt : pos < i) : pos' ≤ i := by
  obtain ⟨a, j, ha, hap, haj, hj, hji⟩ := exists_crossing hforward hi (Nat.zero_le pos) hlt
  exact Nat.le_trans (hfirst j (h a j ha hap haj hj) hj) hji

theorem Frontier.advance (hforward : ∀ i j, Step i j → i < j) (h : Frontier Step pos Ahead)
    (hfirst : ∀ k, Ahead k → pos < k → pos' ≤ k) (hi : ReflTransGen Step 0 i)
    (hip : i ≤ pos') (hstep : Step i j) (hj : pos' < j) (hlt : pos < pos') :
    i = pos' ∨ Ahead j := by
  by_cases hle : i ≤ pos
  · exact .inr (h i j hi hle hstep (by omega))
  have := h.le_of_reach hforward hfirst hi (by omega)
  exact .inl (by omega)

structure Pieces (Bd : Nat → Prop) (cp : Nat → Nat → Prop) : Prop where
  lt : ∀ i j, cp i j → i < j
  left : ∀ i j, cp i j → Bd i
  right : ∀ i j, cp i j → Bd j
  next : ∀ i j m, cp i j → Bd m → i < m → j ≤ m

namespace Pieces

variable {Bd : Nat → Prop} {cp : Nat → Nat → Prop} (h : Pieces Bd cp) {m n : Nat}

include h

theorem unique {k : Nat} (hj : cp i j) (hk : cp i k) : j = k :=
  Nat.le_antisymm (h.next i j k hj (h.right i k hk) (h.lt i k hk))
    (h.next i k j hk (h.right i j hj) (h.lt i j hj))

theorem split (hchain : ReflTransGen cp a b) (hm : Bd m) (ham : a ≤ m) (hmb : m ≤ b) :
    ReflTransGen cp a m ∧ ReflTransGen cp m b := by
  induction hchain with
  | refl =>
    obtain rfl : m = a := by omega
    exact ⟨.refl, .refl⟩
  | @tail c d hac hcd ih =>
    by_cases hmc : m ≤ c
    · obtain ⟨h1, h2⟩ := ih hmc
      exact ⟨h1, h2.tail hcd⟩
    have := h.next c d m hcd hm (by omega)
    obtain rfl : m = d := by omega
    exact ⟨hac.tail hcd, .refl⟩

theorem le_of_stuck (hn : ReflTransGen cp a n) (hstuck : ∀ j, ¬ cp n j)
    (hm : ReflTransGen cp a m) : m ≤ n := by
  induction hm with
  | refl => exact le_of_reach h.lt hn
  | @tail c d hac hcd ih =>
    rcases Nat.eq_or_lt_of_le ih with rfl | hlt
    · exact absurd hcd (hstuck d)
    have hbound : Bd n := by
      rcases ReflTransGen.cases_tail hn with rfl | ⟨e, -, he⟩
      · have := le_of_reach h.lt hac
        omega
      · exact h.right e n he
    exact h.next c d n hcd hbound hlt

theorem ge_of_stuck (hn : ReflTransGen cp n b) (hstuck : ∀ i, ¬ cp i n)
    (hm : ReflTransGen cp m b) : n ≤ m := by
  by_contra hlt
  have hle := le_of_reach h.lt hn
  have hbound : Bd n := by
    rcases ReflTransGen.cases_head hn with rfl | ⟨j, hcp, -⟩
    · rcases ReflTransGen.cases_tail hm with heq | ⟨i, -, hcp⟩
      · omega
      · exact h.right i n hcp
    · exact h.left n j hcp
  rcases ReflTransGen.cases_tail (h.split hm hbound (by omega) hle).1 with heq | ⟨i, -, hcp⟩
  · omega
  · exact hstuck i hcp

theorem mirror (length : Nat) :
    Pieces (fun a => a ≤ length ∧ Bd (length - a)) (Sweep.mirror length cp) where
  lt := by
    rintro a b ⟨hb, hcp⟩
    have := h.lt _ _ hcp
    omega
  left := by
    rintro a b ⟨hb, hcp⟩
    have := h.lt _ _ hcp
    exact ⟨by omega, h.right _ _ hcp⟩
  right := fun a b ⟨hb, hcp⟩ => ⟨hb, h.left _ _ hcp⟩
  next := by
    rintro a b m ⟨hb, hcp⟩ ⟨hm, hbound⟩ ham
    by_contra hlt
    have := h.next _ _ _ hcp hbound (by omega)
    omega

end Pieces

end Icu.Lib.Sweep
