import Mathlib.Order.Basic

/-! # Linear search

A search that tests one position after the other, in either direction. The test reads the position,
which may fail, and it may also find that no position from there on is worth a test. The search has
the first position with a property if each test decides it, as far as the positions before do not
have it.
-/

namespace Icu.Lib

inductive Verdict
  | found
  | next
  | stop
  deriving DecidableEq, Repr

/-- Test `n` positions from `i` on. -/
def searchUp (test : Nat → Option Verdict) (atEnd : Option (Option Nat)) :
    Nat → Nat → Option (Option Nat)
  | 0, _ => atEnd
  | n + 1, i => do
    match ← test i with
    | .found => return some i
    | .next => searchUp test atEnd n (i + 1)
    | .stop => return none

/-- Test the `n` positions from `base` on, the last one first. -/
def searchDown (test : Nat → Option Verdict) (base : Nat) : Nat → Option (Option Nat)
  | 0 => some none
  | n + 1 => do
    match ← test (base + n) with
    | .found => return some (base + n)
    | .next => searchDown test base n
    | .stop => return none

section Results

variable (P : Nat → Prop)

def FirstWith : Option Nat → Prop
  | some i => P i ∧ ∀ j < i, ¬ P j
  | none => ∀ j, ¬ P j

def LastWith : Option Nat → Prop
  | some i => P i ∧ ∀ j > i, ¬ P j
  | none => ∀ j, ¬ P j

/-- The test at a position tells whether it has the property. When it stops the search, there is no
such position from there on. -/
inductive Decides (j : Nat) : Option Verdict → Prop
  | found (h : P j) : Decides j (some .found)
  | next (h : ¬ P j) : Decides j (some .next)
  | stop (h : ∀ k ≥ j, ¬ P k) : Decides j (some .stop)

end Results

variable {P : Nat → Prop} {test : Nat → Option Verdict} {atEnd : Option (Option Nat)} {n i k : Nat}

theorem Decides.eq_next {j : Nat} {v : Option Verdict} (h : Decides P j v) (hno : ¬ P j)
    (hlater : ∃ k ≥ j, P k) : v = some .next := by
  obtain ⟨k, hk, hP⟩ := hlater
  cases h with
  | found h => exact absurd h hno
  | next => rfl
  | stop h => exact absurd hP (h k hk)

theorem searchUp_firstWith (hbefore : ∀ j < i, ¬ P j)
    (htest : ∀ j, i ≤ j → j < i + n → (∀ k < j, ¬ P k) →
      (∀ k, i ≤ k → k < j → test k = some .next) → Decides P j (test j))
    (hend : (∀ k, i ≤ k → k < i + n → test k = some .next) →
      atEnd = some none ∧ ∀ j ≥ i + n, ¬ P j) :
    ∃ r, searchUp test atEnd n i = some r ∧ FirstWith P r := by
  induction n generalizing i with
  | zero =>
    obtain ⟨hsome, hbehind⟩ := hend fun k h h' => absurd h' (by omega)
    refine ⟨none, hsome, fun j => ?_⟩
    by_cases hj : j < i
    · exact hbefore j hj
    · exact hbehind j (by omega)
  | succ n ih =>
    have hhere := htest i (Nat.le_refl i) (by omega) hbefore fun k h h' => absurd h' (by omega)
    cases hv : test i with
    | none =>
      rw [hv] at hhere
      cases hhere
    | some v =>
      rw [hv] at hhere
      cases hhere with
      | found h => exact ⟨some i, by simp [searchUp, hv], h, hbefore⟩
      | stop h =>
        refine ⟨none, by simp [searchUp, hv], fun j => ?_⟩
        by_cases hj : j < i
        · exact hbefore j hj
        · exact h j (by omega)
      | next h =>
        have hnext : ∀ {m : Nat}, (∀ k, i + 1 ≤ k → k < m → test k = some .next) →
            ∀ k, i ≤ k → k < m → test k = some .next := by
          intro m hm k hk hkm
          by_cases heq : k = i
          · rw [heq, hv]
          · exact hm k (by omega) hkm
        have hbefore' : ∀ j < i + 1, ¬ P j := by
          intro j hj
          by_cases heq : j = i
          · rw [heq]
            exact h
          · exact hbefore j (by omega)
        obtain ⟨r, hr, hfirst⟩ := ih hbefore'
          (fun j hj hjn hno hrun => htest j (by omega) (by omega) hno (hnext hrun))
          (fun hrun => by
            have hend := hend (hnext (by simpa [Nat.add_assoc, Nat.add_comm 1] using hrun))
            exact ⟨hend.1, fun j hj => hend.2 j (by omega)⟩)
        exact ⟨r, by simpa [searchUp, hv] using hr, hfirst⟩

theorem searchUp_eq_none (hi : i ≤ k) (hk : k < i + n)
    (hrun : ∀ j, i ≤ j → j < k → test j = some .next) (hnone : test k = none) :
    searchUp test atEnd n i = none := by
  induction n generalizing i with
  | zero => omega
  | succ n ih =>
    by_cases heq : i = k
    · simp [searchUp, heq, hnone]
    simpa [searchUp, hrun i (Nat.le_refl i) (by omega)] using
      ih (by omega) (by omega) fun j hj => hrun j (by omega)

variable {base : Nat}

theorem searchDown_lastWith (hbehind : ∀ j ≥ base + n, ¬ P j)
    (htest : ∀ j, base ≤ j → j < base + n → (∀ k > j, ¬ P k) → Decides P j (test j))
    (hstop : ∀ j, test j ≠ some .stop) (hend : ∀ j < base, ¬ P j) :
    ∃ r, searchDown test base n = some r ∧ LastWith P r := by
  induction n with
  | zero =>
    refine ⟨none, rfl, fun j => ?_⟩
    by_cases hj : j < base
    · exact hend j hj
    · exact hbehind j (by omega)
  | succ n ih =>
    have hhere := htest (base + n) (by omega) (by omega) fun k hk => hbehind k (by omega)
    cases hv : test (base + n) with
    | none =>
      rw [hv] at hhere
      cases hhere
    | some v =>
      rw [hv] at hhere
      cases hhere with
      | found h =>
        exact ⟨some (base + n), by simp [searchDown, hv], h, fun j hj => hbehind j (by omega)⟩
      | stop h => exact absurd hv (hstop _)
      | next h =>
        obtain ⟨r, hr, hlast⟩ := ih (fun j hj => by
          by_cases heq : j = base + n
          · rw [heq]
            exact h
          · exact hbehind j (by omega)) fun j hj hjn => htest j hj (by omega)
        exact ⟨r, by simpa [searchDown, hv] using hr, hlast⟩

end Icu.Lib
