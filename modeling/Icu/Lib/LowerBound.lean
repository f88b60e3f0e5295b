import Mathlib.Order.Basic

/-! # Bisection between a failing and a passing index

The search keeps a failing index below and a passing index above and halves the
gap. The test reads its index and may fail to, so a completed search is also a
proof that every index it probed could be read.
-/

namespace Icu.Lib

/-- Bisect between `lo` and `hi`; `none` when the test cannot be evaluated. Fuel
`hi - lo` is enough because every turn shortens the gap. -/
def lowerBound (test : Nat → Option Bool) : Nat → Nat → Nat → Option Nat
  | 0, _, hi => some hi
  | fuel + 1, lo, hi =>
    let i := (lo + hi) / 2
    if i = lo then some hi
    else
      match test i with
      | none => none
      | some true => lowerBound test fuel lo i
      | some false => lowerBound test fuel i hi

theorem lowerBound_spec {test : Nat → Option Bool} {p : Nat → Prop} [DecidablePred p]
    {fuel lo hi : Nat} (hread : ∀ i, lo < i → i < hi → test i = some (decide (p i)))
    (hlo : ¬ p lo) (hhi : p hi) (hlt : lo < hi) (hfuel : hi - lo ≤ fuel) :
    ∃ r, lowerBound test fuel lo hi = some r ∧ lo < r ∧ r ≤ hi ∧ p r ∧ ¬ p (r - 1) := by
  induction fuel generalizing lo hi with
  | zero => omega
  | succ fuel ih =>
    by_cases hi' : (lo + hi) / 2 = lo
    · have hsucc : hi - 1 = lo := by omega
      exact ⟨hi, by simp [lowerBound, hi'], hlt, Nat.le_refl _, hhi, by rwa [hsucc]⟩
    have hmid : lo < (lo + hi) / 2 ∧ (lo + hi) / 2 < hi := by omega
    have hm := hread _ hmid.1 hmid.2
    by_cases hp : p ((lo + hi) / 2)
    · obtain ⟨r, hr, h₁, h₂, h₃⟩ := ih (fun i h h' => hread i h (by omega)) hlo hp hmid.1
        (by omega)
      exact ⟨r, by simpa [lowerBound, hi', hm, hp] using hr, h₁, by omega, h₃⟩
    · obtain ⟨r, hr, h₁, h₂, h₃⟩ := ih (fun i h h' => hread i (by omega) h') hp hhi hmid.2
        (by omega)
      exact ⟨r, by simpa [lowerBound, hi', hm, hp] using hr, by omega, h₂, h₃⟩

end Icu.Lib
