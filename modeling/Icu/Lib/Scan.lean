import Mathlib.Logic.Relation
import Mathlib.Tactic.Common

/-! # Scanning a string in units

A unit function maps an offset to a property of the unit there and to the offset behind
it (or before it, for a scan from the end). The scan stops at the first unit without the
wanted property. A unit function may fail, for example because it would read outside of
the string.
-/

namespace Icu.Lib.Scan

variable {unit unit' : Nat → Option (Bool × Nat)} {wanted : Bool} {length : Nat}

/-- Scan forward: `do { ... if(has!=wanted) break; } while((i=next)<length); return i;` -/
def scan (unit : Nat → Option (Bool × Nat)) (wanted : Bool) (length : Nat) :
    Nat → Nat → Option Nat
  | 0, _ => none
  | fuel + 1, i =>
    match unit i with
    | none => none
    | some (has, next) =>
      if has ≠ wanted then some i
      else if next < length then scan unit wanted length fuel next
      else some next

/-- Scan backward: `do { ... if(has!=wanted) break; } while((i=prev)>0); return i;` -/
def scanBack (unit : Nat → Option (Bool × Nat)) (wanted : Bool) : Nat → Nat → Option Nat
  | 0, _ => none
  | fuel + 1, i =>
    match unit i with
    | none => none
    | some (has, prev) =>
      if has ≠ wanted then some i
      else if prev > 0 then scanBack unit wanted fuel prev
      else some prev

/-- Scans whose units agree, advance and stay inside of the string have the same result. -/
theorem scan_agree (h : ∀ i < length, ∃ has next, unit i = some (has, next) ∧
      unit' i = some (has, next) ∧ i < next ∧ next ≤ length) :
    ∀ (fuel i : Nat), i < length → length - i ≤ fuel →
      ∃ n, scan unit wanted length fuel i = some n ∧ scan unit' wanted length fuel i = some n ∧
        n ≤ length := by
  intro fuel
  induction fuel with
  | zero => omega
  | succ fuel ih =>
    intro i hi hf
    obtain ⟨has, next, hu, hu', hlt, hle⟩ := h i hi
    simp only [scan, hu, hu']
    split
    · exact ⟨i, rfl, rfl, Nat.le_of_lt hi⟩
    split
    · exact ih next ‹_› (by omega)
    · exact ⟨next, rfl, rfl, hle⟩

theorem scanBack_agree (h : ∀ i, 0 < i → i ≤ length → ∃ has prev, unit i = some (has, prev) ∧
      unit' i = some (has, prev) ∧ prev < i) :
    ∀ (fuel i : Nat), 0 < i → i ≤ length → i ≤ fuel →
      ∃ n, scanBack unit wanted fuel i = some n ∧ scanBack unit' wanted fuel i = some n ∧
        n ≤ length := by
  intro fuel
  induction fuel with
  | zero => omega
  | succ fuel ih =>
    intro i h0 hi hf
    obtain ⟨has, prev, hu, hu', hlt⟩ := h i h0 hi
    simp only [scanBack, hu, hu']
    split
    · exact ⟨i, rfl, rfl, hi⟩
    split
    · exact ih prev ‹_› (by omega) (by omega)
    · exact ⟨prev, rfl, rfl, by omega⟩

section Chain

open Relation

variable {Bd : Nat → Prop}

theorem scan_chain (h : ∀ i < length, Bd i → ∃ has next, unit i = some (has, next) ∧ i < next ∧
      next ≤ length ∧ Bd next) :
    ∀ (fuel i : Nat), i < length → Bd i → length - i ≤ fuel →
      ∃ n, scan unit wanted length fuel i = some n ∧ n ≤ length ∧ Bd n ∧
        ReflTransGen (fun i j => i < length ∧ Bd i ∧ unit i = some (wanted, j)) i n ∧
        (n < length → ∃ next, unit n = some (!wanted, next)) := by
  intro fuel
  induction fuel with
  | zero => omega
  | succ fuel ih =>
    intro i hi hbd hf
    obtain ⟨has, next, hu, hlt, hle, hbd'⟩ := h i hi hbd
    simp only [scan, hu]
    split
    case isTrue hne =>
      refine ⟨i, rfl, Nat.le_of_lt hi, hbd, .refl, fun _ => ⟨next, ?_⟩⟩
      rw [hu, Bool.eq_not_of_ne hne]
    case isFalse heq =>
      rw [not_not] at heq
      rw [heq] at hu
      split
      · obtain ⟨n, hscan, hn, hbdn, hchain, hstop⟩ := ih next ‹_› hbd' (by omega)
        exact ⟨n, hscan, hn, hbdn, .head ⟨hi, hbd, hu⟩ hchain, hstop⟩
      · exact ⟨next, rfl, hle, hbd', .single ⟨hi, hbd, hu⟩, fun hlt' => absurd hlt' ‹_›⟩

theorem scanBack_chain (h : ∀ i, 0 < i → Bd i → ∃ has prev, unit i = some (has, prev) ∧ prev < i ∧
      Bd prev) :
    ∀ (fuel i : Nat), 0 < i → Bd i → i ≤ fuel →
      ∃ n, scanBack unit wanted fuel i = some n ∧ Bd n ∧
        ReflTransGen (fun j i => 0 < j ∧ Bd j ∧ unit j = some (wanted, i)) i n ∧
        (0 < n → ∃ prev, unit n = some (!wanted, prev)) := by
  intro fuel
  induction fuel with
  | zero => omega
  | succ fuel ih =>
    intro i h0 hbd hf
    obtain ⟨has, prev, hu, hlt, hbd'⟩ := h i h0 hbd
    simp only [scanBack, hu]
    split
    case isTrue hne =>
      refine ⟨i, rfl, hbd, .refl, fun _ => ⟨prev, ?_⟩⟩
      rw [hu, Bool.eq_not_of_ne hne]
    case isFalse heq =>
      rw [not_not] at heq
      rw [heq] at hu
      split
      · obtain ⟨n, hscan, hbdn, hchain, hstop⟩ := ih prev ‹_› hbd' (by omega)
        exact ⟨n, hscan, hbdn, .head ⟨h0, hbd, hu⟩ hchain, hstop⟩
      · exact ⟨prev, rfl, hbd', .single ⟨h0, hbd, hu⟩, fun hlt' => absurd hlt' ‹_›⟩

end Chain

/-- The result of a scan that has come to the offset `i`, which may be the end. -/
def scanFrom (unit : Nat → Option (Bool × Nat)) (wanted : Bool) (length i : Nat) : Option Nat :=
  if i < length then scan unit wanted length (length - i) i else some i

def Advances (unit : Nat → Option (Bool × Nat)) (length : Nat) : Prop :=
  ∀ i < length, ∃ has next, unit i = some (has, next) ∧ i < next ∧ next ≤ length

theorem scan_fuel (h : Advances unit length) : ∀ (fuel i : Nat), i < length → length - i ≤ fuel →
    scan unit wanted length fuel i = scan unit wanted length (length - i) i := by
  intro fuel
  induction fuel using Nat.strongRecOn with
  | ind fuel ih =>
    intro i hi hf
    obtain ⟨has, next, hu, hlt, hle⟩ := h i hi
    obtain ⟨f, rfl⟩ : ∃ f, fuel = f + 1 := ⟨fuel - 1, by omega⟩
    obtain ⟨g, hg⟩ : ∃ g, length - i = g + 1 := ⟨length - i - 1, by omega⟩
    rw [hg]
    simp only [scan, hu]
    by_cases hn : next < length
    · rw [if_pos hn, if_pos hn, ih f (by omega) next hn (by omega),
        ih g (by omega) next hn (by omega)]
    · rw [if_neg hn, if_neg hn]

theorem scanFrom_step (h : Advances unit length) {i : Nat} (hi : i < length) {has : Bool}
    {next : Nat} (hu : unit i = some (has, next)) : scanFrom unit wanted length i =
      if has ≠ wanted then some i else scanFrom unit wanted length next := by
  obtain ⟨has', next', hu', hlt, hle⟩ := h i hi
  rw [hu, Option.some.injEq, Prod.mk.injEq] at hu'
  obtain ⟨rfl, rfl⟩ := hu'
  obtain ⟨g, hg⟩ : ∃ g, length - i = g + 1 := ⟨length - i - 1, by omega⟩
  rw [scanFrom, if_pos hi, hg]
  simp only [scan, hu]
  by_cases hn : next < length
  · rw [if_pos hn, scan_fuel h g next hn (by omega), scanFrom, if_pos hn]
  · rw [if_neg hn, scanFrom, if_neg hn]

end Icu.Lib.Scan
