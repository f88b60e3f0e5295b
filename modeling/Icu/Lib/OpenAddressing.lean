import Mathlib.Data.Nat.Prime.Basic
import Mathlib.Data.Nat.ModEq
import Mathlib.Data.Fintype.EquivFin

/-! # Open addressing

A table whose slots are empty, deleted or live. A search probes the slots of a path until it finds
its key or an empty slot, and otherwise gives the first deleted slot. It finds every key that is
stored behind no empty slot of its path, and this stays true while empty slots only fill up.
-/

namespace Icu.Lib.OpenAddressing

def probe (n start jump i : Nat) : Nat := (start + i * jump) % n

section Probe

variable {n start jump : Nat}

theorem probe_lt (hn : 0 < n) (i : Nat) : probe n start jump i < n := Nat.mod_lt _ hn

theorem probe_zero (h : start < n) : probe n start jump 0 = start := by
  rw [probe, Nat.zero_mul, Nat.add_zero, Nat.mod_eq_of_lt h]

theorem probe_succ (i : Nat) : probe n start jump (i + 1) = (probe n start jump i + jump) % n := by
  rw [probe, probe, Nat.mod_add_mod, Nat.succ_mul, Nat.add_assoc]

theorem probe_injective (hn : n.Prime) (hpos : 0 < jump) (hlt : jump < n) {i j : Nat} (hi : i < n)
    (hj : j < n) (h : probe n start jump i = probe n start jump j) : i = j := by
  have hcoprime : Nat.gcd n jump = 1 :=
    (Nat.Prime.coprime_iff_not_dvd hn).mpr (Nat.not_dvd_of_pos_of_lt hpos hlt)
  have hsum : start + i * jump ≡ start + j * jump [MOD n] := h
  have hmul : i * jump ≡ j * jump [MOD n] := Nat.ModEq.add_left_cancel' start hsum
  have hmod : i ≡ j [MOD n] := Nat.ModEq.cancel_right_of_coprime hcoprime hmul
  exact Nat.ModEq.eq_of_lt_of_lt hmod hi hj

theorem probe_surjective (hn : n.Prime) (hpos : 0 < jump) (hlt : jump < n) {k : Nat} (hk : k < n) :
    ∃ i < n, probe n start jump i = k := by
  let f : Fin n → Fin n := fun i => ⟨probe n start jump i, probe_lt hn.pos i⟩
  have hinj : Function.Injective f := by
    intro i j hij
    exact Fin.ext (probe_injective hn hpos hlt i.isLt j.isLt (congrArg Fin.val hij))
  obtain ⟨i, hi⟩ := Finite.surjective_of_injective hinj ⟨k, hk⟩
  exact ⟨i, i.isLt, congrArg Fin.val hi⟩

/-- It is back at the start only after all slots. -/
theorem probe_eq_start_iff (hn : n.Prime) (hpos : 0 < jump) (hlt : jump < n) (hstart : start < n)
    {i : Nat} (hi : i < n) : probe n start jump (i + 1) = start ↔ i + 1 = n := by
  constructor
  · intro h
    rcases Nat.lt_or_ge (i + 1) n with hlt' | hge
    · have hzero := probe_injective hn hpos hlt hlt' hn.pos (h.trans (probe_zero hstart).symm)
      omega
    · omega
  · intro h
    rw [probe, h, Nat.add_mul_mod_self_left, Nat.mod_eq_of_lt hstart]

end Probe

inductive Slot (α : Type)
  | empty
  | deleted
  | live (a : α)

variable {α : Type}

/-- The search along a path: the slot of a match, else the first deleted slot, else an empty one. -/
def search (slot : Nat → Slot α) (found : α → Bool) (path : Nat → Nat) :
    Nat → Nat → Option Nat → Option Nat
  | 0, _, firstDeleted => firstDeleted
  | fuel + 1, i, firstDeleted =>
    match slot (path i) with
    | .empty => some (firstDeleted.getD (path i))
    | .deleted => search slot found path fuel (i + 1) (some (firstDeleted.getD (path i)))
    | .live a =>
      if found a then some (path i) else search slot found path fuel (i + 1) firstDeleted

/-- The slot is on the path, behind no empty one. -/
def Reached (slot : Nat → Slot α) (path : Nat → Nat) (n k : Nat) : Prop :=
  ∃ i < n, path i = k ∧ ∀ j < i, slot (path j) ≠ .empty

/-- Filling slots does not block a path. -/
theorem Reached.mono {slot slot' : Nat → Slot α} {path : Nat → Nat} {n k : Nat}
    (h : Reached slot path n k) (hfill : ∀ j, slot' j = .empty → slot j = .empty) :
    Reached slot' path n k := by
  obtain ⟨i, hi, hk, hbefore⟩ := h
  exact ⟨i, hi, hk, fun j hj he => hbefore j hj (hfill _ he)⟩

section Search

variable {slot : Nat → Slot α} {found : α → Bool} {path : Nat → Nat} {n : Nat}

theorem search_of_found {a : α} {i₀ : Nat} (hlive : slot (path i₀) = .live a) (ha : found a = true)
    (hother : ∀ j < i₀, ∀ b, slot (path j) = .live b → found b = false)
    (hbefore : ∀ j < i₀, slot (path j) ≠ .empty) :
    ∀ (fuel i : Nat) (firstDeleted : Option Nat), i ≤ i₀ → i₀ < i + fuel →
      search slot found path fuel i firstDeleted = some (path i₀)
  | 0, i, _, hle, hlt => by omega
  | fuel + 1, i, firstDeleted, hle, hlt => by
    rw [search]
    rcases Nat.eq_or_lt_of_le hle with heq | hless
    · rw [heq, hlive]
      dsimp only
      rw [if_pos ha]
    have ih := fun fd => search_of_found hlive ha hother hbefore fuel (i + 1) fd hless (by omega)
    cases hslot : slot (path i) with
    | empty => exact absurd hslot (hbefore i hless)
    | deleted => exact ih _
    | live b =>
      dsimp only
      rw [hother i hless b hslot, if_neg Bool.false_ne_true]
      exact ih _

def Free (slot : Nat → Slot α) (path : Nat → Nat) (n k : Nat) : Prop :=
  (∀ a, slot k ≠ .live a) ∧ Reached slot path n k

theorem search_of_absent (hnone : ∀ j < n, ∀ b, slot (path j) = .live b → found b = false) :
    ∀ (fuel i : Nat) (firstDeleted : Option Nat), i + fuel = n →
      (∀ j < i, slot (path j) ≠ .empty) → (∀ k, firstDeleted = some k → Free slot path n k) →
      (firstDeleted = none → ∃ j, i ≤ j ∧ j < n ∧ ∀ a, slot (path j) ≠ .live a) →
      ∃ k, search slot found path fuel i firstDeleted = some k ∧ Free slot path n k
  | 0, i, firstDeleted, hn, _, hdeleted, hfree => by
    cases firstDeleted with
    | some k => exact ⟨k, rfl, hdeleted k rfl⟩
    | none =>
      obtain ⟨j, hle, hlt, -⟩ := hfree rfl
      omega
  | fuel + 1, i, firstDeleted, hn, hbefore, hdeleted, hfree => by
    have hreached : Reached slot path n (path i) := ⟨i, by omega, rfl, hbefore⟩
    have hnext : slot (path i) ≠ .empty → ∀ j < i + 1, slot (path j) ≠ .empty := by
      intro hi j hj
      rcases Nat.eq_or_lt_of_le (Nat.le_of_lt_succ hj) with heq | hlt
      · rw [heq]
        exact hi
      · exact hbefore j hlt
    rw [search]
    cases hslot : slot (path i) with
    | empty =>
      refine ⟨_, rfl, ?_⟩
      cases firstDeleted with
      | some k => exact hdeleted k rfl
      | none =>
        refine ⟨fun a ha => ?_, hreached⟩
        rw [Option.getD_none, hslot] at ha
        cases ha
    | deleted =>
      refine search_of_absent hnone fuel (i + 1) _ (by omega) (hnext (by rw [hslot]; nofun)) ?_
        nofun
      intro k hk
      cases hk
      cases firstDeleted with
      | some k => exact hdeleted k rfl
      | none =>
        refine ⟨fun a ha => ?_, hreached⟩
        rw [Option.getD_none, hslot] at ha
        cases ha
    | live b =>
      dsimp only
      rw [hnone i (by omega) b hslot, if_neg Bool.false_ne_true]
      refine search_of_absent hnone fuel (i + 1) _ (by omega) (hnext (by rw [hslot]; nofun))
        hdeleted ?_
      intro hempty
      obtain ⟨j, hle, hlt, hj⟩ := hfree hempty
      refine ⟨j, ?_, hlt, hj⟩
      rcases Nat.eq_or_lt_of_le hle with heq | hless
      · rw [heq] at hslot
        exact absurd hslot (hj b)
      · exact hless

end Search

end Icu.Lib.OpenAddressing
