import Icu.Utf8.Backward
import Icu.Lib.Iteration

/-! # Iteration over UTF-8 is direction-independent -/

namespace Icu.Utf8

open Lib.Iteration

theorem exists_units (s : List UInt8) : ∀ (n p : Nat), s.length - p = n → p ≤ s.length →
    Boundary s p → ∃ units : List (Nat × Nat × Int), Tiles units p s.length ∧
      ∀ u ∈ units, IsUnit s u.1 u.2.1 ∧ Boundary s u.1 ∧ u.2.2 = unitValue (-1) s u.1 u.2.1 := by
  intro n
  induction n using Nat.strongRecOn with
  | ind n ih =>
    intro p hn hp hb
    by_cases hend : p = s.length
    · exact ⟨[], hend, by simp⟩
    obtain ⟨e, he⟩ := exists_isUnit (show p < s.length by omega)
    have hlt := he.lt
    have hle := he.le
    obtain ⟨units, htiles, hunits⟩ := ih (s.length - e) (by omega) e rfl hle (hb.next he)
    refine ⟨(p, e, unitValue (-1) s p e) :: units, ⟨rfl, hlt, htiles⟩, fun u hu => ?_⟩
    rcases List.mem_cons.mp hu with rfl | hu
    · exact ⟨he, hb, rfl⟩
    · exact hunits u hu

/-- `U8_FWD_1` and `U8_BACK_1` as iteration steps. -/
def fwd1Step (s : List UInt8) (i : Nat) : Option (Unit × Nat) :=
  (u8Fwd1 s i s.length).map fun j => ((), j)

def back1Step (s : List UInt8) (i : Nat) : Option (Unit × Nat) :=
  (u8Back1 s 0 i).map fun j => ((), j)

/-- All ways of iterating over a byte string visit the same units: `U8_NEXT` and `U8_PREV`
with the same values, `U8_FWD_1` and `U8_BACK_1` with the same boundaries, and
`U8_SET_CP_START` finds the start of the unit around each offset. Every step from an offset
inside of the string advances and stays inside of the string. -/
theorem iteration_direction_independent (s : List UInt8) : (∃ units : List (Nat × Nat × Int),
      forward (fun i => u8Next s i s.length) s.length s.length 0 = some units ∧
      backward (u8Prev s 0) s.length s.length = some units.reverse ∧
      forward (fwd1Step s) s.length s.length 0 = some (units.map fun u => (u.1, u.2.1, ())) ∧
      backward (back1Step s) s.length s.length =
        some (units.map fun u => (u.1, u.2.1, ())).reverse ∧
      (∀ u ∈ units, u.1 < u.2.1 ∧ u.2.1 ≤ s.length) ∧
      ∀ i < s.length, ∃ u ∈ units, u.1 ≤ i ∧ i < u.2.1 ∧ u8SetCpStart s 0 i = some u.1) ∧
    (∀ i < s.length, ∃ c j, u8Next s i s.length = some (c, j) ∧
      u8Fwd1 s i s.length = some j ∧ i < j ∧ j ≤ s.length) := by
  refine ⟨?_, fun i hi => ?_⟩
  · obtain ⟨units, htiles, hunits⟩ := exists_units s _ 0 rfl (Nat.zero_le _) (boundary_zero s)
    have hlen := htiles.length_le
    have hlen' : (units.map fun u => (u.1, u.2.1, ())).length ≤ s.length := by
      rw [List.length_map]
      omega
    refine ⟨units, ?_, ?_, ?_, ?_, fun u hu => ⟨(hunits u hu).1.lt, (hunits u hu).1.le⟩,
      fun i hi => ?_⟩
    · refine forward_of_tiles _ htiles (fun u hu => ?_) (by omega)
      obtain ⟨hu, -, hv⟩ := hunits u hu
      rw [hv]
      exact u8NextStrict_eq hu (by decide) (by decide)
    · refine backward_of_tiles units _ htiles (fun u hu => ?_) (by omega)
      obtain ⟨hu, hb, hv⟩ := hunits u hu
      rw [hv]
      exact u8PrevStrict_eq hb hu (by decide) (by decide)
    · refine forward_of_tiles _ (htiles.map fun _ => ()) (fun u hu => ?_) hlen'
      obtain ⟨v, hv, rfl⟩ := List.mem_map.mp hu
      simp [fwd1Step, u8Fwd1_eq (hunits v hv).1]
    · refine backward_of_tiles _ _ (htiles.map fun _ => ()) (fun u hu => ?_) hlen'
      obtain ⟨v, hv, rfl⟩ := List.mem_map.mp hu
      simp [back1Step, u8Back1_eq (hunits v hv).2.1 (hunits v hv).1]
    · obtain ⟨u, hu, h0, h1⟩ := htiles.exists_mem i (Nat.zero_le _) hi
      obtain ⟨hunit, hb, -⟩ := hunits u hu
      exact ⟨u, hu, h0, h1, u8SetCpStart_eq hb hunit h0 h1⟩
  · obtain ⟨e, he⟩ := exists_isUnit hi
    exact ⟨_, e, u8NextStrict_eq he (by decide) (by decide), u8Fwd1_eq he, he.lt, he.le⟩

end Icu.Utf8
