import Mathlib.Data.List.Basic

/-! # Programs with labels

A function body with loops and jumps is a step function on its labels and locals, and it
stops where there is no further step. An invariant of the steps holds where the body
stops, and a measure that the steps decrease says how much fuel takes it there.
-/

namespace Icu.Lib.Program

variable {S : Type} (step : S → Option S)

def exec : Nat → S → S
  | 0, s => s
  | fuel + 1, s =>
    match step s with
    | none => s
    | some s' => exec fuel s'

theorem exec_invariant {I : S → Prop} (hstep : ∀ {s s'}, step s = some s' → I s → I s') :
    ∀ (fuel : Nat) {s : S}, I s → I (exec step fuel s)
  | 0, _, hs => hs
  | fuel + 1, s, hs => by
    rw [exec]
    cases h : step s with
    | none => exact hs
    | some s' => exact exec_invariant hstep fuel (hstep h hs)

theorem exec_halts {measure : S → Nat}
    (hstep : ∀ {s s'}, step s = some s' → measure s' < measure s) :
    ∀ {fuel : Nat} {s : S}, measure s < fuel → step (exec step fuel s) = none
  | fuel + 1, s, hs => by
    rw [exec]
    cases h : step s with
    | none => exact h
    | some s' => exact exec_halts hstep (by have := hstep h; omega)

theorem exec_halts_invariant {I : S → Prop} {measure : S → Nat}
    (hstep : ∀ {s s'}, step s = some s' → I s → I s' ∧ measure s' < measure s) :
    ∀ {fuel : Nat} {s : S}, I s → measure s < fuel →
      I (exec step fuel s) ∧ step (exec step fuel s) = none
  | fuel + 1, s, hi, hs => by
    rw [exec]
    cases h : step s with
    | none => exact ⟨hi, h⟩
    | some s' =>
      obtain ⟨hi', hless⟩ := hstep h hi
      exact exec_halts_invariant hstep hi' (by omega)

theorem exec_unique : ∀ {m n : Nat} {s : S}, step (exec step m s) = none →
    step (exec step n s) = none → exec step m s = exec step n s
  | 0, 0, _, _, _ => rfl
  | 0, n + 1, s, hm, _ => by
    have hs : step s = none := hm
    rw [exec, exec, hs]
  | m + 1, 0, s, _, hn => by
    have hs : step s = none := hn
    rw [exec, exec, hs]
  | m + 1, n + 1, s, hm, hn => by
    rw [exec, exec] at *
    cases h : step s with
    | none => rfl
    | some s' =>
      rw [h] at hm hn
      exact exec_unique hm hn

theorem exec_map_invariant {T : Type} {step₁ : S → Option S} {step₂ : T → Option T} {f : S → T}
    {I : S → Prop} (hstep : ∀ {s}, I s → step₂ (f s) = (step₁ s).map f)
    (hinv : ∀ {s s'}, step₁ s = some s' → I s → I s') :
    ∀ (n : Nat) {s : S}, I s → exec step₂ n (f s) = f (exec step₁ n s)
  | 0, _, _ => rfl
  | n + 1, s, hs => by
    rw [exec, exec, hstep hs]
    cases h : step₁ s with
    | none => rfl
    | some s' => exact exec_map_invariant hstep hinv n (hinv h hs)

theorem exec_map {T : Type} {step₁ : S → Option S} {step₂ : T → Option T} {f : S → T}
    (hstep : ∀ s, step₂ (f s) = (step₁ s).map f) (n : Nat) (s : S) :
    exec step₂ n (f s) = f (exec step₁ n s) :=
  exec_map_invariant (I := fun _ => True) (fun _ => hstep _) (fun _ _ => trivial) n trivial

section Simulation

variable {T : Type} {step₁ : S → Option S} {step₂ : T → Option T} {R : S → T → Prop}

theorem exec_add (m n : Nat) (t : T) : exec step₂ (m + n) t = exec step₂ n (exec step₂ m t) := by
  induction m generalizing t with
  | zero => rw [Nat.zero_add, exec]
  | succ m ih =>
    rw [Nat.succ_add, exec, exec]
    cases h : step₂ t with
    | none =>
      cases n with
      | zero => rfl
      | succ n => rw [exec, h]
    | some t' => exact ih t'

theorem exec_simulates
    (hstep : ∀ {s s' t}, R s t → step₁ s = some s' → ∃ k, R s' (exec step₂ k t)) :
    ∀ (n : Nat) {s : S} {t : T}, R s t → ∃ m, R (exec step₁ n s) (exec step₂ m t)
  | 0, _, _, h => ⟨0, h⟩
  | n + 1, s, t, h => by
    rw [exec]
    cases hs : step₁ s with
    | none => exact ⟨0, h⟩
    | some s' =>
      obtain ⟨k, hk⟩ := hstep h hs
      obtain ⟨m, hm⟩ := exec_simulates hstep n hk
      refine ⟨k + m, ?_⟩
      rw [exec_add]
      exact hm

/-- Two programs that come to their ends, the first with the steps of the second, end in
related states. -/
theorem exec_related (hstep : ∀ {s s' t}, R s t → step₁ s = some s' → ∃ k, R s' (exec step₂ k t))
    (hend : ∀ {s t}, R s t → step₁ s = none → step₂ t = none) {m n : Nat} {s : S} {t : T}
    (h : R s t) (hs : step₁ (exec step₁ m s) = none) (ht : step₂ (exec step₂ n t) = none) :
    R (exec step₁ m s) (exec step₂ n t) := by
  obtain ⟨k, hk⟩ := exec_simulates hstep m h
  rwa [exec_unique step₂ (hend hk hs) ht] at hk

end Simulation

end Icu.Lib.Program
