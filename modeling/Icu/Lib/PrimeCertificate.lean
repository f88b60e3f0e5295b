import Mathlib.NumberTheory.LucasPrimality

/-!
# Certificates of primality

A number is prime if some other number has order `p - 1` modulo it.  The order is checked by fast
exponentiation, at the prime factors of `p - 1` only.
-/

namespace Icu.Lib.PrimeCertificate

/-- `a ^ n % p` for an exponent of at most `fuel` binary digits. -/
def powMod (p : Nat) : Nat → Nat → Nat → Nat
  | 0, _, _ => 1 % p
  | fuel + 1, a, n =>
    if n % 2 = 1 then powMod p fuel (a * a % p) (n / 2) * a % p
    else powMod p fuel (a * a % p) (n / 2)

theorem powMod_eq {p : Nat} : ∀ {fuel a n : Nat}, n < 2 ^ fuel → powMod p fuel a n = a ^ n % p
  | 0, _, n, hn => by
    have hzero : n = 0 := by simpa using hn
    rw [hzero, powMod, pow_zero]
  | fuel + 1, a, n, hn => by
    have hhalf : n / 2 < 2 ^ fuel := by
      rw [pow_succ] at hn
      omega
    have hsquare : powMod p fuel (a * a % p) (n / 2) = (a * a) ^ (n / 2) % p := by
      rw [powMod_eq hhalf, ← Nat.pow_mod]
    rw [powMod, hsquare, ← pow_two, ← pow_mul]
    by_cases hodd : n % 2 = 1
    · rw [if_pos hodd, Nat.mod_mul_mod, ← pow_succ, show 2 * (n / 2) + 1 = n by omega]
    · rw [if_neg hodd, show 2 * (n / 2) = n by omega]

theorem prime_of_factors {p a : Nat} {factors : List Nat} (hprod : factors.prod = p - 1)
    (hprime : ∀ q ∈ factors, q.Prime) (hlt : p < 2 ^ 32) (hone : powMod p 32 a (p - 1) = 1)
    (hne : ∀ q ∈ factors, powMod p 32 a ((p - 1) / q) ≠ 1) : p.Prime := by
  have hcast : ∀ n, n < 2 ^ 32 → powMod p 32 a n = a ^ n % p := fun n => powMod_eq
  have hp : 1 < p := by
    rw [hcast _ (by omega)] at hone
    rcases p with _ | _ | p
    · have h : factors.prod ≠ 0 := List.prod_ne_zero fun hzero => (hprime 0 hzero).ne_zero rfl
      exact absurd hprod h
    · simp at hone
    · omega
  have hunit : ∀ n, n < 2 ^ 32 → ((a : ZMod p) ^ n = 1 ↔ powMod p 32 a n = 1) := by
    intro n hn
    rw [hcast n hn, ← Nat.cast_pow, ← Nat.cast_one, ZMod.natCast_eq_natCast_iff, Nat.ModEq,
      Nat.mod_eq_of_lt hp]
  refine lucas_primality p a ((hunit _ (by omega)).mpr hone) ?_
  intro q hq hdvd hcon
  have hmem : q ∈ factors := by
    rw [← hprod, hq.prime.dvd_prod_iff] at hdvd
    obtain ⟨r, hr, hqr⟩ := hdvd
    rwa [(Nat.prime_dvd_prime_iff_eq hq (hprime r hr)).mp hqr]
  have hbound : (p - 1) / q < 2 ^ 32 := Nat.lt_of_le_of_lt (Nat.div_le_self _ _) (by omega)
  exact hne q hmem ((hunit _ hbound).mp hcon)

end Icu.Lib.PrimeCertificate
