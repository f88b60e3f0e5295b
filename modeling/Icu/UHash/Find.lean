import Icu.UHash.Model

/-! # The search of `UHashtable`

`_uhash_find` is a search along the path of a double hash. In a table whose size is one of the
primes but the largest no sum overflows, and it finds the key or a free slot for it.
-/

namespace Icu.UHash

open Lib.OpenAddressing Lib.PrimeCertificate

/-- There is no divisor among the `k` odd numbers from `d` on. -/
def noDivisor (n : Nat) : Nat → Nat → Bool
  | 0, _ => true
  | k + 1, d => !Nat.beq (n % d) 0 && noDivisor n k (d + 2)

theorem not_dvd_of_noDivisor {n j : Nat} : ∀ {k d : Nat}, noDivisor n k d = true → j < k →
    ¬ d + 2 * j ∣ n
  | k + 1, d, h, hj => by
    rw [noDivisor, Bool.and_eq_true, Bool.not_eq_true'] at h
    cases j with
    | zero =>
      intro hdvd
      have hmod : n % d = 0 := Nat.mod_eq_zero_of_dvd hdvd
      rw [hmod] at h
      cases h.1
    | succ j =>
      have hrest := not_dvd_of_noDivisor h.2 (Nat.lt_of_succ_lt_succ hj)
      rwa [Nat.mul_succ, Nat.add_comm (2 * j), ← Nat.add_assoc]

theorem prime_of_noDivisor {n k : Nat} (hn : 2 ≤ n) (hodd : n % 2 = 1) (hk : n < (2 * k + 3) ^ 2)
    (h : noDivisor n k 3 = true) : n.Prime := by
  by_contra hnot
  have hsq := Nat.minFac_sq_le_self (by omega) hnot
  have hdvd := Nat.minFac_dvd n
  have hprime : n.minFac.Prime := Nat.minFac_prime (by omega)
  have hlt : n.minFac < 2 * k + 3 := (Nat.pow_lt_pow_iff_left (by decide : 2 ≠ 0)).mp (by omega)
  have htwo : n.minFac ≠ 2 := by
    intro heq
    rw [heq] at hdvd
    omega
  have hfacOdd : n.minFac % 2 = 1 := (hprime.eq_two_or_odd).resolve_left htwo
  have hge := hprime.two_le
  have hno := @not_dvd_of_noDivisor n ((n.minFac - 3) / 2) k 3 h (by omega)
  rw [show 3 + 2 * ((n.minFac - 3) / 2) = n.minFac by omega] at hno
  exact hno hdvd

/-- A prime that fits into half of an `int32_t`, by trial division up to its root. -/
def isTrialPrime (n : Nat) : Bool :=
  decide (2 ≤ n) && decide (n % 2 = 1) && decide (n < (2 * 2 ^ (n.log2 / 2) + 3) ^ 2) &&
    noDivisor n (2 ^ (n.log2 / 2)) 3 && decide (n ≤ 0x40000000)

theorem primes_trial :
    (primes.take 20).all isTrialPrime = true := by set_option maxRecDepth 8000 in decide

-- trial division would take thousands of divisions for each of the larger primes
theorem prime_16777213 : Nat.Prime 16777213 :=
  @prime_of_factors 16777213 5 [2, 2, 3, 23, 89, 683] rfl (by norm_num) (by norm_num)
    (by decide) (by decide)

theorem prime_33554393 : Nat.Prime 33554393 :=
  @prime_of_factors 33554393 3 [2, 2, 2, 29, 61, 2371] rfl (by norm_num) (by norm_num)
    (by decide) (by decide)

theorem prime_67108859 : Nat.Prime 67108859 :=
  @prime_of_factors 67108859 2 [2, 479, 70051] rfl (by norm_num) (by norm_num)
    (by decide) (by decide)

theorem prime_134217689 : Nat.Prime 134217689 :=
  @prime_of_factors 134217689 3 [2, 2, 2, 11, 101, 15101] rfl (by norm_num) (by norm_num)
    (by decide) (by decide)

theorem prime_268435399 : Nat.Prime 268435399 :=
  @prime_of_factors 268435399 3 [2, 3, 7, 11, 581029] rfl (by norm_num) (by norm_num)
    (by decide) (by decide)

theorem prime_536870909 : Nat.Prime 536870909 :=
  @prime_of_factors 536870909 2 [2, 2, 7, 73, 262657] rfl (by norm_num) (by norm_num)
    (by decide) (by decide)

theorem prime_1073741789 : Nat.Prime 1073741789 :=
  @prime_of_factors 1073741789 2 [2, 2, 7, 2341, 16381] rfl (by norm_num) (by norm_num)
    (by decide) (by decide)

theorem primes_large : ∀ p ∈ (primes.take 27).drop 20, p.Prime ∧ p ≤ 0x40000000 := by
  have hdrop : (primes.take 27).drop 20 = [16777213, 33554393, 67108859, 134217689, 268435399,
    536870909, 1073741789] := rfl
  rw [hdrop]
  simp [prime_16777213, prime_33554393, prime_67108859, prime_134217689, prime_268435399,
    prime_536870909, prime_1073741789]

theorem primes_small : ∀ p ∈ primes.take 20, p.Prime ∧ p ≤ 0x40000000 := by
  intro p hp
  have htrial := List.all_eq_true.mp primes_trial _ hp
  simp only [isTrialPrime, Bool.and_eq_true, decide_eq_true_eq] at htrial
  obtain ⟨⟨⟨⟨hge, hodd⟩, hroot⟩, hno⟩, hle⟩ := htrial
  exact ⟨prime_of_noDivisor hge hodd hroot hno, hle⟩

theorem primes_prime {i : Nat} (hi : i < 27) :
    (primes.getD i 0).Prime ∧ primes.getD i 0 ≤ 0x40000000 := by
  have hlength : (primes.take 27).length = 27 := rfl
  have hmem : primes.getD i 0 ∈ (primes.take 27).take 20 ++ (primes.take 27).drop 20 := by
    rw [List.take_append_drop, List.mem_iff_getElem]
    refine ⟨i, by omega, ?_⟩
    rw [List.getElem_take, List.getD_eq_getElem?_getD, List.getElem?_eq_getElem, Option.getD_some]
  rcases List.mem_append.mp hmem with hsmall | hlarge
  · rw [List.take_take] at hsmall
    exact primes_small _ hsmall
  · exact primes_large _ hlarge

variable {T : Type} {f : KeyFunctions T}

def isLive (e : UHashElement T) : Bool := !isEmptyOrDeleted e.hashcode

def slotOf (e : UHashElement T) : Slot (UHashElement T) :=
  if isLive e then .live e else if e.hashcode = hashEmpty then .empty else .deleted

theorem slotOf_live_iff {e a : UHashElement T} : slotOf e = .live a ↔ isLive e = true ∧ e = a := by
  unfold slotOf
  split
  · next h => simp [h]
  · next h => split <;> simp [h]

theorem masked_masked (h : Int) : masked (masked h : Int) = masked h := by
  unfold masked
  omega

/-- The slots that `_uhash_find` looks at, for a hash code without its sign. -/
def path (length h i : Nat) : Nat :=
  probe length ((h ^^^ 0x4000000) % length) (h % (length - 1) + 1) i

/-- What `_uhash_find` looks for. -/
def wanted (f : KeyFunctions T) (key : T) (h : Nat) (e : UHashElement T) : Bool :=
  decide (e.hashcode = h) && f.keyComparator key e.key

namespace UHashtable

variable {hash : UHashtable T}

/-- The slots of a table. -/
def slot (f : KeyFunctions T) (hash : UHashtable T) (i : Nat) : Slot (UHashElement T) :=
  slotOf (hash.element f i)

theorem findLoop_eq_search (hprime : hash.length.Prime) (hle : hash.length ≤ 0x40000000)
    (key : T) (h : Nat) : ∀ (fuel i : Nat) (firstDeleted : Option Nat), i + fuel = hash.length →
      hash.findLoop f key h ((h ^^^ 0x4000000) % hash.length) fuel
        (path hash.length h i) firstDeleted =
        if fuel = 0 then none
        else search (hash.slot f) (wanted f key h) (path hash.length h) fuel i firstDeleted
  | 0, _, _, _ => by rw [findLoop, if_pos rfl]
  | fuel + 1, i, firstDeleted, hfuel => by
    have hjump : 0 < h % (hash.length - 1) + 1 ∧ h % (hash.length - 1) + 1 < hash.length := by
      have htwo := hprime.two_le
      have hmod := Nat.mod_lt h (show 0 < hash.length - 1 by omega)
      omega
    have hstart : (h ^^^ 0x4000000) % hash.length < hash.length := Nat.mod_lt _ hprime.pos
    have hindex : path hash.length h i < hash.length := probe_lt hprime.pos i
    have hback : path hash.length h (i + 1) = (h ^^^ 0x4000000) % hash.length ↔ i + 1 =
      hash.length :=
      probe_eq_start_iff hprime hjump.1 hjump.2 hstart (by omega)
    have hnext : ∀ fd : Option Nat,
        (if path hash.length h i + (h % (hash.length - 1) + 1) ≥ 0x80000000 then none
        else if (path hash.length h i + (h % (hash.length - 1) + 1)) % hash.length =
            (h ^^^ 0x4000000) % hash.length then fd
        else hash.findLoop f key h ((h ^^^ 0x4000000) % hash.length) fuel
          ((path hash.length h i + (h % (hash.length - 1) + 1)) % hash.length) fd) =
        search (hash.slot f) (wanted f key h) (path hash.length h) fuel (i + 1) fd := by
      intro fd
      have hsucc : (path hash.length h i + (h % (hash.length - 1) + 1)) % hash.length =
          path hash.length h (i + 1) := (probe_succ i).symm
      rw [if_neg (by omega), hsucc]
      by_cases hend : i + 1 = hash.length
      · have hzero : fuel = 0 := by omega
        rw [if_pos (hback.mpr hend), hzero, search]
      · rw [if_neg (mt hback.mp hend), findLoop_eq_search hprime hle key h fuel (i + 1) fd
          (by omega),
          if_neg (by omega)]
    rw [findLoop, if_neg (Nat.succ_ne_zero fuel), search]
    dsimp only
    rw [hnext, hnext]
    unfold slot slotOf wanted isLive
    generalize hash.element f (path hash.length h i) = e
    by_cases heq : e.hashcode = h
    · have hlive : isEmptyOrDeleted e.hashcode = false := by
        rw [heq]
        simp [isEmptyOrDeleted]
      rw [if_pos heq, hlive]
      simp only [Bool.not_false, if_true, heq, decide_true, Bool.true_and]
    rw [if_neg heq]
    cases hlive : isEmptyOrDeleted e.hashcode with
    | false => simp [heq]
    | true =>
      simp only [Bool.not_true, Bool.false_eq_true, if_false]
      by_cases hempty : e.hashcode = hashEmpty
      · simp [hempty]
      · simp [hempty]

theorem findElement_eq_search (hprime : hash.length.Prime) (hle : hash.length ≤ 0x40000000)
    (key : T) (h : Int) : hash.findElement f key h =
      search (hash.slot f) (wanted f key (masked h))
        (path hash.length (masked h)) hash.length 0 none := by
  have hstart : path hash.length (masked h) 0 = (masked h ^^^ 0x4000000) % hash.length :=
    probe_zero (Nat.mod_lt _ hprime.pos)
  have hloop := @findLoop_eq_search T f hash hprime hle key (masked h) hash.length 0 none
    (Nat.zero_add _)
  rw [hstart, if_neg hprime.pos.ne'] at hloop
  unfold findElement
  exact hloop

end UHashtable

end Icu.UHash
