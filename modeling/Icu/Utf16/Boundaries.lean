import Icu.Lib.Sweep
import Icu.Utf16

/-! # Code point boundaries

An offset in a UTF-16 string is a boundary if it does not split a surrogate pair. The code points
of the string lie between adjacent boundaries, and a substring between boundaries has the code
points of the string.
-/

namespace Icu.Utf16

open Lib Lib.Sweep

/-- The units at `i` and behind it are a surrogate pair. -/
def PairAt (s : List UInt16) (i : Nat) : Prop :=
  ∃ c c2, unitAt s i = some c ∧ unitAt s (i + 1) = some c2 ∧ u16IsLead c = true ∧
    u16IsTrail c2 = true

def IsBoundary (s : List UInt16) (i : Nat) : Prop :=
  i ≤ s.length ∧ ∀ k, k + 1 = i → ¬ PairAt s k

/-- The code point `c` is at the offset `i`, and ends at `j`. -/
inductive CodePointAt (s : List UInt16) : Nat → Nat → Nat → Prop
  | unit {i c : Nat} (hi : IsBoundary s i) (hc : unitAt s i = some c) (hpair : ¬ PairAt s i) :
      CodePointAt s i (i + 1) c
  | pair {i c c2 : Nat} (hi : IsBoundary s i) (hc : unitAt s i = some c)
      (hc2 : unitAt s (i + 1) = some c2) (hlead : u16IsLead c = true)
      (htrail : u16IsTrail c2 = true) : CodePointAt s i (i + 2) (u16GetSupplementary c c2)

variable {s : List UInt16} {i j c : Nat}

theorem unitAt_lt_length {u : Nat} (h : unitAt s i = some u) : i < s.length := by
  obtain ⟨v, hv, -⟩ := Option.map_eq_some_iff.mp h
  exact (List.getElem?_eq_some_iff.mp hv).1

theorem isBoundary_zero (s : List UInt16) : IsBoundary s 0 :=
  ⟨Nat.zero_le _, fun _ hk => absurd hk (by omega)⟩

theorem isBoundary_length (s : List UInt16) : IsBoundary s s.length := by
  refine ⟨Nat.le_refl _, ?_⟩
  rintro k hk ⟨c, c2, -, hc2, -, -⟩
  have := unitAt_lt_length hc2
  omega

/-- A unit is not both a lead and a trail surrogate. -/
theorem not_trail_of_lead {u : Nat} (hu : unitAt s i = some u) (hlead : u16IsLead u = true) :
    u16IsTrail u = false := by
  have hlt := unitAt_lt hu
  rw [u16IsLead_iff (by omega)] at hlead
  rw [← Bool.not_eq_true, u16IsTrail_iff (by omega)]
  omega

/-- A lead surrogate does not end a pair. -/
theorem isBoundary_of_lead (hc : unitAt s i = some c) (hlead : u16IsLead c = true) :
    IsBoundary s i := by
  refine ⟨Nat.le_of_lt (unitAt_lt_length hc), ?_⟩
  rintro k rfl ⟨d, d2, -, hd2, -, htrail⟩
  obtain rfl : c = d2 := Option.some.inj (hc.symm.trans hd2)
  rw [not_trail_of_lead hc hlead] at htrail
  cases htrail

namespace CodePointAt

section

variable (h : CodePointAt s i j c)
include h

theorem left : IsBoundary s i := by
  cases h <;> assumption

theorem lt : i < j := by
  cases h <;> omega

theorem right : IsBoundary s j := by
  cases h with
  | unit hi hc hpair =>
    refine ⟨unitAt_lt_length hc, fun k hk => ?_⟩
    obtain rfl : k = i := by omega
    exact hpair
  | @pair c c2 hi hc hc2 hlead htrail =>
    refine ⟨unitAt_lt_length hc2, ?_⟩
    rintro k hk ⟨d, d2, hd, -, hlead', -⟩
    obtain rfl : k = i + 1 := by omega
    obtain rfl : c2 = d := Option.some.inj (hc2.symm.trans hd)
    rw [not_trail_of_lead hd hlead'] at htrail
    cases htrail

theorem le_length : j ≤ s.length := h.right.1

theorem le_add_two : j ≤ i + 2 := by
  cases h <;> omega

theorem code_lt : c < 0x110000 := by
  cases h with
  | unit _ hc _ =>
    have := unitAt_lt hc
    omega
  | pair _ hc hc2 hlead htrail =>
    have hl := unitAt_lt hc
    have ht := unitAt_lt hc2
    rw [u16IsLead_iff (by omega)] at hlead
    rw [u16IsTrail_iff (by omega)] at htrail
    have := u16GetSupplementary_bounds hlead htrail
    omega

theorem next {m : Nat} (hm : IsBoundary s m) (hlt : i < m) : j ≤ m := by
  cases h with
  | unit => exact hlt
  | @pair c c2 hi hc hc2 hlead htrail =>
    by_contra hmid
    exact hm.2 i (by omega) ⟨c, c2, hc, hc2, hlead, htrail⟩

theorem unique {j' c' : Nat} (h' : CodePointAt s i j' c') : j = j' ∧ c = c' := by
  cases h with
  | unit hi hc hpair =>
    cases h' with
    | unit _ hc' _ => exact ⟨rfl, Option.some.inj (hc.symm.trans hc')⟩
    | @pair c c2 _ hc' hc2 hlead htrail => exact absurd ⟨c, c2, hc', hc2, hlead, htrail⟩ hpair
  | @pair c c2 hi hc hc2 hlead htrail =>
    cases h' with
    | unit _ _ hpair => exact absurd ⟨c, c2, hc, hc2, hlead, htrail⟩ hpair
    | pair _ hc' hc2' _ _ =>
      obtain rfl := Option.some.inj (hc.symm.trans hc')
      obtain rfl := Option.some.inj (hc2.symm.trans hc2')
      exact ⟨rfl, rfl⟩

theorem unique_left {i' c' : Nat} (h' : CodePointAt s i' j c') : i = i' := by
  rcases Nat.lt_trichotomy i i' with hlt | heq | hlt
  · have := h.next h'.left hlt
    have := h'.lt
    omega
  · exact heq
  · have := h'.next h.left hlt
    have := h.lt
    omega

theorem u16Next_eq : u16Next s i s.length = some (c, j) := by
  cases h with
  | unit hi hc hpair =>
    refine u16Next_unit hc fun hlead hne => ?_
    have := unitAt_lt_length hc
    obtain ⟨c2, hc2, hlt2⟩ := unitAt_eq_some (show i + 1 < s.length by omega)
    refine ⟨c2, hc2, fun htrail => hpair ⟨c, c2, hc, hc2, ?_, ?_⟩⟩
    · exact (u16IsLead_iff (by omega)).mpr hlead
    · exact (u16IsTrail_iff (by omega)).mpr htrail
  | pair hi hc hc2 hlead htrail =>
    have := unitAt_lt_length hc2
    have hl := unitAt_lt hc
    have ht := unitAt_lt hc2
    rw [u16IsLead_iff (by omega)] at hlead
    rw [u16IsTrail_iff (by omega)] at htrail
    exact u16Next_pair hc hlead (by omega) hc2 htrail

theorem u16Prev_eq : u16Prev s 0 j = some (c, i) := by
  cases h with
  | unit hi hc hpair =>
    refine u16Prev_unit hc fun htrail hpos => ?_
    rw [Nat.add_sub_cancel] at hpos ⊢
    have := unitAt_lt_length hc
    obtain ⟨c2, hc2, hlt2⟩ := unitAt_eq_some (show i - 1 < s.length by omega)
    have hprev : i - 1 + 1 = i := by omega
    refine ⟨c2, hc2, fun hlead => hi.2 (i - 1) hprev ⟨c2, c, hc2, by rw [hprev]; exact hc, ?_, ?_⟩⟩
    · exact (u16IsLead_iff (by omega)).mpr hlead
    · exact (u16IsTrail_iff (by omega)).mpr htrail
  | pair hi hc hc2 hlead htrail =>
    have hl := unitAt_lt hc
    have ht := unitAt_lt hc2
    rw [u16IsLead_iff (by omega)] at hlead
    rw [u16IsTrail_iff (by omega)] at htrail
    exact u16Prev_pair (i := i + 2) hc2 htrail (by omega) hc hlead

end

end CodePointAt

theorem IsBoundary.exists_next (hi : IsBoundary s i) (hlt : i < s.length) :
    ∃ j c, CodePointAt s i j c := by
  by_cases hpair : PairAt s i
  · obtain ⟨c, c2, hc, hc2, hlead, htrail⟩ := hpair
    exact ⟨i + 2, _, .pair hi hc hc2 hlead htrail⟩
  · obtain ⟨c, hc, -⟩ := unitAt_eq_some hlt
    exact ⟨i + 1, c, .unit hi hc hpair⟩

theorem IsBoundary.exists_prev (hj : IsBoundary s j) (hpos : 0 < j) :
    ∃ i c, CodePointAt s i j c := by
  obtain ⟨k, rfl⟩ : ∃ k, j = k + 1 := ⟨j - 1, by omega⟩
  have hle := hj.1
  by_cases hpair : ∃ m, m + 1 = k ∧ PairAt s m
  · obtain ⟨m, rfl, c, c2, hc, hc2, hlead, htrail⟩ := hpair
    exact ⟨m, _, .pair (isBoundary_of_lead hc hlead) hc hc2 hlead htrail⟩
  · obtain ⟨c, hc, -⟩ := unitAt_eq_some (show k < s.length by omega)
    refine ⟨k, c, .unit ⟨by omega, fun m hm hp => hpair ⟨m, hm, hp⟩⟩ hc (hj.2 k rfl)⟩

theorem pieces (s : List UInt16) (P : Nat → Prop) :
    Pieces (IsBoundary s) fun i j => ∃ c, CodePointAt s i j c ∧ P c where
  lt := fun _ _ ⟨_, h, _⟩ => h.lt
  left := fun _ _ ⟨_, h, _⟩ => h.left
  right := fun _ _ ⟨_, h, _⟩ => h.right
  next := fun _ _ _ ⟨_, h, _⟩ hm hlt => h.next hm hlt

section Substring

variable {t : List UInt16} {a n k : Nat}

/-- `t` is the substring of `s` at the offset `a`, between two boundaries. -/
structure SubstringAt (s t : List UInt16) (a : Nat) : Prop where
  eq : (s.drop a).take t.length = t
  left : IsBoundary s a
  right : IsBoundary s (a + t.length)

namespace SubstringAt

variable (h : SubstringAt s t a)

include h

theorem unitAt_eq (hk : k < t.length) : unitAt t k = unitAt s (a + k) := by
  rw [unitAt, unitAt, ← h.eq, List.getElem?_take_of_lt hk, List.getElem?_drop]

theorem pairAt_iff : PairAt t k ↔ PairAt s (a + k) ∧ k + 1 < t.length := by
  constructor
  · rintro ⟨c, c2, hc, hc2, hlead, htrail⟩
    have hlt := unitAt_lt_length hc2
    refine ⟨⟨c, c2, ?_, ?_, hlead, htrail⟩, hlt⟩
    · rw [← h.unitAt_eq (by omega), hc]
    · rw [Nat.add_assoc, ← h.unitAt_eq hlt, hc2]
  · rintro ⟨⟨c, c2, hc, hc2, hlead, htrail⟩, hlt⟩
    refine ⟨c, c2, ?_, ?_, hlead, htrail⟩
    · rw [h.unitAt_eq (by omega), hc]
    · rw [h.unitAt_eq hlt, ← Nat.add_assoc, hc2]

theorem isBoundary_iff (hk : k ≤ t.length) : IsBoundary t k ↔ IsBoundary s (a + k) := by
  have hright := h.right.1
  constructor
  · rintro ⟨-, hno⟩
    refine ⟨by omega, fun m hm hpair => ?_⟩
    by_cases hzero : k = 0
    · exact h.left.2 m (by omega) hpair
    by_cases hend : k = t.length
    · exact h.right.2 m (by omega) hpair
    obtain ⟨l, rfl⟩ : ∃ l, k = l + 1 := ⟨k - 1, by omega⟩
    obtain rfl : m = a + l := by omega
    exact hno l rfl (h.pairAt_iff.mpr ⟨hpair, by omega⟩)
  · rintro ⟨-, hno⟩
    refine ⟨hk, fun m hm hpair => ?_⟩
    exact hno (a + m) (by omega) (h.pairAt_iff.mp hpair).1

theorem codePointAt_iff : CodePointAt t k j c ↔ CodePointAt s (a + k) (a + j) c ∧ j ≤ t.length := by
  constructor
  · intro hcp
    refine ⟨?_, hcp.le_length⟩
    have hleft := (h.isBoundary_iff hcp.left.1).mp hcp.left
    cases hcp with
    | unit hi hc hpair =>
      have hlt := unitAt_lt_length hc
      rw [← Nat.add_assoc]
      refine .unit hleft (by rw [← h.unitAt_eq hlt, hc]) fun hpair' => ?_
      by_cases hend : k + 1 < t.length
      · exact hpair (h.pairAt_iff.mpr ⟨hpair', hend⟩)
      · exact h.right.2 (a + k) (by omega) hpair'
    | pair hi hc hc2 hlead htrail =>
      rw [← Nat.add_assoc]
      refine .pair hleft ?_ ?_ hlead htrail
      · rw [← h.unitAt_eq (unitAt_lt_length hc), hc]
      · rw [Nat.add_assoc, ← h.unitAt_eq (unitAt_lt_length hc2), hc2]
  · rintro ⟨hcp, hle⟩
    have hlt := hcp.lt
    have hleft := (h.isBoundary_iff (k := k) (by omega)).mpr hcp.left
    generalize hp : a + k = p at hcp
    generalize hq : a + j = q at hcp
    cases hcp with
    | unit hi hc hpair =>
      obtain rfl : j = k + 1 := by omega
      refine .unit hleft (by rw [h.unitAt_eq (by omega), hp, hc]) fun hpair' => hpair ?_
      rw [← hp]
      exact (h.pairAt_iff.mp hpair').1
    | pair hi hc hc2 hlead htrail =>
      obtain rfl : j = k + 2 := by omega
      refine .pair hleft ?_ ?_ hlead htrail
      · rw [h.unitAt_eq (by omega), hp, hc]
      · rw [h.unitAt_eq (by omega), ← Nat.add_assoc, hp, hc2]

theorem chain_iff {P : Nat → Prop} (hj : j ≤ t.length) :
    Relation.ReflTransGen (fun i j => ∃ c, CodePointAt t i j c ∧ P c) k j ↔
      Relation.ReflTransGen (fun i j => ∃ c, CodePointAt s i j c ∧ P c) (a + k) (a + j) := by
  constructor
  · intro hchain
    exact hchain.lift (a + ·) fun _ _ ⟨c, hcp, hP⟩ => ⟨c, (h.codePointAt_iff.mp hcp).1, hP⟩
  intro hchain
  generalize hq : a + j = q at hchain
  induction hchain generalizing j with
  | refl =>
    obtain rfl : j = k := by omega
    exact .refl
  | @tail m m' hchain hstep ih =>
    obtain ⟨c, hcp, hP⟩ := hstep
    have hkm := le_of_reach (pieces s P).lt hchain
    have hlt := hcp.lt
    obtain ⟨l, rfl⟩ : ∃ l, m = a + l := ⟨m - a, by omega⟩
    refine (ih (j := l) (by omega) rfl).tail ⟨c, ?_, hP⟩
    rw [← hq] at hcp
    exact h.codePointAt_iff.mpr ⟨hcp, hj⟩

end SubstringAt

theorem IsBoundary.substringAt_drop (hi : IsBoundary s i) : SubstringAt s (s.drop i) i where
  eq := List.take_length
  left := hi
  right := by
    have hle := hi.1
    rw [List.length_drop, Nat.add_sub_cancel' hle]
    exact isBoundary_length s

theorem IsBoundary.substringAt_take (hi : IsBoundary s i) : SubstringAt s (s.take i) 0 where
  eq := by
    have hle := hi.1
    rw [List.drop_zero, List.length_take, Nat.min_eq_left hle]
  left := isBoundary_zero s
  right := by
    have hle := hi.1
    rw [List.length_take, Nat.min_eq_left hle, Nat.zero_add]
    exact hi

end Substring

end Icu.Utf16
