import Icu.UnicodeSet.SpanChain
import Icu.UnicodeSet.StringSpanLoop

/-! # The text in both directions

The functions of the loop for UTF-16 text: they go over contained code points, and compare strings
at code point boundaries.
-/

namespace Icu.UnicodeSetStringSpan

open UnicodeSet Utf16 Lib Lib.InversionList Lib.Sweep Relation

variable {s t : List UInt16} {start : Nat}

theorem not_isBoundary_iff {k : Nat} {c c2 : Nat} (hc : unitAt s k = some c)
    (hc2 : unitAt s (k + 1) = some c2) :
    ¬ IsBoundary s (k + 1) ↔ u16IsLead c = true ∧ u16IsTrail c2 = true := by
  constructor
  · intro hno
    by_contra hpair
    refine hno ⟨Nat.le_of_lt (unitAt_lt_length hc2), ?_⟩
    rintro m hm ⟨d, d2, hd, hd2, hlead, htrail⟩
    obtain rfl : m = k := by omega
    obtain rfl := Option.some.inj (hc.symm.trans hd)
    obtain rfl := Option.some.inj (hc2.symm.trans hd2)
    exact hpair ⟨hlead, htrail⟩
  · rintro ⟨hlead, htrail⟩ hbound
    exact hbound.2 k rfl ⟨c, c2, hc, hc2, hlead, htrail⟩

/-- An edge of a match, which is not looked at where the text ends. -/
theorem splitsPair_eq {i : Nat} {inside : Bool} (hle : i ≤ s.length)
    (hinside : inside = true ↔ 0 < i ∧ i < s.length) :
    ∃ split, splitsPair inside s i = some split ∧ (split = true ↔ ¬ IsBoundary s i) := by
  cases inside with
  | true =>
    obtain ⟨hi, hlt⟩ := hinside.mp rfl
    obtain ⟨k, rfl⟩ : ∃ k, i = k + 1 := ⟨i - 1, by omega⟩
    obtain ⟨c, hc, -⟩ := unitAt_eq_some (s := s) (i := k) (by omega)
    obtain ⟨c2, hc2, -⟩ := unitAt_eq_some hlt
    rw [not_isBoundary_iff hc hc2, splitsPair, if_pos rfl, Nat.add_sub_cancel, hc, hc2]
    cases hlead : u16IsLead c with
    | true => exact ⟨u16IsTrail c2, by simp [hlead], by simp⟩
    | false => exact ⟨false, by simp [hlead], by simp⟩
  | false =>
    refine ⟨false, rfl, ?_⟩
    have hbound : IsBoundary s i := by
      by_cases hzero : i = 0
      · rw [hzero]
        exact isBoundary_zero s
      have hend : i = s.length := by
        by_contra hne
        cases hinside.mpr ⟨by omega, by omega⟩
      rw [hend]
      exact isBoundary_length s
    simp [hbound]

theorem matches16CPB_eq (hpos : 0 < t.length) (hle : start + t.length ≤ s.length) :
    ∃ found, matches16CPB s start t = some found ∧ (found = true ↔ SubstringAt s t start) := by
  have hstart : decide (0 < start) = true ↔ 0 < start ∧ start < s.length := by
    rw [decide_eq_true_iff]
    omega
  have hlimit : decide (start + t.length < s.length) = true ↔
      0 < start + t.length ∧ start + t.length < s.length := by
    rw [decide_eq_true_iff]
    omega
  obtain ⟨split, hsplit, hiff⟩ := splitsPair_eq (by omega) hstart
  obtain ⟨split', hsplit', hiff'⟩ := splitsPair_eq hle hlimit
  rw [matches16CPB, if_pos hle]
  by_cases heq : (s.drop start).take t.length = t
  · rw [if_pos heq]
    simp only [hsplit, hsplit', Option.bind_eq_bind, Option.bind_some]
    cases split with
    | true => exact ⟨false, rfl, by simpa using fun h => hiff.mp rfl h.left⟩
    | false =>
      have hleft : IsBoundary s start := by simpa using hiff
      refine ⟨!split', rfl, ?_⟩
      rw [Bool.not_eq_true', ← Bool.not_eq_true, hiff', not_not]
      exact ⟨fun hright => ⟨heq, hleft, hright⟩, fun h => h.right⟩
  · rw [if_neg heq]
    exact ⟨false, rfl, by simpa using fun h => heq h.eq⟩

section One

variable {spanSet : UnicodeSet} {list : List Int} {i j c : Nat} {u : Nat}

theorem lead_range (hu : u < 0x10000) :
    u16IsLead u = true ↔ u ≥ 0xd800 ∧ u ≤ 0xdbff := u16IsLead_iff (by omega)

theorem trail_range (hu : u < 0x10000) :
    u16IsTrail u = true ↔ u ≥ 0xdc00 ∧ u ≤ 0xdfff := u16IsTrail_iff (by omega)

theorem spanOne_eq (hspans : Spans spanSet list) (h : CodePointAt s i j c) :
    spanOne spanSet s i =
      some (if covers list c then ((j - i : Nat) : Int) else -((j - i : Nat) : Int)) := by
  have hcontains := hspans.contains c h.code_lt
  cases h with
  | unit hi hc hpair =>
    have hlt := unitAt_lt hc
    rw [spanOne, hc, Nat.add_sub_cancel_left]
    simp only [Option.bind_eq_bind, Option.bind_some, hcontains]
    by_cases hlead : c ≥ 0xd800 ∧ c ≤ 0xdbff ∧ s.length - i ≥ 2
    · obtain ⟨c2, hc2, -⟩ := unitAt_eq_some (show i + 1 < s.length by omega)
      have hno : u16IsTrail c2 = false := by
        rw [← Bool.not_eq_true]
        exact fun htrail => hpair ⟨c, c2, hc, hc2, (lead_range hlt).mpr ⟨hlead.1, hlead.2.1⟩,
          htrail⟩
      rw [if_pos hlead, hc2, Option.bind_some, hno]
      rfl
    · rw [if_neg hlead]
      rfl
  | @pair u u2 hi hc hc2 hlead htrail =>
    have hlt := unitAt_lt hc
    have hlen := unitAt_lt_length hc2
    rw [lead_range hlt] at hlead
    rw [spanOne, hc, Nat.add_sub_cancel_left]
    simp only [Option.bind_eq_bind, Option.bind_some]
    rw [if_pos ⟨hlead.1, hlead.2, by omega⟩, hc2, Option.bind_some, if_pos htrail, hcontains]
    rfl

theorem spanOneBack_eq (hspans : Spans spanSet list) (h : CodePointAt s i j c) :
    spanOneBack spanSet s j =
      some (if covers list c then ((j - i : Nat) : Int) else -((j - i : Nat) : Int)) := by
  have hcontains := hspans.contains c h.code_lt
  cases h with
  | unit hi hc hpair =>
    have hlt := unitAt_lt hc
    rw [spanOneBack, Nat.add_sub_cancel, hc, Nat.add_sub_cancel_left]
    simp only [Option.bind_eq_bind, Option.bind_some, hcontains]
    by_cases htrail : c ≥ 0xdc00 ∧ c ≤ 0xdfff ∧ i + 1 ≥ 2
    · obtain ⟨k, rfl⟩ : ∃ k, i = k + 1 := ⟨i - 1, by omega⟩
      obtain ⟨c2, hc2, -⟩ := unitAt_eq_some (s := s) (i :=
        k) (by have := unitAt_lt_length hc; omega)
      have hno : u16IsLead c2 = false := by
        rw [← Bool.not_eq_true]
        exact fun hlead => hi.2 k rfl
          ⟨c2, c, hc2, hc, hlead, (trail_range hlt).mpr ⟨htrail.1, htrail.2.1⟩⟩
      rw [if_pos htrail, show k + 1 + 1 - 2 = k from rfl, hc2, Option.bind_some, hno]
      rfl
    · rw [if_neg htrail]
      rfl
  | @pair u u2 hi hc hc2 hlead htrail =>
    have hlt := unitAt_lt hc2
    rw [trail_range hlt] at htrail
    rw [spanOneBack, Nat.add_sub_cancel_left, show i + 2 - 1 = i + 1 from rfl, hc2]
    simp only [Option.bind_eq_bind, Option.bind_some]
    rw [if_pos ⟨htrail.1, htrail.2, by omega⟩, Nat.add_sub_cancel, hc, Option.bind_some,
      if_pos hlead, hcontains]
    rfl

end One

section Directions

variable (stringSpan : UnicodeSetStringSpan) {list : List Int}

private theorem one_sound {one : Option Int} {n : Nat} {has : Bool} {cp : Nat → Prop} {pos : Nat}
    (hone : one = some (if has then (n : Int) else -(n : Int))) (hn : 0 < n) (htwo : n ≤ 2)
    (hcp : has = true → cp (pos + n)) (hno : has = false → ∀ j, ¬ cp j) :
    ∃ m, one = some m ∧ if m > 0 then m ≤ 2 ∧ cp (pos + m.toNat) else ∀ j, ¬ cp j := by
  refine ⟨_, hone, ?_⟩
  cases has with
  | true =>
    rw [if_pos rfl, if_pos (by omega)]
    exact ⟨by omega, by simpa using hcp rfl⟩
  | false =>
    rw [if_neg Bool.false_ne_true, if_neg (by omega)]
    exact hno rfl

theorem forward_describes (hspans : Spans stringSpan.spanSet list) (s : List UInt16) :
    (stringSpan.forward s).Describes (IsBoundary s) (ContainedAt list s)
      (fun t start => SubstringAt s t start) where
  pieces := Utf16.pieces s _
  zero := isBoundary_zero s
  cp_le := fun i j ⟨c, hcp, _⟩ => hcp.le_length
  span := by
    intro pos hbound hle
    obtain ⟨n, hn, hchain, hstuck⟩ := hspans.span (s.drop pos)
    have hsub := hbound.substringAt_drop
    have hlen : (s.drop pos).length = s.length - pos := List.length_drop
    have hnle : n ≤ (s.drop pos).length := by
      rcases ReflTransGen.cases_tail hchain with rfl | ⟨i, -, c, hcp, -⟩
      · exact Nat.zero_le _
      · exact hcp.le_length
    refine ⟨n, hn, (hsub.chain_iff hnle).mp hchain, ?_⟩
    rintro j ⟨c, hcp, hcov⟩
    have hlt := hcp.lt
    have hjle := hcp.le_length
    refine hstuck (j - pos) ⟨c, hsub.codePointAt_iff.mpr ⟨?_, by omega⟩, hcov⟩
    rwa [show pos + (j - pos) = j by omega]
  one := by
    intro pos hbound hlt
    obtain ⟨j, c, hcp⟩ := hbound.exists_next hlt
    have hij := hcp.lt
    have htwo := hcp.le_add_two
    refine one_sound (n := j - pos) (spanOne_eq hspans hcp) (by omega) (by omega) ?_ ?_
    · intro hcov
      rw [show pos + (j - pos) = j by omega]
      exact ⟨c, hcp, hcov⟩
    rintro hcov j' ⟨c', hcp', hcov'⟩
    obtain ⟨rfl, rfl⟩ := hcp.unique hcp'
    rw [hcov] at hcov'
    cases hcov'
  isMatch := fun start t hpos hle => matches16CPB_eq hpos hle
  match_left := fun t start hm => hm.left
  match_right := fun t start hm => hm.right
  match_le := fun t start hm => hm.right.1

/-- The matches of a string, seen from the end of the text. -/
def MatchBack (s t : List UInt16) (start : Nat) : Prop :=
  start + t.length ≤ s.length ∧ SubstringAt s t (s.length - start - t.length)

theorem backward_describes (hspans : Spans stringSpan.spanSet list) (s : List UInt16) :
    (stringSpan.backward s).Describes (fun a => a ≤ s.length ∧ IsBoundary s (s.length - a))
      (Sweep.mirror s.length (ContainedAt list s)) (MatchBack s) where
  pieces := (Utf16.pieces s _).mirror s.length
  zero := ⟨Nat.zero_le _, isBoundary_length s⟩
  cp_le := fun i j hcp => hcp.1
  span := by
    intro pos hbound hle
    obtain ⟨hpos, hbound⟩ := hbound
    obtain ⟨n, hn, hchain, hstuck⟩ := hspans.spanBack (s.take (s.length - pos))
    have hsub := hbound.substringAt_take
    have hlen : (s.take (s.length - pos)).length = s.length - pos := by
      rw [List.length_take]
      omega
    have hnle := le_of_reach (Utf16.pieces _ fun c => covers list c = true).lt hchain
    have hchain := (hsub.chain_iff (Nat.le_refl _)).mp hchain
    rw [hlen] at hnle hchain
    rw [Nat.zero_add, Nat.zero_add] at hchain
    have hmirror := reach_mirror (Utf16.pieces s fun c => covers list c = true).lt hchain
      (Nat.sub_le s.length pos)
    rw [Nat.sub_sub_self hpos] at hmirror
    refine ⟨s.length - pos - n, ?_, ?_, ?_⟩
    · change Option.map _ (stringSpan.spanSet.spanBack (s.take (s.length - pos)) .contained) = _
      rw [hn]
      rfl
    · rw [show pos + (s.length - pos - n) = s.length - n by omega]
      exact hmirror
    · rintro j ⟨hj, c, hcp, hcov⟩
      rw [show s.length - (pos + (s.length - pos - n)) = n by omega] at hcp
      refine hstuck (s.length - j) ⟨c, hsub.codePointAt_iff.mpr ⟨?_, by omega⟩, hcov⟩
      rwa [Nat.zero_add, Nat.zero_add]
  one := by
    intro pos hbound hlt
    change pos < s.length at hlt
    obtain ⟨i, c, hcp⟩ := hbound.2.exists_prev (by omega)
    have hij := hcp.lt
    have htwo := hcp.le_add_two
    refine one_sound (n := s.length - pos - i) (spanOneBack_eq hspans hcp) (by omega) (by omega)
      ?_ ?_
    · intro hcov
      refine ⟨by omega, c, ?_, hcov⟩
      rwa [show s.length - (pos + (s.length - pos - i)) = i by omega]
    rintro hcov j ⟨hj, c', hcp', hcov'⟩
    obtain rfl := hcp.unique_left hcp'
    obtain ⟨-, rfl⟩ := hcp.unique hcp'
    rw [hcov] at hcov'
    cases hcov'
  isMatch := by
    intro start t hpos hle
    change start + t.length ≤ s.length at hle
    have hle' : s.length - start - t.length + t.length ≤ s.length := by omega
    obtain ⟨found, hmatch, hiff⟩ := matches16CPB_eq hpos hle'
    exact ⟨found, hmatch, hiff.trans ⟨fun h => ⟨hle, h⟩, fun h => h.2⟩⟩
  match_left := by
    rintro t start ⟨hle, hm⟩
    have hright := hm.right
    rw [show s.length - start - t.length + t.length = s.length - start by omega] at hright
    exact ⟨by omega, hright⟩
  match_right := by
    rintro t start ⟨hle, hm⟩
    refine ⟨hle, ?_⟩
    rw [← Nat.sub_sub]
    exact hm.left
  match_le := fun t start hm => hm.1

end Directions

end Icu.UnicodeSetStringSpan
