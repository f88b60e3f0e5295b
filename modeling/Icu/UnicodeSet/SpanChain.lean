import Icu.UnicodeSet.Span
import Icu.Utf16.Boundaries

/-! # Spans are chains of code points

`span` and `spanBack` go over code points that are contained, or that are not, until there is no
next one, in both forms of a set.
-/

namespace Icu

open UnicodeSet Utf16 Lib Lib.InversionList Lib.Scan Relation

/-- The code point from `i` to `j` is in the list. -/
def ContainedAt (list : List Int) (s : List UInt16) (i j : Nat) : Prop :=
  ∃ c : Nat, CodePointAt s i j c ∧ covers list c = true

/-- The code point from `i` to `j` is in the list, or it is not. -/
def MatchesAt (want : Bool) (list : List Int) (s : List UInt16) (i j : Nat) : Prop :=
  ∃ c : Nat, CodePointAt s i j c ∧ covers list c = want

namespace UnicodeSet

/-- What a set for code points does with a text, for each span condition. -/
structure SpansWhile (set : UnicodeSet) (list : List Int) : Prop where
  contains : ∀ c : Nat, c < 0x110000 → set.contains c = some (covers list c)
  span : ∀ s cond, ∃ n, set.span s cond = some n ∧
    ReflTransGen (MatchesAt cond.holds list s) 0 n ∧ ∀ j, ¬ MatchesAt cond.holds list s n j
  spanBack : ∀ s cond, ∃ n, set.spanBack s cond = some n ∧
    ReflTransGen (MatchesAt cond.holds list s) n s.length ∧ ∀ i, ¬ MatchesAt cond.holds list s i n

structure Spans (set : UnicodeSet) (list : List Int) : Prop where
  contains : ∀ c : Nat, c < 0x110000 → set.contains c = some (covers list c)
  span : ∀ s, ∃ n, set.span s .contained = some n ∧
    ReflTransGen (ContainedAt list s) 0 n ∧ ∀ j, ¬ ContainedAt list s n j
  spanBack : ∀ s, ∃ n, set.spanBack s .contained = some n ∧
    ReflTransGen (ContainedAt list s) n s.length ∧ ∀ i, ¬ ContainedAt list s i n

section Scans

variable {want : Bool} {list : List Int} {s : List UInt16} {unit : Nat → Option (Bool × Nat)}

theorem scan_matches (hs : s ≠ [])
    (h : ∀ i j c, CodePointAt s i j c → unit i = some (covers list c, j)) :
    ∃ n, scan unit want s.length s.length 0 = some n ∧
      ReflTransGen (MatchesAt want list s) 0 n ∧ ∀ j, ¬ MatchesAt want list s n j := by
  have hunit : ∀ i < s.length, IsBoundary s i → ∃ has next, unit i = some (has, next) ∧ i < next ∧
      next ≤ s.length ∧ IsBoundary s next := by
    intro i hi hbd
    obtain ⟨j, c, hcp⟩ := hbd.exists_next hi
    exact ⟨_, j, h i j c hcp, hcp.lt, hcp.le_length, hcp.right⟩
  obtain ⟨n, hscan, -, -, hchain, hstop⟩ := @scan_chain unit want _ _ hunit s.length 0
    (List.length_pos_iff.mpr hs) (isBoundary_zero s) (by omega)
  refine ⟨n, hscan, ReflTransGen.mono ?_ _ _ hchain, ?_⟩
  · rintro i j ⟨hi, hbd, hu⟩
    obtain ⟨j', c, hcp⟩ := hbd.exists_next hi
    rw [h i j' c hcp, Option.some.injEq, Prod.mk.injEq] at hu
    obtain ⟨hcov, rfl⟩ := hu
    exact ⟨c, hcp, hcov⟩
  · rintro j ⟨c, hcp, hcov⟩
    have := hcp.lt
    obtain ⟨next, hu⟩ := hstop (by have := hcp.le_length; omega)
    rw [h n j c hcp, hcov, Option.some.injEq, Prod.mk.injEq] at hu
    exact absurd hu.1 (by simp)

theorem scanBack_matches (hs : s ≠ [])
    (h : ∀ i j c, CodePointAt s i j c → unit j = some (covers list c, i)) :
    ∃ n, scanBack unit want s.length s.length = some n ∧
      ReflTransGen (MatchesAt want list s) n s.length ∧ ∀ i, ¬ MatchesAt want list s i n := by
  have hunit : ∀ j, 0 < j → IsBoundary s j → ∃ has prev, unit j = some (has, prev) ∧ prev < j ∧
      IsBoundary s prev := by
    intro j hj hbd
    obtain ⟨i, c, hcp⟩ := hbd.exists_prev hj
    exact ⟨_, i, h i j c hcp, hcp.lt, hcp.left⟩
  obtain ⟨n, hscan, -, hchain, hstop⟩ := @scanBack_chain unit want _ hunit s.length s.length
    (List.length_pos_iff.mpr hs) (isBoundary_length s) (by omega)
  refine ⟨n, hscan, ?_, ?_⟩
  · rw [← reflTransGen_swap]
    refine ReflTransGen.mono ?_ _ _ hchain
    rintro j i ⟨hj, hbd, hu⟩
    obtain ⟨i', c, hcp⟩ := hbd.exists_prev hj
    rw [h i' j c hcp, Option.some.injEq, Prod.mk.injEq] at hu
    obtain ⟨hcov, rfl⟩ := hu
    exact ⟨c, hcp, hcov⟩
  · rintro i ⟨c, hcp, hcov⟩
    have := hcp.lt
    obtain ⟨prev, hu⟩ := hstop (by omega)
    rw [h i n c hcp, hcov, Option.some.injEq, Prod.mk.injEq] at hu
    exact absurd hu.1 (by simp)

end Scans

section Units

variable {set : UnicodeSet} {s : List UInt16} {i j c : Nat}

theorem spanUnit_codePoint (hl : IsInversionList set.list) (hf : set.bmpSet = none)
    (h : CodePointAt s i j c) : set.spanUnit s i = some (covers set.list c, j) := by
  have hlt := h.code_lt
  have hhigh : unicodesetHigh = 0x110000 := rfl
  rw [UnicodeSet.spanUnit, h.u16Next_eq]
  simp only [Option.bind_eq_bind, Option.bind_some]
  rw [UnicodeSet.contains_eq hl hf, decide_eq_true (by omega), Bool.true_and]
  rfl

theorem spanBackUnit_codePoint (hl : IsInversionList set.list) (hf : set.bmpSet = none)
    (h : CodePointAt s i j c) : set.spanBackUnit s j = some (covers set.list c, i) := by
  have hlt := h.code_lt
  have hhigh : unicodesetHigh = 0x110000 := rfl
  rw [UnicodeSet.spanBackUnit, h.u16Prev_eq]
  simp only [Option.bind_eq_bind, Option.bind_some]
  rw [UnicodeSet.contains_eq hl hf, decide_eq_true (by omega), Bool.true_and]
  rfl

end Units

theorem not_matchesAt_nil (want : Bool) (list : List Int) (i j : Nat) :
    ¬ MatchesAt want list [] i j := by
  rintro ⟨c, hcp, -⟩
  have := hcp.lt
  have := hcp.le_length
  simp only [List.length_nil] at this
  omega

theorem SpansWhile.congr {set : UnicodeSet} {list list' : List Int} (hs : SpansWhile set list)
    (h : ∀ c : Nat, c < 0x110000 → covers list c = covers list' c) : SpansWhile set list' := by
  have hsame : ∀ want, MatchesAt want list = MatchesAt want list' := by
    intro want
    funext s i j
    rw [eq_iff_iff]
    constructor
    · rintro ⟨c, hcp, hcov⟩
      exact ⟨c, hcp, by rw [← h c hcp.code_lt, hcov]⟩
    · rintro ⟨c, hcp, hcov⟩
      exact ⟨c, hcp, by rw [h c hcp.code_lt, hcov]⟩
  refine ⟨fun c hc => by rw [hs.contains c hc, h c hc], fun s cond => ?_, fun s cond => ?_⟩
  · rw [← hsame]
    exact hs.span s cond
  · rw [← hsame]
    exact hs.spanBack s cond

theorem SpansWhile.spans {set : UnicodeSet} {list : List Int} (hs : SpansWhile set list) :
    Spans set list where
  contains := hs.contains
  span s := hs.span s .contained
  spanBack s := hs.spanBack s .contained

theorem spansWhile_of_thawed {set : UnicodeSet} (hl : IsInversionList set.list)
    (hf : set.bmpSet = none) : SpansWhile set set.list where
  contains := by
    intro c hc
    have hhigh : unicodesetHigh = 0x110000 := rfl
    rw [UnicodeSet.contains_eq hl hf, decide_eq_true (by omega), Bool.true_and]
  span := by
    intro s cond
    by_cases hs : s = []
    · subst hs
      exact ⟨0, by simp [UnicodeSet.span], .refl, fun j => not_matchesAt_nil _ _ _ j⟩
    have hspan : set.span s cond = scan (set.spanUnit s) cond.holds s.length s.length 0 := by
      simp only [UnicodeSet.span, hf]
    rw [hspan]
    exact scan_matches hs fun i j c => spanUnit_codePoint hl hf
  spanBack := by
    intro s cond
    by_cases hs : s = []
    · subst hs
      exact ⟨0, by simp [UnicodeSet.spanBack], .refl, fun i => not_matchesAt_nil _ _ i _⟩
    have hspan : set.spanBack s cond =
        scanBack (set.spanBackUnit s) cond.holds s.length s.length := by
      simp only [UnicodeSet.spanBack, hf]
    rw [hspan]
    exact scanBack_matches hs fun i j c => spanBackUnit_codePoint hl hf

theorem spansWhile_of_frozen {set : UnicodeSet} {bmpSet : BMPSet} (hr : bmpSet.Represents set.list)
    (hf : set.bmpSet = none) : SpansWhile { set with bmpSet := some bmpSet } set.list where
  contains := by
    intro c hc
    have hhigh : unicodesetHigh = 0x110000 := rfl
    rw [UnicodeSet.contains]
    dsimp only
    rw [hr.contains_eq, decide_eq_true (by omega), Bool.true_and]
  span := by
    intro s cond
    cases s with
    | nil => exact ⟨0, by simp [UnicodeSet.span], .refl, fun j => not_matchesAt_nil _ _ _ j⟩
    | cons u us =>
      change ∃ n, scan (bmpSet.spanUnit (u :: us) (u :: us).length) _ _ _ _ = some n ∧ _
      refine scan_matches (List.cons_ne_nil _ _) fun i j c h => ?_
      have := h.lt
      obtain ⟨has, next, hunit, hunit', -, -⟩ := spanUnit_eq (s := u :: us) hr hf
        (i := i) (by have := h.le_length; omega)
      rw [spanUnit_codePoint hr.valid hf h] at hunit'
      rw [hunit, ← hunit']
  spanBack := by
    intro s cond
    cases s with
    | nil => exact ⟨0, by simp [UnicodeSet.spanBack], .refl, fun i => not_matchesAt_nil _ _ i _⟩
    | cons u us =>
      change ∃ n, scanBack (bmpSet.spanBackUnit (u :: us)) _ _ _ = some n ∧ _
      refine scanBack_matches (List.cons_ne_nil _ _) fun i j c h => ?_
      have := h.lt
      obtain ⟨has, prev, hunit, hunit', -⟩ := spanBackUnit_eq (s := u :: us) hr hf
        (i := j) (by omega) h.le_length
      rw [spanBackUnit_codePoint hr.valid hf h] at hunit'
      rw [hunit, ← hunit']

theorem freeze_spansWhile {set : UnicodeSet} (h : CodePointSet set) :
    ∃ out, set.freeze = some out ∧ SpansWhile out set.list := by
  have hf : set.bmpSet = none := by simpa [isFrozen] using h.thawed
  obtain ⟨bmpSet, hnew, hr⟩ := BMPSet.new_represents h.list
  refine ⟨{ set with bmpSet := some bmpSet }, ?_, spansWhile_of_frozen hr hf⟩
  rw [UnicodeSet.freeze, h.thawed, h.sound, hnew]
  rfl

end UnicodeSet

end Icu
