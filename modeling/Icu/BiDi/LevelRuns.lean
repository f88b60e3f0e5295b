import Icu.BiDi.IndexMaps

/-! # The runs of a levels array

The loops of `ubidi_getRuns` cut the text below `trailingWSStart` into runs, before these are
reordered.
-/

namespace Icu.BiDi

open Lib.LevelReversal

/-- The text positions of a run, while its `visualLimit` is its length. -/
def Run.content (run : Run) : List Nat := List.range' run.logicalStart run.visualLimit

namespace UBiDi

variable (o : UBiDi) {limit : Nat}

def runLevel (run : Run) : Nat := o.levelAt run.logicalStart

variable {o}

theorem levelRuns_next {start : Nat} (h : start < limit) :
    start < skipWhile (fun j => o.levelAt j == o.levelAt start) limit limit (start + 1) ∧
      skipWhile (fun j => o.levelAt j == o.levelAt start) limit limit (start + 1) ≤ limit ∧
      (∀ j, start ≤ j →
        j < skipWhile (fun j => o.levelAt j == o.levelAt start) limit limit (start + 1) →
          o.levelAt j = o.levelAt start) ∧
      (skipWhile (fun j => o.levelAt j == o.levelAt start) limit limit (start + 1) < limit →
        o.levelAt (skipWhile (fun j => o.levelAt j == o.levelAt start) limit limit (start + 1)) ≠
          o.levelAt start) := by
  obtain ⟨h1, h2, h3, h4⟩ := skipWhile_spec (fun j => o.levelAt j == o.levelAt start) limit limit
    (start + 1) (by omega) (by omega)
  refine ⟨h1, h2, ?_, ?_⟩
  · intro j hj hlt
    rcases Nat.eq_or_lt_of_le hj with rfl | hj
    · rfl
    · simpa using h3 j hj hlt
  · intro hlt
    simpa using h4 hlt

theorem expand_levelRuns : ∀ (fuel start : Nat), start < limit → limit - start ≤ fuel →
      expand o.runLevel Run.content (o.levelRuns limit fuel start) =
        (List.range' start (limit - start)).map fun i => (o.levelAt i, i) := by
  intro fuel
  induction fuel with
  | zero => intro start h hf; omega
  | succ fuel ih =>
    intro start h hf
    obtain ⟨h1, h2, h3, _⟩ := levelRuns_next (o := o) h
    rw [levelRuns]
    generalize skipWhile (fun j => o.levelAt j == o.levelAt start) limit limit (start + 1) = i at *
    have hrun : ((List.range' start (i - start)).map fun a => (o.levelAt start, a)) =
        (List.range' start (i - start)).map fun a => (o.levelAt a, a) := by
      apply List.map_congr_left
      intro a ha
      obtain ⟨ha1, ha2⟩ := List.mem_range'_1.mp ha
      rw [h3 a ha1 (by omega)]
    have hsplit : List.range' start (limit - start) =
        List.range' start (i - start) ++ List.range' i (limit - i) := by
      rw [show limit - start = (i - start) + (limit - i) by omega, ← List.range'_append_1,
        show start + (i - start) = i by omega]
    rw [expand_cons, hsplit, List.map_append]
    dsimp only [runLevel, Run.content]
    rw [hrun]
    by_cases hi : i < limit
    · rw [if_pos hi, ← ih i hi (by omega)]
    rw [if_neg hi, show limit - i = 0 by omega]
    simp

theorem levelRuns_head {limit fuel start : Nat} (hf : 0 < fuel) :
    ∃ run runs, o.levelRuns limit fuel start = run :: runs ∧ run.logicalStart = start := by
  obtain ⟨fuel, rfl⟩ : ∃ f, fuel = f + 1 := ⟨fuel - 1, by omega⟩
  exact ⟨_, _, rfl, rfl⟩

theorem mem_levelRuns : ∀ (fuel start : Nat), start < limit → ∀ run ∈ o.levelRuns limit fuel start,
      start ≤ run.logicalStart ∧ 0 < run.visualLimit ∧
        run.logicalStart + run.visualLimit ≤ limit ∧ run.odd = false ∧ run.insertRemove = 0 := by
  intro fuel
  induction fuel with
  | zero => intro start _ run hrun; simp [levelRuns] at hrun
  | succ fuel ih =>
    intro start h run hrun
    obtain ⟨h1, h2, _, _⟩ := levelRuns_next (o := o) h
    rw [levelRuns] at hrun
    generalize skipWhile (fun j => o.levelAt j == o.levelAt start) limit limit (start + 1) = i at *
    rcases List.mem_cons.mp hrun with rfl | hrun
    · exact ⟨le_refl _, by dsimp only; omega, by dsimp only; omega, rfl, rfl⟩
    by_cases hi : i < limit
    · rw [if_pos hi] at hrun
      obtain ⟨r1, r2⟩ := ih i hi run hrun
      exact ⟨by omega, r2⟩
    · simp [if_neg hi] at hrun

theorem levelRuns_isChain : ∀ (fuel start : Nat), start < limit →
    (o.levelRuns limit fuel start).IsChain (fun r s => o.runLevel r ≠ o.runLevel s) := by
  intro fuel
  induction fuel with
  | zero => intro start _; simp [levelRuns]
  | succ fuel ih =>
    intro start h
    obtain ⟨h1, h2, _, h4⟩ := levelRuns_next (o := o) h
    rw [levelRuns]
    generalize skipWhile (fun j => o.levelAt j == o.levelAt start) limit limit (start + 1) = i at *
    by_cases hi : i < limit
    · rw [if_pos hi]
      cases fuel with
      | zero => simp [levelRuns]
      | succ fuel =>
        obtain ⟨run, runs, hruns, hstart⟩ := @levelRuns_head o limit _ i
          (Nat.succ_pos fuel)
        have hchain := ih i hi
        rw [hruns] at hchain ⊢
        refine List.isChain_cons_cons.mpr ⟨?_, hchain⟩
        dsimp only [runLevel]
        rw [hstart]
        exact (h4 hi).symm
    · simp [if_neg hi]

theorem levelRuns_getLast : ∀ (fuel start : Nat), start < limit →
    limit - start ≤ fuel → ∀ run, (o.levelRuns limit fuel start).getLast? = some run →
      o.runLevel run = o.levelAt (limit - 1) := by
  intro fuel
  induction fuel with
  | zero => intro start h hf; omega
  | succ fuel ih =>
    intro start h hf run hrun
    obtain ⟨h1, h2, h3, _⟩ := levelRuns_next (o := o) h
    rw [levelRuns] at hrun
    generalize skipWhile (fun j => o.levelAt j == o.levelAt start) limit limit (start + 1) = i at *
    by_cases hi : i < limit
    · obtain ⟨head, tail, htail, _⟩ := @levelRuns_head o limit _ i
        (show 0 < fuel by omega)
      apply ih i hi (by omega) run
      rw [if_pos hi, htail, List.getLast?_cons_cons] at hrun
      rw [htail, hrun]
    · simp only [if_neg hi, List.getLast?_singleton, Option.some.injEq] at hrun
      subst hrun
      exact (h3 (limit - 1) (by omega) (by omega)).symm

theorem foldl_count_same {level : Nat} : ∀ (n start c : Nat),
    (∀ j, start ≤ j → j < start + n → o.levelAt j = level) →
      (List.range' start n).foldl (fun (acc : Nat × Nat) i =>
        if o.levelAt i ≠ acc.2 then (acc.1 + 1, o.levelAt i) else acc) (c, level) = (c, level)
  | 0, start, c, _ => by simp
  | n + 1, start, c, h => by
    rw [List.range'_succ, List.foldl_cons, if_neg (by simp [h start (le_refl _) (by omega)])]
    exact foldl_count_same n (start + 1) c fun j h1 h2 => h j (by omega) (by omega)

theorem foldl_count_levelRuns : ∀ (fuel start c level : Nat), start < limit →
    limit - start ≤ fuel → o.levelAt start ≠ level →
      ((List.range' start (limit - start)).foldl (fun (acc : Nat × Nat) i =>
        if o.levelAt i ≠ acc.2 then (acc.1 + 1, o.levelAt i) else acc) (c, level)).1 =
          c + (o.levelRuns limit fuel start).length := by
  intro fuel
  induction fuel with
  | zero => intro start c level h hf; omega
  | succ fuel ih =>
    intro start c level h hf hlevel
    obtain ⟨h1, h2, h3, h4⟩ := levelRuns_next (o := o) h
    rw [levelRuns]
    generalize skipWhile (fun j => o.levelAt j == o.levelAt start) limit limit (start + 1) = i at *
    have hsplit : List.range' start (limit - start) =
        start :: (List.range' (start + 1) (i - (start + 1)) ++ List.range' i (limit - i)) := by
      rw [show limit - start = (limit - (start + 1)) + 1 by omega, List.range'_succ,
        show limit - (start + 1) = (i - (start + 1)) + (limit - i) by omega,
        ← List.range'_append_1, show start + 1 + (i - (start + 1)) = i by omega]
    rw [hsplit, List.foldl_cons, if_pos (by simpa using hlevel), List.foldl_append,
      foldl_count_same _ _ _ fun j h1 h2 => h3 j (by omega) (by omega)]
    by_cases hi : i < limit
    · rw [ih i (c + 1) (o.levelAt start) hi (by omega) (h4 hi), List.length_cons, if_pos hi]
      omega
    · rw [show limit - i = 0 by omega, if_neg hi]
      simp

theorem countLevelRuns_eq (h : 0 < o.trailingWSStart) (hlevel : o.levelAt 0 ≠ 0xfe) :
    o.countLevelRuns = (o.levelRuns o.trailingWSStart o.trailingWSStart 0).length := by
  have hcount := foldl_count_levelRuns o.trailingWSStart 0 0 0xfe h (by omega) hlevel
  rw [Nat.sub_zero, Nat.zero_add] at hcount
  rw [countLevelRuns, List.range_eq_range', hcount]

end UBiDi

end Icu.BiDi
