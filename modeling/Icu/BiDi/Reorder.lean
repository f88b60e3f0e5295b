import Icu.BiDi.LevelRuns
import Mathlib.Data.List.Fold

/-! # Reordering runs and reordering characters

`reorderLine` skips the highest level, leaves out the white space run, and has a loop of its
own for an odd lowest level. It still makes the passes of (L2) over the runs.
`ubidi_reorderVisual` makes them over the characters.
-/

namespace Icu.BiDi

open Lib.LevelReversal

variable {n : Nat} {xs levels : List Nat}

theorem or_one_of_even (h : n % 2 = 0) : n ||| 1 = n + 1 := by
  obtain ⟨k, rfl⟩ : ∃ k, n = k * 2 ^ 1 := ⟨n / 2, by omega⟩
  rw [← Nat.shiftLeft_eq, ← Nat.shiftLeft_add_eq_or_of_lt (by decide : 1 < 2 ^ 1)]

theorem or_one_of_odd (h : n % 2 = 1) : n ||| 1 = n := by
  have hn : n = (n - 1) ||| 1 := by rw [or_one_of_even (by omega)]; omega
  rw [hn, Nat.or_assoc, Nat.or_self]

theorem or_one_cases (n : Nat) : n % 2 = 0 ∧ n ||| 1 = n + 1 ∨ n % 2 = 1 ∧ n ||| 1 = n := by
  rcases Nat.mod_two_eq_zero_or_one n with h | h
  · exact .inl ⟨h, or_one_of_even h⟩
  · exact .inr ⟨h, or_one_of_odd h⟩

namespace UBiDi

variable {o : UBiDi} {runs : List Run}

/-! ## `reorderLine` -/

theorem reorderRuns_step (m : Nat) (ys zs : List Run) : reverseSequences
        (fun runs i => decide (m ≤ o.levelAt ((runs[i]?.map Run.logicalStart).getD 0)))
        ys.length (ys.length + 1) (ys ++ zs) 0 =
      pass o.runLevel m ys ++ zs := by
  have hmarks : marks (fun i =>
      decide (m ≤ o.levelAt (((ys ++ zs)[i]?.map Run.logicalStart).getD 0))) 0 ys.length =
        ys.map fun run => decide (m ≤ o.runLevel run) := by
    apply List.ext_getElem
    · simp [marks]
    intro i h1 h2
    have hi : i < ys.length := by simpa using h2
    simp only [marks, List.getElem_map, List.getElem_range', Nat.zero_add, Nat.one_mul,
      List.getElem?_append_left hi, List.getElem?_eq_getElem hi, Option.map_some,
      Option.getD_some, runLevel]
    rfl
  rw [reverseSequences_eq _ (ys.length + 1) (ys ++ zs) 0 (by simp) (Nat.zero_le _) (by omega),
    hmarks, List.take_zero, List.nil_append, List.drop_zero,
    reverseMarked_append zs _ ys [] (by simp), Lib.LevelReversal.pass]
  intro xs ys i h
  have hget : xs[i]? = ys[i]? := by
    have := congrArg (·[0]?) h
    simpa using this
  rw [hget]

theorem reorderRuns_eq {minLevel : Nat} (zs : List Run) : ∀ (k : Nat) (ys : List Run),
    minLevel ≤ k →
      o.reorderRuns ys.length minLevel (k + 1) (ys ++ zs) =
        passes o.runLevel minLevel (k - minLevel) ys ++ zs := by
  intro k
  induction k with
  | zero =>
    intro ys h
    rw [reorderRuns, if_pos h, reorderRuns_step, reorderRuns]
    obtain rfl : minLevel = 0 := by omega
    rfl
  | succ k ih =>
    intro ys h
    have hlength : (pass o.runLevel (k + 1) ys).length = ys.length := (pass_perm _ ys).length_eq
    rw [reorderRuns, if_pos h, reorderRuns_step]
    by_cases hk : minLevel ≤ k
    · have hstep := ih (pass o.runLevel (k + 1) ys) hk
      rw [hlength] at hstep
      rw [hstep, show k + 1 - minLevel = (k - minLevel) + 1 by omega, passes,
        show minLevel + (k - minLevel) + 1 = k + 1 by omega]
    · obtain rfl : minLevel = k + 1 := by omega
      rw [reorderRuns, if_neg hk, Nat.sub_self, passes]

/-- The passes of (L2) from the highest level down to the lowest odd one. -/
def reorderedBy {α : Type} (level : α → Nat) (minLevel maxLevel : Nat) (xs : List α) : List α :=
  if minLevel ||| 1 ≤ maxLevel then passes level (minLevel ||| 1) (maxLevel - (minLevel ||| 1)) xs
  else xs

theorem reorderedBy_perm {α : Type} (level : α → Nat) (minLevel maxLevel : Nat) (xs : List α) :
    (reorderedBy level minLevel maxLevel xs).Perm xs := by
  rw [reorderedBy]
  split
  · exact passes_perm _ _ xs
  · exact List.Perm.refl xs

theorem pass_max_eq_self {level : Run → Nat} {maxLevel : Nat}
    (hchain : runs.IsChain fun r s => level r ≠ level s)
    (hmax : ∀ run ∈ runs, level run ≤ maxLevel) :
    pass level maxLevel runs = runs := by
  apply pass_eq_self
  induction runs with
  | nil => simp
  | cons r runs ih =>
    cases runs with
    | nil => simp
    | cons s runs =>
      rw [List.isChain_cons_cons] at hchain ⊢
      refine ⟨?_, ih hchain.2 fun run h => hmax run (List.mem_cons_of_mem r h)⟩
      have hr := hmax r (by simp)
      have hs := hmax s (by simp)
      have := hchain.1
      omega

/-- What `reorderLine` gets: the runs of the text, and behind them the white space run, if
there is one. Its level is no higher than the others. -/
structure LineRuns (o : UBiDi) (level : Run → Nat) (minLevel maxLevel : Nat)
    (ys zs : List Run) : Prop where
  ne_nil : ys ≠ []
  chain : (ys ++ zs).IsChain fun r s => level r ≠ level s
  level_eq : ∀ run ∈ ys, level run = o.runLevel run
  min_le : ∀ run ∈ ys ++ zs, minLevel ≤ level run
  le_max : ∀ run ∈ ys ++ zs, level run ≤ maxLevel
  tail : o.trailingWSStart = o.length ∧ zs = [] ∨
    o.trailingWSStart < o.length ∧ ∃ ws, zs = [ws] ∧ level ws = minLevel

namespace LineRuns

variable {level : Run → Nat} {minLevel maxLevel : Nat} {ys zs : List Run}

section

variable (h : LineRuns o level minLevel maxLevel ys zs)
include h

theorem passes_text {lo : Nat} (hlo : minLevel < lo)
    (n : Nat) : passes o.runLevel lo n ys ++ zs = passes level lo n (ys ++ zs) := by
  have hlow : ∀ z ∈ zs, level z < lo := by
    intro z hz
    rcases h.tail with ⟨-, rfl⟩ | ⟨-, ws, rfl, hws⟩
    · simp at hz
    obtain rfl : z = ws := by simpa using hz
    omega
  have hmap := @passes_map _ _ level o.runLevel id lo n ys
    fun x hx => (h.level_eq x hx).symm
  rw [passes_append_low hlow]
  simpa using congrArg (· ++ zs) hmap

theorem count_text :
    (if o.trailingWSStart < o.length then (ys ++ zs).length - 1 else (ys ++ zs).length) =
      ys.length := by
  rcases h.tail with ⟨heq, rfl⟩ | ⟨hlt, ws, rfl, -⟩
  · simp [heq]
  · simp [hlt]

theorem count_all : (if o.trailingWSStart = o.length then ys.length - 1 else ys.length) =
      (ys ++ zs).length - 1 := by
  rcases h.tail with ⟨heq, rfl⟩ | ⟨hlt, ws, rfl, -⟩
  · simp [heq]
  · simp [Nat.ne_of_lt hlt]

theorem swap_all (hperm : runs.Perm (ys ++ zs)) :
    swapInward ((ys ++ zs).length - 1 + 1) runs 0 ((ys ++ zs).length - 1) =
      pass level minLevel runs := by
  have hne : ys ++ zs ≠ [] := List.append_ne_nil_of_left_ne_nil h.ne_nil zs
  have hpos := List.length_pos_of_ne_nil hne
  have hall : ∀ run ∈ runs, minLevel ≤ level run := fun run hrun =>
    h.min_le run (hperm.mem_iff.mp hrun)
  rw [pass_eq_reverse hall, ← swapInward_all runs,
    hperm.length_eq, Nat.sub_add_cancel hpos]

/-- `reorderLine` makes the passes of (L2). -/
theorem reorderLine_eq : o.reorderLine (ys ++ zs) (ys ++ zs).length minLevel maxLevel =
      reorderedBy level minLevel maxLevel (ys ++ zs) := by
  have htop := pass_max_eq_self h.chain h.le_max
  by_cases hle : maxLevel ≤ minLevel ||| 1
  · rw [reorderLine, if_pos hle, reorderedBy]
    split
    · obtain hm : maxLevel = minLevel ||| 1 := by omega
      rw [← hm, Nat.sub_self, passes, htop]
    · rfl
  have hspec : reorderedBy level minLevel maxLevel (ys ++ zs) =
      passes level (minLevel ||| 1) (maxLevel - (minLevel ||| 1)) (ys ++ zs) := by
    rw [reorderedBy, if_pos (by omega)]
  rw [hspec, reorderLine, if_neg hle]
  dsimp only
  rw [h.count_text, h.count_all]
  obtain ⟨k, rfl⟩ : ∃ k, maxLevel = k + 1 := ⟨maxLevel - 1, by omega⟩
  have htop' : ∀ {lo : Nat}, lo ≤ k →
      passes level lo (k + 1 - lo) (ys ++ zs) = passes level lo (k - lo) (ys ++ zs) := by
    intro lo hlo
    rw [show k + 1 - lo = (k - lo) + 1 by omega, passes,
      show lo + (k - lo) + 1 = k + 1 by omega, htop]
  rcases or_one_cases minLevel with ⟨heven, hor⟩ | ⟨hodd, hor⟩
  · -- the lowest odd level is above the lowest level
    rw [hor] at hle ⊢
    rw [if_neg (by omega), reorderRuns_eq zs k ys (by omega), h.passes_text (by omega),
      htop' (by omega)]
  rw [hor] at hle ⊢
  rw [if_pos (by omega), htop' (by omega)]
  by_cases hk : minLevel + 1 ≤ k
  · rw [reorderRuns_eq zs k ys hk, h.passes_text (by omega),
      h.swap_all (passes_perm _ _ _),
      show k - minLevel = (k - (minLevel + 1)) + 1 by omega, passes_succ]
  · rw [reorderRuns, if_neg hk, h.swap_all (List.Perm.refl _),
      show k - minLevel = 0 by omega, passes]

end

end LineRuns

end UBiDi

theorem reorderVisual_step (m : Nat) (h : xs.length = levels.length) :
    reverseSequences (fun _ i => decide (m ≤ levels.getD i 0)) levels.length (levels.length + 1)
        xs 0 =
      reverseMarked (levels.map fun l => decide (m ≤ l)) xs [] := by
  have hmarks : marks (fun i => decide (m ≤ levels.getD i 0)) 0 levels.length =
      levels.map fun l => decide (m ≤ l) := by
    apply List.ext_getElem
    · simp [marks]
    intro i h1 h2
    have hi : i < levels.length := by simpa using h2
    simp only [marks, List.getElem_map, List.getElem_range', Nat.zero_add, Nat.one_mul,
      List.getD_eq_getElem levels 0 hi]
  rw [reverseSequences_eq (fun _ => rfl) (levels.length + 1) xs 0 (by omega) (Nat.zero_le _)
      (by omega), hmarks, List.take_zero, List.nil_append, List.drop_zero]

theorem reorderVisualFrom_eq {minLevel : Nat} (h1 : 1 ≤ minLevel) :
    ∀ (k : Nat) {xs : List Nat}, xs.length = levels.length → minLevel ≤ k + 1 →
      reorderVisualFrom levels minLevel (k + 1) xs =
        staticPasses levels minLevel (k + 1 - minLevel) xs := by
  intro k
  induction k with
  | zero =>
    intro xs h hmin
    obtain rfl : minLevel = 1 := by omega
    rw [reorderVisualFrom, reorderVisual_step _ h, if_neg (by omega)]
    rfl
  | succ k ih =>
    intro xs h hmin
    have hlength : (reverseMarked (levels.map fun l => decide (k + 1 + 1 ≤ l)) xs []).length =
        levels.length := by
      rw [(reverseMarked_perm _ xs []).length_eq, List.nil_append, h]
    rw [reorderVisualFrom, reorderVisual_step _ h]
    by_cases hk : minLevel ≤ k + 1
    · rw [if_pos hk, ih hlength hk, show k + 1 + 1 - minLevel = (k + 1 - minLevel) + 1 by omega,
        staticPasses, show minLevel + (k + 1 - minLevel) + 1 = k + 1 + 1 by omega]
    · obtain rfl : minLevel = k + 1 + 1 := by omega
      rw [if_neg hk, Nat.sub_self, staticPasses]

theorem foldl_min_spec : ∀ (xs : List Nat) (c : Nat),
    xs.foldl min c ≤ c ∧ (∀ x ∈ xs, xs.foldl min c ≤ x) ∧ (xs.foldl min c = c ∨ xs.foldl min c ∈ xs)
  | [], c => by simp
  | x :: xs, c => by
    obtain ⟨h1, h2, h3⟩ := foldl_min_spec xs (min c x)
    rw [List.foldl_cons]
    refine ⟨by omega, ?_, ?_⟩
    · intro y hy
      rcases List.mem_cons.mp hy with rfl | hy
      · omega
      · exact h2 y hy
    rcases h3 with h3 | h3
    · rcases Nat.le_total c x with hcx | hcx
      · exact .inl (by omega)
      · exact .inr (List.mem_cons.mpr (.inl (by omega)))
    · exact .inr (List.mem_cons_of_mem x h3)

theorem foldl_max_spec : ∀ (xs : List Nat) (c : Nat),
    c ≤ xs.foldl max c ∧ (∀ x ∈ xs, x ≤ xs.foldl max c) ∧ (xs.foldl max c = c ∨ xs.foldl max c ∈ xs)
  | [], c => by simp
  | x :: xs, c => by
    obtain ⟨h1, h2, h3⟩ := foldl_max_spec xs (max c x)
    rw [List.foldl_cons]
    refine ⟨by omega, ?_, ?_⟩
    · intro y hy
      rcases List.mem_cons.mp hy with rfl | hy
      · omega
      · exact h2 y hy
    rcases h3 with h3 | h3
    · rcases Nat.le_total x c with hcx | hcx
      · exact .inl (by omega)
      · exact .inr (List.mem_cons.mpr (.inl (by omega)))
    · exact .inr (List.mem_cons_of_mem x h3)

structure Bounds (xs : List Nat) (minLevel maxLevel : Nat) : Prop where
  min_le : ∀ x ∈ xs, minLevel ≤ x
  le_max : ∀ x ∈ xs, x ≤ maxLevel
  min_mem : minLevel ∈ xs
  max_mem : maxLevel ∈ xs

theorem Bounds.foldl_min {minLevel maxLevel c : Nat} (h : Bounds xs minLevel maxLevel)
    (hc : minLevel ≤ c) : xs.foldl min c = minLevel := by
  obtain ⟨h1, h2, h3⟩ := foldl_min_spec xs c
  have := h2 minLevel h.min_mem
  rcases h3 with h3 | h3
  · omega
  have := h.min_le _ h3
  omega

theorem Bounds.foldl_max {minLevel maxLevel : Nat}
    (h : Bounds xs minLevel maxLevel) : xs.foldl max 0 = maxLevel := by
  obtain ⟨h1, h2, h3⟩ := foldl_max_spec xs 0
  have := h2 maxLevel h.max_mem
  rcases h3 with h3 | h3
  · omega
  have := h.le_max _ h3
  omega

theorem bounds_of_ne_nil (h : xs ≠ []) (hle : ∀ x ∈ xs, x ≤ maxExplicitLevel + 1) :
    Bounds xs (xs.foldl min (maxExplicitLevel + 1)) (xs.foldl max 0) := by
  obtain ⟨x, ys, rfl⟩ := List.exists_cons_of_ne_nil h
  obtain ⟨h1, h2, h3⟩ := foldl_min_spec (x :: ys) (maxExplicitLevel + 1)
  obtain ⟨g1, g2, g3⟩ := foldl_max_spec (x :: ys) 0
  have hx := List.mem_cons_self (a := x) (l := ys)
  refine ⟨h2, g2, ?_, ?_⟩
  · rcases h3 with h3 | h3
    · have hmin := h2 x hx
      have hmax := hle x hx
      rw [show (x :: ys).foldl min (maxExplicitLevel + 1) = x by omega]
      exact hx
    · exact h3
  · rcases g3 with g3 | g3
    · have hmax := g2 x hx
      rw [show (x :: ys).foldl max 0 = x by omega]
      exact hx
    · exact g3

/-- `ubidi_reorderVisual` makes the passes of (L2). -/
theorem reorderVisual_eq {minLevel maxLevel : Nat}
    (h : Bounds levels minLevel maxLevel) (hle : ∀ l ∈ levels, l ≤ maxExplicitLevel + 1) :
    reorderVisual levels = some ((UBiDi.reorderedBy Prod.fst minLevel maxLevel
      (levels.zip (List.range levels.length))).map Prod.snd) := by
  have hne : levels ≠ [] := List.ne_nil_of_mem h.min_mem
  have hvalid : ¬ (levels = [] ∨
      levels.any (fun l => decide (maxExplicitLevel + 1 < l)) = true) := by
    rintro (hnil | hany)
    · exact hne hnil
    obtain ⟨l, hl, hlt⟩ := List.any_eq_true.mp hany
    have := hle l hl
    simp only [decide_eq_true_eq] at hlt
    omega
  have hmin : levels.foldr min (maxExplicitLevel + 1) = minLevel := by
    rw [← List.foldl_eq_foldr, h.foldl_min (hle _ h.min_mem)]
  have hmax : levels.foldr max 0 = maxLevel := by
    rw [← List.foldl_eq_foldr, h.foldl_max]
  have hmm := h.le_max _ h.min_mem
  have hsnd : (levels.zip (List.range levels.length)).map Prod.snd = List.range levels.length := by
    rw [← List.unzip_snd, List.unzip_zip_right (by simp)]
  have hfst : (levels.zip (List.range levels.length)).map Prod.fst = levels := by
    rw [← List.unzip_fst, List.unzip_zip_left (by simp)]
  rw [reorderVisual, if_neg hvalid]
  rw [hmin, hmax]
  by_cases heq : minLevel = maxLevel ∧ minLevel % 2 = 0
  · rw [if_pos heq, UBiDi.reorderedBy, or_one_of_even heq.2, if_neg (by omega), hsnd]
  have hlo : 1 ≤ minLevel ||| 1 ∧ minLevel ||| 1 ≤ maxLevel := by
    rcases or_one_cases minLevel with ⟨he, hor⟩ | ⟨ho, hor⟩
    · rw [hor]
      omega
    · rw [hor]
      omega
  obtain ⟨k, rfl⟩ : ∃ k, maxLevel = k + 1 := ⟨maxLevel - 1, by omega⟩
  rw [if_neg heq, UBiDi.reorderedBy, if_pos hlo.2,
    reorderVisualFrom_eq hlo.1 k (by simp) hlo.2, ← @staticPasses_eq _ levels, hsnd]
  intro m _
  have := congrArg (List.map fun l => decide (m ≤ l)) hfst
  rwa [List.map_map] at this

end Icu.BiDi
