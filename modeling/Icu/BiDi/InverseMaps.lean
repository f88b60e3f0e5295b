import Icu.BiDi.ReorderMaps

/-! # The index maps are inverse

After each level, the two maps are inverse, and an index has stayed in its sequence. So they are
inverse at the end, both are rule (L2), and to invert one of them gives the other.
-/

namespace Icu.BiDi

open Lib.LevelReversal

variable {levels : List Nat} {visual : List Nat} {logical : List Int} {m minLevel n : Nat}

def Near (levels : List Nat) (m i k : Nat) : Prop :=
  i = k ∨ ∀ j, min i k ≤ j → j ≤ max i k → m ≤ levels.getD j 0

/-- The visual index of each logical index is at the same level or higher, and there is this logical
index in the visual map. -/
structure Mates (levels : List Nat) (m : Nat) (visual : List Nat) (logical : List Int) : Prop where
  length_visual : visual.length = levels.length
  length_logical : logical.length = levels.length
  mate : ∀ i, i < levels.length → ∃ k : Nat, k < levels.length ∧ logical[i]? = some (k : Int) ∧
    visual[k]? = some i ∧ Near levels m i k

theorem mates_range (m : Nat) :
    Mates levels m (List.range levels.length) ((List.range levels.length).map Int.ofNat) := by
  refine ⟨List.length_range, by rw [List.length_map, List.length_range], fun i hi => ?_⟩
  refine ⟨i, hi, ?_, List.getElem?_range hi, Or.inl rfl⟩
  rw [List.getElem?_map, List.getElem?_range hi]
  rfl

abbrev atLeast (levels : List Nat) (m : Nat) : Nat → Bool := fun i => decide (m ≤ levels.getD i 0)

theorem reorderVisual_pass (m : Nat) (h : visual.length = levels.length) :
    reverseSequences (fun _ i => decide (m ≤ levels.getD i 0)) levels.length (levels.length + 1)
        visual 0 = passAt (atLeast levels m) visual := by
  rw [reverseSequences_eq (fun _ => rfl) (levels.length + 1) visual 0 (by omega) (Nat.zero_le _)
      (by omega), List.take_zero, List.nil_append, List.drop_zero, passAt, h]

theorem Mates.step (h : Mates levels (m + 1) visual logical) :
    Mates levels m (reverseSequences (fun _ i => decide (m ≤ levels.getD i 0)) levels.length
        (levels.length + 1) visual 0)
      (mirrorSequences (fun i => decide (m ≤ levels.getD i 0)) levels.length (levels.length + 1)
        logical 0) := by
  have hmirrors := @mirrorSequences_spec (atLeast levels m) levels.length
    (levels.length + 1) logical 0
    (Nat.zero_le _) (by omega) fun hcon => absurd hcon (Nat.lt_irrefl 0)
  rw [reorderVisual_pass m h.length_visual]
  refine ⟨by rw [length_passAt, h.length_visual], hmirrors.length_eq.trans h.length_logical,
    fun i hi => ?_⟩
  obtain ⟨k, hk, hlogical, hvisual, hnear⟩ := h.mate i hi
  by_cases hp : atLeast levels m i = true
  · obtain ⟨first, limit, hmax, hfirst, hlimit⟩ := exists_maximal hi hp
    -- the visual index is in the same sequence
    have hin : first ≤ k ∧ k < limit := by
      rcases hnear with rfl | hbetween
      · exact ⟨hfirst, hlimit⟩
      have hle := hmax.le
      constructor
      · by_contra hlt
        have hno := hmax.first_end (by omega)
        have hyes := hbetween (first - 1) (by omega) (by omega)
        rw [decide_eq_false_iff_not] at hno
        omega
      · by_contra hge
        have hno := hmax.limit_end (by omega)
        have hyes := hbetween limit (by omega) (by omega)
        rw [decide_eq_false_iff_not] at hno
        omega
    have hle := hmax.le
    refine ⟨first + limit - 1 - k, by omega, ?_, ?_, Or.inr fun j hj1 hj2 => ?_⟩
    · rw [hmirrors.marked first limit i hmax (Nat.zero_le _) hfirst hlimit, hlogical,
        Option.map_some]
      congr 1
      omega
    · have hmax' : Maximal (atLeast levels m) visual.length first limit := by rwa [h.length_visual]
      rw [getElem?_passAt_marked hmax' hin.1 hin.2, hvisual]
    · exact of_decide_eq_true (hmax.marked j (by omega) (by omega))
  · have hlow : ¬ m ≤ levels.getD i 0 := fun hcon => hp (decide_eq_true hcon)
    rw [Bool.not_eq_true] at hp
    have heq : i = k := by
      rcases hnear with heq | hbetween
      · exact heq
      have hyes := hbetween i (by omega) (by omega)
      omega
    subst heq
    refine ⟨i, hi, ?_, ?_, Or.inl rfl⟩
    · rw [hmirrors.unmarked i hi hp, hlogical]
    · rw [getElem?_passAt_unmarked (by rw [h.length_visual]; exact hi) hp, hvisual]

theorem Mates.run : ∀ (maxLevel : Nat) {visual : List Nat} {logical : List Int},
    Mates levels (maxLevel + 1) visual logical →
      ∃ m, Mates levels m (reorderVisualFrom levels minLevel maxLevel visual)
        (reorderLogicalFrom levels minLevel maxLevel logical)
  | 0, visual, logical, h => ⟨1, h⟩
  | maxLevel + 1, visual, logical, h => by
    have hstep := h.step
    rw [reorderVisualFrom, reorderLogicalFrom]
    split
    · exact hstep.run maxLevel
    · exact ⟨maxLevel + 1, hstep⟩

theorem zip_range_snd :
    (levels.zip (List.range levels.length)).map Prod.snd = List.range levels.length := by
  rw [← List.unzip_snd, List.unzip_zip_right (by simp)]

theorem lowestOdd_none (h : lowestOdd levels = none) : ∀ l ∈ levels, l % 2 = 0 := by
  intro l hl
  rw [lowestOdd, List.min?_eq_none_iff, List.filter_eq_nil_iff] at h
  have hodd := h l hl
  rw [beq_iff_eq] at hodd
  omega

theorem lowestOdd_some {lo : Nat} (h : lowestOdd levels = some lo) :
    lo ∈ levels ∧ lo % 2 = 1 ∧ ∀ l ∈ levels, l % 2 = 1 → lo ≤ l := by
  rw [lowestOdd, List.min?_eq_some_iff] at h
  obtain ⟨hmem, hle⟩ := h
  obtain ⟨hlo, hodd⟩ := List.mem_filter.mp hmem
  refine ⟨hlo, by simpa using hodd, fun l hl hl' => hle l (List.mem_filter.mpr ⟨hl, ?_⟩)⟩
  simpa using hl'

theorem reorderedBy_eq_ruleL2 {maxLevel : Nat} (h : Bounds levels minLevel maxLevel) :
    (UBiDi.reorderedBy Prod.fst minLevel maxLevel (levels.zip (List.range levels.length))).map
      Prod.snd =
      ruleL2 levels := by
  have hmem : ∀ x ∈ levels.zip (List.range levels.length), x.1 ∈ levels := fun x hx =>
    (List.of_mem_zip (a := x.1) (b := x.2) hx).1
  have hmax : levels.foldr max 0 = maxLevel := by
    rw [← List.foldl_eq_foldr, h.foldl_max]
  rw [ruleL2, UBiDi.reorderedBy]
  cases hlo : lowestOdd levels with
  | none =>
    have heven := lowestOdd_none hlo
    have hmin2 := heven _ h.min_mem
    have hmax2 := heven _ h.max_mem
    rw [or_one_of_even hmin2]
    split
    · next hle =>
      -- an even number of passes
      have hcancel := @passes_cancel _ Prod.fst (minLevel + 1) (by omega) 1
        ((maxLevel - minLevel - 2) / 2) (levels.zip (List.range levels.length)) fun x hx hodd => by
          have hx2 := heven _ (hmem x hx)
          omega
      rw [show 1 + 2 * ((maxLevel - minLevel - 2) / 2) = maxLevel - (minLevel + 1) by omega,
        show minLevel + 1 + 2 * ((maxLevel - minLevel - 2) / 2) = maxLevel - 1 by omega] at hcancel
      have hlast : passes Prod.fst (maxLevel - 1) 1 (levels.zip (List.range levels.length)) =
          levels.zip (List.range levels.length) := by
        have hsame : pass Prod.fst (maxLevel - 1 + 0 + 1) (levels.zip (List.range levels.length)) =
            pass Prod.fst (maxLevel - 1) (levels.zip (List.range levels.length)) := by
          refine pass_congr fun x hx => ?_
          have hx2 := heven _ (hmem x hx)
          omega
        rw [passes, passes, hsame, pass_pass]
      rw [hcancel, hlast, zip_range_snd]
    · rw [zip_range_snd]
  | some lo =>
    obtain ⟨hlo, hodd, hlowest⟩ := lowestOdd_some hlo
    have hmin := h.min_le lo hlo
    have hlomax := h.le_max lo hlo
    rw [hmax]
    have hor : minLevel ||| 1 ≤ lo ∧ (minLevel ||| 1) % 2 = 1 := by
      rcases or_one_cases minLevel with ⟨heven, hor⟩ | ⟨hodd', hor⟩
      · rw [hor]
        omega
      · rw [hor]
        omega
    rw [if_pos (by omega)]
    have hcancel := @passes_cancel _ Prod.fst (minLevel ||| 1) hor.2 (maxLevel - lo)
      ((lo - (minLevel ||| 1)) / 2) (levels.zip (List.range levels.length)) fun x hx hodd => by
        have hx2 := hlowest _ (hmem x hx) hodd
        omega
    rw [show maxLevel - lo + 2 * ((lo - (minLevel ||| 1)) / 2) =
      maxLevel - (minLevel ||| 1) by omega,
      show (minLevel ||| 1) + 2 * ((lo - (minLevel ||| 1)) / 2) = lo by omega] at hcancel
    rw [hcancel]

theorem foldr_set : ∀ (xs : List Nat) (o : Nat) (m : IndexMap),
    (∀ j, j ∉ xs → ((xs.map Int.ofNat).zipIdx o).foldr
        (fun x m => if 0 ≤ x.1 then m.set x.1.toNat x.2 else m) m j = m j) ∧
      (xs.Nodup → ∀ k j, xs[k]? = some j → ((xs.map Int.ofNat).zipIdx o).foldr
        (fun x m => if 0 ≤ x.1 then m.set x.1.toNat x.2 else m) m j = some ((o + k : Nat) : Int))
  | [], o, m => ⟨fun _ _ => rfl, fun _ k j h => by simp at h⟩
  | x :: xs, o, m => by
    obtain ⟨hother, hset⟩ := foldr_set xs (o + 1) m
    have hnonneg : 0 ≤ (Int.ofNat x, o).1 := Int.natCast_nonneg x
    rw [List.map_cons, List.zipIdx_cons, List.foldr_cons, if_pos hnonneg]
    refine ⟨fun j hj => ?_, fun hnodup k j hk => ?_⟩
    · rw [List.mem_cons, not_or] at hj
      rw [IndexMap.set, if_neg (by exact hj.1), hother j hj.2]
    obtain ⟨hx, hnodup⟩ := List.nodup_cons.mp hnodup
    cases k with
    | zero =>
      rw [List.getElem?_cons_zero, Option.some.injEq] at hk
      rw [IndexMap.set, if_pos (by exact hk.symm), Nat.add_zero]
    | succ k =>
      rw [List.getElem?_cons_succ] at hk
      have hne : ¬ j = x := by
        rintro rfl
        exact hx (List.mem_of_getElem? hk)
      rw [IndexMap.set, if_neg (by exact hne), hset hnodup k j hk,
        show o + 1 + k = o + (k + 1) by omega]

theorem foldr_max_eq {xs : List Int} {b : Int} (hb : -1 ≤ b) (hle : ∀ x ∈ xs, x ≤ b)
    (hmem : b ∈ xs) :
    xs.foldr max (-1) = b := by
  have hbound : ∀ (ys : List Int), (∀ y ∈ ys, y ≤ b) → ys.foldr max (-1) ≤ b := by
    intro ys hys
    induction ys with
    | nil => exact hb
    | cons y ys ih =>
      have hy := hys y List.mem_cons_self
      have hrest := ih fun z hz => hys z (List.mem_cons_of_mem y hz)
      rw [List.foldr_cons]
      omega
  have hlow : ∀ (ys : List Int), b ∈ ys → b ≤ ys.foldr max (-1) := by
    intro ys hys
    induction ys with
    | nil => cases hys
    | cons y ys ih =>
      rw [List.foldr_cons]
      rcases List.mem_cons.mp hys with rfl | hys
      · omega
      have hrest := ih hys
      omega
  exact Int.le_antisymm (hbound xs hle) (hlow xs hmem)

theorem invertMap_perm {xs ys : List Nat} (hperm : xs.Perm (List.range n))
    (hmate : ∀ j, j < n → ∃ k, ys[j]? = some k ∧ xs[k]? = some j) (destMap : IndexMap) (j : Nat) :
    invertMap (xs.map Int.ofNat) destMap j =
      if j < n then ys[j]?.map Int.ofNat else destMap j := by
  have hn : xs.length = n := by rw [hperm.length_eq, List.length_range]
  rw [invertMap]
  by_cases hnil : xs = []
  · rw [if_pos (by rw [hnil]; rfl), if_neg]
    rw [← hn, hnil]
    exact Nat.not_lt_zero j
  have hpos : 0 < n := by
    rw [← hn]
    exact List.length_pos_of_ne_nil hnil
  have hmax : (xs.map Int.ofNat).foldr max (-1) = ((n - 1 : Nat) : Int) := by
    refine foldr_max_eq (by omega) (fun x hx => ?_) ?_
    · obtain ⟨y, hy, rfl⟩ := List.mem_map.mp hx
      have hlt := List.mem_range.mp (hperm.mem_iff.mp hy)
      change (y : Int) ≤ _
      omega
    · exact List.mem_map.mpr ⟨n - 1, hperm.mem_iff.mpr (List.mem_range.mpr (by omega)), rfl⟩
  have hcount : (xs.map Int.ofNat).countP (fun v => decide (0 ≤ v)) = n := by
    rw [List.countP_eq_length.mpr, List.length_map, hn]
    intro v hv
    obtain ⟨y, -, rfl⟩ := List.mem_map.mp hv
    exact decide_eq_true (Int.natCast_nonneg y)
  rw [if_neg (by simpa using hnil), hmax, hcount,
    if_neg (show ¬ (n : Int) < ((n - 1 : Nat) : Int) + 1 by omega)]
  obtain ⟨hother, hset⟩ := foldr_set xs 0 destMap
  by_cases hj : j < n
  · obtain ⟨k, hk, hx⟩ := hmate j hj
    have hnodup : xs.Nodup := hperm.nodup_iff.mpr List.nodup_range
    rw [if_pos hj, hset hnodup k j hx, hk, Nat.zero_add]
    rfl
  · rw [if_neg hj, hother j fun hmem => hj (List.mem_range.mp (hperm.mem_iff.mp hmem))]

structure AreInverse (n : Nat) (visual logical : List Nat) : Prop where
  visual_perm : visual.Perm (List.range n)
  logical_perm : logical.Perm (List.range n)
  logical_visual : ∀ i, i < n → ∃ k, logical[i]? = some k ∧ visual[k]? = some i
  visual_logical : ∀ k, k < n → ∃ i, visual[k]? = some i ∧ logical[i]? = some k

theorem Mates.areInverse
    (h : Mates levels m visual logical) (hperm : visual.Perm (List.range levels.length)) :
    ∃ logical' : List Nat, logical = logical'.map Int.ofNat ∧
      AreInverse levels.length visual logical' := by
  have hnodup : visual.Nodup := hperm.nodup_iff.mpr List.nodup_range
  have hcast : logical = (logical.map Int.toNat).map Int.ofNat := by
    rw [List.map_map]
    apply List.ext_getElem?
    intro i
    rw [List.getElem?_map]
    by_cases hi : i < levels.length
    · obtain ⟨k, -, hlogical, -⟩ := h.mate i hi
      rw [hlogical]
      rfl
    · rw [List.getElem?_eq_none (by rw [h.length_logical]; omega)]
      rfl
  have hforward : ∀ i, i < levels.length →
      ∃ k, k < levels.length ∧ (logical.map Int.toNat)[i]? = some k ∧ visual[k]? = some i := by
    intro i hi
    obtain ⟨k, hk, hlogical, hvisual, -⟩ := h.mate i hi
    refine ⟨k, hk, ?_, hvisual⟩
    rw [List.getElem?_map, hlogical]
    rfl
  have hback : ∀ k, k < levels.length →
      ∃ i, i < levels.length ∧ visual[k]? = some i ∧ (logical.map Int.toNat)[i]? = some k := by
    intro k hk
    have hk' : k < visual.length := by rwa [h.length_visual]
    have hi : visual[k] < levels.length :=
      List.mem_range.mp (hperm.mem_iff.mp (List.getElem_mem hk'))
    obtain ⟨k', hk'', hlogical, hvisual⟩ := hforward _ hi
    refine ⟨visual[k], hi, List.getElem?_eq_getElem hk', ?_⟩
    have heq : k' = k := by
      have hlt : k' < visual.length := by rwa [h.length_visual]
      rw [List.getElem?_eq_getElem hlt, Option.some.injEq] at hvisual
      exact (List.Nodup.getElem_inj_iff hnodup).mp hvisual
    rw [hlogical, heq]
  have hlength : (logical.map Int.toNat).length = levels.length := by
    rw [List.length_map, h.length_logical]
  have hlperm : (logical.map Int.toNat).Perm (List.range levels.length) := by
    have hsub : List.range levels.length ⊆ logical.map Int.toNat := by
      intro k hk
      obtain ⟨i, -, -, hi⟩ := hback k (List.mem_range.mp hk)
      exact List.mem_of_getElem? hi
    have hsubperm := List.nodup_range.subperm hsub
    exact (hsubperm.perm_of_length_le (by rw [hlength, List.length_range])).symm
  refine ⟨_, hcast, hperm, hlperm, fun i hi => ?_, fun k hk => ?_⟩
  · obtain ⟨k, -, hk⟩ := hforward i hi
    exact ⟨k, hk⟩
  · obtain ⟨i, -, hi⟩ := hback k hk
    exact ⟨i, hi⟩

theorem reorderVisual_isSome {levels : List Nat} (hne : levels ≠ [])
    (hle : ∀ l ∈ levels, l ≤ maxExplicitLevel + 1) :
    ¬ (levels = [] ∨ levels.any (fun l => decide (maxExplicitLevel + 1 < l)) = true) := by
  rintro (hnil | hany)
  · exact hne hnil
  obtain ⟨l, hl, hlt⟩ := List.any_eq_true.mp hany
  have hlow := hle l hl
  rw [decide_eq_true_eq] at hlt
  omega

theorem reorder_mates {levels : List Nat} (hne : levels ≠ [])
    (hle : ∀ l ∈ levels, l ≤ maxExplicitLevel + 1) :
    ∃ m visual logical, reorderVisual levels = some visual ∧ reorderLogical levels = some logical ∧
      Mates levels m visual logical := by
  have hvalid := reorderVisual_isSome hne hle
  rw [reorderVisual, reorderLogical, if_neg hvalid, if_neg hvalid]
  dsimp only
  split
  · exact ⟨0, _, _, rfl, rfl, mates_range 0⟩
  obtain ⟨m, hmates⟩ := (@mates_range levels _).run (levels.foldr max 0)
  exact ⟨m, _, _, rfl, rfl, hmates⟩

/-- The maps that the functions set: nothing for no levels. -/
structure ReorderMaps (levels : List Nat) (visual logical : List Nat) : Prop where
  set_visual : reorderVisual levels = if levels = [] then none else some visual
  set_logical : reorderLogical levels = if levels = [] then none else some (logical.map Int.ofNat)
  inverse : AreInverse levels.length visual logical
  visual_eq : visual = ruleL2 levels
  logical_eq : ∀ i, i < levels.length → logical[i]? = some ((ruleL2 levels).idxOf i)
  invert_visual : ∀ (destMap : IndexMap) (j : Nat), invertMap (visual.map Int.ofNat) destMap j =
    if j < levels.length then logical[j]?.map Int.ofNat else destMap j
  invert_logical : ∀ (destMap : IndexMap) (j : Nat), invertMap (logical.map Int.ofNat) destMap j =
    if j < levels.length then visual[j]?.map Int.ofNat else destMap j

theorem AreInverse.idxOf {logical : List Nat} (h : AreInverse n visual logical) {i : Nat}
    (hi : i < n) : logical[i]? = some (visual.idxOf i) := by
  obtain ⟨k, hlogical, hvisual⟩ := h.logical_visual i hi
  obtain ⟨hk, hget⟩ := List.getElem?_eq_some_iff.mp hvisual
  have hnodup : visual.Nodup := h.visual_perm.nodup_iff.mpr List.nodup_range
  rw [hlogical, ← hget, hnodup.idxOf_getElem k hk]

/-- For any levels, the maps of `ubidi_reorderLogical` and `ubidi_reorderVisual` are permutations
and inverse, both are rule (L2), and `ubidi_invertMap` takes each one to the other. -/
theorem reorder_maps (levels : List Nat) (hle : ∀ l ∈ levels, l ≤ 126) :
    ∃ visual logical, ReorderMaps levels visual logical := by
  by_cases hnil : levels = []
  · subst hnil
    refine ⟨[], [], rfl, rfl, ⟨List.Perm.refl _, List.Perm.refl _, fun i hi => ?_, fun k hk => ?_⟩,
      rfl,
      fun i hi => ?_, fun _ _ => rfl, fun _ _ => rfl⟩
    · exact absurd hi (Nat.not_lt_zero i)
    · exact absurd hk (Nat.not_lt_zero k)
    · exact absurd hi (Nat.not_lt_zero i)
  obtain ⟨m, visual, logical, hvisual, hlogical, hmates⟩ := reorder_mates hnil hle
  have hbounds := bounds_of_ne_nil hnil hle
  have heq := reorderVisual_eq hbounds hle
  rw [hvisual, Option.some.injEq] at heq
  have hperm : visual.Perm (List.range levels.length) := by
    have hzip := (UBiDi.reorderedBy_perm Prod.fst (levels.foldl min (maxExplicitLevel + 1))
      (levels.foldl max 0) (levels.zip (List.range levels.length))).map Prod.snd
    rwa [← heq, zip_range_snd] at hzip
  rw [reorderedBy_eq_ruleL2 hbounds] at heq
  obtain ⟨logical', rfl, hinverse⟩ := hmates.areInverse hperm
  refine ⟨visual, logical', by rw [hvisual, if_neg hnil], by rw [hlogical, if_neg hnil], hinverse,
    heq,
    fun i hi => ?_, invertMap_perm hperm hinverse.logical_visual,
    invertMap_perm hinverse.logical_perm hinverse.visual_logical⟩
  rw [← heq]
  exact hinverse.idxOf hi

/-- A level that is above the lowest odd one, and one below it. -/
theorem reorder_maps_three : ∃ visual logical, ReorderMaps [0, 3, 4, 4, 0] visual logical ∧
    visual = [0, 2, 3, 1, 4] := by
  obtain ⟨visual, logical, h⟩ := reorder_maps [0, 3, 4, 4, 0] (by decide)
  refine ⟨visual, logical, h, ?_⟩
  rw [h.visual_eq]
  rfl

end Icu.BiDi
