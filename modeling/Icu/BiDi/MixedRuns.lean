import Icu.BiDi.RunList

/-! # The runs of mixed text

`ubidi_getRuns` on an object whose levels have both directions: the runs of the text below
`trailingWSStart`, and a run at the paragraph level for the white space behind it.
-/

namespace Icu.BiDi

open Lib.LevelReversal

namespace UBiDi

variable (o : UBiDi)

/-- The level at a position, with the implicit run. -/
def effectiveLevel (i : Nat) : Nat := if i < o.trailingWSStart then o.levelAt i else o.paraLevel

/-- The level of a run, with the implicit run. -/
def effectiveRunLevel (run : Run) : Nat := o.effectiveLevel run.logicalStart

def textRuns : List Run := o.levelRuns o.trailingWSStart o.trailingWSStart 0

/-- The run for the white space, if there is any. -/
def whiteSpaceRuns : List Run :=
  if o.trailingWSStart < o.length then
    [{ logicalStart := o.trailingWSStart, odd := false, visualLimit := o.length - o.trailingWSStart,
       insertRemove := (o.runsMemory o.textRuns.length).insertRemove }]
  else []

def finalBit (run : Run) : Bool :=
  o.levelAt run.logicalStart % 2 == 1 ||
    (decide (o.trailingWSStart ≤ run.logicalStart) && o.paraLevel % 2 == 1)

def levelBit (run : Run) : Bool := o.effectiveRunLevel run % 2 == 1

/-- What `ubidi_getRuns` relies on for mixed text. -/
structure IsMixed : Prop where
  direction : o.direction = .mixed
  pos : 0 < o.trailingWSStart
  le : o.trailingWSStart ≤ o.length
  length_le : o.length ≤ o.levels.length
  level_le : ∀ i < o.length, o.levelAt i ≤ maxExplicitLevel + 1
  paraLevel_le : o.trailingWSStart < o.length → ∀ i < o.trailingWSStart, o.paraLevel ≤ o.levelAt i
  last_ne : o.trailingWSStart < o.length → o.levelAt (o.trailingWSStart - 1) ≠ o.paraLevel

variable {o}

theorem getLevels_take (hle : o.trailingWSStart ≤ o.length) (hlength : o.length ≤ o.levels.length) :
    o.getLevels.levels.take o.length = (List.range o.length).map o.effectiveLevel := by
  apply List.ext_getElem
  · rw [getLevels]
    split
    · simp only [List.length_take, List.length_map, List.length_range]
      omega
    simp only [List.length_take, List.length_append, List.length_replicate, List.length_map,
      List.length_range]
    omega
  intro i h1 h2
  have hi : i < o.length := by simpa using h2
  have hlevel : ∀ h : i < o.levels.length, o.levels[i] = o.levelAt i := fun h => by
    rw [levelAt, List.getD_eq_getElem _ _ h]
  simp only [List.getElem_take, List.getElem_map, List.getElem_range, effectiveLevel, getLevels]
  by_cases heq : o.trailingWSStart = o.length
  · simp only [if_pos heq, if_pos (show i < o.trailingWSStart by omega)]
    exact hlevel (by omega)
  simp only [if_neg heq]
  by_cases hlt : i < o.trailingWSStart
  · rw [if_pos hlt, List.getElem_append_left (by simp; omega), List.getElem_take]
    exact hlevel (by omega)
  · rw [if_neg hlt, List.getElem_append_right (by simp; omega), List.getElem_replicate]

theorem adjustRuns_eq_self (hpoints : o.insertPoints = []) (hcontrols : o.controlCount = 0)
    (runs : List Run) : o.adjustRuns runs = (runs, .zeroError) := by
  simp [adjustRuns, hpoints, hcontrols]

theorem getRuns_of_unset {runs : List Run} {count : Int} (hunset : o.runCount = -1)
    (hruns : (if o.direction ≠ .mixed then o.getSingleRun o.paraLevel else o.mixedRuns) =
      { o with runs := some runs, runCount := count }) :
    ∃ memory, o.getRuns = ({ o with
      runs := some (o.adjustRuns runs).1, runCount := count, runsMemory := memory },
        (o.adjustRuns runs).2) := by
  rw [getRuns, if_neg (by omega)]
  rw [hruns]
  exact ⟨_, rfl⟩

namespace IsMixed

variable {run ws : Run}

theorem textRuns_ne_nil (h : o.IsMixed) : o.textRuns ≠ [] := by
  obtain ⟨run, runs, hruns, -⟩ := @levelRuns_head o o.trailingWSStart _ 0 h.pos
  rw [textRuns, hruns]
  exact List.cons_ne_nil run runs

theorem mem_textRuns (h : o.IsMixed) (hrun : run ∈ o.textRuns) :
    0 < run.visualLimit ∧ run.logicalStart + run.visualLimit ≤ o.trailingWSStart ∧
      run.odd = false ∧ run.insertRemove = 0 := (mem_levelRuns _ _ h.pos run hrun).2

theorem effectiveRunLevel_text (h : o.IsMixed) (hrun : run ∈ o.textRuns) :
    o.effectiveRunLevel run = o.runLevel run := by
  obtain ⟨h1, h2, -⟩ := h.mem_textRuns hrun
  rw [effectiveRunLevel, effectiveLevel, if_pos (by omega), runLevel]

theorem mem_whiteSpaceRuns (hrun : run ∈ o.whiteSpaceRuns) :
    o.trailingWSStart < o.length ∧ run.logicalStart = o.trailingWSStart ∧
      run.visualLimit = o.length - o.trailingWSStart ∧ run.odd = false := by
  rw [whiteSpaceRuns] at hrun
  split at hrun
  · next hlt =>
    obtain rfl := List.mem_singleton.mp hrun
    exact ⟨hlt, rfl, rfl, rfl⟩
  · simp at hrun

theorem effectiveRunLevel_whiteSpace (hrun : run ∈ o.whiteSpaceRuns) :
    o.effectiveRunLevel run = o.paraLevel := by
  obtain ⟨-, hstart, -⟩ := mem_whiteSpaceRuns hrun
  rw [effectiveRunLevel, effectiveLevel, if_neg (by omega)]

section

variable (h : o.IsMixed)
include h

theorem run_pos (hrun : run ∈ o.textRuns ++ o.whiteSpaceRuns) : 0 < run.visualLimit := by
  rcases List.mem_append.mp hrun with hrun | hrun
  · exact (h.mem_textRuns hrun).1
  obtain ⟨hlt, -, hlength, -⟩ := mem_whiteSpaceRuns hrun
  omega

theorem content_ne_nil (hrun : run ∈ o.textRuns ++ o.whiteSpaceRuns) : run.content ≠ [] := by
  have := h.run_pos hrun
  rw [Run.content, ne_eq, List.range'_eq_nil_iff]
  omega

theorem expand_runs : expand o.effectiveRunLevel Run.content (o.textRuns ++ o.whiteSpaceRuns) =
      (List.range o.length).map fun i => (o.effectiveLevel i, i) := by
  have htext : expand o.effectiveRunLevel Run.content o.textRuns =
      (List.range' 0 o.trailingWSStart).map fun i => (o.effectiveLevel i, i) := by
    have hlevels := expand_levelRuns (o := o) o.trailingWSStart 0 h.pos (by omega)
    rw [Nat.sub_zero] at hlevels
    have hsame : expand o.effectiveRunLevel Run.content o.textRuns =
        expand o.runLevel Run.content o.textRuns := by
      apply List.flatMap_congr
      intro run hrun
      rw [h.effectiveRunLevel_text hrun]
    rw [hsame, textRuns, hlevels]
    apply List.map_congr_left
    intro i hi
    rw [effectiveLevel, if_pos (by have := List.mem_range'_1.mp hi; omega)]
  have hsplit : List.range o.length = List.range' 0 o.trailingWSStart ++
      List.range' o.trailingWSStart (o.length - o.trailingWSStart) := by
    have := h.le
    rw [List.range_eq_range', show o.length = o.trailingWSStart + (o.length - o.trailingWSStart) by
      omega, ← List.range'_append_1]
    simp
  rw [expand_append, htext, hsplit, List.map_append]
  congr 1
  rw [whiteSpaceRuns]
  split
  · rw [expand_cons, expand_nil, List.append_nil]
    apply List.map_congr_left
    intro i hi
    have hi' : o.trailingWSStart ≤ i := (List.mem_range'_1.mp hi).1
    dsimp only [effectiveRunLevel, effectiveLevel]
    rw [if_neg (by omega), if_neg (by omega)]
  · have := h.le
    rw [show o.length - o.trailingWSStart = 0 by omega]
    simp

theorem isChain_runs : (o.textRuns ++ o.whiteSpaceRuns).IsChain
    fun r s => o.effectiveRunLevel r ≠ o.effectiveRunLevel s := by
  rw [List.isChain_append]
  refine ⟨?_, ?_, ?_⟩
  · apply List.IsChain.imp_of_mem_imp _ (levelRuns_isChain _ _ h.pos)
    intro r s hr hs hne
    rw [h.effectiveRunLevel_text hr, h.effectiveRunLevel_text hs]
    exact hne
  · rw [whiteSpaceRuns]
    split
    · simp
    · simp
  · intro r hr s hs
    have hs' := List.mem_of_mem_head? hs
    have hr' := List.mem_of_mem_getLast? hr
    have hlast := levelRuns_getLast o.trailingWSStart 0 h.pos (by omega) r hr
    rw [h.effectiveRunLevel_text hr', effectiveRunLevel_whiteSpace hs', hlast]
    exact h.last_ne (mem_whiteSpaceRuns hs').1

theorem mem_map_effectiveRunLevel (x : Nat) :
    x ∈ (o.textRuns ++ o.whiteSpaceRuns).map o.effectiveRunLevel ↔
      x ∈ (List.range o.length).map o.effectiveLevel := by
  have hfst : ((expand o.effectiveRunLevel Run.content (o.textRuns ++ o.whiteSpaceRuns)).map
      Prod.fst) = (List.range o.length).map o.effectiveLevel := by
    rw [h.expand_runs, List.map_map]
    rfl
  rw [← hfst, expand, List.map_flatMap, List.mem_flatMap, List.mem_map]
  constructor
  · rintro ⟨run, hrun, rfl⟩
    obtain ⟨i, is, hcontent⟩ := List.exists_cons_of_ne_nil (h.content_ne_nil hrun)
    exact ⟨run, hrun, by simp [hcontent]⟩
  · rintro ⟨run, hrun, hx⟩
    obtain ⟨i, -, rfl⟩ := by simpa using hx
    exact ⟨run, hrun, rfl⟩

theorem effectiveLevel_le {i : Nat} (hi : i < o.length) :
    o.effectiveLevel i ≤ maxExplicitLevel + 1 := by
  rw [effectiveLevel]
  split
  · exact h.level_le i hi
  have h1 := h.paraLevel_le (by omega) 0 h.pos
  have h2 := h.level_le 0 (by omega)
  omega

theorem exists_bounds : ∃ minLevel maxLevel,
    Bounds ((List.range o.length).map o.effectiveLevel) minLevel maxLevel := by
  have hpos := h.pos
  have hle := h.le
  refine ⟨_, _, bounds_of_ne_nil ?_ ?_⟩
  · simp only [ne_eq, List.map_eq_nil_iff, List.range_eq_nil]
    omega
  intro x hx
  obtain ⟨i, hi, rfl⟩ := List.mem_map.mp hx
  exact h.effectiveLevel_le (List.mem_range.mp hi)

end

variable {minLevel maxLevel : Nat}

section

variable (h : o.IsMixed)
include h

theorem bounds_runs (hb : Bounds ((List.range o.length).map o.effectiveLevel) minLevel maxLevel) :
    Bounds ((o.textRuns ++ o.whiteSpaceRuns).map o.effectiveRunLevel) minLevel maxLevel :=
  ⟨fun x hx => hb.min_le x ((h.mem_map_effectiveRunLevel x).mp hx),
    fun x hx => hb.le_max x ((h.mem_map_effectiveRunLevel x).mp hx),
    (h.mem_map_effectiveRunLevel _).mpr hb.min_mem,
    (h.mem_map_effectiveRunLevel _).mpr hb.max_mem⟩

theorem map_runLevel_text : o.textRuns.map o.runLevel = o.textRuns.map o.effectiveRunLevel :=
  List.map_congr_left fun _ hrun => (h.effectiveRunLevel_text hrun).symm

theorem minLevel_eq (hb : Bounds ((List.range o.length).map o.effectiveLevel) minLevel maxLevel) :
    (if o.trailingWSStart < o.length then
        min (o.textRuns.foldl (fun m r => min m (o.levelAt r.logicalStart)) (maxExplicitLevel + 1))
          o.paraLevel
      else o.textRuns.foldl (fun m r => min m (o.levelAt r.logicalStart)) (maxExplicitLevel + 1)) =
        minLevel := by
  have hrb := h.bounds_runs hb
  obtain ⟨i, hi, hmin⟩ := List.mem_map.mp hb.min_mem
  have hall := hrb.foldl_min (c := maxExplicitLevel + 1)
    (by rw [← hmin]; exact h.effectiveLevel_le (List.mem_range.mp hi))
  rw [List.map_append, List.foldl_append, ← h.map_runLevel_text, List.foldl_map] at hall
  rw [List.foldl_map] at hall
  rw [← hall, whiteSpaceRuns]
  split
  · simp [effectiveRunLevel, effectiveLevel, runLevel]
  · rfl

/-- The computed `maxLevel` is the highest level: the white space run is not above the text. -/
theorem maxLevel_eq (hb : Bounds ((List.range o.length).map o.effectiveLevel) minLevel maxLevel) :
    o.textRuns.foldl (fun m r => max m (o.levelAt r.logicalStart)) 0 = maxLevel := by
  have hrb := h.bounds_runs hb
  have htext : Bounds (o.textRuns.map o.runLevel) ((o.textRuns.map o.runLevel).foldl min
      (maxExplicitLevel + 1)) ((o.textRuns.map o.runLevel).foldl max 0) := by
    apply bounds_of_ne_nil
    · simpa using h.textRuns_ne_nil
    intro x hx
    obtain ⟨run, hrun, rfl⟩ := List.mem_map.mp hx
    obtain ⟨h1, h2, -⟩ := h.mem_textRuns hrun
    have := h.le
    exact h.level_le _ (by omega)
  have hmax : (o.textRuns.map o.runLevel).foldl max 0 = maxLevel := by
    apply Nat.le_antisymm
    · have hmem := htext.max_mem
      rw [h.map_runLevel_text] at hmem ⊢
      exact hrb.le_max _ (by rw [List.map_append]; exact List.mem_append_left _ hmem)
    obtain ⟨run, hrun, hlevel⟩ := List.mem_map.mp hrb.max_mem
    rw [← hlevel]
    rcases List.mem_append.mp hrun with hrun | hrun
    · rw [h.effectiveRunLevel_text hrun]
      exact htext.le_max _ (List.mem_map_of_mem hrun)
    rw [effectiveRunLevel_whiteSpace hrun]
    obtain ⟨r, rs, hr⟩ := List.exists_cons_of_ne_nil h.textRuns_ne_nil
    have hmem : r ∈ o.textRuns := by rw [hr]; exact List.mem_cons_self
    obtain ⟨h1, h2, -⟩ := h.mem_textRuns hmem
    have hpara := h.paraLevel_le (mem_whiteSpaceRuns hrun).1 r.logicalStart (by omega)
    have := htext.le_max _ (List.mem_map_of_mem (f := o.runLevel) hmem)
    rw [runLevel] at this
    omega
  rw [← hmax, List.foldl_map]
  rfl

theorem lineRuns (hb : Bounds ((List.range o.length).map o.effectiveLevel) minLevel maxLevel) :
    LineRuns o o.effectiveRunLevel minLevel maxLevel o.textRuns o.whiteSpaceRuns where
  ne_nil := h.textRuns_ne_nil
  chain := h.isChain_runs
  level_eq := fun _ => h.effectiveRunLevel_text
  min_le := fun run hrun => (h.bounds_runs hb).min_le _ (List.mem_map_of_mem hrun)
  le_max := fun run hrun => (h.bounds_runs hb).le_max _ (List.mem_map_of_mem hrun)
  tail := by
    rcases Nat.eq_or_lt_of_le h.le with heq | hlt
    · exact .inl ⟨heq, by simp [whiteSpaceRuns, heq]⟩
    refine .inr ⟨hlt, _, by rw [whiteSpaceRuns, if_pos hlt], ?_⟩
    apply Nat.le_antisymm
    · obtain ⟨i, hi, hmin⟩ := List.mem_map.mp hb.min_mem
      rw [← hmin, effectiveLevel]
      dsimp only [effectiveRunLevel, effectiveLevel]
      rw [if_neg (by omega)]
      split
      · next hi => exact h.paraLevel_le hlt i hi
      · exact le_refl _
    · apply hb.min_le
      exact List.mem_map.mpr ⟨o.trailingWSStart, List.mem_range.mpr hlt, rfl⟩

theorem whiteSpace_position
    (hb : Bounds ((List.range o.length).map o.effectiveLevel) minLevel maxLevel)
    (hws : o.whiteSpaceRuns = [ws]) : ∃ ys : List Run, ys.Perm o.textRuns ∧
      reorderedBy o.effectiveRunLevel minLevel maxLevel (o.textRuns ++ o.whiteSpaceRuns) =
        if o.paraLevel % 2 = 1 then ws :: ys else ys ++ [ws] := by
  have hmem : ws ∈ o.whiteSpaceRuns := by rw [hws]; exact List.mem_singleton_self ws
  have hlevel := effectiveRunLevel_whiteSpace hmem
  have hlt := (mem_whiteSpaceRuns hmem).1
  have hmin : o.paraLevel = minLevel := by
    rcases (h.lineRuns hb).tail with ⟨heq, -⟩ | ⟨-, ws', hws', hl⟩
    · omega
    obtain rfl : ws = ws' := by simpa [hws] using hws'
    omega
  have hmax : minLevel < maxLevel := by
    have hlast := hb.le_max _ (List.mem_map.mpr ⟨o.trailingWSStart - 1,
      List.mem_range.mpr (by have := h.le; omega), rfl⟩)
    have hpos := h.pos
    have hne := h.last_ne hlt
    have hle := h.paraLevel_le hlt (o.trailingWSStart - 1) (by omega)
    rw [effectiveLevel, if_pos (by omega)] at hlast
    omega
  have hlow : ∀ {lo : Nat}, minLevel < lo → ∀ z ∈ [ws], o.effectiveRunLevel z < lo := by
    intro lo hlo z hz
    obtain rfl := List.mem_singleton.mp hz
    omega
  rw [hws, reorderedBy]
  rcases or_one_cases minLevel with ⟨heven, hor⟩ | ⟨hodd, hor⟩
  · refine ⟨passes o.effectiveRunLevel (minLevel + 1) (maxLevel - (minLevel + 1)) o.textRuns,
      passes_perm _ _ _, ?_⟩
    rw [hor, if_pos (by omega), if_neg (by omega), passes_append_low (hlow (by omega))]
  -- the last pass reverses all runs
  refine ⟨(passes o.effectiveRunLevel (minLevel + 1) (maxLevel - minLevel - 1)
    o.textRuns).reverse, (List.reverse_perm _).trans (passes_perm _ _ _), ?_⟩
  rw [hor, if_pos (by omega), if_pos (by omega),
    show maxLevel - minLevel = (maxLevel - minLevel - 1) + 1 by omega, passes_succ,
    passes_append_low (hlow (by omega)), pass_eq_reverse]
  · rw [List.reverse_append, List.reverse_singleton, List.singleton_append, Nat.add_sub_cancel]
  intro run hrun
  apply (h.bounds_runs hb).min_le
  apply List.mem_map_of_mem
  rw [hws]
  exact ((passes_perm _ _ _).append_right [ws]).mem_iff.mp hrun

theorem finalBit_text (hrun : run ∈ o.textRuns) :
    o.finalBit run = (o.levelAt run.logicalStart % 2 == 1) := by
  obtain ⟨h1, h2, -⟩ := h.mem_textRuns hrun
  rw [finalBit, decide_eq_false (by omega), Bool.false_and, Bool.or_false]

end

theorem addLimits_eq (o : UBiDi) : ∀ (a : Nat) (runs : List Run), (∀ run ∈ runs, run.odd = false) →
    o.addLimits a runs = withLimits (fun run => o.levelAt run.logicalStart % 2 == 1) a runs
  | _, [], _ => rfl
  | a, run :: runs, h => by
    rw [addLimits, withLimits, h run List.mem_cons_self, Bool.false_or,
      addLimits_eq o _ runs fun r hr => h r (List.mem_cons_of_mem run hr)]

theorem modify_addLimits (h : o.IsMixed) {ys : List Run} (hys : ys.Perm o.textRuns)
    (hws : ws ∈ o.whiteSpaceRuns) :
    (o.addLimits 0 (if o.paraLevel % 2 = 1 then ws :: ys else ys ++ [ws])).modify
        (if o.paraLevel % 2 = 1 then 0 else o.textRuns.length) (addOddBit o.paraLevel) =
      withLimits o.finalBit 0 (if o.paraLevel % 2 = 1 then ws :: ys else ys ++ [ws]) := by
  obtain ⟨-, hstart, -, hodd⟩ := mem_whiteSpaceRuns hws
  have hysOdd : ∀ run ∈ ys, run.odd = false := fun run hrun =>
    (h.mem_textRuns (hys.mem_iff.mp hrun)).2.2.1
  have hallOdd : ∀ run ∈ if o.paraLevel % 2 = 1 then ws :: ys else ys ++ [ws],
      run.odd = false := by
    intro run hrun
    have : run = ws ∨ run ∈ ys := by
      split at hrun
      · exact List.mem_cons.mp hrun
      · simpa [or_comm] using hrun
    rcases this with rfl | hrun
    · exact hodd
    · exact hysOdd run hrun
  have htext : ∀ {a : Nat},
      withLimits (fun run => o.levelAt run.logicalStart % 2 == 1) a ys =
        withLimits o.finalBit a ys :=
    withLimits_congr fun run hrun => (h.finalBit_text (hys.mem_iff.mp hrun)).symm
  have hbit : o.finalBit ws = (o.levelAt ws.logicalStart % 2 == 1 || o.paraLevel % 2 == 1) := by
    rw [finalBit, decide_eq_true (by omega), Bool.true_and]
  rw [addLimits_eq o 0 _ hallOdd]
  split
  · rw [withLimits, withLimits, List.modify_zero_cons, addOddBit, htext, hbit]
  have hlength : o.textRuns.length = (withLimits o.finalBit 0 ys).length := by
    rw [length_withLimits, hys.length_eq]
  rw [withLimits_append, withLimits_append, htext, hlength,
    List.modify_eq_take_cons_drop (by simp [withLimits])]
  simp [withLimits, addOddBit, hbit]

/-- `ubidi_getRuns` for mixed text: the runs in the order of (L2), with their limits and
direction bits. -/
theorem mixedRuns_eq (h : o.IsMixed)
    (hb : Bounds ((List.range o.length).map o.effectiveLevel) minLevel maxLevel) :
    o.mixedRuns = { o with
      runs := some (withLimits o.finalBit 0
        (reorderedBy o.effectiveRunLevel minLevel maxLevel (o.textRuns ++ o.whiteSpaceRuns)))
      runCount := ((o.textRuns ++ o.whiteSpaceRuns).length : Int) } := by
  have hcount : o.countLevelRuns = o.textRuns.length := by
    apply countLevelRuns_eq h.pos
    have := h.level_le 0 (by have := h.pos; have := h.le; omega)
    rw [maxExplicitLevel] at this
    omega
  rw [mixedRuns]
  dsimp only
  rw [hcount]
  by_cases hsingle : o.textRuns.length = 1 ∧ o.trailingWSStart = o.length
  · rw [if_pos hsingle]
    obtain ⟨run, hrun⟩ := List.length_eq_one_iff.mp hsingle.1
    have hnil : o.whiteSpaceRuns = [] := by simp [whiteSpaceRuns, hsingle.2]
    have hone : reorderedBy o.effectiveRunLevel minLevel maxLevel [run] = [run] :=
      List.perm_singleton.mp (reorderedBy_perm _ _ _ _)
    have hexpand := h.expand_runs
    rw [hnil, List.append_nil, hrun] at hexpand
    have hmem : run ∈ o.textRuns := by rw [hrun]; exact List.mem_singleton_self run
    obtain ⟨-, -, hodd, hins⟩ := h.mem_textRuns hmem
    have hsnd := congrArg (List.map Prod.snd) hexpand
    have hcontent : run.content = List.range o.length := by
      simpa [expand, Function.comp_def] using hsnd
    have hlength : run.visualLimit = o.length := by
      simpa [Run.content] using congrArg List.length hcontent
    have hstart : run.logicalStart = 0 := by
      have hpos := h.pos
      have := congrArg List.head? hcontent
      rw [Run.content, hlength, List.head?_range', List.head?_range, if_neg (by omega),
        if_neg (by omega)] at this
      simpa using this
    rw [hrun, hnil, List.append_nil, hone, getSingleRun]
    simp only [withLimits, h.finalBit_text hmem, hstart, hlength, hins, Nat.zero_add,
      List.length_singleton, Nat.cast_one]
  have hfold : o.levelRuns o.trailingWSStart o.trailingWSStart 0 = o.textRuns := rfl
  have htotal : (if o.trailingWSStart < o.length then o.textRuns.length + 1
      else o.textRuns.length) = (o.textRuns ++ o.whiteSpaceRuns).length := by
    rw [List.length_append, whiteSpaceRuns]
    split
    · rfl
    · rfl
  have hruns : (if o.trailingWSStart < o.length then o.textRuns ++
      [{ logicalStart := o.trailingWSStart, odd := false,
         visualLimit := o.length - o.trailingWSStart,
         insertRemove := (o.runsMemory o.textRuns.length).insertRemove }]
      else o.textRuns) = o.textRuns ++ o.whiteSpaceRuns := by
    rw [whiteSpaceRuns]
    split
    · rfl
    · rw [List.append_nil]
  rw [if_neg hsingle, hfold, h.minLevel_eq hb, h.maxLevel_eq hb, htotal, hruns,
    (h.lineRuns hb).reorderLine_eq]
  congr 2
  rcases Nat.eq_or_lt_of_le h.le with heq | hlt
  · have hnil : o.whiteSpaceRuns = [] := by simp [whiteSpaceRuns, heq]
    have hmem : ∀ run ∈ reorderedBy o.effectiveRunLevel minLevel maxLevel o.textRuns,
        run ∈ o.textRuns := fun run hrun => (reorderedBy_perm _ _ _ _).mem_iff.mp hrun
    rw [hnil, List.append_nil, if_neg (by omega),
      addLimits_eq o 0 _ fun run hrun => (h.mem_textRuns (hmem run hrun)).2.2.1]
    exact withLimits_congr fun run hrun => (h.finalBit_text (hmem run hrun)).symm
  · obtain ⟨ws, hws⟩ : ∃ ws, o.whiteSpaceRuns = [ws] := ⟨_, by rw [whiteSpaceRuns, if_pos hlt]⟩
    obtain ⟨ys, hys, hordered⟩ := h.whiteSpace_position hb hws
    rw [hordered, hws, if_pos (by simp),
      h.modify_addLimits hys (by rw [hws]; exact List.mem_singleton_self ws)]

end IsMixed

end UBiDi

end Icu.BiDi
