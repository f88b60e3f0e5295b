import Icu.BiDi.Lines

/-! # Line objects and what they were used for before

`ubidi_setLine` leaves four fields of the line object as they are. The results of the queries
do not depend on them if the object has no contextual paragraph level that reaches into the
line, no insertion points, and nothing left over in the memory for the white space run.
-/

namespace Icu.BiDi

open Lib.LevelReversal

structure Results where
  levelAt : Nat → Nat
  levels : List Nat
  runs : Option (List Run)
  runCount : Int
  error : UErrorCode
  logicalMap : Option (UErrorCode × IndexMap)
  visualMap : Option (UErrorCode × IndexMap)
  visualIndex : Nat → Option Int
  logicalIndex : Int → Option Int
  resultLength : Int

namespace UBiDi

variable (o : UBiDi) {line para prev : UBiDi} {start limit i : Nat}

def results : Results where
  levelAt := o.getLevelAt
  levels := o.getLevels.levels.take o.length
  runs := o.getRuns.1.runs
  runCount := o.getRuns.1.runCount
  error := o.getRuns.2
  logicalMap := o.getLogicalMap.map fun r => (r.2.1, r.2.2)
  visualMap := o.getVisualMap.map fun r => (r.2.1, r.2.2)
  visualIndex := fun i => (o.getVisualIndex i).map Prod.snd
  logicalIndex := fun v => (o.getLogicalIndex v).map Prod.snd
  resultLength := o.resultLength

def withHistory (defaultParaLevel : Nat) (paras : Nat → Para) (memory : Nat → Run) : UBiDi :=
  { o with defaultParaLevel := defaultParaLevel, paras := paras, runsMemory := memory }

structure NoHistory : Prop where
  paragraphs : o.defaultParaLevel = 0 ∨ o.length ≤ (o.paras 0).limit
  points : o.insertPoints = []
  memory : o.direction = .mixed → o.trailingWSStart < o.length →
    (o.runsMemory o.textRuns.length).insertRemove = 0

variable {o} {d : Nat} {q : Nat → Para} {memory : Nat → Run}

theorem levelRuns_congr {o o' : UBiDi} (h : o'.levels = o.levels) (limit : Nat) :
    ∀ (fuel start : Nat), o'.levelRuns limit fuel start = o.levelRuns limit fuel start
  | 0, _ => rfl
  | fuel + 1, start => by
    have hlevel : o'.levelAt = o.levelAt := by
      funext i
      rw [levelAt, levelAt, h]
    rw [levelRuns, levelRuns, hlevel, levelRuns_congr h limit fuel]

theorem reorderRuns_congr {o o' : UBiDi} (h : o'.levels = o.levels) (runCount minLevel : Nat) :
    ∀ (maxLevel : Nat) (runs : List Run),
      o'.reorderRuns runCount minLevel maxLevel runs = o.reorderRuns runCount minLevel maxLevel runs
  | 0, _ => rfl
  | maxLevel + 1, runs => by
    have hlevel : o'.levelAt = o.levelAt := by
      funext i
      rw [levelAt, levelAt, h]
    rw [reorderRuns, reorderRuns, hlevel, reorderRuns_congr h runCount minLevel maxLevel]

theorem addLimits_congr {o o' : UBiDi} (h : o'.levels = o.levels) :
    ∀ (limit : Nat) (runs : List Run), o'.addLimits limit runs = o.addLimits limit runs
  | _, [] => rfl
  | limit, run :: runs => by
    rw [addLimits, addLimits, levelAt, levelAt, h, addLimits_congr h]

theorem reorderLine_withHistory (runs : List Run) (runCount minLevel maxLevel : Nat) :
    (o.withHistory d q memory).reorderLine runs runCount minLevel maxLevel =
      o.reorderLine runs runCount minLevel maxLevel := by
  rw [reorderLine, reorderLine]
  dsimp only
  rw [@reorderRuns_congr o (o.withHistory d q memory) rfl]
  rfl

theorem levelRuns_withHistory (limit fuel start : Nat) :
    (o.withHistory d q memory).levelRuns limit fuel start = o.levelRuns limit fuel start :=
  @levelRuns_congr o (o.withHistory d q memory) rfl limit fuel start

theorem mixedRuns_withHistory (h : o.trailingWSStart < o.length →
      (memory o.textRuns.length).insertRemove = (o.runsMemory o.textRuns.length).insertRemove) :
    (o.withHistory d q memory).mixedRuns = o.mixedRuns.withHistory d q memory := by
  have htext : (o.withHistory d q memory).levelRuns o.trailingWSStart o.trailingWSStart 0 =
      o.textRuns := levelRuns_withHistory _ _ _
  have hcount : (o.withHistory d q memory).countLevelRuns = o.countLevelRuns := rfl
  have hfold : o.levelRuns o.trailingWSStart o.trailingWSStart 0 = o.textRuns := rfl
  rw [mixedRuns, mixedRuns]
  dsimp only
  rw [hcount, show (o.withHistory d q memory).trailingWSStart = o.trailingWSStart from rfl,
    show (o.withHistory d q memory).length = o.length from rfl, htext, hfold,
    reorderLine_withHistory]
  split
  · rfl
  by_cases hlt : o.trailingWSStart < o.length
  · simp only [if_pos hlt]
    rw [show (o.withHistory d q memory).runsMemory = memory from rfl, h hlt,
      @addLimits_congr o (o.withHistory d q memory) rfl]
    rfl
  · simp only [if_neg hlt]
    rw [@addLimits_congr o (o.withHistory d q memory) rfl]
    rfl

/-! ## Queries -/

theorem getRuns_withHistory (h : o.direction = .mixed → o.trailingWSStart < o.length →
      (memory o.textRuns.length).insertRemove = (o.runsMemory o.textRuns.length).insertRemove) :
    ∃ memory', (o.withHistory d q memory).getRuns =
      (o.getRuns.1.withHistory d q memory', o.getRuns.2) := by
  rw [getRuns, getRuns, show (o.withHistory d q memory).runCount = o.runCount from rfl,
    show (o.withHistory d q memory).direction = o.direction from rfl]
  by_cases hset : o.runCount ≥ 0
  · rw [if_pos hset, if_pos hset]
    exact ⟨memory, rfl⟩
  rw [if_neg hset, if_neg hset]
  by_cases hdir : o.direction = .mixed
  · simp only [hdir, ne_eq, not_true_eq_false, if_false]
    rw [mixedRuns_withHistory (h hdir)]
    exact ⟨_, rfl⟩
  · simp only [hdir, ne_eq, not_false_eq_true, if_true]
    exact ⟨_, rfl⟩

variable {memory' : Nat → Run}

section

variable (h : (o.withHistory d q memory).getRuns =
  (o.getRuns.1.withHistory d q memory', o.getRuns.2))
include h

theorem getLogicalMap_withHistory :
    ((o.withHistory d q memory).getLogicalMap.map fun r => (r.2.1, r.2.2)) =
      o.getLogicalMap.map fun r => (r.2.1, r.2.2) := by
  rw [getLogicalMap, getLogicalMap, h]
  generalize o.getRuns = g
  obtain ⟨o1, err⟩ := g
  by_cases herr : err ≠ .zeroError
  · simp only [if_pos herr, Option.map_some]
  simp only [if_neg herr]
  by_cases hlength : o1.length = 0
  · simp only [if_pos hlength, show (o1.withHistory d q memory').length = o1.length from rfl,
      Option.map_some]
  simp only [if_neg hlength, show (o1.withHistory d q memory').length = o1.length from rfl,
    Option.map_map]
  rfl

theorem getVisualMap_withHistory :
    ((o.withHistory d q memory).getVisualMap.map fun r => (r.2.1, r.2.2)) =
      o.getVisualMap.map fun r => (r.2.1, r.2.2) := by
  rw [getVisualMap, getVisualMap, h]
  generalize o.getRuns = g
  obtain ⟨o1, err⟩ := g
  by_cases herr : err ≠ .zeroError
  · simp only [if_pos herr, Option.map_some]
  simp only [if_neg herr]
  by_cases hlength : o1.resultLength ≤ 0
  · simp only [if_pos hlength,
      show (o1.withHistory d q memory').resultLength = o1.resultLength from rfl, Option.map_some]
  simp only [if_neg hlength,
    show (o1.withHistory d q memory').resultLength = o1.resultLength from rfl, Option.map_map]
  rfl

theorem getVisualIndex_withHistory (i : Nat) :
    ((o.withHistory d q memory).getVisualIndex i).map Prod.snd =
    (o.getVisualIndex i).map Prod.snd := by
  rw [getVisualIndex, getVisualIndex, show (o.withHistory d q memory).length = o.length from rfl]
  by_cases hi : o.length ≤ i
  · rw [if_pos hi, if_pos hi]
    rfl
  rw [if_neg hi, if_neg hi, show (o.withHistory d q memory).direction = o.direction from rfl]
  cases hdir : o.direction with
  | ltr =>
    simp only [Option.map_map]
    rfl
  | rtl =>
    simp only [Option.map_map]
    rfl
  | mixed =>
    dsimp only
    rw [h]
    generalize o.getRuns.1 = o1
    rw [show (o1.withHistory d q memory').runsOf = o1.runsOf from rfl]
    cases o1.runsOf with
    | none => rfl
    | some runs =>
      simp only [Option.bind_eq_bind, Option.bind_some]
      cases visualIndexInRuns i runs 0 with
      | none => rfl
      | some v =>
        simp only [Option.map_map]
        rfl

theorem getLogicalIndex_withHistory
    (v : Int) : ((o.withHistory d q memory).getLogicalIndex v).map Prod.snd =
      (o.getLogicalIndex v).map Prod.snd := by
  rw [getLogicalIndex, getLogicalIndex, h]
  rw [show (o.withHistory d q memory).resultLength = o.resultLength from rfl,
    show (o.withHistory d q memory).insertPoints = o.insertPoints from rfl,
    show (o.withHistory d q memory).controlCount = o.controlCount from rfl,
    show (o.withHistory d q memory).direction = o.direction from rfl,
    show (o.withHistory d q memory).length = o.length from rfl]
  split
  · rfl
  split
  · rfl
  split
  · rfl
  generalize o.getRuns.1 = o1
  dsimp only
  rw [show (o1.withHistory d q memory').runs = o1.runs from rfl]
  cases o1.runs with
  | none => rfl
  | some runs =>
    simp only [Option.bind_eq_bind, Option.bind_some, Option.map_map]
    rfl

end

theorem NoHistory.results_eq (h : o.NoHistory)
    (hmemory : o.direction = .mixed → o.trailingWSStart < o.length →
      (memory o.textRuns.length).insertRemove = 0) :
    (o.withHistory 0 q memory).results = o.results := by
  obtain ⟨memory', hruns⟩ := @getRuns_withHistory o 0 q memory
    (fun h1 h2 => (hmemory h1 h2).trans (h.memory h1 h2).symm)
  have hlevelAt : (o.withHistory 0 q memory).getLevelAt = o.getLevelAt := by
    funext i
    rw [getLevelAt, getLevelAt, show (o.withHistory 0 q memory).length = o.length from rfl]
    by_cases hi : o.length ≤ i
    · rw [if_pos hi, if_pos hi]
    have hpara : o.getParaLevel i = o.paraLevel := by
      rw [getParaLevel, if_pos]
      rcases h.paragraphs with h0 | hlimit
      · exact .inl h0
      · exact .inr (by omega)
    have hpara' : (o.withHistory 0 q memory).getParaLevel i = o.paraLevel := by
      rw [getParaLevel, if_pos (.inl rfl)]
      rfl
    rw [if_neg hi, if_neg hi, hpara, hpara']
    rfl
  have hlevels : (o.withHistory 0 q memory).getLevels.levels = o.getLevels.levels := by
    rw [getLevels, getLevels, show (o.withHistory 0 q memory).length = o.length from rfl,
      show (o.withHistory 0 q memory).trailingWSStart = o.trailingWSStart from rfl]
    split
    · rfl
    · rfl
  rw [results, results, hlevelAt, hlevels, getLogicalMap_withHistory hruns,
    getVisualMap_withHistory hruns]
  simp only [getVisualIndex_withHistory hruns, getLogicalIndex_withHistory hruns, hruns]
  rfl

/-! ## Levels of a line -/

/-- The level of the paragraph at the `i`th position of a line, with (L1) for white space at
the end of the line. -/
def l1Level (para : UBiDi) (start limit i : Nat) : Nat :=
  if para.dirPropAt (limit - 1) ≠ .B ∧
      (List.range' i (limit - start - i)).all (fun j => (para.dirPropAt (start + j)).isWS) = true
  then para.getParaLevel start else para.levelAt (start + i)

def isUnidirectional (para : UBiDi) (start limit : Nat) : Bool :=
  (List.range (limit - start)).all fun i =>
    para.l1Level start limit i % 2 == para.l1Level start limit 0 % 2

/-- The level that is reported for the `i`th position of a line. A line with one direction has
one level: the paragraph level, or the next one with the parity of the line. -/
def lineLevel (para : UBiDi) (start limit i : Nat) : Nat :=
  if para.direction ≠ .mixed then
    if para.trailingWSStart = 0 then para.getParaLevel start else para.paraLevel
  else if para.isUnidirectional start limit then
    if para.l1Level start limit 0 % 2 = 0 then (para.getParaLevel start + 1) / 2 * 2
    else para.getParaLevel start ||| 1
  else para.l1Level start limit i

theorem getTrailingWSStart_l1 (hline : start < limit)
    (hlength : line.length = limit - start) (hlevels : line.levels = para.levels.drop start)
    (hdirProps : line.dirProps = para.dirProps.drop start)
    (hparaLevel : line.paraLevel = para.getParaLevel start) (hi : i < line.length) :
    (if i < line.getTrailingWSStart then line.levelAt i else line.paraLevel) =
      para.l1Level start limit i := by
  have hlast : line.dirPropAt (line.length - 1) = para.dirPropAt (limit - 1) := by
    rw [dirPropAt_drop hdirProps, show start + (line.length - 1) = limit - 1 by omega]
  have hall : (List.range' i (limit - start - i)).all
      (fun j => (para.dirPropAt (start + j)).isWS) = true ↔
        ∀ j, i ≤ j → j < line.length → (line.dirPropAt j).isWS = true := by
    rw [List.all_eq_true]
    constructor
    · intro h j h1 h2
      rw [dirPropAt_drop hdirProps]
      exact h j (List.mem_range'_1.mpr ⟨h1, by omega⟩)
    intro h j hj
    have hj' := List.mem_range'_1.mp hj
    rw [← dirPropAt_drop hdirProps]
    exact h j hj'.1 (by omega)
  rw [l1Level, getTrailingWSStart, hlast, ← hparaLevel, ← levelAt_drop hlevels]
  by_cases hb : para.dirPropAt (limit - 1) = .B
  · rw [if_pos hb, if_pos hi, if_neg (by simp [hb])]
  rw [if_neg hb]
  obtain ⟨h1, h2, h3⟩ := skipBack_spec (fun i => (line.dirPropAt i).isWS) line.length
  dsimp only
  generalize skipBack (fun i => (line.dirPropAt i).isWS) line.length = ws at *
  obtain ⟨g1, g2, -⟩ := skipBack_spec (fun i => line.levelAt i == line.paraLevel) ws
  by_cases hws : ws ≤ i
  · rw [if_neg (by omega), if_pos ⟨hb, hall.mpr fun j h1 h2' => h2 j (by omega) h2'⟩]
  have hnot : ¬ (para.dirPropAt (limit - 1) ≠ .B ∧
      (List.range' i (limit - start - i)).all
        (fun j => (para.dirPropAt (start + j)).isWS) = true) := by
    intro hws
    have hlow := h3 (by omega)
    rw [hall.mp hws.2 (ws - 1) (by omega) (by omega)] at hlow
    exact absurd hlow (by decide)
  rw [if_neg hnot]
  by_cases hi' : i < skipBack (fun i => line.levelAt i == line.paraLevel) ws
  · rw [if_pos hi']
  rw [if_neg hi']
  have hsame := g2 i (by omega) (by omega)
  rw [beq_iff_eq] at hsame
  exact hsame.symm

theorem getLineDirection_l1 {level : Nat → Nat} (hpos : 0 < line.length)
    (hle : line.trailingWSStart ≤ line.length)
    (hlevel : ∀ i < line.length, line.effectiveLevel i = level i) : line.getLineDirection =
      if (List.range line.length).all (fun i => level i % 2 == level 0 % 2) = true then
        UBiDiDirection.ofLevel (level 0)
      else .mixed := by
  have hofLevel : UBiDiDirection.ofLevel (level 0 % 2) = .ofLevel (level 0) := by
    rw [UBiDiDirection.ofLevel, UBiDiDirection.ofLevel, Nat.mod_mod]
  rw [getLineDirection]
  by_cases hzero : line.trailingWSStart = 0
  · have hconst : ∀ i < line.length, level i = line.paraLevel := fun i hi => by
      rw [← hlevel i hi, effectiveLevel, if_neg (by omega)]
    rw [if_pos hzero, if_pos, hconst 0 hpos]
    simp only [List.all_eq_true, List.mem_range, beq_iff_eq]
    intro i hi
    rw [hconst i hi, hconst 0 hpos]
  have hfirst : line.levelAt 0 = level 0 := by
    rw [← hlevel 0 hpos, effectiveLevel, if_pos (by omega)]
  rw [if_neg hzero]
  rw [hfirst]
  by_cases htail : line.trailingWSStart < line.length ∧ line.paraLevel % 2 ≠ level 0 % 2
  · rw [if_pos htail, if_neg]
    intro hall
    simp only [List.all_eq_true, List.mem_range, beq_iff_eq] at hall
    apply htail.2
    rw [← hall line.trailingWSStart htail.1, ← hlevel _ htail.1, effectiveLevel,
      if_neg (by omega)]
  rw [if_neg htail]
  obtain ⟨h1, h2, h3, h4⟩ := skipWhile_spec (fun i => line.levelAt i % 2 == level 0 % 2)
    line.trailingWSStart line.trailingWSStart 1 (by omega) (by omega)
  generalize skipWhile (fun i => line.levelAt i % 2 == level 0 % 2) line.trailingWSStart
    line.trailingWSStart 1 = k at *
  by_cases hk : k = line.trailingWSStart
  · rw [if_pos hk, if_pos, hofLevel]
    simp only [List.all_eq_true, List.mem_range, beq_iff_eq]
    intro i hi
    rw [← hlevel i hi, effectiveLevel]
    split
    · next hlt =>
      rcases Nat.eq_zero_or_pos i with rfl | hipos
      · rw [hfirst]
      · simpa using h3 i hipos (by omega)
    · by_contra hne
      exact htail ⟨by omega, hne⟩
  · rw [if_neg hk, if_neg]
    intro hall
    simp only [List.all_eq_true, List.mem_range, beq_iff_eq] at hall
    have hdiff := h4 (by omega)
    have hsame := hall k (by omega)
    rw [← hlevel k (by omega), effectiveLevel, if_pos (by omega)] at hsame
    simp [hsame] at hdiff

theorem setLine_direction
    (h : setLine para start limit prev = .ok line) (hmixed : para.direction = .mixed) :
    line.direction =
      if para.isUnidirectional start limit = true then .ofLevel (para.l1Level start limit 0)
      else .mixed := by
  have hline := (setLine_cases h).1
  have hrange := hline.range
  have key : ∃ base : UBiDi, base.length = limit - start ∧ base.levels = para.levels.drop start ∧
      base.dirProps = para.dirProps.drop start ∧ base.paraLevel = para.getParaLevel start ∧
      base.trailingWSStart = base.getTrailingWSStart ∧ line.direction = base.getLineDirection := by
    rw [setLine, if_neg (not_not.mpr hrange), if_neg (not_not.mpr hline.sameParagraph)] at h
    dsimp only at h
    rw [if_neg (not_not.mpr hmixed)] at h
    split at h
    all_goals
      cases h
      exact ⟨_, rfl, rfl, rfl, rfl, rfl, rfl⟩
  obtain ⟨base, hlength, hlevels, hdirProps, hparaLevel, htrail, hdir⟩ := key
  have hlevel : ∀ i < base.length, base.effectiveLevel i = para.l1Level start limit i := by
    intro i hi
    rw [effectiveLevel, htrail]
    exact getTrailingWSStart_l1 hrange.1 hlength hlevels hdirProps hparaLevel hi
  rw [hdir, getLineDirection_l1 (by omega) (htrail ▸ (getTrailingWSStart_spec base).1) hlevel,
    hlength]
  rfl

theorem IsTrivialLine.levels_eq (hpara : para.IsPara)
    (h : IsLine para start limit line) (ht : IsTrivialLine para start limit line)
    (hi : i < line.length) : line.effectiveLevel i = para.lineLevel start limit i := by
  have hrange := h.range
  have hlength := h.length
  rw [lineLevel, if_pos ht.para_direction, effectiveLevel, ht.trailingWSStart, ht.paraLevel]
  rcases hpara.single ht.para_direction with hzero | ⟨hall, hlevels⟩
  · rw [if_pos (show para.trailingWSStart ≤ start by omega), if_neg (by omega), if_pos hzero]
  have hpos := hpara.pos
  rw [if_neg (show ¬ para.trailingWSStart ≤ start by omega),
    if_neg (show ¬ para.trailingWSStart < limit by omega), if_pos (by omega),
    if_neg (show ¬ para.trailingWSStart = 0 by omega), h.levelAt_eq, hlevels _ (by omega)]

theorem IsMixedLine.levels_eq
    (hline : setLine para start limit prev = .ok line) (h : IsLine para start limit line)
    (hm : IsMixedLine para start line) (hi : i < line.length) :
    line.effectiveLevel i = para.lineLevel start limit i := by
  have hdirection := setLine_direction hline hm.para_direction
  rw [lineLevel, if_neg (not_not.mpr hm.para_direction), effectiveLevel]
  by_cases huni : para.isUnidirectional start limit = true
  · rw [if_pos huni] at hdirection ⊢
    by_cases heven : para.l1Level start limit 0 % 2 = 0
    · rw [UBiDiDirection.ofLevel, if_neg (by omega)] at hdirection
      obtain ⟨hlevel, hzero⟩ := hm.ltr hdirection
      rw [if_pos heven, if_neg (by omega), hlevel]
    · rw [UBiDiDirection.ofLevel, if_pos (by omega)] at hdirection
      obtain ⟨hlevel, hzero⟩ := hm.rtl hdirection
      rw [if_neg heven, if_neg (by omega), hlevel]
  · rw [if_neg huni] at hdirection ⊢
    obtain ⟨hlevel, htrail, -⟩ := hm.mixed hdirection
    rw [htrail]
    exact getTrailingWSStart_l1 h.range.1 h.length h.levels h.dirProps hlevel hi

/-! ## Results for a line -/

theorem setLine_withHistory (para prev prev' : UBiDi) (start limit : Nat) :
    setLine para start limit prev' = (setLine para start limit prev).map fun line =>
      { line.withHistory prev'.defaultParaLevel prev'.paras prev'.runsMemory with
        insertPoints := prev'.insertPoints } := by
  rw [setLine, setLine]
  by_cases hrange : ¬ (start < limit ∧ limit ≤ para.length)
  · rw [if_pos hrange, if_pos hrange]
    rfl
  rw [if_neg hrange, if_neg hrange]
  by_cases hsame : para.getParagraph start ≠ para.getParagraph (limit - 1)
  · rw [if_pos hsame, if_pos hsame]
    rfl
  rw [if_neg hsame, if_neg hsame]
  dsimp only
  generalize (if para.controlCount > 0 then
    ((List.range' start (limit - start)).filter
      fun j => isBiDiControlChar (para.charAt j)).length else 0) = controlCount
  by_cases hdir : para.direction ≠ .mixed
  · rw [if_pos hdir, if_pos hdir]
    rfl
  rw [if_neg hdir, if_neg hdir]
  split
  all_goals
    next hd =>
      split
      all_goals
        next hd' =>
          first
          | rfl
          | exact absurd (hd.symm.trans hd') (by decide)

theorem IsLine.trailingWSStart_le
    (hline : setLine para start limit prev = .ok line) : line.trailingWSStart ≤ line.length := by
  obtain ⟨h, -, -, ht | hm⟩ := setLine_cases hline
  · have := h.length
    rw [ht.trailingWSStart]
    split
    · omega
    · split <;> omega
  cases hdir : line.direction with
  | mixed =>
    rw [(hm.mixed hdir).2.1]
    exact (getTrailingWSStart_spec line).1
  | ltr => have := (hm.ltr hdir).2; omega
  | rtl => have := (hm.rtl hdir).2; omega

theorem effectiveLevel_line (hpara : para.IsPara)
    (hline : setLine para start limit prev = .ok line) (hi : i < line.length) :
    line.effectiveLevel i = para.lineLevel start limit i := by
  obtain ⟨h, -, -, ht | hm⟩ := setLine_cases hline
  · exact ht.levels_eq hpara h hi
  · exact hm.levels_eq hline h hi

theorem getLevelAt_line (hpara : para.IsPara)
    (hline : setLine para start limit prev = .ok line) (hhistory : line.NoHistory)
    (hi : i < line.length) : line.getLevelAt i =
      if para.direction ≠ .mixed then para.getParaLevel start
      else para.lineLevel start limit i := by
  have hlevel : line.getParaLevel i = line.paraLevel := by
    rw [getParaLevel, if_pos]
    rcases hhistory.paragraphs with h0 | hlimit
    · exact .inl h0
    · exact .inr (by omega)
  rw [getLevelAt, if_neg (by omega), hlevel]
  obtain ⟨h, -, -, ht | hm⟩ := setLine_cases hline
  · rw [if_pos (.inl (by rw [ht.direction]; exact ht.para_direction)), if_pos ht.para_direction,
      ht.paraLevel]
  rw [if_neg (not_not.mpr hm.para_direction), ← effectiveLevel_line hpara hline hi,
    effectiveLevel]
  by_cases hlt : i < line.trailingWSStart
  · have hdir : line.direction = .mixed := by
      cases hdir : line.direction with
      | mixed => rfl
      | ltr => have := (hm.ltr hdir).2; omega
      | rtl => have := (hm.rtl hdir).2; omega
    rw [if_neg (by simp only [hdir, ne_eq, not_true_eq_false, false_or]; omega), if_pos hlt]
  · rw [if_pos (.inr (by omega)), if_neg hlt]

/-- Two objects without history get the same line, and its levels are those of the paragraph
with (L1), or one level if they have one parity. -/
theorem setLine_results {para prev prev' line line' : UBiDi} {start limit : Nat}
    (hpara : para.IsPara) (hline : setLine para start limit prev = .ok line)
    (hline' : setLine para start limit prev' = .ok line') (h : line.NoHistory)
    (h' : line'.NoHistory) : line.results = line'.results ∧
      line.results.levels = (List.range (limit - start)).map (para.lineLevel start limit) ∧
      (∀ i < limit - start, line.results.levelAt i =
        if para.direction ≠ .mixed then para.getParaLevel start
        else para.lineLevel start limit i) ∧
      line.results.resultLength = (limit - start : Nat) -
        if para.controlCount > 0 then
          (((List.range' start (limit - start)).filter
            fun j => isBiDiControlChar (para.charAt j)).length : Int)
        else 0 := by
  have hl := (setLine_cases hline).1
  refine ⟨?_, ?_, fun i hi => getLevelAt_line hpara hline h (by rw [hl.length]; exact hi), ?_⟩
  · have hmap := setLine_withHistory para prev prev' start limit
    rw [hline, hline', Except.map, Except.ok.injEq] at hmap
    have hpoints : prev'.insertPoints = line.insertPoints := by
      rw [← (setLine_cases hline').2.1.insertPoints, h'.points, h.points]
    have hfields : line' =
      line.withHistory prev'.defaultParaLevel prev'.paras prev'.runsMemory := by
      rw [hmap, hpoints]
      rfl
    have hsame : line'.withHistory 0 line'.paras line'.runsMemory =
        line.withHistory 0 line'.paras line'.runsMemory := by
      rw [hfields]
      rfl
    have htext : line'.textRuns = line.textRuns := by
      rw [hfields]
      exact levelRuns_withHistory _ _ _
    have hmemory : line.direction = .mixed → line.trailingWSStart < line.length →
        (line'.runsMemory line.textRuns.length).insertRemove = 0 := by
      intro hdir hlt
      rw [← htext]
      exact h'.memory (by rw [hfields]; exact hdir) (by rw [hfields]; exact hlt)
    rw [← h.results_eq hmemory, ← hsame, h'.results_eq h'.memory]
  · rw [results, getLevels_take (IsLine.trailingWSStart_le hline) (hl.length_le hpara), hl.length]
    apply List.map_congr_left
    intro i hi
    exact effectiveLevel_line hpara hline (by rw [hl.length]; exact List.mem_range.mp hi)
  · rw [results, hl.result, hl.controls, hl.length]
    split <;> simp

theorem latinHebrewLine_noHistory (paras : Nat → Para) :
    ({ latinHebrewLine with paras := paras } : UBiDi).NoHistory :=
  ⟨.inl rfl, rfl, fun _ _ => rfl⟩

/-- A new object and one that was used for a paragraph get the same line. -/
theorem setLine_results_latinHebrew : latinHebrewLine.results =
      ({ latinHebrewLine with paras := latinHebrewPara.paras } : UBiDi).results ∧
      latinHebrewLine.results.levels = [0, 1, 0, 0] := by
  obtain ⟨h1, h2, -⟩ := setLine_results latinHebrewPara_isPara
    (show setLine latinHebrewPara 0 4 opened = .ok latinHebrewLine from rfl)
    (show setLine latinHebrewPara 0 4 latinHebrewPara =
      .ok { latinHebrewLine with paras := latinHebrewPara.paras } from rfl)
    (latinHebrewLine_noHistory _) (latinHebrewLine_noHistory _)
  exact ⟨h1, h2.trans (by decide)⟩

/-- A left-to-right paragraph: a Hebrew letter and two digits. -/
def hebrewDigitsPara : UBiDi :=
  { opened with
    text := [0x5d0, 0x31, 0x32], length := 3, resultLength := 3, dirProps := [.R, .EN, .EN]
    levels := [1, 2, 2], direction := .mixed, trailingWSStart := 3, paraCount := 1
    paras := fun _ => ⟨3, 0⟩, runCount := -1 }

def digitsLine : UBiDi :=
  { opened with
    text := [0x31, 0x32], length := 2, resultLength := 2, dirProps := [.EN, .EN], levels := [2, 2]
    paraCount := 1, runCount := -1 }

theorem hebrewDigitsPara_isPara : hebrewDigitsPara.IsPara where
  pos := by decide
  length_le := by decide
  paraCount_pos := by decide
  level_le := by decide
  paraLevel_le := by decide
  getParaLevel_le := by decide
  mixed := fun _ => rfl
  single := fun h => absurd rfl h
  above := fun _ => by decide
  separator := by
    intro i j hij hj _ hb
    have hnone : ∀ i < 3, hebrewDigitsPara.dirPropAt i ≠ .B := by decide
    exact absurd hb (hnone i (Nat.lt_of_le_of_lt hij hj))
  result := fun _ _ => by decide

/-- All digits of the line are at level 2, but the line has the level of its paragraph. -/
theorem digits_line_is_at_paragraph_level :
    hebrewDigitsPara.IsPara ∧ setLine hebrewDigitsPara 1 3 opened = .ok digitsLine ∧
      digitsLine.NoHistory ∧ digitsLine.results.levels = [0, 0] ∧
      digitsLine.results.levels ≠ (List.range 2).map (hebrewDigitsPara.l1Level 1 3) :=
  ⟨hebrewDigitsPara_isPara, rfl, ⟨.inl rfl, rfl, fun _ _ => rfl⟩, by decide,
    by decide⟩

end UBiDi

end Icu.BiDi
