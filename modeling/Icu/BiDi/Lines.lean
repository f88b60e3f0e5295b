import Icu.BiDi.LevelsAgree

/-! # Paragraph and line objects

What `ubidi_setPara` leaves in an object, and what `ubidi_setLine` makes of it.
-/

namespace Icu.BiDi

open Lib.LevelReversal

namespace UBiDi

variable (o : UBiDi) {i j start limit : Nat} {para line prev : UBiDi}

/-- A paragraph object after `ubidi_setPara` with some text, and maybe `ubidi_getLevels`. A
block separator ends its paragraph, or is followed by another one, and may be at level 0. -/
structure IsPara : Prop where
  pos : 0 < o.length
  length_le : o.length ≤ o.levels.length
  paraCount_pos : 0 < o.paraCount
  level_le : ∀ i < o.length, o.levelAt i ≤ maxExplicitLevel + 1
  paraLevel_le : o.paraLevel ≤ maxExplicitLevel
  getParaLevel_le : ∀ i < o.length, o.getParaLevel i ≤ maxExplicitLevel
  mixed : o.direction = .mixed → o.trailingWSStart = o.length
  single : o.direction ≠ .mixed → o.trailingWSStart = 0 ∨
    o.trailingWSStart = o.length ∧ ∀ i < o.length, o.levelAt i = o.paraLevel
  above : o.direction = .mixed → ∀ i < o.length, o.dirPropAt i ≠ .B → o.getParaLevel i ≤ o.levelAt i
  separator : ∀ i j, i ≤ j → j < o.length → o.getParagraph i = o.getParagraph j →
    o.dirPropAt i = .B → o.dirPropAt j = .B
  result : o.insertPoints = [] → o.controlCount = 0 → (o.length : Int) ≤ o.resultLength

variable {o}

theorem getParagraph_spec (charIndex : Nat) : o.getParagraph charIndex ≤ o.paraCount ∧
    (∀ j < o.getParagraph charIndex, (o.paras j).limit ≤ charIndex) ∧
    (o.getParagraph charIndex < o.paraCount →
      charIndex < (o.paras (o.getParagraph charIndex)).limit) := by
  obtain ⟨-, h1, h2, h3⟩ := skipWhile_spec (fun i => decide ((o.paras i).limit ≤ charIndex))
    o.paraCount o.paraCount 0 (Nat.zero_le _) (by omega)
  refine ⟨h1, fun j hj => by simpa using h2 j (Nat.zero_le j) hj, fun hlt => ?_⟩
  have := h3 hlt
  rw [decide_eq_false_iff_not, Nat.not_le] at this
  exact this

theorem getParagraph_mono (h : i ≤ j) : o.getParagraph i ≤ o.getParagraph j := by
  obtain ⟨hi1, hi2, -⟩ := getParagraph_spec (o := o) i
  obtain ⟨-, -, hj3⟩ := getParagraph_spec (o := o) j
  by_contra hlt
  have h1 := hi2 (o.getParagraph j) (by omega)
  have h2 := hj3 (by omega)
  omega

theorem getParaLevel_eq (hcount : 0 < o.paraCount) (i : Nat) : o.getParaLevel i =
      if o.defaultParaLevel = 0 ∨ o.getParagraph i = 0 then o.paraLevel
      else if o.paraCount ≤ o.getParagraph i then (o.paras (o.paraCount - 1)).level
      else (o.paras (o.getParagraph i)).level := by
  have hfirst : i < (o.paras 0).limit ↔ o.getParagraph i = 0 := by
    obtain ⟨-, h2, h3⟩ := getParagraph_spec (o := o) i
    constructor
    · intro hi
      by_contra hne
      have := h2 0 (by omega)
      omega
    · intro h0
      rw [h0] at h3
      exact h3 hcount
  have hindex : o.getParaLevelAtIndex i =
      if o.paraCount ≤ o.getParagraph i then (o.paras (o.paraCount - 1)).level
      else (o.paras (o.getParagraph i)).level := by
    have hp : (fun k => !decide (i < (o.paras k).limit)) =
        fun k => decide ((o.paras k).limit ≤ i) := by
      funext k
      rw [← decide_not]
      simp only [Nat.not_lt]
    rw [getParaLevelAtIndex, hp]
    rfl
  rw [getParaLevel, hindex]
  simp only [hfirst]

theorem getParaLevel_congr (hcount : 0 < o.paraCount)
    (h : o.getParagraph i = o.getParagraph j) : o.getParaLevel i = o.getParaLevel j := by
  rw [getParaLevel_eq hcount, getParaLevel_eq hcount, h]

theorem getParagraph_between (h1 : start ≤ i) (h2 : i < limit)
    (h : o.getParagraph start = o.getParagraph (limit - 1)) :
    o.getParagraph i = o.getParagraph start := by
  have := getParagraph_mono (o := o) h1
  have := getParagraph_mono (o := o) (show i ≤ limit - 1 by omega)
  omega

theorem skipBack_spec (p : Nat → Bool) : ∀ start,
    skipBack p start ≤ start ∧ (∀ i, skipBack p start ≤ i → i < start → p i = true) ∧
      (0 < skipBack p start → p (skipBack p start - 1) = false)
  | 0 => by simp [skipBack]
  | start + 1 => by
    rw [skipBack]
    split
    · next hp =>
      obtain ⟨h1, h2, h3⟩ := skipBack_spec p start
      refine ⟨by omega, ?_, h3⟩
      intro i hi hlt
      rcases Nat.eq_or_lt_of_le (Nat.le_of_lt_succ hlt) with rfl | hlt
      · exact hp
      · exact h2 i hi hlt
    · next hp =>
      exact ⟨le_refl _, fun i h1 h2 => by omega, fun _ => by simpa using hp⟩

theorem getTrailingWSStart_spec (o : UBiDi) : o.getTrailingWSStart ≤ o.length ∧
    (o.getTrailingWSStart < o.length → o.dirPropAt (o.length - 1) ≠ .B) ∧
    (0 < o.getTrailingWSStart → o.getTrailingWSStart < o.length →
      o.levelAt (o.getTrailingWSStart - 1) ≠ o.paraLevel) ∧
    ∀ i, o.getTrailingWSStart ≤ i → i < o.length →
      (o.dirPropAt i).isWS = true ∨ o.levelAt i = o.paraLevel := by
  rw [getTrailingWSStart]
  split
  · exact ⟨le_refl _, fun h => by omega, fun _ h => by omega, fun i h1 h2 => by omega⟩
  · next hb =>
    obtain ⟨h1, h2, -⟩ := skipBack_spec (fun i => (o.dirPropAt i).isWS) o.length
    dsimp only
    generalize skipBack (fun i => (o.dirPropAt i).isWS) o.length = start at *
    obtain ⟨g1, g2, g3⟩ := skipBack_spec (fun i => o.levelAt i == o.paraLevel) start
    refine ⟨by omega, fun _ => hb, fun h _ => by simpa using g3 h, ?_⟩
    intro i hi hlt
    by_cases hs : i < start
    · exact .inr (by simpa using g2 i hi hs)
    · exact .inl (h2 i (by omega) hlt)

/-- A line is not mixed only if its levels are at one parity. -/
theorem getLineDirection_spec (o : UBiDi) (h : o.getLineDirection = .mixed) :
    0 < o.trailingWSStart := by
  by_contra h0
  rw [getLineDirection, if_pos (by omega), UBiDiDirection.ofLevel] at h
  split at h
  · simp at h
  · simp at h

/-! ## Lines -/

/-- The fields of a line object, whatever they were before. -/
structure IsLine (para : UBiDi) (start limit : Nat) (line : UBiDi) : Prop where
  range : start < limit ∧ limit ≤ para.length
  sameParagraph : para.getParagraph start = para.getParagraph (limit - 1)
  length : line.length = limit - start
  levels : line.levels = para.levels.drop start
  dirProps : line.dirProps = para.dirProps.drop start
  text : line.text = para.text.drop start
  runs : line.runs = none ∧ line.runCount = -1
  result : line.resultLength = (line.length : Int) - line.controlCount
  controls : line.controlCount = if para.controlCount > 0 then
    ((List.range' start (limit - start)).filter fun j => isBiDiControlChar (para.charAt j)).length
    else 0

structure KeepsFrom (prev line : UBiDi) : Prop where
  defaultParaLevel : line.defaultParaLevel = prev.defaultParaLevel
  paras : line.paras = prev.paras
  insertPoints : line.insertPoints = prev.insertPoints
  runsMemory : line.runsMemory = prev.runsMemory

structure IsTrivialLine (para : UBiDi) (start limit : Nat) (line : UBiDi) : Prop where
  para_direction : para.direction ≠ .mixed
  direction : line.direction = para.direction
  paraLevel : line.paraLevel = para.getParaLevel start
  trailingWSStart : line.trailingWSStart =
    if para.trailingWSStart ≤ start then 0
    else if para.trailingWSStart < limit then para.trailingWSStart - start else limit - start

structure IsMixedLine (para : UBiDi) (start : Nat) (line : UBiDi) : Prop where
  para_direction : para.direction = .mixed
  mixed : line.direction = .mixed → line.paraLevel = para.getParaLevel start ∧
    line.trailingWSStart = line.getTrailingWSStart ∧ 0 < line.trailingWSStart
  ltr : line.direction = .ltr →
    line.paraLevel = (para.getParaLevel start + 1) / 2 * 2 ∧ line.trailingWSStart = 0
  rtl : line.direction = .rtl →
    line.paraLevel = para.getParaLevel start ||| 1 ∧ line.trailingWSStart = 0

theorem setLine_cases (h : setLine para start limit prev = .ok line) :
    IsLine para start limit line ∧ KeepsFrom prev line ∧ line.paraCount = para.paraCount ∧
      (IsTrivialLine para start limit line ∨ IsMixedLine para start line) := by
  rw [setLine] at h
  split at h
  · simp at h
  next hrange =>
  have hrange : start < limit ∧ limit ≤ para.length := not_not.mp hrange
  split at h
  · simp at h
  next hpara =>
  have hpara : para.getParagraph start = para.getParagraph (limit - 1) := not_not.mp hpara
  dsimp only at h
  split at h
  · next hdir =>
    obtain rfl := Except.ok.inj h
    exact ⟨⟨hrange, hpara, rfl, rfl, rfl, rfl, ⟨rfl, rfl⟩, rfl, rfl⟩, ⟨rfl, rfl, rfl, rfl⟩, rfl,
      .inl ⟨hdir, rfl, rfl, rfl⟩⟩
  · next hdir =>
    have hdir : para.direction = .mixed := not_not.mp hdir
    split at h
    · next hd =>
      obtain rfl := Except.ok.inj h
      refine ⟨⟨hrange, hpara, rfl, rfl, rfl, rfl, ⟨rfl, rfl⟩, rfl, rfl⟩, ⟨rfl, rfl, rfl, rfl⟩,
        rfl, .inr ⟨hdir, fun hm => ?_, fun _ => ⟨rfl, rfl⟩, fun hr => ?_⟩⟩
      · exact absurd (hd.symm.trans hm) (by decide)
      · exact absurd (hd.symm.trans hr) (by decide)
    · next hd =>
      obtain rfl := Except.ok.inj h
      refine ⟨⟨hrange, hpara, rfl, rfl, rfl, rfl, ⟨rfl, rfl⟩, rfl, rfl⟩, ⟨rfl, rfl, rfl, rfl⟩,
        rfl, .inr ⟨hdir, fun hm => ?_, fun hl => ?_, fun _ => ⟨rfl, rfl⟩⟩⟩
      · exact absurd (hd.symm.trans hm) (by decide)
      · exact absurd (hd.symm.trans hl) (by decide)
    · next hd =>
      obtain rfl := Except.ok.inj h
      refine ⟨⟨hrange, hpara, rfl, rfl, rfl, rfl, ⟨rfl, rfl⟩, rfl, rfl⟩, ⟨rfl, rfl, rfl, rfl⟩,
        rfl, .inr ⟨hdir, fun _ => ⟨rfl, rfl, getLineDirection_spec _ hd⟩, fun hl => ?_,
          fun hr => ?_⟩⟩
      · exact absurd (hd.symm.trans hl) (by decide)
      · exact absurd (hd.symm.trans hr) (by decide)

theorem levelAt_drop (h : line.levels = para.levels.drop start)
    (i : Nat) : line.levelAt i = para.levelAt (start + i) := by
  rw [levelAt, h, levelAt, List.getD_eq_getElem?_getD, List.getElem?_drop,
    List.getD_eq_getElem?_getD]

theorem dirPropAt_drop (h : line.dirProps = para.dirProps.drop start) (i : Nat) :
    line.dirPropAt i = para.dirPropAt (start + i) := by
  rw [dirPropAt, h, dirPropAt, List.getD_eq_getElem?_getD, List.getElem?_drop,
    List.getD_eq_getElem?_getD]

theorem IsLine.levelAt_eq (h : IsLine para start limit line)
    (i : Nat) : line.levelAt i = para.levelAt (start + i) := levelAt_drop h.levels i

theorem IsLine.length_le {para line : UBiDi} {start limit : Nat} (h : IsLine para start limit line)
    (hpara : para.IsPara) : line.length ≤ line.levels.length := by
  have := hpara.length_le
  have := h.range
  rw [h.length, h.levels, List.length_drop]
  omega

/-- A line without a block separator at its end has none, so its levels are not below the
level of its paragraph. -/
theorem IsLine.above (h : IsLine para start limit line)
    (hpara : para.IsPara) (hmixed : para.direction = .mixed)
    (hlast : line.dirPropAt (line.length - 1) ≠ .B) (hi : i < line.length) :
    para.getParaLevel start ≤ line.levelAt i := by
  have hrange := h.range
  have hlength := h.length
  have hsame := getParagraph_between (o := para) (show start ≤ start + i by omega)
    (show start + i < limit by omega) h.sameParagraph
  rw [h.levelAt_eq, ← getParaLevel_congr hpara.paraCount_pos hsame]
  apply hpara.above hmixed _ (by omega)
  intro hb
  apply hlast
  rw [dirPropAt_drop h.dirProps, show start + (line.length - 1) = limit - 1 by omega]
  exact hpara.separator (start + i) (limit - 1) (by omega) (by omega)
    (hsame.trans h.sameParagraph) hb

/-- Objects with text as `ubidi_setPara` and `ubidi_setLine` leave them. -/
inductive Produced : UBiDi → Prop
  | para {o : UBiDi} : o.IsPara → o.runCount = -1 → Produced o
  | line {para prev line : UBiDi} {start limit : Nat} : para.IsPara →
      setLine para start limit prev = .ok line → Produced line

theorem IsPara.mixed_or_single (h : o.IsPara) : o.IsMixed ∨ o.IsSingle := by
  have hpos := h.pos
  by_cases hdir : o.direction = .mixed
  · have heq := h.mixed hdir
    exact .inl ⟨hdir, by omega, by omega, h.length_le, h.level_le, fun hlt => by omega,
      fun hlt => by omega⟩
  refine .inr ⟨hdir, hpos, ?_, h.length_le, o.paraLevel,
    Nat.le_succ_of_le h.paraLevel_le, ?_⟩
  · rcases h.single hdir with heq | ⟨heq, -⟩
    · omega
    · omega
  intro i hi
  rw [effectiveLevel]
  rcases h.single hdir with heq | ⟨-, hlevels⟩
  · rw [if_neg (by omega)]
  split
  · exact hlevels i hi
  · rfl

theorem IsLine.mixed_or_single (hpara : para.IsPara)
    (hline : setLine para start limit prev = .ok line) : line.IsMixed ∨ line.IsSingle := by
  obtain ⟨h, -, -, hkind⟩ := setLine_cases hline
  have hrange := h.range
  have hlength := h.length
  have hparaLevel := hpara.getParaLevel_le start (by omega)
  have huniform : line.trailingWSStart = 0 → line.paraLevel ≤ maxExplicitLevel + 1 →
      ∃ level ≤ maxExplicitLevel + 1, ∀ i < line.length, line.effectiveLevel i = level := by
    intro hzero hle
    refine ⟨line.paraLevel, hle, fun i hi => ?_⟩
    rw [effectiveLevel, if_neg (by omega)]
  rcases hkind with ht | hm
  · -- the paragraph has one direction, and so has the line
    refine .inr ⟨by rw [ht.direction]; exact ht.para_direction, by omega, ?_, h.length_le hpara, ?_⟩
    · rw [ht.trailingWSStart]
      split
      · omega
      · split <;> omega
    rcases hpara.single ht.para_direction with hzero | ⟨hall, hlevels⟩
    · apply huniform
      · rw [ht.trailingWSStart, if_pos (by omega)]
      rw [ht.paraLevel]
      omega
    · refine ⟨para.paraLevel, Nat.le_succ_of_le hpara.paraLevel_le, fun i hi => ?_⟩
      have hend : line.trailingWSStart = line.length := by
        rw [ht.trailingWSStart, if_neg (by omega), if_neg (by omega), hlength]
      rw [effectiveLevel, if_pos (by omega), h.levelAt_eq, hlevels _ (by omega)]
  cases hdir : line.direction with
  | mixed =>
    obtain ⟨hlevel, htrail, hpos⟩ := hm.mixed hdir
    obtain ⟨h1, h2, h3, -⟩ := getTrailingWSStart_spec line
    rw [← htrail] at h1 h2 h3
    refine .inl ⟨hdir, hpos, h1, h.length_le hpara, ?_, ?_, h3 hpos⟩
    · intro i hi
      rw [h.levelAt_eq]
      exact hpara.level_le _ (by clear huniform; omega)
    · intro hlt i hi
      rw [hlevel]
      exact h.above hpara hm.para_direction (h2 hlt) (Nat.lt_trans hi hlt)
  | ltr =>
    obtain ⟨hlevel, hzero⟩ := hm.ltr hdir
    refine .inr ⟨by simp [hdir], by omega, by omega, h.length_le hpara, huniform hzero ?_⟩
    rw [hlevel]
    rw [maxExplicitLevel] at hparaLevel ⊢
    omega
  | rtl =>
    obtain ⟨hlevel, hzero⟩ := hm.rtl hdir
    refine .inr ⟨by simp [hdir], by omega, by omega, h.length_le hpara, huniform hzero ?_⟩
    rw [hlevel]
    rcases or_one_cases (para.getParaLevel start) with ⟨-, hor⟩ | ⟨-, hor⟩ <;> omega

theorem Produced.mixed_or_single (h : Produced o) : o.runCount = -1 ∧ (o.IsMixed ∨ o.IsSingle) := by
  cases h with
  | para hpara hunset => exact ⟨hunset, hpara.mixed_or_single⟩
  | line hpara hline => exact ⟨(setLine_cases hline).1.runs.2, IsLine.mixed_or_single hpara hline⟩

theorem Produced.isObject (h : Produced o) (hpoints : o.insertPoints = [])
    (hcontrols : o.controlCount = 0) : o.IsObject := by
  refine ⟨h.mixed_or_single.1, ?_, h.mixed_or_single.2⟩
  cases h with
  | para hpara _ =>
    have := hpara.pos
    have := hpara.result hpoints hcontrols
    omega
  | line hpara hline =>
    obtain ⟨h, -⟩ := setLine_cases hline
    have := h.range
    rw [h.result, hcontrols, h.length]
    omega

/-- The visual map, the levels and the runs agree, exactly if the bit of the run at the
implicit level fits. -/
theorem produced_agrees_iff (h : Produced o) (hpoints : o.insertPoints = [])
    (hcontrols : o.controlCount = 0) : o.Agrees ↔ o.ImplicitRunFits :=
  (h.isObject hpoints hcontrols).agrees_iff hpoints hcontrols

/-- An object from `ubidi_open`. -/
def opened : UBiDi :=
  { text := [], length := 0, resultLength := 0, dirProps := [], levels := [], paraLevel := 0,
    defaultParaLevel := 0, direction := .ltr, trailingWSStart := 0, paraCount := 0,
    paras := fun _ => ⟨0, 0⟩, runCount := 0, runs := none, runsMemory := fun _ => ⟨0, false, 0, 0⟩,
    insertPoints := [], controlCount := 0 }

/-- A left-to-right paragraph: `a`, a Hebrew letter, two spaces, a Hebrew letter. -/
def latinHebrewPara : UBiDi :=
  { opened with
    text := [0x61, 0x5d0, 0x20, 0x20, 0x5d1], length := 5, resultLength := 5
    dirProps := [.L, .R, .WS, .WS, .R], levels := [0, 1, 1, 1, 1], direction := .mixed
    trailingWSStart := 5, paraCount := 1, paras := fun _ => ⟨5, 0⟩, runCount := -1 }

def latinHebrewLine : UBiDi :=
  { opened with
    text := [0x61, 0x5d0, 0x20, 0x20, 0x5d1], length := 4, resultLength := 4
    dirProps := [.L, .R, .WS, .WS, .R], levels := [0, 1, 1, 1, 1], direction := .mixed
    trailingWSStart := 2, paraCount := 1, runCount := -1 }

theorem latinHebrewPara_isPara : latinHebrewPara.IsPara where
  pos := by decide
  length_le := by decide
  paraCount_pos := by decide
  level_le := by decide
  paraLevel_le := by decide
  getParaLevel_le := by decide
  mixed := fun _ => rfl
  single := fun h => absurd rfl h
  above := fun _ => by decide
  separator := by
    intro i j hij hj _ hb
    have hnone : ∀ i < 5, latinHebrewPara.dirPropAt i ≠ .B := by decide
    exact absurd hb (hnone i (Nat.lt_of_le_of_lt hij hj))
  result := fun _ _ => by decide

/-- The paragraph itself has no implicit run. -/
theorem produced_agrees_latinHebrewPara : latinHebrewPara.Agrees :=
  (produced_agrees_iff (.para latinHebrewPara_isPara rfl) rfl rfl).mpr
    ⟨fun i h1 h2 => absurd h2 (Nat.not_lt.mpr h1), fun h => absurd h (by decide)⟩

/-- The two spaces at the end of the line are at the paragraph level, but their run is
right-to-left, since the level that is stored for them is. -/
theorem trailing_spaces_are_reversed :
    Produced latinHebrewLine ∧ latinHebrewLine.insertPoints = [] ∧
      latinHebrewLine.controlCount = 0 ∧
      (latinHebrewLine.getVisualMap.map fun r => (List.range 4).map r.2.2) =
        some [some 0, some 1, some 3, some 2] ∧
      reorderVisual (latinHebrewLine.getLevels.levels.take 4) = some [0, 1, 2, 3] ∧
      ¬ latinHebrewLine.Agrees := by
  have hline : setLine latinHebrewPara 0 4 opened = .ok latinHebrewLine := rfl
  have hproduced := Produced.line latinHebrewPara_isPara hline
  refine ⟨hproduced, rfl, rfl, by decide, by decide, ?_⟩
  rw [(hproduced.isObject rfl rfl).agrees_iff rfl rfl]
  intro hfits
  exact absurd (hfits.1 2 (by decide) (by decide)) (by decide)

end UBiDi

end Icu.BiDi
