import Icu.BiDi.MixedRuns

/-! # Runs and levels

The visual map that the runs give, compared with `ubidi_reorderVisual` on the levels, for an
object without marks and controls. The text positions at the implicit level are where they
can differ: a white space run also gets the direction bit of the level that is stored for
its first position.
-/

namespace Icu.BiDi

open Lib.LevelReversal

namespace UBiDi

variable {run : Run}

theorem reorderedBy_expand {α β : Type} {level : β → Nat} {content : β → List α} {blocks : List β}
    {minLevel maxLevel : Nat} (hne : ∀ b ∈ blocks, content b ≠ [])
    (hmin : ∀ b ∈ blocks, minLevel ≤ level b) (hmax : ∀ b ∈ blocks, level b ≤ maxLevel) :
    reorderedBy Prod.fst minLevel maxLevel (expand level content blocks) =
      expand level (fun b => if level b % 2 = 1 then (content b).reverse else content b)
        (reorderedBy level minLevel maxLevel blocks) := by
  rw [reorderedBy, reorderedBy]
  split
  · next hle =>
    rw [passes_expand _ _ hne]
    apply expand_congr
    intro b hb
    have hb' := (passes_perm _ _ blocks).mem_iff.mp hb
    have h1 := hmin b hb'
    have h2 := hmax b hb'
    rw [turn, show (minLevel ||| 1) + (maxLevel - (minLevel ||| 1)) = maxLevel by omega,
      Nat.min_eq_left h2]
    have hparity : (level b + 1 - (minLevel ||| 1)) % 2 = 1 ↔ level b % 2 = 1 := by
      rcases or_one_cases minLevel with ⟨he, hor⟩ | ⟨ho, hor⟩
      · rw [hor]
        omega
      · rw [hor]
        omega
    simp only [hparity]
  · next hlt =>
    apply expand_congr
    intro b hb
    have h1 := hmin b hb
    have h2 := hmax b hb
    have heven : ¬ level b % 2 = 1 := by
      rcases or_one_cases minLevel with ⟨he, hor⟩ | ⟨ho, hor⟩
      · rw [hor] at hlt
        omega
      · rw [hor] at hlt
        omega
    rw [if_neg heven]

theorem map_snd_expand {α β : Type} (level : β → Nat) (content : β → List α) (blocks : List β) :
    (expand level content blocks).map Prod.snd = blocks.flatMap content := by
  rw [expand, List.map_flatMap]
  apply List.flatMap_congr
  intro b _
  simp [Function.comp_def]

variable (o : UBiDi)

/-! ## Objects -/

/-- All text is at one level, and the direction says so. -/
structure IsSingle : Prop where
  direction : o.direction ≠ .mixed
  pos : 0 < o.length
  le : o.trailingWSStart ≤ o.length
  length_le : o.length ≤ o.levels.length
  uniform : ∃ level ≤ maxExplicitLevel + 1, ∀ i < o.length, o.effectiveLevel i = level

structure IsObject : Prop where
  runs_unset : o.runCount = -1
  result_pos : 0 < o.resultLength
  text : o.IsMixed ∨ o.IsSingle

/-- The runs of an object, as lengths in visual order, with the direction bits that they get
and the ones that fit their levels. -/
structure Layout (bit level : Run → Bool) (ordered : List Run) : Prop where
  getRuns_runs : o.getRuns.1.runs = some (withLimits bit 0 ordered)
  getRuns_error : o.getRuns.2 = .zeroError
  unchanged : o.getRuns.1.insertPoints = [] ∧ o.getRuns.1.controlCount = 0 ∧
    o.getRuns.1.resultLength = o.resultLength ∧ 0 < o.getRuns.1.runCount
  run_pos : ∀ run ∈ ordered, 0 < run.visualLimit
  perm : (ordered.flatMap Run.content).Perm (List.range o.length)
  reorder : reorderVisual ((List.range o.length).map o.effectiveLevel) =
    some (ordered.flatMap (Run.oriented level))

/-- The visual map, the levels and the runs say the same. -/
structure Agrees : Prop where
  map : ∃ o' m order, o.getVisualMap = some (o', .zeroError, m) ∧
    reorderVisual (o.getLevels.levels.take o.length) = some order ∧
    ∀ v < o.length, m v = order[v]?.map Nat.cast
  runs : ∃ runs, o.getRuns.1.runs = some runs ∧ Partition o.length runs ∧
    ∀ v ∈ withVisualStarts 0 runs, ∀ i, v.2.logicalStart ≤ i →
      i < v.2.logicalStart + (v.2.visualLimit - v.1) → v.2.odd = (o.getLevelAt i % 2 == 1)

variable {o} {minLevel maxLevel : Nat}

/-- The runs of mixed text in visual order, before marks and controls are noted in them. -/
theorem IsMixed.getRuns_eq (h : o.IsMixed) (hruns : o.runCount = -1)
    (hb : Bounds ((List.range o.length).map o.effectiveLevel) minLevel maxLevel) :
    ∃ (count : Int) (memory : Nat → Run), 0 < count ∧ o.getRuns = ({ o with
      runs := some (o.adjustRuns (withLimits o.finalBit 0 (reorderedBy o.effectiveRunLevel minLevel
        maxLevel (o.textRuns ++ o.whiteSpaceRuns)))).1
      runCount := count
      runsMemory := memory }, (o.adjustRuns (withLimits o.finalBit 0
        (reorderedBy o.effectiveRunLevel minLevel maxLevel
          (o.textRuns ++ o.whiteSpaceRuns)))).2) := by
  obtain ⟨memory, hget⟩ := getRuns_of_unset hruns (by
    rw [if_neg (by simp [h.direction]), h.mixedRuns_eq hb])
  refine ⟨_, memory, ?_, hget⟩
  have := List.length_pos_of_ne_nil
    (List.append_ne_nil_of_left_ne_nil h.textRuns_ne_nil o.whiteSpaceRuns)
  omega

theorem IsMixed.perm_content (h : o.IsMixed) {ordered : List Run}
    (hperm : ordered.Perm (o.textRuns ++ o.whiteSpaceRuns)) :
    (ordered.flatMap Run.content).Perm (List.range o.length) := by
  have hsnd := map_snd_expand o.effectiveRunLevel Run.content (o.textRuns ++ o.whiteSpaceRuns)
  rw [h.expand_runs, List.map_map] at hsnd
  have hid : (List.range o.length).map (Prod.snd ∘ fun i => (o.effectiveLevel i, i)) =
      List.range o.length := by simp [Function.comp_def]
  rw [← hid, hsnd]
  exact hperm.flatMap_right _

theorem IsMixed.layout (h : o.IsMixed) (hruns : o.runCount = -1) (hpoints : o.insertPoints = [])
    (hcontrols : o.controlCount = 0) : ∃ ordered : List Run,
      ordered.Perm (o.textRuns ++ o.whiteSpaceRuns) ∧ o.Layout o.finalBit o.levelBit ordered := by
  obtain ⟨minLevel, maxLevel, hb⟩ := h.exists_bounds
  have hperm := reorderedBy_perm o.effectiveRunLevel minLevel maxLevel
    (o.textRuns ++ o.whiteSpaceRuns)
  obtain ⟨count, memory, hcount, hget⟩ := h.getRuns_eq hruns hb
  rw [adjustRuns_eq_self hpoints hcontrols] at hget
  refine ⟨_, hperm, ?_, ?_, ?_, ?_, h.perm_content hperm, ?_⟩
  · rw [hget]
  · rw [hget]
  · rw [hget]
    exact ⟨hpoints, hcontrols, rfl, hcount⟩
  · exact fun run hrun => h.run_pos (hperm.mem_iff.mp hrun)
  · rw [reorderVisual_eq hb]
    · have hzip : ((List.range o.length).map o.effectiveLevel).zip
          (List.range ((List.range o.length).map o.effectiveLevel).length) =
          expand o.effectiveRunLevel Run.content (o.textRuns ++ o.whiteSpaceRuns) := by
        rw [h.expand_runs]
        apply List.ext_getElem
        · simp
        intro i h1 h2
        simp
      rw [hzip, reorderedBy_expand (fun run => h.content_ne_nil)
        (h.lineRuns hb).min_le (h.lineRuns hb).le_max, map_snd_expand]
      congr 2
      funext run
      simp [Run.oriented, levelBit]
    · intro l hl
      obtain ⟨i, hi, rfl⟩ := List.mem_map.mp hl
      exact h.effectiveLevel_le (List.mem_range.mp hi)

def singleRun (o : UBiDi) : Run :=
  { logicalStart := 0, odd := o.paraLevel % 2 == 1, visualLimit := o.length, insertRemove := 0 }

theorem reorderVisual_uniform {level n : Nat} (hn : 0 < n) (hle : level ≤ maxExplicitLevel + 1) :
    reorderVisual (List.replicate n level) =
      some (if level % 2 = 1 then (List.range n).reverse else List.range n) := by
  have hb : Bounds (List.replicate n level) level level := by
    refine ⟨?_, ?_, ?_, ?_⟩
    · intro x hx
      rw [(List.mem_replicate.mp hx).2]
    · intro x hx
      rw [(List.mem_replicate.mp hx).2]
    · exact List.mem_replicate.mpr ⟨by omega, rfl⟩
    · exact List.mem_replicate.mpr ⟨by omega, rfl⟩
  have hsnd : ((List.replicate n level).zip (List.range (List.replicate n level).length)).map
      Prod.snd = List.range n := by
    rw [← List.unzip_snd, List.unzip_zip_right (by simp), List.length_replicate]
  rw [reorderVisual_eq hb (by intro x hx; rw [(List.mem_replicate.mp hx).2]; exact hle)]
  rcases or_one_cases level with ⟨heven, hor⟩ | ⟨hodd, hor⟩
  · rw [reorderedBy, hor, if_neg (by omega), if_neg (by omega), hsnd]
  rw [reorderedBy, hor, if_pos (le_refl _), if_pos hodd, Nat.sub_self, passes, pass_eq_reverse,
    List.map_reverse, hsnd]
  intro x hx
  have := List.of_mem_zip hx
  rw [(List.mem_replicate.mp this.1).2]

theorem IsSingle.layout (h : o.IsSingle) (hruns : o.runCount = -1) (hpoints : o.insertPoints = [])
    (hcontrols : o.controlCount = 0) :
    o.Layout (fun _ => o.paraLevel % 2 == 1) (fun _ => o.effectiveLevel 0 % 2 == 1)
      [o.singleRun] := by
  obtain ⟨level, hle, hlevel⟩ := h.uniform
  have hpos := h.pos
  obtain ⟨memory, hget⟩ := getRuns_of_unset hruns (by
    rw [if_pos h.direction, getSingleRun])
  rw [adjustRuns_eq_self hpoints hcontrols] at hget
  have hcontent : (o.singleRun).content = List.range o.length := by
    rw [Run.content, singleRun, List.range_eq_range']
  have hlevels : (List.range o.length).map o.effectiveLevel = List.replicate o.length level := by
    rw [List.eq_replicate_iff]
    refine ⟨by simp, ?_⟩
    intro x hx
    obtain ⟨i, hi, rfl⟩ := List.mem_map.mp hx
    exact hlevel i (List.mem_range.mp hi)
  refine ⟨?_, ?_, ?_, ?_, ?_, ?_⟩
  · rw [hget]
    simp [withLimits, singleRun]
  · rw [hget]
  · rw [hget]
    exact ⟨hpoints, hcontrols, rfl, Int.one_pos⟩
  · intro run hrun
    rw [List.mem_singleton.mp hrun]
    exact hpos
  · simp [hcontent]
  · rw [hlevels, reorderVisual_uniform hpos hle, hlevel 0 hpos]
    simp [Run.oriented, hcontent]

theorem reverse_content_eq_iff (run : Run) :
    run.content.reverse = run.content ↔ run.visualLimit ≤ 1 := by
  rw [Run.content, List.reverse_range']
  constructor
  · intro h
    by_contra hlt
    have h0 := congrArg (·[0]?) h
    have h1 : 0 < run.visualLimit := by omega
    simp [h1] at h0
    omega
  · intro h
    rcases Nat.le_one_iff_eq_zero_or_eq_one.mp h with h | h
    · simp [h]
    · simp [h]

theorem oriented_eq_iff {bit level : Run → Bool} (run : Run) :
    Run.oriented bit run = Run.oriented level run ↔ bit run = level run ∨ run.visualLimit ≤ 1 := by
  rw [Run.oriented, Run.oriented, ← reverse_content_eq_iff]
  cases bit run with
  | false =>
    cases level run with
    | false => simp
    | true => simp [eq_comm]
  | true =>
    cases level run with
    | false => simp
    | true => simp

theorem flatMap_oriented_eq_iff {bit level : Run → Bool} : ∀ {runs : List Run},
    runs.flatMap (Run.oriented bit) = runs.flatMap (Run.oriented level) ↔
      ∀ run ∈ runs, bit run = level run ∨ run.visualLimit ≤ 1
  | [] => by simp
  | run :: runs => by
    have hlength : (Run.oriented bit run).length = (Run.oriented level run).length := by
      simp only [Run.oriented]
      split <;> split <;> simp
    rw [List.flatMap_cons, List.flatMap_cons, List.forall_mem_cons, ← oriented_eq_iff,
      ← flatMap_oriented_eq_iff]
    constructor
    · exact fun h => List.append_inj h hlength
    rintro ⟨h1, h2⟩
    rw [h1, h2]

theorem perm_oriented (bit : Run → Bool) : ∀ (runs : List Run),
    (runs.flatMap (Run.oriented bit)).Perm (runs.flatMap Run.content)
  | [] => List.Perm.refl _
  | run :: runs => by
    rw [List.flatMap_cons, List.flatMap_cons]
    refine List.Perm.append ?_ (perm_oriented bit runs)
    rw [Run.oriented]
    split
    · exact List.reverse_perm _
    · exact List.Perm.refl _

namespace Layout

variable {bit level : Run → Bool} {ordered : List Run}

section

variable (h : o.Layout bit level ordered)
include h

theorem sum_lengths : (ordered.map Run.visualLimit).sum = o.length := by
  have := h.perm.length_eq
  rw [List.length_flatMap, List.length_range] at this
  rw [← this]
  congr 1
  apply List.map_congr_left
  intro run _
  simp [Run.content]

theorem limits : Limits 0 (withLimits bit 0 ordered) o.length := by
  have := limits_withLimits bit (a := 0) h.run_pos
  rwa [Nat.zero_add, h.sum_lengths] at this

theorem getVisualMap_eq (hresult : 0 < o.resultLength) :
    o.getVisualMap = some (o.getRuns.1, .zeroError,
      IndexMap.unset.store 0 ((ordered.flatMap (Run.oriented bit)).map Nat.cast)) := by
  obtain ⟨hpoints, hcontrols, hlength, hcount⟩ := h.unchanged
  rw [getVisualMap]
  dsimp only
  rw [h.getRuns_error, if_neg (by simp), hlength, if_neg (by omega), runsOf, if_neg (by omega),
    h.getRuns_runs, Option.map_some, visualMapFrom, hpoints, hcontrols, fillVisualMap_eq _ h.limits,
    visualOrder_withLimits]
  simp

theorem agrees_iff (hresult : 0 < o.resultLength)
    (hle : o.trailingWSStart ≤ o.length) (hlength : o.length ≤ o.levels.length) :
    o.Agrees ↔ (∀ run ∈ ordered, bit run = level run ∨ run.visualLimit ≤ 1) ∧
      ∀ run ∈ ordered, ∀ i ∈ run.content, bit run = (o.getLevelAt i % 2 == 1) := by
  have hmap := h.getVisualMap_eq hresult
  have hperm := (perm_oriented bit ordered).trans h.perm
  have hlen : (ordered.flatMap (Run.oriented bit)).length = o.length := by
    rw [hperm.length_eq, List.length_range]
  have hlenLevel : (ordered.flatMap (Run.oriented level)).length = o.length := by
    rw [((perm_oriented level ordered).trans h.perm).length_eq, List.length_range]
  constructor
  · rintro ⟨⟨o', m, order, hm, horder, hentries⟩, runs, hruns, -, hbits⟩
    constructor
    · rw [← flatMap_oriented_eq_iff]
      rw [getLevels_take hle hlength, h.reorder, Option.some.injEq] at horder
      rw [hmap, Option.some.injEq, Prod.mk.injEq, Prod.mk.injEq] at hm
      apply List.ext_getElem (by rw [hlen, hlenLevel])
      intro v h1 h2
      have hv := hentries v (by omega)
      rw [← hm.2.2, ← horder, IndexMap.store, List.length_map, if_pos (by omega), Nat.sub_zero,
        List.getElem?_map, List.getElem?_eq_getElem h1, List.getElem?_eq_getElem h2] at hv
      simpa using hv
    · intro run hrun i hi
      obtain ⟨v, hv, hstart, hodd, hlimit⟩ := @withVisualStarts_mem bit 0 _ _ hrun
      rw [h.getRuns_runs, Option.some.injEq] at hruns
      subst hruns
      obtain ⟨h1, h2⟩ := List.mem_range'_1.mp hi
      rw [← hodd]
      exact hbits v hv i (by omega) (by omega)
  · rintro ⟨horiented, hbits⟩
    refine ⟨⟨_, _, ordered.flatMap (Run.oriented bit), hmap, ?_, ?_⟩, _, h.getRuns_runs,
      ⟨h.limits, ?_⟩, ?_⟩
    · rw [getLevels_take hle hlength, h.reorder, flatMap_oriented_eq_iff.mpr horiented]
    · intro v hv
      rw [IndexMap.store, List.length_map, if_pos (by omega), Nat.sub_zero, List.getElem?_map]
    · rw [visualOrder_withLimits]
      exact hperm
    · intro v hv i h1 h2
      obtain ⟨run, hrun, hstart, hodd, hlimit⟩ := mem_withVisualStarts hv
      rw [hodd]
      exact hbits run hrun i (List.mem_range'_1.mpr ⟨by omega, by omega⟩)

end

end Layout

def implicitStart (o : UBiDi) : Nat := if o.direction = .mixed then o.trailingWSStart else 0

/-- The direction bit that the run of the text at the implicit level gets. -/
def implicitBit (o : UBiDi) : Bool :=
  o.paraLevel % 2 == 1 ||
    (decide (o.direction = .mixed) && o.levelAt o.trailingWSStart % 2 == 1)

/-- This bit is the parity of the level that `ubidi_getLevelAt` reports for each position,
and of the level that `ubidi_getLevels` stores, unless there is only one position. -/
def ImplicitRunFits (o : UBiDi) : Prop :=
  (∀ i, o.implicitStart ≤ i → i < o.length → (o.getParaLevel i % 2 == 1) = o.implicitBit) ∧
    (o.implicitStart + 1 < o.length →
      (o.effectiveLevel o.implicitStart % 2 == 1) = o.implicitBit)

theorem IsMixed.effectiveLevel_of_mem (h : o.IsMixed)
    (hrun : run ∈ o.textRuns ++ o.whiteSpaceRuns) {i : Nat} (hi : i ∈ run.content) :
    i < o.length ∧ o.effectiveLevel i = o.effectiveRunLevel run := by
  have hmem : (o.effectiveRunLevel run, i) ∈
      expand o.effectiveRunLevel Run.content (o.textRuns ++ o.whiteSpaceRuns) :=
    List.mem_flatMap.mpr ⟨run, hrun, List.mem_map.mpr ⟨i, hi, rfl⟩⟩
  rw [h.expand_runs] at hmem
  obtain ⟨j, hj, heq⟩ := List.mem_map.mp hmem
  rw [Prod.mk.injEq] at heq
  rw [← heq.2] at *
  exact ⟨List.mem_range.mp hj, heq.1⟩

theorem IsMixed.text_fits (h : o.IsMixed) (hrun : run ∈ o.textRuns) :
    o.finalBit run = o.levelBit run ∧
      ∀ i ∈ run.content, o.finalBit run = (o.getLevelAt i % 2 == 1) := by
  have hmem := List.mem_append_left o.whiteSpaceRuns hrun
  obtain ⟨h1, h2, -⟩ := h.mem_textRuns hrun
  rw [h.finalBit_text hrun, levelBit, h.effectiveRunLevel_text hrun]
  refine ⟨rfl, ?_⟩
  intro i hi
  obtain ⟨hlt, hlevel⟩ := h.effectiveLevel_of_mem hmem hi
  have hi' : i < o.trailingWSStart := by
    have := List.mem_range'_1.mp hi
    omega
  rw [effectiveLevel, if_pos hi', h.effectiveRunLevel_text hrun] at hlevel
  rw [getLevelAt, if_neg (by omega), if_neg (by simp [h.direction, hi']), hlevel, runLevel]

theorem IsMixed.whiteSpace_fits_iff (h : o.IsMixed) :
    ((∀ run ∈ o.whiteSpaceRuns, o.finalBit run = o.levelBit run ∨ run.visualLimit ≤ 1) ∧
      ∀ run ∈ o.whiteSpaceRuns, ∀ i ∈ run.content,
        o.finalBit run = (o.getLevelAt i % 2 == 1)) ↔ o.ImplicitRunFits := by
  have hstart : o.implicitStart = o.trailingWSStart := by rw [implicitStart, if_pos h.direction]
  have hlevelAt : ∀ i, o.trailingWSStart ≤ i → i < o.length →
      o.getLevelAt i = o.getParaLevel i := by
    intro i h1 h2
    rw [getLevelAt, if_neg (by omega), if_pos (.inr h1)]
  have heff : o.effectiveLevel o.trailingWSStart = o.paraLevel := by
    rw [effectiveLevel, if_neg (by omega)]
  rw [ImplicitRunFits, hstart, heff, whiteSpaceRuns]
  by_cases hlt : o.trailingWSStart < o.length
  · rw [if_pos hlt]
    simp only [List.mem_singleton, forall_eq, finalBit, levelBit, effectiveRunLevel, heff,
      implicitBit, h.direction, decide_true, Bool.true_and, le_refl, Run.content,
      List.mem_range'_1, Nat.add_sub_cancel' (Nat.le_of_lt hlt)]
    rw [Bool.or_comm, and_comm]
    refine and_congr ⟨?_, ?_⟩ ⟨?_, ?_⟩
    · intro hbit i h1 h2
      rw [hbit i ⟨h1, h2⟩, hlevelAt i h1 h2]
    · rintro hbit i ⟨h1, h2⟩
      rw [hlevelAt i h1 h2, hbit i h1 h2]
    · rintro (hbit | hone) hlength
      · exact hbit.symm
      · omega
    · intro hbit
      by_cases hlength : o.trailingWSStart + 1 < o.length
      · exact .inl (hbit hlength).symm
      · exact .inr (by omega)
  · rw [if_neg hlt]
    constructor
    · exact fun _ => ⟨fun i h1 h2 => by omega, fun hlength => by omega⟩
    · exact fun _ => ⟨by simp, by simp⟩

theorem IsObject.agrees_iff (h : o.IsObject) (hpoints : o.insertPoints = [])
    (hcontrols : o.controlCount = 0) : o.Agrees ↔ o.ImplicitRunFits := by
  rcases h.text with hmixed | hsingle
  · obtain ⟨ordered, hperm, hlayout⟩ := hmixed.layout h.runs_unset hpoints hcontrols
    rw [hlayout.agrees_iff h.result_pos hmixed.le hmixed.length_le, ← hmixed.whiteSpace_fits_iff]
    have hmem : ∀ run, run ∈ ordered ↔ run ∈ o.textRuns ∨ run ∈ o.whiteSpaceRuns := fun run =>
      hperm.mem_iff.trans List.mem_append
    simp only [hmem, or_imp, forall_and]
    constructor
    · rintro ⟨⟨-, h1⟩, -, h2⟩
      exact ⟨h1, h2⟩
    rintro ⟨h1, h2⟩
    exact ⟨⟨fun run hrun => .inl (hmixed.text_fits hrun).1, h1⟩,
      fun run hrun => (hmixed.text_fits hrun).2, h2⟩
  have hlayout := hsingle.layout h.runs_unset hpoints hcontrols
  rw [hlayout.agrees_iff h.result_pos hsingle.le hsingle.length_le]
  have hpos := hsingle.pos
  have hlevelAt : ∀ i < o.length, o.getLevelAt i = o.getParaLevel i := by
    intro i hi
    rw [getLevelAt, if_neg (by omega), if_pos (.inl hsingle.direction)]
  simp only [List.mem_singleton, forall_eq, singleRun, Run.content, List.mem_range'_1,
    ImplicitRunFits, implicitStart, if_neg hsingle.direction, implicitBit,
    decide_eq_false hsingle.direction, Bool.false_and, Bool.or_false, Nat.zero_add, Nat.zero_le,
    true_and, forall_const]
  rw [and_comm]
  refine and_congr ⟨?_, ?_⟩ ⟨?_, ?_⟩
  · intro hbit i hi
    rw [hbit i hi, hlevelAt i hi]
  · intro hbit i hi
    rw [hlevelAt i hi, hbit i hi]
  · rintro (hbit | hone) hlength
    · exact hbit.symm
    · omega
  · intro hbit
    by_cases hlength : 1 < o.length
    · exact .inl (hbit hlength).symm
    · exact .inr (by omega)

end UBiDi

end Icu.BiDi
