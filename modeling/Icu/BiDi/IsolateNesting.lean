import Icu.BiDi.IsolateDepth

/-! # When isolates nest

The bounds of `isolates[]`. With the levels that ICU finds they hold. With other levels they hold if
and only if the runs that start with a PDI close what runs that end with an LRI or RLI have opened,
and no more are open than there are entries for the depth of the text.
-/

namespace Icu.BiDi

open Lib Lib.LevelReversal

variable {r : ExplicitResult}

section Nesting

variable (dirProps : Nat → DirProp) (length : Nat)

def closesRun (run : LevelRun) : Prop := dirProps run.start = .PDI

/-- A run that ends with an LRI or RLI, and not at the end of the text. -/
def opensRun (run : LevelRun) : Prop :=
  opensIsolate (dirProps (lastReal dirProps run.start (run.limit - 1))) ∧ run.limit < length

def separates (run : LevelRun) : Prop := ∃ i, run.start ≤ i ∧ i < run.limit ∧ dirProps i = .B

instance (run : LevelRun) : Decidable (closesRun dirProps run) :=
  inferInstanceAs (Decidable (_ = _))

instance (run : LevelRun) : Decidable (opensRun dirProps length run) :=
  inferInstanceAs (Decidable (_ ∧ _))

instance (run : LevelRun) : Decidable (separates dirProps run) :=
  decidable_of_iff (∃ i < run.limit, run.start ≤ i ∧ dirProps i = .B) (by unfold separates; grind)

/-- The isolates that are open behind the runs in their paragraph, the last run first. -/
def openIsolates : List LevelRun → Int
  | [] => 0
  | run :: earlier =>
    (if separates dirProps run then 0
    else openIsolates earlier - if closesRun dirProps run then 1 else 0) +
      if opensRun dirProps length run then 1 else 0

/-- The run closes what is open behind the runs in `done`, and the isolates have room. -/
def NestsIn (allocated : Nat) (done : List LevelRun) (run : LevelRun) : Prop :=
  (closesRun dirProps run → 0 < openIsolates dirProps length done) ∧
    openIsolates dirProps length (run :: done) ≤ allocated

/-- The runs before the `n`th that open an isolate which no B has closed. -/
def openedRuns (runs : List LevelRun) (n : Nat) : Nat :=
  countSince (fun i => (runs[i]?).any fun run => opensRun dirProps length run)
    (fun i => (runs[i]?).any fun run => separates dirProps run) n

/-- The runs before the `n`th that close an isolate behind the last B. -/
def closedRuns (runs : List LevelRun) (n : Nat) : Nat :=
  countSince (fun i => (runs[i]?).any fun run => closesRun dirProps run ∧ ¬ separates dirProps run)
    (fun i => (runs[i]?).any fun run => separates dirProps run) n

/-- Every run without override that starts with a PDI has an isolate to close in its paragraph, and
no more are open than `allocated`. -/
def Nested (allocated : Nat) (runs : List LevelRun) : Prop :=
  ∀ (i : Nat) (run : LevelRun), (runs.filter fun run => !run.override)[i]? = some run →
    (closesRun dirProps run →
      closedRuns dirProps (runs.filter fun run => !run.override) i <
        openedRuns dirProps length (runs.filter fun run => !run.override) i) ∧
    openedRuns dirProps length (runs.filter fun run => !run.override) (i + 1) ≤
      closedRuns dirProps (runs.filter fun run => !run.override) (i + 1) + allocated

end Nesting

section

variable {dirProps : Nat → DirProp} {length allocated : Nat} {start n : Nat} {run : LevelRun}
  {done runs : List LevelRun}

theorem resetIsolates_of_b {i : Nat} (hstart : start ≤ i) (hi : i < start + n)
    (hb : dirProps i = .B) (count : Int) : resetIsolates dirProps n start count = -1 := by
  induction n with
  | zero => omega
  | succ n ih =>
    rw [resetIsolates_succ]
    split
    · rfl
    · next hlast =>
      apply ih
      have hne : i ≠ start + n := by
        intro heq
        rw [heq] at hb
        exact hlast hb
      omega

theorem resetIsolates_of_not_b (h : ∀ i, start ≤ i → i < start + n → dirProps i ≠ .B)
    (count : Int) : resetIsolates dirProps n start count = count := by
  induction n with
  | zero => rfl
  | succ n ih =>
    rw [resetIsolates_succ, if_neg (h _ (Nat.le_add_right _ _) (Nat.lt_succ_self _))]
    exact ih fun i hle hlt => h i hle (Nat.lt_succ_of_lt hlt)

theorem resetIsolates_run (hrun : run.start ≤ run.limit) (count : Int) :
    resetIsolates dirProps (run.limit - run.start) run.start count =
      if separates dirProps run then -1 else count := by
  have hlimit := Nat.add_sub_cancel' hrun
  split
  · next hsep =>
    obtain ⟨i, hle, hlt, hb⟩ := hsep
    exact resetIsolates_of_b hle (by omega) hb count
  · next hsep =>
    apply resetIsolates_of_not_b
    intro i hle hlt hb
    exact hsep ⟨i, hle, by omega, hb⟩

/-- The entries that a run uses: the last open one, and the new one. -/
theorem resolveIsolates_eq (hrun : run.start ≤ run.limit) (done : List LevelRun) :
    resolveIsolates dirProps length run.start run.limit (openIsolates dirProps length done - 1) =
      ((if closesRun dirProps run then [openIsolates dirProps length done - 1] else []) ++
        (if opensRun dirProps length run then [openIsolates dirProps length (run :: done) - 1]
        else []),
        openIsolates dirProps length (run :: done) - 1) := by
  have hopen : openIsolates dirProps length (run :: done) - 1 =
      (if separates dirProps run then -1
        else if closesRun dirProps run then openIsolates dirProps length done - 1 - 1
        else openIsolates dirProps length done - 1) + if opensRun dirProps length run then 1
          else 0 := by
    rw [openIsolates]
    split
    · omega
    split
    · omega
    · omega
  rw [hopen]
  generalize openIsolates dirProps length done - 1 = count
  unfold resolveIsolates
  dsimp only
  rw [resetIsolates_run hrun]
  have hpush : ∀ (used : List Int) (count : Int),
      (if (dirProps (lastReal dirProps run.start (run.limit - 1)) = .LRI ∨
          dirProps (lastReal dirProps run.start (run.limit - 1)) = .RLI) ∧ run.limit < length then
        (used ++ [count + 1], count + 1) else (used, count)) =
      (used ++ (if opensRun dirProps length run then
          [count + if opensRun dirProps length run then 1 else 0] else []),
        count + if opensRun dirProps length run then 1 else 0) := by
    intro used count
    by_cases hopens : opensRun dirProps length run
    · simp only [if_pos hopens]
      exact if_pos hopens
    · simp only [if_neg hopens, List.append_nil, Int.add_zero]
      exact if_neg hopens
  rw [hpush]
  by_cases hcloses : closesRun dirProps run
  · have hdir : dirProps run.start = .PDI := hcloses
    simp only [if_pos hcloses, if_pos hdir]
  · have hdir : ¬ dirProps run.start = .PDI := hcloses
    simp only [if_neg hcloses, if_neg hdir]

def NestsFrom (dirProps : Nat → DirProp) (length allocated : Nat) (done runs : List LevelRun) :
    Prop :=
  ∀ earlier run later, runs = earlier ++ run :: later →
    NestsIn dirProps length allocated (earlier.reverse ++ done) run

theorem nestsFrom_nil (done : List LevelRun) : NestsFrom dirProps length allocated done [] := by
  intro earlier run later heq
  exact absurd heq.symm (List.append_ne_nil_of_right_ne_nil _ (List.cons_ne_nil _ _))

theorem nestsFrom_cons : NestsFrom dirProps length allocated done (run :: runs) ↔
      NestsIn dirProps length allocated done run ∧
        NestsFrom dirProps length allocated (run :: done) runs := by
  constructor
  · intro h
    refine ⟨h [] run runs rfl, fun earlier next later heq => ?_⟩
    have hnext := h (run :: earlier) next later (by rw [heq]; rfl)
    rw [List.reverse_cons, List.append_assoc] at hnext
    exact hnext
  rintro ⟨hrun, hruns⟩ earlier next later heq
  cases earlier with
  | nil =>
    rw [List.nil_append, List.cons.injEq] at heq
    rw [← heq.1]
    exact hrun
  | cons first earlier =>
    rw [List.cons_append, List.cons.injEq] at heq
    have hnext := hruns earlier next later heq.2
    rw [List.reverse_cons, List.append_assoc, ← heq.1]
    exact hnext

theorem openIsolates_cons_of_opens
    (hcloses : closesRun dirProps run → 0 < openIsolates dirProps length done)
    (hdone : 0 ≤ openIsolates dirProps length done) (hopens : opensRun dirProps length run) :
    0 < openIsolates dirProps length (run :: done) := by
  rw [openIsolates, if_pos hopens]
  split
  · decide
  split
  · next hclosed =>
    have hpos := hcloses hclosed
    omega
  · omega

theorem openIsolates_cons_of_not_opens
    (hcloses : closesRun dirProps run → 0 < openIsolates dirProps length done)
    (hdone : 0 ≤ openIsolates dirProps length done) (hopens : ¬ opensRun dirProps length run) :
    0 ≤ openIsolates dirProps length (run :: done) ∧
      openIsolates dirProps length (run :: done) ≤ openIsolates dirProps length done := by
  rw [openIsolates, if_neg hopens]
  split
  · omega
  split
  · next hclosed =>
    have hpos := hcloses hclosed
    omega
  · omega

/-- One run uses entries that are there if and only if it nests. -/
theorem nestsIn_iff (hrun : run.start ≤ run.limit) (hlow : 0 ≤ openIsolates dirProps length done)
    (hhigh : openIsolates dirProps length done ≤ allocated) :
    (∀ index ∈ (resolveIsolates dirProps length run.start run.limit
        (openIsolates dirProps length done - 1)).1, 0 ≤ index ∧ index < (allocated : Int)) ↔
      NestsIn dirProps length allocated done run := by
  rw [resolveIsolates_eq hrun]
  simp only [List.forall_mem_append]
  constructor
  · rintro ⟨hpop, hpush⟩
    have hcloses : closesRun dirProps run → 0 < openIsolates dirProps length done := by
      intro hclosed
      rw [if_pos hclosed, List.forall_mem_singleton] at hpop
      omega
    refine ⟨hcloses, ?_⟩
    by_cases hopens : opensRun dirProps length run
    · rw [if_pos hopens, List.forall_mem_singleton] at hpush
      omega
    · have hnext := openIsolates_cons_of_not_opens hcloses hlow hopens
      omega
  rintro ⟨hcloses, hroom⟩
  constructor
  · split
    · next hclosed =>
      have hpos := hcloses hclosed
      rw [List.forall_mem_singleton]
      omega
    · exact fun index hindex => absurd hindex List.not_mem_nil
  · split
    · next hopens =>
      have hpos := openIsolates_cons_of_opens hcloses hlow hopens
      rw [List.forall_mem_singleton]
      omega
    · exact fun index hindex => absurd hindex List.not_mem_nil

theorem NestsIn.bounds
    (h : NestsIn dirProps length allocated done run)
    (hdone : 0 ≤ openIsolates dirProps length done) :
    0 ≤ openIsolates dirProps length (run :: done) := by
  by_cases hopens : opensRun dirProps length run
  · exact (openIsolates_cons_of_opens h.1 hdone hopens).le
  · exact (openIsolates_cons_of_not_opens h.1 hdone hopens).1

theorem nestsFrom_iff {runs : List LevelRun}
    (hruns : ∀ run ∈ runs, run.start ≤ run.limit ∧ run.override = false)
    {done : List LevelRun} (hlow : 0 ≤ openIsolates dirProps length done)
    (hhigh : openIsolates dirProps length done ≤ allocated) :
    (∀ index ∈ useIsolates dirProps length runs (openIsolates dirProps length done - 1),
      0 ≤ index ∧ index < (allocated : Int)) ↔ NestsFrom dirProps length allocated done runs := by
  induction runs generalizing done with
  | nil => exact ⟨fun _ => nestsFrom_nil done, fun _ index hindex => absurd hindex List.not_mem_nil⟩
  | cons run runs ih =>
    obtain ⟨⟨hrun, hover⟩, hrest⟩ := List.forall_mem_cons.mp hruns
    have hnext : (resolveIsolates dirProps length run.start run.limit
        (openIsolates dirProps length done - 1)).2 = openIsolates dirProps length
          (run :: done) - 1 := by
      rw [resolveIsolates_eq hrun]
    rw [nestsFrom_cons, ← nestsIn_iff hrun hlow hhigh, useIsolates, hover, if_neg (by decide)]
    dsimp only
    rw [hnext, List.forall_mem_append]
    apply and_congr_right
    intro hbounds
    have hnests := (nestsIn_iff hrun hlow hhigh).mp hbounds
    exact ih hrest (hnests.bounds hlow) hnests.2

theorem useIsolates_filter (runs : List LevelRun) (count : Int) :
    useIsolates dirProps length runs count =
    useIsolates dirProps length (runs.filter fun run => !run.override) count := by
  induction runs generalizing count with
  | nil => rfl
  | cons run runs ih =>
    cases hover : run.override with
    | true =>
      rw [useIsolates, hover, if_pos rfl, List.filter_cons_of_neg (by rw [hover]; decide)]
      exact ih count
    | false =>
      rw [List.filter_cons_of_pos (by rw [hover]; decide), useIsolates, useIsolates, hover,
        if_neg (by decide), if_neg (by decide)]
      dsimp only
      rw [ih]

/-- What is open behind the first runs is what they open less what they close. -/
theorem openIsolates_take {i : Nat} (hi : i ≤ runs.length) :
    openIsolates dirProps length (runs.take i).reverse =
      openedRuns dirProps length runs i - closedRuns dirProps runs i := by
  induction i with
  | zero => rfl
  | succ i ih =>
    have hget : runs[i]? = some runs[i] := List.getElem?_eq_getElem hi
    have hprev := ih (by omega)
    rw [List.take_add_one, hget, Option.toList_some, List.reverse_concat, openIsolates, hprev]
    unfold openedRuns closedRuns
    by_cases hsep : separates dirProps runs[i]
    · have hsep' : (runs[i]?).any (fun run => separates dirProps run) = true := by
        rw [hget]
        exact decide_eq_true hsep
      rw [if_pos hsep, countSince_succ_of_separator hsep', countSince_succ_of_separator hsep']
      simp [hget, hsep]
    · have hsep' : ¬ (runs[i]?).any (fun run => separates dirProps run) = true := by
        rw [hget]
        simpa using hsep
      rw [if_neg hsep, countSince_succ hsep', countSince_succ hsep']
      simp only [hget, Option.any_some, hsep, not_false_eq_true, and_true, decide_eq_true_eq]
      push_cast
      omega

theorem nestsFrom_iff_counts : NestsFrom dirProps length allocated [] runs ↔
    ∀ (i : Nat) (run : LevelRun), runs[i]? = some run →
      (closesRun dirProps run → closedRuns dirProps runs i < openedRuns dirProps length runs i) ∧
      openedRuns dirProps length runs (i + 1) ≤ closedRuns dirProps runs (i + 1) + allocated := by
  have hstep : ∀ (i : Nat) (run : LevelRun), runs[i]? = some run →
      (NestsIn dirProps length allocated (runs.take i).reverse run ↔
        (closesRun dirProps run → closedRuns dirProps runs i < openedRuns dirProps length runs i) ∧
        openedRuns dirProps length runs (i + 1) ≤ closedRuns dirProps runs (i + 1) +
          allocated) := by
    intro i run hrun
    obtain ⟨hi, -⟩ := List.getElem?_eq_some_iff.mp hrun
    have hbehind := @openIsolates_take dirProps length runs (i + 1) hi
    rw [List.take_add_one, hrun, Option.toList_some, List.reverse_concat] at hbehind
    unfold NestsIn
    rw [hbehind, openIsolates_take (by omega)]
    refine and_congr (imp_congr_right fun _ => ?_) ?_
    · omega
    · omega
  constructor
  · intro h i run hrun
    obtain ⟨hi, -⟩ := List.getElem?_eq_some_iff.mp hrun
    have hnests := h (runs.take i) run (runs.drop (i + 1)) ?_
    · rw [List.append_nil] at hnests
      exact (hstep i run hrun).mp hnests
    · rw [List.getElem?_eq_getElem hi, Option.some.injEq] at hrun
      rw [← hrun, List.getElem_cons_drop, List.take_append_drop]
  · intro h earlier run later heq
    have hrun : runs[earlier.length]? = some run := by
      rw [heq, List.getElem?_append_right (Nat.le_refl _), Nat.sub_self]
      rfl
    have hnests := (hstep _ run hrun).mpr (h _ run hrun)
    rw [List.append_nil]
    have htake : runs.take earlier.length = earlier := by
      rw [heq]
      exact List.take_left
    rwa [htake] at hnests

/-- Runs use entries that are there if and only if they nest. -/
theorem nested_iff (hruns : ∀ run ∈ runs, run.start ≤ run.limit) :
    (∀ index ∈ useIsolates dirProps length runs (-1), 0 ≤ index ∧ index < (allocated : Int)) ↔
      Nested dirProps length allocated runs := by
  have hreal : ∀ run ∈ runs.filter fun run => !run.override,
      run.start ≤ run.limit ∧ run.override = false := by
    intro run hrun
    rw [List.mem_filter, Bool.not_eq_true'] at hrun
    exact ⟨hruns run hrun.1, hrun.2⟩
  have hfrom := @nestsFrom_iff dirProps length allocated _ hreal [] (Int.le_refl 0)
    (Int.natCast_nonneg _)
  rw [useIsolates_filter]
  exact hfrom.trans nestsFrom_iff_counts

theorem le_skipWhile (p : Nat → Bool) (count fuel i : Nat) : i ≤ skipWhile p count fuel i := by
  induction fuel generalizing i with
  | zero => exact Nat.le_refl i
  | succ fuel ih =>
    rw [skipWhile]
    split
    · exact Nat.le_of_succ_le (ih (i + 1))
    · exact Nat.le_refl i

theorem runsFrom_ordered (levels : Nat → Nat) (fuel : Nat) :
    ∀ run ∈ runsFrom dirProps levels length fuel start, run.start ≤ run.limit := by
  induction fuel generalizing start with
  | zero => exact fun run hrun => absurd hrun List.not_mem_nil
  | succ fuel ih =>
    intro run hrun
    rw [runsFrom] at hrun
    cases List.mem_cons.mp hrun with
    | inl heq =>
      rw [heq]
      exact Nat.le_of_succ_le (le_skipWhile _ _ _ _)
    | inr hrest =>
      split at hrest
      · exact ih run hrest
      · cases hrest

end

section Found

variable {settings : Settings} {text : List UInt16} {paraLevel : Nat} {o : UBiDi}

section

variable (hlevel : isDefaultLevel paraLevel = false → paraLevel ≤ maxExplicitLevel)
include hlevel

theorem getDirProps_levels (hLF : settings.customizedClass 0xa = .B) (i : Nat) :
    (getDirProps settings text paraLevel o).1.getParaLevel i ≤ maxExplicitLevel := by
  have hscan := scanText_spec hlevel hLF text o
  have hpara : (getDirProps settings text paraLevel o).1.paraLevel ≤ maxExplicitLevel := by
    unfold getDirProps
    split
    · exact hscan.level 0 (Nat.zero_le _)
    · next hdefault => exact hlevel (Bool.not_eq_true _ ▸ hdefault)
  unfold UBiDi.getParaLevel
  split
  · exact hpara
  unfold UBiDi.getParaLevelAtIndex
  dsimp only
  split
  · exact hscan.level _ (Nat.le_refl _)
  · next hlt => exact hscan.level _ (Nat.le_sub_one_of_lt (Nat.not_le.mp hlt))

theorem getDirProps_lineBreaks
    (hLF : settings.customizedClass 0xa = .B) (htext : o.text = text.map UInt16.toNat) :
    LineBreaks (getDirProps settings text paraLevel o).1 := by
  have hscan := scanText_spec hlevel hLF text o
  intro i hi _ hcrlf
  have hlength : i + 1 < text.length := Nat.lt_of_lt_of_le hi hscan.length
  refine hscan.lines (i + 1) hlength ?_
  unfold ExplicitState.isCRLF UBiDi.charAt at hcrlf
  rw [Bool.and_eq_true, beq_iff_eq, beq_iff_eq] at hcrlf
  have hchar : o.text.getD (i + 1) 0 = 0xa := hcrlf.2
  rw [htext, List.getD_eq_getElem?_getD, List.getElem?_map,
    List.getElem?_eq_getElem hlength] at hchar
  unfold Utf16.unitAt
  rw [List.getElem?_eq_getElem hlength]
  exact congrArg some hchar

theorem getDirProps_iso (hLF : settings.customizedClass 0xa = .B)
    (hiso : (getDirProps settings text paraLevel o).2.any DirProp.isIso = false) (i : Nat) :
    ((getDirProps settings text paraLevel o).1.dirPropAt i).isIso = false := by
  have hscan := scanText_spec hlevel hLF text o
  have hflags : (scanText settings text paraLevel o).flags.any DirProp.isIso = false := by
    unfold getDirProps at hiso
    dsimp only at hiso
    split at hiso
    · rw [List.any_cons, List.any_append, Bool.or_eq_false_iff, Bool.or_eq_false_iff] at hiso
      exact hiso.2.2
    · rw [List.any_append, Bool.or_eq_false_iff] at hiso
      exact hiso.2
  rw [← Bool.not_eq_true]
  intro hdir
  rw [hscan.iso i hdir] at hflags
  cases hflags

end

theorem frames_bracketLoop (fuel i : Nat) (b : Brackets) :
    Brackets.Frames (fun _ => True) b (bracketLoop settings o fuel i b) := by
  induction fuel generalizing i b with
  | zero => exact fun h => ⟨h, Brackets.Keeps.refl b⟩
  | succ fuel ih =>
    unfold bracketLoop
    refine Brackets.Frames.trans ?_ (ih (i + 1) _)
    split
    · exact fun h => ⟨h, Brackets.Keeps.refl b⟩
    split
    · split
      · exact Brackets.frames_processB _
      · exact fun h => ⟨h, Brackets.Keeps.refl b⟩
    · exact Brackets.frames_processChar trivial

/-- Brackets do not make isolates. -/
theorem bracketLoop_iso (hiso : ∀ j, (o.dirPropAt j).isIso = false) (data : BracketData)
    (level : Nat)
    (levels : List Nat) (fuel j : Nat) : ((bracketLoop settings o fuel 0
      (Brackets.init ⟨o.dirProps, levels, data⟩ level)).dirPropAt j) ≠ .PDI ∧
      ¬ opensIsolate ((bracketLoop settings o fuel 0
        (Brackets.init ⟨o.dirProps, levels, data⟩ level)).dirPropAt j) := by
  obtain ⟨hsound, hinit⟩ := @Brackets.frames_init ⟨o.dirProps, levels, data⟩ (fun _ => True) level
  obtain ⟨-, hkeeps⟩ := @frames_bracketLoop settings o fuel 0 _ hsound
  have hall := hinit.trans hkeeps
  cases hall.dirProps j with
  | inl hsame =>
    rw [hsame]
    have hj := hiso j
    change ((⟨o.dirProps, levels, data⟩ : Brackets).dirPropAt j).isIso = false at hj
    unfold opensIsolate
    constructor
    · intro hdir
      rw [hdir] at hj
      cases hj
    rintro (hdir | hdir)
    · rw [hdir] at hj
      cases hj
    · rw [hdir] at hj
      cases hj
  | inr hordinary =>
    obtain ⟨hopen, hpdi, -⟩ := not_opensIsolate_of_ordinary hordinary.2
    exact ⟨hpdi, hopen⟩

theorem useIsolates_none {dirProps : Nat → DirProp}
    (h : ∀ j, dirProps j ≠ .PDI ∧ ¬ opensIsolate (dirProps j)) (length : Nat) (runs : List LevelRun)
    (count : Int) : useIsolates dirProps length runs count = [] := by
  induction runs generalizing count with
  | nil => rfl
  | cons run runs ih =>
    have hused : (resolveIsolates dirProps length run.start run.limit count).1 = [] := by
      unfold resolveIsolates
      rw [if_neg (h run.start).1, if_neg fun hlast => (h _).2 hlast.1]
    rw [useIsolates]
    split
    · exact ih count
    dsimp only
    rw [hused, ih]
    rfl

def explicitLoop (settings : Settings) (o : UBiDi) (data : BracketData) : ExplicitLoop :=
  ExplicitLoop.run settings o o.length 0
    { state := .init (o.getParaLevel 0)
      brackets := Brackets.init ⟨o.dirProps, List.replicate o.length 0, data⟩ (o.getParaLevel 0)
      flags := []
      multiRuns := false
      isolateCount := 0 }

theorem useIsolates_explicitLoop (hlines : LineBreaks o)
    (hpara : ∀ i, o.getParaLevel i ≤ maxExplicitLevel)
    (hlength : 0 < o.length) (data : BracketData)
    (hdirProps : r.dirProps = (explicitLoop settings o data).brackets.dirProps)
    (hlevels : r.levels = (explicitLoop settings o data).brackets.levels)
    (hcount : r.isolateCount = (explicitLoop settings o data).isolateCount) :
    ∀ index ∈ useIsolates (fun i => r.dirProps.getD i .L) o.length (levelRuns o true r) (-1),
      0 ≤ index ∧ index < (r.isolateCount : Int) := by
  have hinv : LoopInv o o.length (explicitLoop settings o data) :=
    (LoopInv.start o data).run (Nat.zero_add _)
  have hleft : AllLeft o (fun i => r.dirProps.getD i .L) (fun i => r.levels.getD i 0) := by
    intro j hj
    have hbehind := hinv.read.behind j hj
    rw [hdirProps, hlevels]
    exact hbehind
  have hn : ∀ j, (stateAt o j).validIsolateCount ≤ r.isolateCount ∨ o.length < j := by
    intro j
    rw [hcount]
    cases Nat.lt_or_ge o.length j with
    | inl hlt => exact Or.inr hlt
    | inr hle => exact Or.inl (hinv.count j hle)
  unfold levelRuns
  split
  · -- the whole text is one run, and no isolate is open before it
    have hfirst : r.dirProps.getD 0 .L ≠ .PDI := by
      intro hdir
      obtain ⟨-, -, hvalid⟩ := @pdi_left o (fun i => r.dirProps.getD i .L) 0 _
        (hleft 0 hlength) hdir
      exact absurd hvalid (Nat.lt_irrefl 0)
    intro index hindex
    have hnone :
        useIsolates (fun i => r.dirProps.getD i .L) o.length [⟨0, o.length, false⟩] (-1) = [] := by
      unfold useIsolates resolveIsolates
      dsimp only
      rw [if_neg (by decide), if_neg hfirst, if_neg fun hlast => Nat.lt_irrefl _ hlast.2]
      rfl
    rw [hnone] at hindex
    cases hindex
  · exact useIsolates_spec hlines hpara hleft hn _ hlength (fun _ => rfl) (Or.inr rfl)

/-- `resolveExplicitLevels(pBiDi)` in the modes that have explicit levels. -/
theorem useIsolates_resolve (hlines : LineBreaks o)
    (hpara : ∀ i, o.getParaLevel i ≤ maxExplicitLevel)
    {flags : Flags} (hiso : flags.any DirProp.isIso = false → ∀ j, (o.dirPropAt j).isIso = false)
    (hmode : settings.reorderingMode = .default ∨ settings.reorderingMode = .numbersSpecial)
    (data : BracketData)
    (hmixed : (resolveExplicitLevels settings o flags data).direction = .mixed) :
    ∀ index ∈ useIsolates
      (fun i => (resolveExplicitLevels settings o flags data).dirProps.getD i .L)
      o.length (levelRuns o true (resolveExplicitLevels settings o flags data)) (-1),
      0 ≤ index ∧ index < ((resolveExplicitLevels settings o flags data).isolateCount : Int) := by
  have hmode' : ¬ (settings.reorderingMode ≠ .default ∧ settings.reorderingMode ≠
    .numbersSpecial) := by
    cases hmode with
    | inl hmode => exact fun h => h.1 hmode
    | inr hmode => exact fun h => h.2 hmode
  by_cases hdirection : directionFromFlags flags ≠ .mixed
  · have hsame : (resolveExplicitLevels settings o flags data).direction =
      directionFromFlags flags := by
      unfold resolveExplicitLevels
      rw [if_pos hdirection]
    rw [hsame] at hmixed
    exact absurd hmixed hdirection
  by_cases hexplicit : flags.any (fun dirProp => dirProp.isExplicit || dirProp.isIso) = true
  · have hlength : 0 < o.length := by
      by_contra hzero
      have hempty : (resolveExplicitLevels settings o flags data).direction = .ltr := by
        unfold resolveExplicitLevels
        rw [if_neg hdirection, if_neg hmode', if_neg (not_not.mpr hexplicit),
          Nat.eq_zero_of_not_pos hzero]
        simp [ExplicitLoop.run, directionFromFlags]
      rw [hempty] at hmixed
      cases hmixed
    have hr : ∃ direction flags', resolveExplicitLevels settings o flags data =
        { direction
          dirProps := (explicitLoop settings o data).brackets.dirProps
          levels := (explicitLoop settings o data).brackets.levels
          flags := flags'
          multiRuns := (explicitLoop settings o data).multiRuns
          isolateCount := (explicitLoop settings o data).isolateCount } := by
      unfold resolveExplicitLevels
      rw [if_neg hdirection, if_neg hmode', if_neg (not_not.mpr hexplicit)]
      exact ⟨_, _, rfl⟩
    obtain ⟨direction, flags', hr⟩ := hr
    rw [hr]
    exact useIsolates_explicitLoop hlines hpara hlength data rfl rfl rfl
  · have hno : flags.any DirProp.isIso = false := by
      rw [← Bool.not_eq_true]
      intro h
      apply hexplicit
      rw [List.any_eq_true] at h ⊢
      obtain ⟨dirProp, hmem, hdir⟩ := h
      exact ⟨dirProp, hmem, by rw [hdir, Bool.or_true]⟩
    have hnone := @bracketLoop_iso settings o (hiso hno) data (o.getParaLevel 0)
      (paraLevels o) o.length
    unfold resolveExplicitLevels
    rw [if_neg hdirection, if_neg hmode', if_pos hexplicit]
    intro index hindex
    have hused : index ∈ ([] : List Int) := by
      rw [← useIsolates_none hnone o.length _ (-1)]
      exact hindex
    cases hused

theorem resolveExplicitLevels_isolateCount (hpara : ∀ i, o.getParaLevel i ≤ maxExplicitLevel)
    (flags : Flags) (data : BracketData) :
    (resolveExplicitLevels settings o flags data).isolateCount ≤ maxExplicitLevel := by
  unfold resolveExplicitLevels
  dsimp only
  split
  · exact Nat.zero_le _
  split
  · exact Nat.zero_le _
  split
  · exact Nat.zero_le _
  · exact (LoopInv.start o data).run_isolateCount hpara (Nat.zero_add _) (Nat.zero_le _)

end Found

/-! ## The entries in bounds -/

def paraRuns (o : UBiDi) : List LevelRun :=
  if o.paraCount ≤ 1 then [⟨0, o.length, false⟩]
  else runsFrom o.dirPropAt (fun i => (paraLevels o).getD i 0) o.length (o.length + 1) 0

/-- The input is empty, has one direction only, leaves the levels to ICU in a mode that finds
explicit levels, or has runs that nest. -/
def IsolatesNest (settings : Settings) (memory : Memory) (text : List UInt16) (paraLevel : Nat)
    (embeddingLevels : Option (List Nat)) : Prop :=
  let found := getDirProps settings text paraLevel (startPara text paraLevel memory.object)
  text = [] ∨
    match embeddingLevels with
    | none =>
      settings.reorderingMode = .default ∨ settings.reorderingMode = .numbersSpecial ∨
        directionFromFlags found.2 ≠ .mixed ∨
        Nested found.1.dirPropAt found.1.length simpleIsolatesCount (paraRuns found.1)
    | some levels =>
      let o := { found.1 with levels := levels }
      directionFromFlags (callerFlags o) ≠ .mixed ∨
        Nested o.dirPropAt o.length (allocatedIsolates (maxDepth o) memory.isolatesSize)
          (runsFrom o.dirPropAt o.levelAt o.length (o.length + 1) 0)

theorem paraRuns_ordered (o : UBiDi) : ∀ run ∈ paraRuns o, run.start ≤ run.limit := by
  unfold paraRuns
  split
  · intro run hrun
    rw [List.mem_singleton] at hrun
    rw [hrun]
    exact Nat.zero_le _
  · exact runsFrom_ordered _ _

section

variable {settings : Settings} {memory : Memory} {text : List UInt16} {paraLevel : Nat}
  {embeddingLevels : Option (List Nat)} {use : IsolateUse}

theorem setParaIsolates_nil
    (h : setParaIsolates settings memory [] paraLevel embeddingLevels = .ok use) :
    use = ⟨0, []⟩ := by
  unfold setParaIsolates at h
  split at h
  · cases h
  cases h
  rfl

theorem setParaIsolates_ok (htext : text ≠ [])
    (h : setParaIsolates settings memory text paraLevel embeddingLevels = .ok use) :
    (isDefaultLevel paraLevel = false → paraLevel ≤ maxExplicitLevel) ∧
      ∃ found, explicitLevels settings memory text paraLevel embeddingLevels = .ok found ∧
        use = isolateUse memory.isolatesSize embeddingLevels.isNone found.1 found.2 := by
  unfold setParaIsolates at h
  by_cases hlevel : maxExplicitLevel < paraLevel ∧ isDefaultLevel paraLevel = false
  · rw [if_pos hlevel] at h
    cases h
  rw [if_neg hlevel, if_neg htext] at h
  refine ⟨fun hdefault => ?_, ?_⟩
  · by_contra hlt
    exact hlevel ⟨Nat.not_le.mp hlt, hdefault⟩
  cases hfound : explicitLevels settings memory text paraLevel embeddingLevels with
  | error e =>
    rw [hfound] at h
    cases h
  | ok found =>
    rw [hfound] at h
    exact ⟨found, rfl, (Except.ok.inj h).symm⟩

/-- The entries are in bounds if and only if the runs nest, or the text has one direction. -/
theorem isolateUse_iff {isolatesSize : Nat} {noLevels : Bool} {o : UBiDi}
    (hruns : ∀ run ∈ levelRuns o noLevels r, run.start ≤ run.limit) :
    (isolateUse isolatesSize noLevels o r).InBounds ↔ r.direction ≠ .mixed ∨
      Nested (fun i => r.dirProps.getD i .L) o.length
        (allocatedIsolates r.isolateCount isolatesSize)
        (levelRuns o noLevels r) := by
  unfold isolateUse IsolateUse.InBounds
  by_cases hmixed : r.direction = .mixed
  · rw [if_pos hmixed, nested_iff hruns]
    exact ⟨fun h => Or.inr h, fun h => h.resolve_left (not_not.mpr hmixed)⟩
  · rw [if_neg hmixed]
    exact ⟨fun _ => Or.inl hmixed, fun _ index hindex => absurd hindex List.not_mem_nil⟩

theorem inBounds_iff_of_levels {levels : List Nat} (htext : text ≠ [])
    (h : setParaIsolates settings memory text paraLevel (some levels) = .ok use) :
    use.InBounds ↔ IsolatesNest settings memory text paraLevel (some levels) := by
  obtain ⟨-, found, hfound, huse⟩ := setParaIsolates_ok htext h
  unfold explicitLevels checkExplicitLevels at hfound
  dsimp only at hfound
  split at hfound
  · cases hfound
  rw [← Except.ok.inj hfound] at huse
  rw [huse]
  refine (isolateUse_iff ?_).trans ?_
  · exact runsFrom_ordered _ _
  unfold IsolatesNest
  dsimp only
  rw [← nestedIsolates_eq]
  exact (or_iff_right htext).symm

theorem levelRuns_para {o : UBiDi} (hdirProps : r.dirProps = o.dirProps)
    (hlevels : r.levels = paraLevels o) (hmulti : r.multiRuns = false) :
    levelRuns o true r = paraRuns o := by
  unfold levelRuns paraRuns
  rw [hdirProps, hlevels, hmulti]
  by_cases hcount : o.paraCount ≤ 1
  · rw [if_pos hcount, if_pos ⟨rfl, hcount, by decide⟩]
  rw [if_neg hcount, if_neg fun h => hcount h.2.1]
  rfl

theorem inBounds_iff_of_inverse (htext : text ≠ []) (hmode : settings.reorderingMode ≠ .default ∧
      settings.reorderingMode ≠ .numbersSpecial)
    (h : setParaIsolates settings memory text paraLevel none = .ok use) :
    use.InBounds ↔ IsolatesNest settings memory text paraLevel none := by
  obtain ⟨-, found, hfound, huse⟩ := setParaIsolates_ok htext h
  unfold explicitLevels at hfound
  rw [← Except.ok.inj hfound] at huse
  unfold resolveExplicitLevels at huse
  unfold IsolatesNest
  rw [or_iff_right htext, or_iff_right hmode.1, or_iff_right hmode.2, huse]
  by_cases hdirection : directionFromFlags (getDirProps settings text paraLevel
      (startPara text paraLevel memory.object)).2 ≠ .mixed
  · rw [if_pos hdirection]
    unfold isolateUse IsolateUse.InBounds
    rw [if_neg hdirection]
    exact ⟨fun _ => Or.inl hdirection, fun _ index hindex => absurd hindex List.not_mem_nil⟩
  rw [if_neg hdirection, if_pos hmode]
  generalize getDirProps settings text paraLevel (startPara text paraLevel memory.object) = got
    at hdirection ⊢
  have hruns : levelRuns got.1 true
      ⟨directionFromFlags got.2, got.1.dirProps, paraLevels got.1, got.2, false, 0⟩ =
        paraRuns got.1 :=
    levelRuns_para rfl rfl rfl
  rw [Option.isNone_none, isolateUse_iff (by rw [hruns]; exact paraRuns_ordered _), hruns]
  rfl

theorem inBounds_of_resolved (htext : text ≠ []) (hmode : settings.reorderingMode = .default ∨
      settings.reorderingMode = .numbersSpecial) (hLF : settings.customizedClass 0xa = .B)
    (h : setParaIsolates settings memory text paraLevel none = .ok use) : use.InBounds := by
  obtain ⟨hlevel, found, hfound, huse⟩ := setParaIsolates_ok htext h
  unfold explicitLevels at hfound
  rw [← Except.ok.inj hfound] at huse
  rw [huse]
  unfold isolateUse IsolateUse.InBounds
  split
  · next hmixed =>
    have hused := useIsolates_resolve (getDirProps_lineBreaks hlevel hLF rfl)
      (getDirProps_levels hlevel hLF) (getDirProps_iso hlevel hLF) hmode memory.brackets hmixed
    intro index hindex
    obtain ⟨hlow, hhigh⟩ := hused index hindex
    have hcount := @resolveExplicitLevels_isolateCount settings _
      (@getDirProps_levels settings text paraLevel (startPara text paraLevel memory.object) hlevel
        hLF)
      (getDirProps settings text paraLevel (startPara text paraLevel memory.object)).2
        memory.brackets
    have hroom := le_allocatedIsolates (Nat.le_trans hcount (by decide)) memory.isolatesSize
    exact ⟨hlow, Int.lt_of_lt_of_le hhigh (Int.ofNat_le.mpr hroom)⟩
  · exact fun index hindex => absurd hindex List.not_mem_nil

end

def isolateClass (c : Nat) : DirProp :=
  if c = 0xa then .B
  else if c = 0x2066 then .LRI
  else if c = 0x2067 then .RLI
  else if c = 0x2068 then .FSI
  else if c = 0x2069 then .PDI
  else if c = 0x5d0 then .R
  else .L

def isolateSettings : Settings :=
  { customizedClass := isolateClass
    getBidiPairedBracket := fun c => c
    isOpenBracket := fun _ => false
    reorderingMode := .default
    streaming := false
    removeControls := false
    orderParagraphsLTR := false
    prologue := [] }

/-- An object from `ubidi_open`. -/
def openedMemory : Memory :=
  { object :=
      { text := [], length := 0, resultLength := 0, dirProps := [], levels := [], paraLevel := 0,
        defaultParaLevel := 0, direction := .ltr, trailingWSStart := 0, paraCount := 0,
        paras := fun _ => ⟨0, 0⟩, runCount := 0, runs := none, runsMemory :=
          fun _ => ⟨0, false, 0, 0⟩,
        insertPoints := [], controlCount := 0 }
    brackets :=
      { openings := fun _ => ⟨0, 0, 0, false, false, .L⟩
        isoRuns := fun _ => ⟨0, 0, 0, 0, .L, .L, .L⟩
        isoRunLast := 0 }
    isolatesSize := 0 }

/-- PDIs that close nothing hide six open isolates. -/
example : setParaIsolates isolateSettings openedMemory
    [0x5d0, 0x2069, 0x2069, 0x2069, 0x2069, 0x2069, 0x2066, 0x61, 0x2066, 0x61, 0x2066, 0x61,
    0x2066, 0x61,
      0x2066, 0x61, 0x2066, 0x61] 0
    (some [0, 0, 0, 0, 0, 0, 0, 2, 0, 2, 0, 2, 0, 2, 0, 2, 0, 2]) =
    .ok ⟨5, [0, 1, 2, 3, 4, 5]⟩ := by decide

end Icu.BiDi
