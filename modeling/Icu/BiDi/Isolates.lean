import Icu.BiDi.ExplicitSpec
import Icu.Lib.Int32

/-! # Isolates

How `ubidi_setPara` uses the array `isolates[]`. Only this part of `resolveImplicitLevels` is here:
the contents of the entries decide levels, not which entries are used.
-/

namespace Icu.BiDi

open Lib.LevelReversal

/-- `SIMPLE_ISOLATES_COUNT` -/
def simpleIsolatesCount : Nat := 5

/-- `sizeof(Isolate)` -/
def isolateBytes : Nat := 12

/-- The number of entries of the array, when `isolatesMemory` has `isolatesSize` bytes. The size is
cast to `int32_t`. -/
def allocatedIsolates (isolateCount isolatesSize : Nat) : Nat :=
  let sizeNeeded := Lib.int32 (isolateCount * isolateBytes : Nat)
  if isolateCount ≤ simpleIsolatesCount then simpleIsolatesCount
  else if sizeNeeded ≤ isolatesSize then isolatesSize / isolateBytes
  else
    -- getInitialIsolatesMemory
    sizeNeeded.toNat / isolateBytes

/-- A run of characters with the same level. Implicit levels are not resolved in an override. -/
structure LevelRun where
  start : Nat
  limit : Nat
  override : Bool
  deriving DecidableEq, Repr

section Runs

variable (dirProps : Nat → DirProp) (levels : Nat → Nat) (length : Nat)

/-- The limit of the run that starts at `start`. -/
def runLimit (start level : Nat) : Nat :=
  skipWhile (fun i => levels i == level || (dirProps i).isBNExplicit) length length (start + 1)

/-- The runs from `start` on. -/
def runsFrom : Nat → Nat → List LevelRun
  | 0, _ => []
  | fuel + 1, start =>
    let limit := runLimit dirProps levels length start (levels start)
    ⟨start, limit, isOverride (levels start)⟩ :: if limit < length then runsFrom fuel limit else []

/-- The last character of the run that ends before `i` and is not removed by (X9), or its first. -/
def lastReal (start : Nat) : Nat → Nat
  | 0 => 0
  | i + 1 => if i + 1 > start ∧ (dirProps (i + 1)).isBNExplicit = true then lastReal start i
    else i + 1

/-- `isolateCount` behind the characters from `i` on. -/
def resetIsolates : Nat → Nat → Int → Int
  | 0, _, isolateCount => isolateCount
  | fuel + 1, i, isolateCount =>
    resetIsolates fuel (i + 1) (if dirProps i = .B then -1 else isolateCount)

/-- The isolates in `resolveImplicitLevels(pBiDi, start, limit, sor, eor)`: the indexes that are
used, and the new `isolateCount`. -/
def resolveIsolates (start limit : Nat) (isolateCount : Int) : List Int × Int :=
  let popped : List Int × Int :=
    if dirProps start = .PDI then ([isolateCount], isolateCount - 1) else ([], isolateCount)
  let isolateCount := resetIsolates dirProps (limit - start) start popped.2
  let dirProp := dirProps (lastReal dirProps start (limit - 1))
  if (dirProp = .LRI ∨ dirProp = .RLI) ∧ limit < length then
    (popped.1 ++ [isolateCount + 1], isolateCount + 1)
  else (popped.1, isolateCount)

/-- The runs that have no override, one by one. -/
def useIsolates : List LevelRun → Int → List Int
  | [], _ => []
  | run :: runs, isolateCount =>
    if run.override then useIsolates runs isolateCount
    else
      let used := resolveIsolates dirProps length run.start run.limit isolateCount
      used.1 ++ useIsolates runs used.2

end Runs

/-- The entries that a call uses, and how many there are. -/
structure IsolateUse where
  allocated : Nat
  indexes : List Int
  deriving DecidableEq, Repr

def IsolateUse.InBounds (use : IsolateUse) : Prop :=
  ∀ index ∈ use.indexes, 0 ≤ index ∧ index < use.allocated

instance (use : IsolateUse) : Decidable use.InBounds :=
  inferInstanceAs (Decidable (∀ index ∈ use.indexes, _))

def levelRuns (o : UBiDi) (noLevels : Bool) (r : ExplicitResult) : List LevelRun :=
  let dirProps := fun i => r.dirProps.getD i .L
  let levels := fun i => r.levels.getD i 0
  if noLevels ∧ o.paraCount ≤ 1 ∧ ¬ r.multiRuns = true then [⟨0, o.length, false⟩]
  else runsFrom dirProps levels o.length (o.length + 1) 0

/-- The object at the start of `ubidi_setPara`. -/
def startPara (text : List UInt16) (paraLevel : Nat) (memory : UBiDi) : UBiDi :=
  { memory with
    text := text.map UInt16.toNat
    length := text.length
    resultLength := text.length
    paraLevel := paraLevel
    direction := .ofLevel paraLevel
    paraCount := 1
    dirProps := []
    runs := none
    insertPoints := []
    defaultParaLevel := if isDefaultLevel paraLevel then 1 else 0
    runCount := -1 }

/-- What former calls have left. `isolatesMemory` has `isolatesSize` bytes, 0 if it is `NULL`. -/
structure Memory where
  object : UBiDi
  brackets : BracketData
  isolatesSize : Nat

/-- The explicit levels that `ubidi_setPara` finds or checks. -/
def explicitLevels (settings : Settings) (memory : Memory) (text : List UInt16) (paraLevel : Nat)
    (embeddingLevels : Option (List Nat)) : Except UErrorCode (UBiDi × ExplicitResult) :=
  let found := getDirProps settings text paraLevel (startPara text paraLevel memory.object)
  match embeddingLevels with
  | none => .ok (found.1, resolveExplicitLevels settings found.1 found.2 memory.brackets)
  | some levels =>
    let o := { found.1 with levels := levels }
    (checkExplicitLevels o).map fun r => (o, r)

def isolateUse (isolatesSize : Nat) (noLevels : Bool) (o : UBiDi) (r : ExplicitResult) :
    IsolateUse :=
  let allocated := allocatedIsolates r.isolateCount isolatesSize
  if r.direction = .mixed then
    ⟨allocated, useIsolates (fun i => r.dirProps.getD i .L) o.length (levelRuns o noLevels r) (-1)⟩
  else ⟨allocated, []⟩

/-- `ubidi_setPara(pBiDi, text, length, paraLevel, embeddingLevels, pErrorCode)` in a mode other
than `UBIDI_REORDER_RUNS_ONLY`. -/
def setParaIsolates (settings : Settings) (memory : Memory) (text : List UInt16) (paraLevel : Nat)
    (embeddingLevels : Option (List Nat)) : Except UErrorCode IsolateUse :=
  if maxExplicitLevel < paraLevel ∧ isDefaultLevel paraLevel = false then
    .error .illegalArgumentError
  else if text = [] then .ok ⟨0, []⟩
  else
    (explicitLevels settings memory text paraLevel embeddingLevels).map fun found =>
      isolateUse memory.isolatesSize embeddingLevels.isNone found.1 found.2

/-! ## Text without levels of the caller -/

section

variable {o : UBiDi} {dirProps : Nat → DirProp} {levels : Nat → Nat} {p level : Nat} {count : Int}
  {isOpen : Prop} {dirProp : DirProp} {start limit n : Nat}

def AllLeft (o : UBiDi) (dirProps : Nat → DirProp) (levels : Nat → Nat) : Prop :=
  ∀ j < o.length, CharLeft o j (o.dirPropAt j) (dirProps j) (levels j)

def LineBreaks (o : UBiDi) : Prop :=
  ∀ i, i + 1 < o.length → o.dirPropAt i = .B → ExplicitState.isCRLF o i = true →
    o.dirPropAt (i + 1) = .B

def opensIsolate (dirProp : DirProp) : Prop := dirProp = .LRI ∨ dirProp = .RLI

def outerLevel (s : ExplicitState) : Nat := noOverride (ExplicitState.topLevel (outerStack s.stack))

/-- The isolates before the character at `p`, inside a run with the level. The entry of an isolate
that was just opened is made at the end of the run only. -/
structure Matched (o : UBiDi) (p level : Nat) (isOpen : Prop) (count : Int) : Prop where
  closed : ¬ isOpen → count + 1 = (stateAt o p).validIsolateCount
  opened : isOpen → count + 2 = (stateAt o p).validIsolateCount ∧
    0 < (stateAt o p).validIsolateCount
  /-- The characters behind the one that opened it have other levels. -/
  above : isOpen → outerLevel (stateAt o p) = level
  /-- The PDI has another level. -/
  below : ¬ isOpen → 0 < (stateAt o p).validIsolateCount →
    outerLevel (stateAt o p) < noOverride level

/-- The counts agree, but between the CR and the LF of a line break, and at the end. -/
def Agrees (o : UBiDi) (p level : Nat) (isOpen : Prop) (count : Int) : Prop :=
  p = o.length ∨ o.dirPropAt p = .B ∧ ¬ isOpen ∧ count = -1 ∨ Matched o p level isOpen count

theorem matched_of_stack (hstack : StackInv (stateAt o p)) (hopen : ¬ isOpen)
    (hsame : (stateAt o (p + 1)).stack = (stateAt o p).stack)
    (hvalid : (stateAt o (p + 1)).validIsolateCount = (stateAt o p).validIsolateCount)
    (hlevel : noOverride level = noOverride (stateAt o p).embeddingLevel)
    (hcount : count + 1 = (stateAt o p).validIsolateCount) :
    Matched o (p + 1) level isOpen count := by
  refine ⟨fun _ => ?_, fun h => absurd h hopen, fun h => absurd h hopen, fun _ hpos => ?_⟩
  · rw [hvalid]
    exact hcount
  unfold outerLevel
  rw [hsame, hlevel]
  rw [hvalid] at hpos
  exact hstack.outer_lt hpos

theorem not_opensIsolate_of_ordinary (h : Brackets.isOrdinary dirProp = true) :
    ¬ opensIsolate dirProp ∧ dirProp ≠ .PDI ∧ dirProp ≠ .B ∧ dirProp.isBNExplicit = false := by
  cases dirProp <;> first | (cases h; done) | (unfold opensIsolate; decide)

theorem stateAt_ordinary (h : Brackets.isOrdinary (o.dirPropAt p) = true) : stateAt o (p + 1) =
    { stateAt o p with previousLevel := (stateAt o p).embeddingLevel } := by
  change (stateAt o p).next o (o.dirPropAt p) p = _
  cases hkind : o.dirPropAt p <;> first | rfl | (rw [hkind] at h; cases h)

theorem matched_ordinary (hstack : StackInv (stateAt o p))
    (hdir : Brackets.isOrdinary (o.dirPropAt p) = true) (hopen : ¬ isOpen)
    (hlevel : noOverride level = noOverride (stateAt o p).embeddingLevel)
    (hcount : count + 1 = (stateAt o p).validIsolateCount) :
    Matched o (p + 1) level isOpen count := by
  have hstate := stateAt_ordinary hdir
  exact matched_of_stack hstack hopen (by rw [hstate]) (by rw [hstate]) hlevel hcount

theorem stateAt_isolate (h : opensIsolate (o.dirPropAt p)) :
    stateAt o (p + 1) = (stateAt o p).isolate (o.dirPropAt p == DirProp.RLI) p :=
  next_isolate h

theorem matched_isolate (hstack : StackInv (stateAt o p)) (hdir : opensIsolate (o.dirPropAt p))
    (hlevel : level = noOverride (stateAt o p).embeddingLevel)
    (hcount : count + 1 = (stateAt o p).validIsolateCount) :
    Matched o (p + 1) level ((stateAt o p).fits (o.dirPropAt p == DirProp.RLI) = true) count := by
  have hstate := stateAt_isolate hdir
  unfold ExplicitState.isolate at hstate
  by_cases hfits : (stateAt o p).fits (o.dirPropAt p == DirProp.RLI) = true
  · have hfits' : ({ stateAt o p with previousLevel := (stateAt o p).embeddingLevel } :
        ExplicitState).fits (o.dirPropAt p == DirProp.RLI) = true := hfits
    rw [if_pos hfits'] at hstate
    refine ⟨fun h => absurd hfits h, fun _ => ?_, fun _ => ?_, fun h => absurd hfits h⟩
    · rw [hstate]
      dsimp only
      omega
    unfold outerLevel outerStack
    rw [hstate]
    rw [List.dropWhile_cons_of_neg (by simp), List.tail_cons, ← hstack.embeddingLevel]
    exact hlevel.symm
  · have hfits' : ¬ ({ stateAt o p with previousLevel := (stateAt o p).embeddingLevel } :
        ExplicitState).fits (o.dirPropAt p == DirProp.RLI) = true := hfits
    rw [if_neg hfits'] at hstate
    refine matched_of_stack hstack hfits (by rw [hstate]) (by rw [hstate]) ?_ hcount
    rw [hlevel]
    exact Brackets.noOverride_noOverride _

theorem stateAt_pdi (h : o.dirPropAt p = .PDI) :
    stateAt o (p + 1) = (stateAt o p).popIsolate p := by
  change (stateAt o p).next o (o.dirPropAt p) p = _
  rw [h]
  rfl

theorem matched_unmatched (hstack : StackInv (stateAt o p)) (hdir : o.dirPropAt p = .PDI)
    (hno : (stateAt o p).overflowIsolateCount > 0 ∨ (stateAt o p).validIsolateCount = 0)
    (hopen : ¬ isOpen)
    (hlevel : level = noOverride (stateAt o p).embeddingLevel)
    (hcount : count + 1 = (stateAt o p).validIsolateCount) :
    Matched o (p + 1) level isOpen count := by
  have hstate := stateAt_pdi hdir
  unfold ExplicitState.popIsolate at hstate
  have hlevel' : noOverride level = noOverride (stateAt o p).embeddingLevel := by
    rw [hlevel]
    exact Brackets.noOverride_noOverride _
  by_cases hoverflow : (stateAt o p).overflowIsolateCount > 0
  · rw [if_pos hoverflow] at hstate
    exact matched_of_stack hstack hopen (by rw [hstate]) (by rw [hstate]) hlevel' hcount
  · rw [if_neg hoverflow, if_neg (by omega)] at hstate
    exact matched_of_stack hstack hopen (by rw [hstate]) (by rw [hstate]) hlevel' hcount

theorem matched_pdi (hstack : StackInv (stateAt o p)) (hdir : o.dirPropAt p = .PDI)
    (hoverflow : (stateAt o p).overflowIsolateCount = 0)
    (hvalid : 0 < (stateAt o p).validIsolateCount)
    (hopen : ¬ isOpen) (hlevel : level = outerLevel (stateAt o p))
    (hcount : count + 2 = (stateAt o p).validIsolateCount) :
    Matched o (p + 1) level isOpen count := by
  have hinv := hstack.popIsolate p
  have hstate := stateAt_pdi hdir
  have hpop : (stateAt o p).popIsolate p = { stateAt o p with
      lastCcPos := p
      overflowEmbeddingCount := 0
      stack := outerStack (stateAt o p).stack
      validIsolateCount := (stateAt o p).validIsolateCount - 1
      embeddingLevel := ExplicitState.topLevel (outerStack (stateAt o p).stack)
      previousLevel := ExplicitState.topLevel (outerStack (stateAt o p).stack) } := by
    unfold ExplicitState.popIsolate
    rw [if_neg (by omega), if_pos hvalid]
    rfl
  refine ⟨fun _ => ?_, fun h => absurd h hopen, fun h => absurd h hopen, fun _ hpos => ?_⟩
  · rw [hstate, hpop]
    dsimp only
    omega
  rw [hstate] at hpos ⊢
  have hlt := hinv.outer_lt hpos
  have hlevel' : noOverride level = noOverride ((stateAt o p).popIsolate p).embeddingLevel := by
    rw [hlevel, hpop]
    exact Brackets.noOverride_noOverride _
  rw [hlevel']
  exact hlt

theorem agrees_of_b (hlines : LineBreaks o) (hp : p < o.length) (hdir : o.dirPropAt p = .B)
    (hopen : ¬ isOpen) : Agrees o (p + 1) level isOpen (-1) := by
  by_cases hend : p + 1 = o.length
  · exact Or.inl hend
  by_cases hcrlf : ExplicitState.isCRLF o p = true
  · exact Or.inr (Or.inl ⟨hlines p (by omega) hdir hcrlf, hopen, rfl⟩)
  have hzero : (stateAt o (p + 1)).validIsolateCount = 0 := by
    change ((stateAt o p).next o (o.dirPropAt p) p).validIsolateCount = 0
    rw [hdir]
    unfold ExplicitState.next
    rw [if_pos ⟨by omega, hcrlf⟩]
    rfl
  refine Or.inr (Or.inr ⟨fun _ => ?_, fun h => absurd h hopen, fun h => absurd h hopen,
    fun _ hpos => ?_⟩)
  · rw [hzero]
    rfl
  · omega

theorem outerStack_cons {entry : Nat} {stack : List Nat} (h : entry < isolateFlag) :
    outerStack (entry :: stack) = outerStack stack := by
  unfold outerStack
  rw [List.dropWhile_cons_of_pos (by simpa using h)]

theorem outerStack_embed (s : ExplicitState) (odd override : Bool) (i : Nat) :
    outerStack (s.embed odd override i).stack = outerStack s.stack := by
  unfold ExplicitState.embed
  split
  · next hfits =>
    unfold ExplicitState.fits maxExplicitLevel at hfits
    simp only [Bool.and_eq_true, decide_eq_true_eq] at hfits
    refine outerStack_cons ?_
    unfold levelOverride isolateFlag
    split
    · omega
    · omega
  split
  · rfl
  · rfl

theorem outerStack_popEmbedding (s : ExplicitState) (i : Nat) :
    outerStack (s.popEmbedding i).stack = outerStack s.stack := by
  unfold ExplicitState.popEmbedding
  split
  · rfl
  split
  · rfl
  split
  · next hpop =>
    cases hstack : s.stack with
    | nil => rfl
    | cons top stack =>
      rw [hstack, List.headD_cons] at hpop
      exact (outerStack_cons hpop.2).symm
  · rfl

theorem outerStack_removed {s : ExplicitState} (h : dirProp.isBNExplicit = true) :
    outerStack (s.next o dirProp p).stack = outerStack s.stack := by
  cases dirProp <;> first
    | rfl
    | exact outerStack_embed s _ _ p
    | exact outerStack_popEmbedding s p
    | cases h

theorem matched_removed (hdir : (o.dirPropAt p).isBNExplicit = true)
    (h : Matched o p level isOpen count) :
    Matched o (p + 1) level isOpen count := by
  have hvalid : (stateAt o (p + 1)).validIsolateCount = (stateAt o p).validIsolateCount :=
    next_removed_valid hdir
  have houter : outerLevel (stateAt o (p + 1)) = outerLevel (stateAt o p) :=
    congrArg (fun stack => noOverride (ExplicitState.topLevel stack)) (outerStack_removed hdir)
  refine ⟨?_, ?_, ?_, ?_⟩
  · rw [hvalid]
    exact h.closed
  · rw [hvalid]
    exact h.opened
  · rw [houter]
    exact h.above
  · rw [hvalid, houter]
    exact h.below

/-! ### One character -/

theorem charLeft_pdi (h : o.dirPropAt p = .PDI)
    (hleft : CharLeft o p (o.dirPropAt p) (dirProps p) level) :
    level = noOverride ((stateAt o p).popIsolate p).embeddingLevel ∧ dirProps p =
      if (stateAt o p).overflowIsolateCount > 0 ∨ (stateAt o p).validIsolateCount = 0 then .WS
      else .PDI := by
  rw [h] at hleft
  exact hleft

theorem charLeft_b (h : o.dirPropAt p = .B)
    (hleft : CharLeft o p (o.dirPropAt p) (dirProps p) level) :
    level = o.getParaLevel p ∧ dirProps p = .B := by
  rw [h] at hleft
  exact hleft

theorem popIsolate_unmatched (hstack : StackInv (stateAt o p))
    (h : (stateAt o p).overflowIsolateCount > 0 ∨ (stateAt o p).validIsolateCount = 0) :
    ((stateAt o p).popIsolate p).embeddingLevel = (stateAt o p).embeddingLevel := by
  unfold ExplicitState.popIsolate
  rw [hstack.embeddingLevel]
  split
  · rfl
  · rw [if_neg (by omega)]

/-- The level of a character that is not removed, not a B and not a PDI that is matched. -/
theorem level_eq (hstack : StackInv (stateAt o p))
    (hleft : CharLeft o p (o.dirPropAt p) (dirProps p) level)
    (hremoved : (o.dirPropAt p).isBNExplicit = false) (hb : o.dirPropAt p ≠ .B)
    (hpdi : o.dirPropAt p = .PDI →
      (stateAt o p).overflowIsolateCount > 0 ∨ (stateAt o p).validIsolateCount = 0) :
    noOverride level = noOverride (stateAt o p).embeddingLevel := by
  rcases dirProp_kinds (o.dirPropAt p) with hkind | hkind | hkind | hkind | hkind
  · rw [hremoved] at hkind
    cases hkind
  · rw [((charLeft_isolate hkind).mp hleft).1]
    exact Brackets.noOverride_noOverride _
  · rw [(charLeft_pdi hkind hleft).1, popIsolate_unmatched hstack (hpdi hkind)]
    exact Brackets.noOverride_noOverride _
  · exact absurd hkind hb
  · exact ((charLeft_ordinary hkind).mp hleft).1

theorem agrees_of_closed (hlines : LineBreaks o) (hstack : StackInv (stateAt o p))
    (hp : p < o.length)
    (hleft : CharLeft o p (o.dirPropAt p) (dirProps p) level)
    (hremoved : (o.dirPropAt p).isBNExplicit = false) (hpdi : o.dirPropAt p = .PDI →
      (stateAt o p).overflowIsolateCount > 0 ∨ (stateAt o p).validIsolateCount = 0)
    (hcount : count + 1 = (stateAt o p).validIsolateCount) :
    Agrees o (p + 1) level (opensIsolate (dirProps p)) (if dirProps p = .B then -1 else count) := by
  rcases dirProp_kinds (o.dirPropAt p) with hkind | hkind | hkind | hkind | hkind
  · rw [hremoved] at hkind
    cases hkind
  · obtain ⟨hlevel, hdir⟩ := (charLeft_isolate hkind).mp hleft
    have hmatched := matched_isolate hstack hkind hlevel hcount
    by_cases hfits : (stateAt o p).fits (o.dirPropAt p == DirProp.RLI) = true
    · rw [if_pos hfits] at hdir
      have hopen : opensIsolate (dirProps p) := by
        rw [hdir]
        exact hkind
      have hb : dirProps p ≠ .B := by
        rw [hdir]
        cases hkind with
        | inl hkind => simp [hkind]
        | inr hkind => simp [hkind]
      rw [if_neg hb]
      refine Or.inr (Or.inr ⟨fun h => absurd hopen h, fun _ => hmatched.opened hfits,
        fun _ => hmatched.above hfits, fun h => absurd hopen h⟩)
    · rw [if_neg hfits] at hdir
      rw [hdir, if_neg (by decide)]
      refine Or.inr (Or.inr ⟨fun _ => hmatched.closed hfits, ?_, ?_, fun _ => hmatched.below hfits⟩)
      · exact fun h => absurd h (by unfold opensIsolate; decide)
      · exact fun h => absurd h (by unfold opensIsolate; decide)
  · obtain ⟨hlevel, hdir⟩ := charLeft_pdi hkind hleft
    rw [if_pos (hpdi hkind)] at hdir
    rw [popIsolate_unmatched hstack (hpdi hkind)] at hlevel
    rw [hdir, if_neg (by decide)]
    exact Or.inr (Or.inr (matched_unmatched hstack hkind (hpdi hkind)
      (by unfold opensIsolate; decide)
      hlevel hcount))
  · obtain ⟨-, hdir⟩ := charLeft_b hkind hleft
    rw [hdir, if_pos rfl]
    exact agrees_of_b hlines hp hkind (by unfold opensIsolate; decide)
  · obtain ⟨hlevel, hdir⟩ := (charLeft_ordinary hkind).mp hleft
    obtain ⟨hopen, -, hb, -⟩ := not_opensIsolate_of_ordinary hdir
    rw [if_neg hb]
    exact Or.inr (Or.inr (matched_ordinary hstack hkind hopen hlevel hcount))

theorem isBNExplicit_left (hleft : CharLeft o p (o.dirPropAt p) (dirProps p) level) :
    (dirProps p).isBNExplicit = (o.dirPropAt p).isBNExplicit := by
  rcases dirProp_kinds (o.dirPropAt p) with hkind | hkind | hkind | hkind | hkind
  · rw [((charLeft_removed hkind).mp hleft).2]
  · rw [((charLeft_isolate hkind).mp hleft).2]
    cases hkind with
    | inl hkind =>
      rw [hkind]
      split
      · rfl
      · rfl
    | inr hkind =>
      rw [hkind]
      split
      · rfl
      · rfl
  · rw [(charLeft_pdi hkind hleft).2, hkind]
    split
    · rfl
    · rfl
  · rw [(charLeft_b hkind hleft).2, hkind]
  · obtain ⟨-, -, -, hremoved⟩ := not_opensIsolate_of_ordinary hkind
    obtain ⟨-, -, -, hremoved'⟩ :=
      not_opensIsolate_of_ordinary ((charLeft_ordinary hkind).mp hleft).2
    rw [hremoved, hremoved']

theorem Agrees.next (hlines : LineBreaks o) (hstack : StackInv (stateAt o p)) (hp : p < o.length)
    (hleft : CharLeft o p (o.dirPropAt p) (dirProps p) (levels p))
    (hrun : (dirProps p).isBNExplicit = true ∨ levels p = level)
    (h : Agrees o p level isOpen count) :
    Agrees o (p + 1) level (if (dirProps p).isBNExplicit = true then isOpen
    else opensIsolate (dirProps p))
      (if dirProps p = .B then -1 else count) := by
  have hbn := isBNExplicit_left hleft
  rcases h with hend | ⟨hdir, hclosed, hcount⟩ | hmatched
  · omega
  · obtain ⟨-, hdir'⟩ := charLeft_b hdir hleft
    rw [hdir', if_pos rfl, if_neg (by decide)]
    exact agrees_of_b hlines hp hdir (by unfold opensIsolate; decide)
  by_cases hremoved : (o.dirPropAt p).isBNExplicit = true
  · have hb : dirProps p ≠ .B := by
      rw [((charLeft_removed hremoved).mp hleft).2]
      intro hdir
      rw [hdir] at hremoved
      cases hremoved
    rw [hbn, if_pos hremoved, if_neg hb]
    exact Or.inr (Or.inr (matched_removed hremoved hmatched))
  have hlevel : levels p = level := by
    cases hrun with
    | inl hrun =>
      rw [hbn] at hrun
      exact absurd hrun hremoved
    | inr hrun => exact hrun
  rw [hlevel] at hleft
  rw [hbn, if_neg hremoved]
  rw [Bool.not_eq_true] at hremoved
  by_cases hb : o.dirPropAt p = .B
  · obtain ⟨-, hdir⟩ := charLeft_b hb hleft
    rw [hdir, if_pos rfl]
    exact agrees_of_b hlines hp hb (by unfold opensIsolate; decide)
  by_cases hpdi : o.dirPropAt p = .PDI ∧ (stateAt o p).overflowIsolateCount = 0 ∧
      0 < (stateAt o p).validIsolateCount
  · obtain ⟨hpdi, hoverflow, hvalid⟩ := hpdi
    obtain ⟨hlevel', hdir⟩ := charLeft_pdi hpdi hleft
    have houter : level = outerLevel (stateAt o p) := by
      rw [hlevel']
      unfold ExplicitState.popIsolate
      rw [if_neg (by omega), if_pos hvalid]
      rfl
    rw [if_neg (by omega)] at hdir
    rw [hdir, if_neg (by decide)]
    by_cases hopen : isOpen
    · exact Or.inr (Or.inr (matched_pdi hstack hpdi hoverflow hvalid
        (by unfold opensIsolate; decide) houter
        (hmatched.opened hopen).1))
    -- a PDI of an isolate with characters in it is in another run
    have hbelow := hmatched.below hopen hvalid
    rw [houter] at hbelow
    unfold outerLevel at hbelow
    rw [Brackets.noOverride_noOverride] at hbelow
    exact absurd hbelow (Nat.lt_irrefl _)
  · have hpdi' : o.dirPropAt p = .PDI →
        (stateAt o p).overflowIsolateCount > 0 ∨ (stateAt o p).validIsolateCount = 0 := by
      intro hdir
      by_contra hno
      exact hpdi ⟨hdir, by omega, by omega⟩
    by_cases hopen : isOpen
    · -- the characters in an isolate are in another run than the one that opens it
      have hlt := hstack.outer_lt (hmatched.opened hopen).2
      have habove := hmatched.above hopen
      have heq := level_eq hstack hleft hremoved hb hpdi'
      have hle := noOverride_le level
      unfold outerLevel at habove
      omega
    · exact agrees_of_closed hlines hstack hp hleft hremoved hpdi' (hmatched.closed hopen)

/-! ### One run -/

theorem resetIsolates_succ (n : Nat) : ∀ (i : Nat) (count : Int),
    resetIsolates dirProps (n + 1) i count =
      if dirProps (i + n) = .B then -1 else resetIsolates dirProps n i count := by
  induction n with
  | zero => exact fun i count => rfl
  | succ n ih =>
    intro i count
    rw [resetIsolates, ih (i + 1), show i + 1 + n = i + (n + 1) by omega]
    rfl

theorem agrees_run (hlines : LineBreaks o) (hpara : ∀ i, o.getParaLevel i ≤ maxExplicitLevel)
    (hleft : AllLeft o dirProps levels) (hlimit : limit ≤ o.length)
    (hrun : ∀ j, start < j → j < limit → (dirProps j).isBNExplicit = true ∨ levels j = level)
    (hfirst : Agrees o (start + 1) level (opensIsolate (dirProps start))
      (resetIsolates dirProps 1 start count)) :
    ∀ p, start < p → p ≤ limit →
      Agrees o p level (opensIsolate (dirProps (lastReal dirProps start (p - 1))))
      (resetIsolates dirProps (p - start) start count) := by
  intro p hstart hp
  obtain ⟨n, rfl⟩ := Nat.exists_eq_add_of_lt hstart
  induction n with
  | zero =>
    rw [Nat.add_zero, Nat.add_sub_cancel, Nat.add_sub_cancel_left]
    have hlast : lastReal dirProps start start = start := by
      cases start with
      | zero => rfl
      | succ start =>
        rw [lastReal, if_neg fun h => Nat.lt_irrefl _ h.1]
    rw [hlast]
    exact hfirst
  | succ n ih =>
    have hih := (ih (by omega) (by omega)).next hlines (stackInv_stateAt hpara _) (by omega)
      (hleft _ (by omega)) (hrun _ (by omega) (by omega))
    rw [show start + (n + 1) + 1 - 1 = start + n + 1 by omega,
      show start + (n + 1) + 1 - start = n + 1 + 1 by omega, resetIsolates_succ,
      show start + (n + 1) = start + n + 1 by omega]
    rw [show start + n + 1 - start = n + 1 by omega, show start + n + 1 - 1 =
      start + n by omega] at hih
    rw [lastReal]
    by_cases hbn : (dirProps (start + n + 1)).isBNExplicit = true
    · rw [if_pos hbn] at hih
      rw [if_pos ⟨by omega, hbn⟩]
      exact hih
    · rw [if_neg hbn] at hih
      rw [if_neg fun h => hbn h.2]
      exact hih

def Starts (o : UBiDi) (start : Nat) (count : Int) : Prop :=
  o.dirPropAt start = .B ∧ count = -1 ∨ count + 1 = (stateAt o start).validIsolateCount

theorem pdi_left (hleft : CharLeft o p (o.dirPropAt p) (dirProps p) level)
    (hdir : dirProps p = .PDI) :
    o.dirPropAt p = .PDI ∧ (stateAt o p).overflowIsolateCount = 0 ∧
      0 < (stateAt o p).validIsolateCount := by
  rcases dirProp_kinds (o.dirPropAt p) with hkind | hkind | hkind | hkind | hkind
  · rw [← ((charLeft_removed hkind).mp hleft).2, hdir] at hkind
    cases hkind
  · have hleft' := ((charLeft_isolate hkind).mp hleft).2
    rw [hdir] at hleft'
    split at hleft'
    · rw [← hleft'] at hkind
      cases hkind with
      | inl hkind => cases hkind
      | inr hkind => cases hkind
    · cases hleft'
  · have hleft' := (charLeft_pdi hkind hleft).2
    rw [hdir] at hleft'
    split at hleft'
    · cases hleft'
    · exact ⟨hkind, by omega, by omega⟩
  · rw [(charLeft_b hkind hleft).2] at hdir
    cases hdir
  · obtain ⟨-, hne, -⟩ := not_opensIsolate_of_ordinary ((charLeft_ordinary hkind).mp hleft).2
    exact absurd hdir hne

theorem agrees_first (hlines : LineBreaks o) (hpara : ∀ i, o.getParaLevel i ≤ maxExplicitLevel)
    (hp : p < o.length) (hleft : CharLeft o p (o.dirPropAt p) (dirProps p) level)
    (hfirst : (o.dirPropAt p).isBNExplicit = true → p = 0) (hstart : Starts o p count) :
    Agrees o (p + 1) level (opensIsolate (dirProps p))
      (resetIsolates dirProps 1 p (if dirProps p = .PDI then count - 1 else count)) := by
  have hstack := stackInv_stateAt hpara p
  unfold resetIsolates resetIsolates
  by_cases hb : o.dirPropAt p = .B
  · obtain ⟨-, hdir⟩ := charLeft_b hb hleft
    rw [hdir, if_pos rfl]
    exact agrees_of_b hlines hp hb (by unfold opensIsolate; decide)
  have hcount : count + 1 = (stateAt o p).validIsolateCount := by
    cases hstart with
    | inl hcrlf => exact absurd hcrlf.1 hb
    | inr hcount => exact hcount
  by_cases hdir : dirProps p = .PDI
  · obtain ⟨hkind, hoverflow, hvalid⟩ := pdi_left hleft hdir
    have hlevel := (charLeft_pdi hkind hleft).1
    have houter : level = outerLevel (stateAt o p) := by
      rw [hlevel]
      unfold ExplicitState.popIsolate
      rw [if_neg (by omega), if_pos hvalid]
      rfl
    rw [hdir, if_pos rfl, if_neg (by decide)]
    exact Or.inr (Or.inr (matched_pdi hstack hkind hoverflow hvalid (by unfold opensIsolate; decide)
      houter
      (by omega)))
  rw [if_neg hdir]
  by_cases hremoved : (o.dirPropAt p).isBNExplicit = true
  · have hleft' := ((charLeft_removed hremoved).mp hleft).2
    have hvalid : (stateAt o (p + 1)).validIsolateCount = (stateAt o p).validIsolateCount :=
      next_removed_valid hremoved
    have hzero : (stateAt o p).validIsolateCount = 0 := by
      rw [hfirst hremoved]
      rfl
    have hopen : ¬ opensIsolate (dirProps p) := by
      rw [hleft']
      intro hopen
      cases hopen with
      | inl hopen =>
        rw [hopen] at hremoved
        cases hremoved
      | inr hopen =>
        rw [hopen] at hremoved
        cases hremoved
    have hb' : dirProps p ≠ .B := by
      rw [hleft']
      exact hb
    rw [if_neg hb']
    exact Or.inr (Or.inr ⟨fun _ => by omega, fun h => absurd h hopen, fun h => absurd h hopen,
      fun _ hpos => by omega⟩)
  · refine agrees_of_closed hlines hstack hp hleft (Bool.not_eq_true _ ▸ hremoved) ?_ hcount
    intro hkind
    have hleft' := (charLeft_pdi hkind hleft).2
    by_contra hno
    rw [if_neg hno] at hleft'
    exact hdir hleft'

theorem runLimit_spec {start : Nat} (hstart : start < o.length) :
    start < runLimit dirProps levels o.length start level ∧
      runLimit dirProps levels o.length start level ≤ o.length ∧
      (∀ j, start < j → j < runLimit dirProps levels o.length start level →
        (dirProps j).isBNExplicit = true ∨ levels j = level) ∧
      (runLimit dirProps levels o.length start level < o.length →
        (dirProps (runLimit dirProps levels o.length start level)).isBNExplicit = false) := by
  obtain ⟨hlow, hhigh, hinside, hend⟩ := skipWhile_spec
    (fun i => levels i == level || (dirProps i).isBNExplicit) o.length o.length (start + 1) hstart
      (by omega)
  refine ⟨hlow, hhigh, fun j hj hlt => ?_, fun hlt => ?_⟩
  · have hchar := hinside j hj hlt
    simp only [Bool.or_eq_true, beq_iff_eq] at hchar
    exact hchar.symm
  · have hchar := hend hlt
    rw [Bool.or_eq_false_iff] at hchar
    exact hchar.2

/-- A run without override uses entries that are there, and the counts agree behind it. -/
theorem resolveIsolates_spec (hlines : LineBreaks o)
    (hpara : ∀ i, o.getParaLevel i ≤ maxExplicitLevel)
    (hleft : AllLeft o dirProps levels)
    (hn : ∀ j, (stateAt o j).validIsolateCount ≤ n ∨ o.length < j) (hstart : start < limit)
    (hlimit : limit ≤ o.length)
    (hrun : ∀ j, start < j → j < limit → (dirProps j).isBNExplicit = true ∨ levels j = levels start)
    (hfirst : (o.dirPropAt start).isBNExplicit = true → start = 0) (hcount : Starts o start count) :
    (∀ index ∈ (resolveIsolates dirProps o.length start limit count).1, 0 ≤ index ∧ index < n) ∧
      (limit < o.length → Starts o limit
        (resolveIsolates dirProps o.length start limit count).2) := by
  have hagrees := agrees_run hlines hpara hleft hlimit hrun
    (agrees_first hlines hpara (by omega) (hleft start (by omega)) hfirst hcount) limit hstart
      (Nat.le_refl _)
  have hpopped : ∀ index ∈ (if dirProps start = .PDI then ([count], count - 1) else ([], count)).1,
      0 ≤ index ∧ index < (n : Int) := by
    intro index hindex
    split at hindex
    · next hdir =>
      obtain ⟨hkind, -, hvalid⟩ := pdi_left (hleft start (by omega)) hdir
      have hbound := hn start
      rw [List.mem_singleton] at hindex
      cases hcount with
      | inl hcrlf =>
        rw [hcrlf.1] at hkind
        cases hkind
      | inr hcount => omega
    · exact absurd hindex List.not_mem_nil
  have hsecond : (if dirProps start = .PDI then ([count], count - 1) else ([], count)).2 =
      if dirProps start = .PDI then count - 1 else count := by
    split
    · rfl
    · rfl
  unfold resolveIsolates
  dsimp only
  rw [hsecond]
  by_cases hlast : (dirProps (lastReal dirProps start (limit - 1)) = .LRI ∨
      dirProps (lastReal dirProps start (limit - 1)) = .RLI) ∧ limit < o.length
  · rw [if_pos hlast]
    rcases hagrees with hend | ⟨-, hopen, -⟩ | hmatched
    · omega
    · exact absurd hlast.1 hopen
    · obtain ⟨hopened, hvalid⟩ := hmatched.opened hlast.1
      have hbound := hn limit
      refine ⟨fun index hindex => ?_, fun _ => Or.inr (by omega)⟩
      rcases List.mem_append.mp hindex with hold | hnew
      · exact hpopped index hold
      rw [List.mem_singleton] at hnew
      omega
  · rw [if_neg hlast]
    refine ⟨hpopped, fun hlt => ?_⟩
    rcases hagrees with hend | ⟨hdir, -, hcount'⟩ | hmatched
    · omega
    · exact Or.inl ⟨hdir, hcount'⟩
    · exact Or.inr (hmatched.closed fun hopen => hlast ⟨hopen, hlt⟩)

theorem isOverride_paraLevel (h : level ≤ maxExplicitLevel) : isOverride level = false := by
  unfold maxExplicitLevel at h
  have hlt : level < levelOverride := by
    unfold levelOverride
    omega
  rw [← noOverride_of_lt hlt]
  exact isOverride_noOverride level

theorem valid_of_override (hpara : ∀ i, o.getParaLevel i ≤ maxExplicitLevel)
    (hleft : CharLeft o p (o.dirPropAt p) (dirProps p) level)
    (hlevel : (o.dirPropAt p).isBNExplicit = true ∨ isOverride level = true) :
    (stateAt o (p + 1)).validIsolateCount = (stateAt o p).validIsolateCount ∧
    o.dirPropAt p ≠ .B := by
  have hno : (o.dirPropAt p).isBNExplicit = false → isOverride level = false →
      (stateAt o (p + 1)).validIsolateCount = (stateAt o p).validIsolateCount ∧
        o.dirPropAt p ≠ .B := by
    intro hremoved hover
    rw [hremoved, hover] at hlevel
    cases hlevel with
    | inl hlevel => cases hlevel
    | inr hlevel => cases hlevel
  rcases dirProp_kinds (o.dirPropAt p) with hkind | hkind | hkind | hkind | hkind
  · refine ⟨next_removed_valid hkind, ?_⟩
    intro hdir
    rw [hdir] at hkind
    cases hkind
  · have hlevel' := ((charLeft_isolate hkind).mp hleft).1
    apply hno
    · cases hkind with
      | inl hkind => rw [hkind]; rfl
      | inr hkind => rw [hkind]; rfl
    · rw [hlevel']
      exact isOverride_noOverride _
  · have hlevel' := (charLeft_pdi hkind hleft).1
    apply hno
    · rw [hkind]
      rfl
    · rw [hlevel']
      exact isOverride_noOverride _
  · have hlevel' := (charLeft_b hkind hleft).1
    apply hno
    · rw [hkind]
      rfl
    · rw [hlevel']
      exact isOverride_paraLevel (hpara p)
  · rw [stateAt_ordinary hkind]
    exact ⟨rfl, (not_opensIsolate_of_ordinary hkind).2.2.1⟩

theorem starts_of_override (hpara : ∀ i, o.getParaLevel i ≤ maxExplicitLevel)
    (hleft : AllLeft o dirProps levels) (hstart : start < limit) (hlimit : limit ≤ o.length)
    (hrun : ∀ j, start < j → j < limit → (dirProps j).isBNExplicit = true ∨ levels j = levels start)
    (hover : isOverride (levels start) = true) (hcount : Starts o start count) :
    Starts o limit count := by
  have hsame : ∀ j, start ≤ j → j < limit →
      (stateAt o (j + 1)).validIsolateCount = (stateAt o j).validIsolateCount ∧
        o.dirPropAt j ≠ .B := by
    intro j hj hlt
    have hleft' := hleft j (by omega)
    refine valid_of_override hpara hleft' ?_
    rcases Nat.eq_or_lt_of_le hj with heq | hless
    · rw [← heq]
      exact Or.inr hover
    cases hrun j hless hlt with
    | inl hbn =>
      rw [isBNExplicit_left hleft'] at hbn
      exact Or.inl hbn
    | inr hlevel =>
      rw [hlevel]
      exact Or.inr hover
  have hvalid : ∀ n, start + n ≤ limit →
      (stateAt o (start + n)).validIsolateCount = (stateAt o start).validIsolateCount := by
    intro n
    induction n with
    | zero => exact fun _ => rfl
    | succ n ih =>
      intro hle
      rw [← ih (by omega)]
      exact (hsame (start + n) (by omega) (by omega)).1
  have hlast := hvalid (limit - start) (by omega)
  rw [Nat.add_sub_cancel' hstart.le] at hlast
  cases hcount with
  | inl hcrlf => exact absurd hcrlf.1 (hsame start (Nat.le_refl _) hstart).2
  | inr hcount =>
    refine Or.inr ?_
    rw [hlast]
    exact hcount

theorem useIsolates_spec (hlines : LineBreaks o) (hpara : ∀ i, o.getParaLevel i ≤ maxExplicitLevel)
    (hleft : AllLeft o dirProps levels)
    (hn : ∀ j, (stateAt o j).validIsolateCount ≤ n ∨ o.length < j) (fuel : Nat) {count : Int}
    (hstart : start < o.length) (hfirst : (o.dirPropAt start).isBNExplicit = true → start = 0)
    (hcount : Starts o start count) :
    ∀ index ∈ useIsolates dirProps o.length (runsFrom dirProps levels o.length fuel start) count,
      0 ≤ index ∧ index < n := by
  induction fuel generalizing start count with
  | zero => exact fun index hindex => absurd hindex List.not_mem_nil
  | succ fuel ih =>
    obtain ⟨hlow, hhigh, hinside, hend⟩ :=
      @runLimit_spec o dirProps levels (levels start) start hstart
    have hrest : ∀ count', (runLimit dirProps levels o.length start (levels start) < o.length →
        Starts o (runLimit dirProps levels o.length start (levels start)) count') →
        ∀ index ∈ useIsolates dirProps o.length
          (if runLimit dirProps levels o.length start (levels start) < o.length then
            runsFrom dirProps levels o.length fuel
              (runLimit dirProps levels o.length start (levels start))
          else []) count', 0 ≤ index ∧ index < n := by
      intro count' hcount'
      by_cases hlt : runLimit dirProps levels o.length start (levels start) < o.length
      · rw [if_pos hlt]
        refine ih hlt (fun hremoved => ?_) (hcount' hlt)
        rw [← isBNExplicit_left (hleft _ hlt), hend hlt] at hremoved
        cases hremoved
      · rw [if_neg hlt]
        exact fun index hindex => absurd hindex List.not_mem_nil
    unfold runsFrom useIsolates
    by_cases hover : isOverride (levels start) = true
    · rw [if_pos hover]
      exact hrest count fun _ => starts_of_override hpara hleft hlow hhigh hinside hover hcount
    rw [if_neg hover]
    obtain ⟨hbounds, hnext⟩ :=
      resolveIsolates_spec hlines hpara hleft hn hlow hhigh hinside hfirst hcount
    intro index hindex
    rcases List.mem_append.mp hindex with hmem | hmem
    · exact hbounds index hmem
    · exact hrest _ hnext index hmem

end

end Icu.BiDi
