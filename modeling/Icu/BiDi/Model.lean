import Icu.ErrorCode
import Icu.Lib.LevelReversal
import Mathlib.Data.Int.Bitwise

/-! # `UBiDi` lines and runs

The functions of `ubidiln.c` on a paragraph object that has its levels, or on an object for a
line of it. Levels, properties and text are the arrays from where the object points to, so a
line has the rest of its paragraph there. Allocations succeed. What an object has in memory
that it does not use is data too, since a line object can be used again.
-/

namespace Icu.BiDi

open Lib.LevelReversal

inductive DirProp
  | L | R | EN | ES | ET | AN | CS | B | S | WS | ON | LRE | LRO | AL | RLE | RLO | PDF | NSM | BN
  | FSI | LRI | RLI | PDI | ENL | ENR
  deriving DecidableEq, Repr

/-- `DIRPROP_FLAG(dirProp)&MASK_WS` -/
def DirProp.isWS : DirProp → Bool
  | .B | .S | .WS | .BN | .LRE | .LRO | .RLE | .RLO | .PDF | .LRI | .RLI | .FSI | .PDI => true
  | _ => false

inductive UBiDiDirection
  | ltr
  | rtl
  | mixed
  deriving DecidableEq, Repr

/-- `(UBiDiDirection)(level&1)` -/
def UBiDiDirection.ofLevel (level : Nat) : UBiDiDirection := if level % 2 = 1 then .rtl else .ltr

def maxExplicitLevel : Nat := 125

structure Para where
  limit : Nat
  level : Nat
  deriving DecidableEq, Repr

/-- `b31` of `logicalStart` is a field of its own. -/
structure Run where
  logicalStart : Nat
  odd : Bool
  visualLimit : Nat
  insertRemove : Int
  deriving DecidableEq, Repr

structure Point where
  pos : Nat
  flag : Nat
  deriving DecidableEq, Repr

def lrmBefore : Nat := 1
def lrmAfter : Nat := 2
def rlmBefore : Nat := 4
def rlmAfter : Nat := 8

/-- `paras` and `runsMemory` have whatever is in the memory behind their last entries.
`runs` is `none` for a `NULL` pointer. -/
structure UBiDi where
  text : List Nat
  length : Nat
  resultLength : Int
  dirProps : List DirProp
  levels : List Nat
  paraLevel : Nat
  defaultParaLevel : Nat
  direction : UBiDiDirection
  trailingWSStart : Nat
  paraCount : Nat
  paras : Nat → Para
  runCount : Int
  runs : Option (List Run)
  runsMemory : Nat → Run
  insertPoints : List Point
  controlCount : Nat

/-- `IS_BIDI_CONTROL_CHAR(c)` -/
def isBiDiControlChar (c : Nat) : Bool :=
  (0x200c ≤ c && c ≤ 0x200f) || (0x202a ≤ c && c ≤ 0x202e) || (0x2066 ≤ c && c ≤ 0x2069)

namespace UBiDi

variable (o : UBiDi)

def levelAt (i : Nat) : Nat := o.levels.getD i 0
def dirPropAt (i : Nat) : DirProp := o.dirProps.getD i .L
def charAt (i : Nat) : Nat := o.text.getD i 0

/-- `ubidi_getParaLevelAtIndex(pBiDi, pindex)` -/
def getParaLevelAtIndex (pindex : Nat) : Nat :=
  let i := skipWhile (fun i => !decide (pindex < (o.paras i).limit)) o.paraCount o.paraCount 0
  if o.paraCount ≤ i then (o.paras (o.paraCount - 1)).level else (o.paras i).level

/-- `GET_PARALEVEL(ubidi, index)` -/
def getParaLevel (index : Nat) : Nat :=
  if o.defaultParaLevel = 0 ∨ index < (o.paras 0).limit then o.paraLevel
  else o.getParaLevelAtIndex index

/-- `ubidi_getParagraph(pBiDi, charIndex)`, for a paragraph object. -/
def getParagraph (charIndex : Nat) : Nat :=
  skipWhile (fun i => decide ((o.paras i).limit ≤ charIndex)) o.paraCount o.paraCount 0

/-- `while(start>0 && p(start-1)) { --start; }` -/
def skipBack (p : Nat → Bool) : Nat → Nat
  | 0 => 0
  | start + 1 => if p start = true then skipBack p start else start + 1

/-- `setTrailingWSStart(pBiDi)`: the new `trailingWSStart`. -/
def getTrailingWSStart : Nat :=
  if o.dirPropAt (o.length - 1) = .B then o.length
  else
    let start := skipBack (fun i => (o.dirPropAt i).isWS) o.length
    skipBack (fun i => o.levelAt i == o.paraLevel) start

/-- The direction of a line of a mixed paragraph. -/
def getLineDirection : UBiDiDirection :=
  if o.trailingWSStart = 0 then .ofLevel o.paraLevel
  else
    let level := o.levelAt 0 % 2
    if o.trailingWSStart < o.length ∧ o.paraLevel % 2 ≠ level then .mixed
    else
      let i := skipWhile (fun i => o.levelAt i % 2 == level) o.trailingWSStart o.trailingWSStart 1
      if i = o.trailingWSStart then .ofLevel level else .mixed

/-- `ubidi_setLine(pParaBiDi, start, limit, pLineBiDi)` -/
def setLine (para : UBiDi) (start limit : Nat) (line : UBiDi) : Except UErrorCode UBiDi :=
  if ¬ (start < limit ∧ limit ≤ para.length) then .error .illegalArgumentError
  else if para.getParagraph start ≠ para.getParagraph (limit - 1) then
    .error .illegalArgumentError
  else
    let length := limit - start
    let controlCount :=
      if para.controlCount > 0 then
        ((List.range' start length).filter fun j => isBiDiControlChar (para.charAt j)).length
      else 0
    let line := { line with
      text := para.text.drop start
      length := length
      resultLength := (length : Int) - controlCount
      paraLevel := para.getParaLevel start
      paraCount := para.paraCount
      runs := none
      controlCount := controlCount
      dirProps := para.dirProps.drop start
      levels := para.levels.drop start
      runCount := -1 }
    if para.direction ≠ .mixed then
      .ok { line with
        direction := para.direction
        trailingWSStart :=
          if para.trailingWSStart ≤ start then 0
          else if para.trailingWSStart < limit then para.trailingWSStart - start
          else length }
    else
      let line := { line with trailingWSStart := line.getTrailingWSStart }
      let line := { line with direction := line.getLineDirection }
      match line.direction with
      | .ltr => .ok { line with paraLevel := (line.paraLevel + 1) / 2 * 2, trailingWSStart := 0 }
      | .rtl => .ok { line with paraLevel := line.paraLevel ||| 1, trailingWSStart := 0 }
      | .mixed => .ok line

/-- `ubidi_getLevelAt(pBiDi, charIndex)` -/
def getLevelAt (charIndex : Nat) : Nat :=
  if o.length ≤ charIndex then 0
  else if o.direction ≠ .mixed ∨ o.trailingWSStart ≤ charIndex then o.getParaLevel charIndex
  else o.levelAt charIndex

/-- `ubidi_getLevels(pBiDi)`: the array of an object with text is now its own. -/
def getLevels : UBiDi :=
  if o.trailingWSStart = o.length then o
  else { o with
    levels := o.levels.take o.trailingWSStart ++
      List.replicate (o.length - o.trailingWSStart) o.paraLevel
    trailingWSStart := o.length }

/-! ## Runs -/

/-- `getSingleRun(pBiDi, level)` -/
def getSingleRun (level : Nat) : UBiDi :=
  { o with
    runs := some [{ logicalStart := 0, odd := level % 2 == 1, visualLimit := o.length,
                    insertRemove := 0 }]
    runCount := 1 }

/-- Count the runs below `trailingWSStart`. -/
def countLevelRuns : Nat :=
  ((List.range o.trailingWSStart).foldl
    (fun (acc : Nat × Nat) i =>
      if o.levelAt i ≠ acc.2 then (acc.1 + 1, o.levelAt i) else acc) (0, 0xfe)).1

/-- The runs from `start` up to `limit`, with their lengths for `visualLimit`. -/
def levelRuns (limit : Nat) : Nat → Nat → List Run
  | 0, _ => []
  | fuel + 1, start =>
    let i := skipWhile (fun j => o.levelAt j == o.levelAt start) limit limit (start + 1)
    { logicalStart := start, odd := false, visualLimit := i - start, insertRemove := 0 } ::
      if i < limit then levelRuns limit fuel i else []

/-- `while(--maxLevel>=minLevel) { ... }` of `reorderLine`. -/
def reorderRuns (runCount minLevel : Nat) : Nat → List Run → List Run
  | 0, runs => runs
  | maxLevel + 1, runs =>
    if minLevel ≤ maxLevel then
      reorderRuns runCount minLevel maxLevel
        (reverseSequences
          (fun runs i => decide (maxLevel ≤ o.levelAt ((runs[i]?.map Run.logicalStart).getD 0)))
          runCount (runCount + 1) runs 0)
    else runs

/-- `reorderLine(pBiDi, minLevel, maxLevel)`: the new `runs`. -/
def reorderLine (runs : List Run) (runCount minLevel maxLevel : Nat) : List Run :=
  if maxLevel ≤ minLevel ||| 1 then runs
  else
    let minLevel := minLevel + 1
    let runCount := if o.trailingWSStart < o.length then runCount - 1 else runCount
    let runs := o.reorderRuns runCount minLevel maxLevel runs
    if minLevel % 2 = 0 then
      let runCount := if o.trailingWSStart = o.length then runCount - 1 else runCount
      swapInward (runCount + 1) runs 0 runCount
    else runs

/-- Add the direction flags, and make the lengths the limits. -/
def addLimits : Nat → List Run → List Run
  | _, [] => []
  | limit, run :: runs =>
    { run with
      odd := run.odd || o.levelAt run.logicalStart % 2 == 1
      visualLimit := limit + run.visualLimit } :: addLimits (limit + run.visualLimit) runs

/-- `ADD_ODD_BIT_FROM_LEVEL(run.logicalStart, level)` -/
def addOddBit (level : Nat) (run : Run) : Run := { run with odd := run.odd || level % 2 == 1 }

/-- The runs of mixed text. -/
def mixedRuns : UBiDi :=
  let limit := o.trailingWSStart
  let runCount := o.countLevelRuns
  if runCount = 1 ∧ limit = o.length then o.getSingleRun (o.levelAt 0)
  else
    let runCount := if limit < o.length then runCount + 1 else runCount
    let runs := o.levelRuns limit limit 0
    let runIndex := runs.length
    let minLevel := runs.foldl (fun m r => min m (o.levelAt r.logicalStart)) (maxExplicitLevel + 1)
    let maxLevel := runs.foldl (fun m r => max m (o.levelAt r.logicalStart)) 0
    -- nothing sets the insertRemove of the white space run
    let runs :=
      if limit < o.length then
        runs ++ [{ logicalStart := limit, odd := false, visualLimit := o.length - limit,
                   insertRemove := (o.runsMemory runIndex).insertRemove }]
      else runs
    let minLevel := if limit < o.length then min minLevel o.paraLevel else minLevel
    let runs := o.reorderLine runs runCount minLevel maxLevel
    let runs := o.addLimits 0 runs
    let runs :=
      if runIndex < runCount then
        runs.modify (if o.paraLevel % 2 = 1 then 0 else runIndex) (addOddBit o.paraLevel)
      else runs
    { o with runs := some runs, runCount := runCount }

/-- `getRunFromLogicalIndex(pBiDi, logicalIndex)`, from the run behind `visualStart` on. -/
def runFromLogicalIndex (logicalIndex : Nat) : List Run → Nat → Nat → Option Nat
  | [], _, _ => none
  | run :: runs, i, visualStart =>
    if run.logicalStart ≤ logicalIndex ∧
        logicalIndex < run.logicalStart + (run.visualLimit - visualStart) then some i
    else runFromLogicalIndex logicalIndex runs (i + 1) run.visualLimit

def getRunFromLogicalIndex (runs : List Run) (logicalIndex : Nat) : Nat × UErrorCode :=
  match runFromLogicalIndex logicalIndex runs 0 0 with
  | some i => (i, .zeroError)
  | none => (0, .invalidStateError)

/-- Change the `insertRemove` of the run with a logical index. -/
def adjustRun (f : Int → Int) (logicalIndex : Nat) (runs : List Run × UErrorCode) :
    List Run × UErrorCode :=
  let found := getRunFromLogicalIndex runs.1 logicalIndex
  (runs.1.modify found.1 fun run => { run with insertRemove := f run.insertRemove },
    if found.2 = .zeroError then runs.2 else found.2)

/-- Note the marks and the controls in the runs. -/
def adjustRuns (runs : List Run) : List Run × UErrorCode :=
  let runs := o.insertPoints.foldl
    (fun runs point => adjustRun (fun n => Int.lor n point.flag) point.pos runs) (runs, .zeroError)
  if o.controlCount > 0 then
    ((List.range o.length).filter fun i => isBiDiControlChar (o.charAt i)).foldl
      (fun runs i => adjustRun (fun n => n - 1) i runs) runs
  else runs

/-- `ubidi_getRuns(pBiDi)` -/
def getRuns : UBiDi × UErrorCode :=
  if o.runCount ≥ 0 then (o, .zeroError)
  else
    let o := if o.direction ≠ .mixed then o.getSingleRun o.paraLevel else o.mixedRuns
    let adjusted := o.adjustRuns (o.runs.getD [])
    ({ o with
        runs := some adjusted.1
        runsMemory := fun i =>
          if o.direction = .mixed ∧ o.runCount > 1 then adjusted.1.getD i (o.runsMemory i)
          else o.runsMemory i }, adjusted.2)

end UBiDi

/-- `do { ... } while(--maxLevel>=minLevel);` of `ubidi_reorderVisual`. -/
def reorderVisualFrom (levels : List Nat) (minLevel : Nat) : Nat → List Nat → List Nat
  | 0, indexMap => indexMap
  | maxLevel + 1, indexMap =>
    let indexMap := reverseSequences
      (fun _ i => decide (maxLevel + 1 ≤ levels.getD i 0)) levels.length (levels.length + 1)
      indexMap 0
    if minLevel ≤ maxLevel then reorderVisualFrom levels minLevel maxLevel indexMap else indexMap

/-- `ubidi_reorderVisual(levels, length, indexMap)`, with `none` for a map that is not set. -/
def reorderVisual (levels : List Nat) : Option (List Nat) :=
  if levels = [] ∨ levels.any (fun l => decide (maxExplicitLevel + 1 < l)) then none
  else
    let minLevel := levels.foldr min (maxExplicitLevel + 1)
    let maxLevel := levels.foldr max 0
    let indexMap := List.range levels.length
    if minLevel = maxLevel ∧ minLevel % 2 = 0 then some indexMap
    else some (reorderVisualFrom levels (minLevel ||| 1) maxLevel indexMap)

end Icu.BiDi
