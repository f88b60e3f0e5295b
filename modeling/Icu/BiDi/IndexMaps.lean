import Icu.BiDi.Model

/-! # Index maps

The functions of `ubidiln.c` that map between logical and visual indexes. A query returns
the object as it is by then, since it may have set up the runs. It returns `none` if it goes
through a `NULL` pointer or reads behind the last run.
-/

namespace Icu.BiDi

/-- An array of the caller: the indexes that have been stored into it. -/
def IndexMap := Nat → Option Int

namespace IndexMap

def unset : IndexMap := fun _ => none

def set (m : IndexMap) (i : Nat) (v : Int) : IndexMap := fun j => if j = i then some v else m j

/-- `indexMap[i]+=n` -/
def add (m : IndexMap) (i : Nat) (n : Int) : IndexMap :=
  fun j => if j = i then (m i).map (· + n) else m j

/-- `indexMap[i]=indexMap[j]` -/
def move (m : IndexMap) (i j : Nat) : IndexMap := fun k => if k = i then m j else m k

end IndexMap

/-- `UBIDI_MAP_NOWHERE` -/
def mapNowhere : Int := -1

/-- `insertRemove&(LRM_BEFORE|RLM_BEFORE)` -/
def markBefore (insertRemove : Int) : Bool :=
  decide (Int.land insertRemove (lrmBefore ||| rlmBefore : Nat) ≠ 0)

/-- `insertRemove&(LRM_AFTER|RLM_AFTER)` -/
def markAfter (insertRemove : Int) : Bool :=
  decide (Int.land insertRemove (lrmAfter ||| rlmAfter : Nat) ≠ 0)

namespace Run

/-- The logical index of the `j`th visual position of a run. -/
def logicalAt (run : Run) (length j : Nat) : Nat :=
  if run.odd then run.logicalStart + length - 1 - j else run.logicalStart + j

end Run

namespace UBiDi

variable (o : UBiDi)

/-- `IS_BIDI_CONTROL_CHAR(pBiDi->text[i])` -/
def isControlAt (i : Nat) : Bool := isBiDiControlChar (o.charAt i)

/-- The runs that a loop up to `runCount` reads. -/
def runsOf : Option (List Run) := if o.runCount ≤ 0 then some [] else o.runs

/-- `do { ... } while(visualStart<visualLimit);` for each run. -/
def fillLogicalMap : List Run → Nat → IndexMap → IndexMap
  | [], _, m => m
  | run :: runs, visualStart, m =>
    let length := run.visualLimit - visualStart
    fillLogicalMap runs (visualStart + max 1 length)
      ((List.range (max 1 length)).foldl
        (fun m j => m.set (run.logicalAt length j) ((visualStart + j : Nat) : Int)) m)

/-- Add the number of marks found until each index. -/
def addMarks : List Run → Nat → Nat → IndexMap → IndexMap
  | [], _, _, m => m
  | run :: runs, visualStart, markFound, m =>
    let length := run.visualLimit - visualStart
    let markFound := if markBefore run.insertRemove then markFound + 1 else markFound
    let m :=
      if markFound > 0 then
        (List.range' run.logicalStart length).foldl (fun m j => m.add j markFound) m
      else m
    let markFound := if markAfter run.insertRemove then markFound + 1 else markFound
    addMarks runs (visualStart + length) markFound m

/-- Subtract the number of controls found until each index. -/
def subtractControls (control : Nat → Bool) : List Run → Nat → Int → IndexMap → IndexMap
  | [], _, _, m => m
  | run :: runs, visualStart, controlFound, m =>
    let length := run.visualLimit - visualStart
    if controlFound - run.insertRemove = 0 then
      subtractControls control runs (visualStart + length) controlFound m
    else if run.insertRemove = 0 then
      subtractControls control runs (visualStart + length) controlFound
        ((List.range' run.logicalStart length).foldl (fun m j => m.add j (-controlFound)) m)
    else
      let found := (List.range length).foldl
        (fun (acc : Int × IndexMap) j =>
          let k := run.logicalAt length j
          if control k then (acc.1 + 1, acc.2.set k mapNowhere)
          else (acc.1, acc.2.add k (-acc.1))) (controlFound, m)
      subtractControls control runs (visualStart + length) found.1 found.2

def logicalMapFrom (runs : List Run) : IndexMap :=
  let m : IndexMap :=
    if (o.length : Int) > o.resultLength then
      fun i => if i < o.length then some mapNowhere else none
    else .unset
  let m := fillLogicalMap runs 0 m
  if o.insertPoints ≠ [] then addMarks runs 0 0 m
  else if o.controlCount > 0 then subtractControls o.isControlAt runs 0 0 m
  else m

/-- `ubidi_getLogicalMap(pBiDi, indexMap)` -/
def getLogicalMap : Option (UBiDi × UErrorCode × IndexMap) :=
  let (o, err) := o.getRuns
  if err ≠ .zeroError then some (o, err, .unset)
  else if o.length = 0 then some (o, err, .unset)
  else o.runsOf.map fun runs => (o, err, o.logicalMapFrom runs)

/-- `do { ... } while(++visualStart<visualLimit);` for each run. -/
def fillVisualMap : List Run → Nat → IndexMap → IndexMap
  | [], _, m => m
  | run :: runs, visualStart, m =>
    let length := run.visualLimit - visualStart
    fillVisualMap runs (visualStart + max 1 length)
      ((List.range (max 1 length)).foldl
        (fun m j => m.set (visualStart + j) (run.logicalAt length j : Nat)) m)

def countMarks (runs : List Run) : Nat :=
  runs.foldl (fun n run =>
    let n := if markBefore run.insertRemove then n + 1 else n
    if markAfter run.insertRemove then n + 1 else n) 0

/-- Move back the indexes of the runs, the last one first, by the number of preceding
marks. Each run comes with its visual start. -/
def moveBack : List (Nat × Run) → Nat → Nat → IndexMap → IndexMap
  | [], _, _, m => m
  | (visualStart, run) :: runs, k, markFound, m =>
    if markFound > 0 then
      let (k, markFound, m) :=
        if markAfter run.insertRemove then (k - 1, markFound - 1, m.set (k - 1) mapNowhere)
        else (k, markFound, m)
      let length := run.visualLimit - visualStart
      let (k, m) :=
        if markFound > 0 then
          (k - length, (List.range length).foldl
            (fun m j => m.move (k - 1 - j) (run.visualLimit - 1 - j)) m)
        else (k, m)
      let (k, markFound, m) :=
        if markBefore run.insertRemove then (k - 1, markFound - 1, m.set (k - 1) mapNowhere)
        else (k, markFound, m)
      moveBack runs k markFound m
    else m

def withVisualStarts : Nat → List Run → List (Nat × Run)
  | _, [] => []
  | visualStart, run :: runs => (visualStart, run) :: withVisualStarts run.visualLimit runs

def moveForward (control : Nat → Bool) : List Run → Nat → Nat → IndexMap → IndexMap
  | [], _, _, m => m
  | run :: runs, visualStart, k, m =>
    let length := run.visualLimit - visualStart
    if run.insertRemove = 0 ∧ k = visualStart then
      moveForward control runs (visualStart + length) (k + length) m
    else if run.insertRemove = 0 then
      moveForward control runs (visualStart + length) (k + length)
        ((List.range length).foldl (fun m j => m.move (k + j) (visualStart + j)) m)
    else
      let found := (List.range length).foldl
        (fun (acc : Nat × IndexMap) j =>
          let i := run.logicalAt length j
          if control i then acc else (acc.1 + 1, acc.2.set acc.1 i)) (k, m)
      moveForward control runs (visualStart + length) found.1 found.2

def visualMapFrom (runs : List Run) : IndexMap :=
  let m := fillVisualMap runs 0 .unset
  if o.insertPoints ≠ [] then
    moveBack (withVisualStarts 0 runs).reverse o.resultLength.toNat (countMarks runs) m
  else if o.controlCount > 0 then moveForward o.isControlAt runs 0 0 m
  else m

/-- `ubidi_getVisualMap(pBiDi, indexMap)` -/
def getVisualMap : Option (UBiDi × UErrorCode × IndexMap) :=
  let (o, err) := o.getRuns
  if err ≠ .zeroError then some (o, err, .unset)
  else if o.resultLength ≤ 0 then some (o, err, .unset)
  else o.runsOf.map fun runs => (o, err, o.visualMapFrom runs)

/-- Linear search for the run, on the visual runs. -/
def visualIndexInRuns (logicalIndex : Nat) : List Run → Nat → Option Nat
  | [], _ => none
  | run :: runs, visualStart =>
    let length := run.visualLimit - visualStart
    if run.logicalStart ≤ logicalIndex ∧ logicalIndex - run.logicalStart < length then
      let offset := logicalIndex - run.logicalStart
      some (if run.odd then visualStart + length - offset - 1 else visualStart + offset)
    else visualIndexInRuns logicalIndex runs (visualStart + length)

/-- Add the number of added marks until the calculated visual index. -/
def visualIndexWithMarks (visualIndex : Nat) : List Run → Nat → Option Int
  | [], _ => none
  | run :: runs, markFound =>
    let markFound := if markBefore run.insertRemove then markFound + 1 else markFound
    if visualIndex < run.visualLimit then some (visualIndex + markFound)
    else
      visualIndexWithMarks visualIndex runs
        (if markAfter run.insertRemove then markFound + 1 else markFound)

/-- Subtract the number of controls until the calculated visual index. -/
def visualIndexWithoutControls (control : Nat → Bool) (logicalIndex visualIndex : Nat) :
    List Run → Nat → Int → Option Int
  | [], _, _ => none
  | run :: runs, visualStart, controlFound =>
    let length := run.visualLimit - visualStart
    if run.visualLimit ≤ visualIndex then
      visualIndexWithoutControls control logicalIndex visualIndex runs (visualStart + length)
        (controlFound - run.insertRemove)
    else if run.insertRemove = 0 then some (visualIndex - controlFound)
    else
      let (start, limit) :=
        if run.odd then (logicalIndex + 1, run.logicalStart + length)
        else (run.logicalStart, logicalIndex)
      some (visualIndex - (controlFound +
        ((List.range' start (limit - start)).filter control).length))

/-- The result for an index into the visual runs, with marks or without controls. -/
def adjustVisualIndex (logicalIndex visualIndex : Nat) : Option Int :=
  if o.insertPoints ≠ [] then do
    let runs ← o.runs
    visualIndexWithMarks visualIndex runs 0
  else if o.controlCount > 0 then
    if o.isControlAt logicalIndex then some mapNowhere
    else do
      let runs ← o.runs
      visualIndexWithoutControls o.isControlAt logicalIndex visualIndex runs 0 0
  else some visualIndex

/-- `ubidi_getVisualIndex(pBiDi, logicalIndex)` -/
def getVisualIndex (logicalIndex : Nat) : Option (UBiDi × Int) :=
  if o.length ≤ logicalIndex then some (o, -1)
  else
    match o.direction with
    | .ltr => (o.adjustVisualIndex logicalIndex logicalIndex).map fun v => (o, v)
    | .rtl =>
      (o.adjustVisualIndex logicalIndex (o.length - logicalIndex - 1)).map fun v => (o, v)
    | .mixed => do
      let o := o.getRuns.1
      let runs ← o.runsOf
      match visualIndexInRuns logicalIndex runs 0 with
      | none => some (o, mapNowhere)
      | some visualIndex =>
        (o.adjustVisualIndex logicalIndex visualIndex).map fun v => (o, v)

/-- Subtract the number of marks until the visual index: `some none` for a mark. -/
def visualIndexBeforeMarks (visualIndex : Int) : List Run → Nat → Nat → Option (Option Int)
  | [], _, _ => none
  | run :: runs, visualStart, markFound =>
    let length := run.visualLimit - visualStart
    if markBefore run.insertRemove ∧ visualIndex ≤ (visualStart + markFound : Nat) then some none
    else
      let markFound := if markBefore run.insertRemove then markFound + 1 else markFound
      if visualIndex < (run.visualLimit + markFound : Nat) then
        some (some (visualIndex - markFound))
      else if markAfter run.insertRemove ∧
          visualIndex = (visualStart + length + markFound : Nat) then some none
      else
        visualIndexBeforeMarks visualIndex runs (visualStart + length)
          (if markAfter run.insertRemove then markFound + 1 else markFound)

/-- `for(j=0; j<length; j++) { ... }`: count the controls until the visual index. -/
def countControls (control : Nat → Bool) (run : Run) (length visualStart : Nat)
    (visualIndex : Int) : Nat → Nat → Int → Int
  | 0, _, controlFound => controlFound
  | fuel + 1, j, controlFound =>
    let controlFound :=
      if control (run.logicalAt length j) then controlFound + 1 else controlFound
    if visualIndex + controlFound = (visualStart + j : Nat) then controlFound
    else countControls control run length visualStart visualIndex fuel (j + 1) controlFound

/-- Add the number of controls until the visual index. -/
def visualIndexWithControls (control : Nat → Bool) (visualIndex : Int) :
    List Run → Nat → Int → Option Int
  | [], _, _ => none
  | run :: runs, visualStart, controlFound =>
    let length := run.visualLimit - visualStart
    if visualIndex ≥ run.visualLimit - controlFound + run.insertRemove then
      visualIndexWithControls control visualIndex runs (visualStart + length)
        (controlFound - run.insertRemove)
    else if run.insertRemove = 0 then some (visualIndex + controlFound)
    else
      some (visualIndex +
        countControls control run length visualStart visualIndex length 0 controlFound)

/-- `for(i=0; visualIndex>=runs[i].visualLimit; ++i) {}` -/
def linearSearch (visualIndex : Int) : List Run → Nat → Option Nat
  | [], _ => none
  | run :: runs, i => if visualIndex ≥ run.visualLimit then linearSearch visualIndex runs (i + 1)
    else some i

/-- The middle `if()` finds the run. -/
def binarySearch (visualIndex : Int) (runs : List Run) : Nat → Nat → Nat → Option Nat
  | 0, _, _ => none
  | fuel + 1, begin', limit =>
    let i := (begin' + limit) / 2
    match runs[i]? with
    | none => none
    | some run =>
      if visualIndex ≥ run.visualLimit then binarySearch visualIndex runs fuel (i + 1) limit
      else if i = 0 ∨ visualIndex ≥ ((runs.getD (i - 1) run).visualLimit : Int) then some i
      else binarySearch visualIndex runs fuel begin' i

def logicalIndexInRuns (visualIndex : Int) (runs : List Run) : Option Int := do
  let i ←
    if runs.length ≤ 10 then linearSearch visualIndex runs 0
    else binarySearch visualIndex runs runs.length 0 runs.length
  let run ← runs[i]?
  if run.odd then some (run.logicalStart + run.visualLimit - visualIndex - 1)
  else
    let visualStart := if i > 0 then (runs.getD (i - 1) run).visualLimit else 0
    some (run.logicalStart + (visualIndex - visualStart))

/-- The result for the runs, with marks or without controls. -/
def logicalIndexFrom (visualIndex : Int) (runs : List Run) : Option Int :=
  if o.insertPoints ≠ [] then do
    match ← visualIndexBeforeMarks visualIndex runs 0 0 with
    | none => some mapNowhere
    | some visualIndex => logicalIndexInRuns visualIndex runs
  else if o.controlCount > 0 then do
    let visualIndex ← visualIndexWithControls o.isControlAt visualIndex runs 0 0
    logicalIndexInRuns visualIndex runs
  else logicalIndexInRuns visualIndex runs

/-- `ubidi_getLogicalIndex(pBiDi, visualIndex)` -/
def getLogicalIndex (visualIndex : Int) : Option (UBiDi × Int) :=
  if visualIndex < 0 ∨ o.resultLength ≤ visualIndex then some (o, -1)
  else if o.insertPoints = [] ∧ o.controlCount = 0 ∧ o.direction = .ltr then some (o, visualIndex)
  else if o.insertPoints = [] ∧ o.controlCount = 0 ∧ o.direction = .rtl then
    some (o, o.length - visualIndex - 1)
  else do
    let o := o.getRuns.1
    let runs ← o.runs
    (o.logicalIndexFrom visualIndex runs).map fun i => (o, i)

end UBiDi

end Icu.BiDi
