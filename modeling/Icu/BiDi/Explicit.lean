import Icu.BiDi.Brackets

/-! # Explicit levels

`resolveExplicitLevels` and `checkExplicitLevels` of `ubidi.c`.
-/

namespace Icu.BiDi

open Utf16

/-- `ISOLATE` -/
def isolateFlag : Nat := 0x100

/-- The variables of the rules (X1) to (X8). The last entry of `stack` is the first of the list. -/
structure ExplicitState where
  embeddingLevel : Nat
  previousLevel : Nat
  lastCcPos : Nat
  stack : List Nat
  overflowIsolateCount : Nat
  overflowEmbeddingCount : Nat
  validIsolateCount : Nat
  deriving DecidableEq, Repr

namespace ExplicitState

/-- `(UBiDiLevel)stack[stackLast]` -/
def topLevel (stack : List Nat) : Nat := stack.headD 0 % 0x100

/-- (X1) -/
def init (level : Nat) : ExplicitState :=
  { embeddingLevel := level, previousLevel := level, lastCcPos := 0, stack := [level],
    overflowIsolateCount := 0, overflowEmbeddingCount := 0, validIsolateCount := 0 }

/-- The least greater even level, or the least greater odd level. -/
def nextLevel (embeddingLevel : Nat) (odd : Bool) : Nat :=
  if odd then (noOverride embeddingLevel + 1) / 2 * 2 + 1
  else (noOverride embeddingLevel + 2) / 2 * 2

variable (s : ExplicitState)

def fits (odd : Bool) : Bool :=
  decide (nextLevel s.embeddingLevel odd ≤ maxExplicitLevel) && s.overflowIsolateCount == 0 &&
    s.overflowEmbeddingCount == 0

/-- LRE, RLE, LRO or RLO at position `i`. -/
def embed (odd override : Bool) (i : Nat) : ExplicitState :=
  if s.fits odd then
    let level := nextLevel s.embeddingLevel odd + if override then levelOverride else 0
    { s with lastCcPos := i, embeddingLevel := level, stack := level :: s.stack }
  else if s.overflowIsolateCount = 0 then
    { s with overflowEmbeddingCount := s.overflowEmbeddingCount + 1 }
  else s

def popEmbedding (i : Nat) : ExplicitState :=
  if s.overflowIsolateCount > 0 then s
  else if s.overflowEmbeddingCount > 0 then
    { s with overflowEmbeddingCount := s.overflowEmbeddingCount - 1 }
  else if s.stack.length > 1 ∧ s.stack.headD 0 < isolateFlag then
    { s with lastCcPos := i, stack := s.stack.tail, embeddingLevel := topLevel s.stack.tail }
  else s

def isolate (odd : Bool) (i : Nat) : ExplicitState :=
  let s := { s with previousLevel := s.embeddingLevel }
  if s.fits odd then
    let level := nextLevel s.embeddingLevel odd
    { s with
      lastCcPos := i
      validIsolateCount := s.validIsolateCount + 1
      embeddingLevel := level
      stack := (level + isolateFlag) :: s.stack }
  else { s with overflowIsolateCount := s.overflowIsolateCount + 1 }

/-- PDI. The entries of embeddings are popped until the last isolate entry, and this one too. -/
def popIsolate (i : Nat) : ExplicitState :=
  let s :=
    if s.overflowIsolateCount > 0 then
      { s with overflowIsolateCount := s.overflowIsolateCount - 1 }
    else if s.validIsolateCount > 0 then
      { s with
        lastCcPos := i
        overflowEmbeddingCount := 0
        stack := (s.stack.dropWhile fun entry => decide (entry < isolateFlag)).tail
        validIsolateCount := s.validIsolateCount - 1 }
    else s
  { s with embeddingLevel := topLevel s.stack, previousLevel := topLevel s.stack }

def newPara (level : Nat) : ExplicitState :=
  { s with
    overflowEmbeddingCount := 0
    overflowIsolateCount := 0
    validIsolateCount := 0
    previousLevel := level
    embeddingLevel := level
    stack := [level] }

def isCRLF (o : UBiDi) (i : Nat) : Bool := o.charAt i == 0xd && o.charAt (i + 1) == 0xa

/-- The variables behind the character at `i`. -/
def next (o : UBiDi) (dirProp : DirProp) (i : Nat) : ExplicitState :=
  match dirProp with
  | .LRE => s.embed false false i
  | .RLE => s.embed true false i
  | .LRO => s.embed false true i
  | .RLO => s.embed true true i
  | .PDF => s.popEmbedding i
  | .LRI => s.isolate false i
  | .RLI => s.isolate true i
  | .PDI => s.popIsolate i
  | .B =>
    if i + 1 < o.length ∧ ¬ isCRLF o i = true then s.newPara (o.getParaLevel (i + 1)) else s
  | .BN => s
  | _ => { s with previousLevel := s.embeddingLevel }

end ExplicitState

/-- The loop of `resolveExplicitLevels`. -/
structure ExplicitLoop where
  state : ExplicitState
  brackets : Brackets
  flags : Flags
  multiRuns : Bool
  isolateCount : Nat

namespace ExplicitLoop

variable (settings : Settings) (o : UBiDi) (loop : ExplicitLoop)

/-- `levels[i]=level` -/
def setLevel (i level : Nat) : ExplicitLoop :=
  { loop with brackets := { loop.brackets with levels := loop.brackets.levels.set i level } }

def setDirProp (i : Nat) (dirProp : DirProp) : ExplicitLoop :=
  { loop with brackets := loop.brackets.setDirProp i dirProp }

def addFlags (flags : Flags) : ExplicitLoop := { loop with flags := flags ++ loop.flags }

def levelChanges : Bool :=
  noOverride loop.state.embeddingLevel != noOverride loop.state.previousLevel

def processBoundary : ExplicitLoop :=
  if loop.levelChanges then
    { loop with
      brackets := loop.brackets.processBoundary loop.state.lastCcPos loop.state.previousLevel
        loop.state.embeddingLevel
      multiRuns := true }
  else loop

/-- One character. The brackets see the variables before or behind the step, as in the source. -/
def step (i : Nat) : ExplicitLoop :=
  let dirProp := loop.brackets.dirPropAt i
  let state := loop.state.next o dirProp i
  match dirProp with
  | .LRE | .RLE | .LRO | .RLO | .PDF | .BN =>
    { (loop.setLevel i loop.state.previousLevel).addFlags [.BN] with state }
  | .LRI | .RLI =>
    let embeddingLevel := loop.state.embeddingLevel
    let loop := (loop.addFlags [.ON, .ofLevel embeddingLevel]).setLevel i
      (noOverride embeddingLevel)
    let loop := loop.processBoundary
    if { loop.state with previousLevel := embeddingLevel }.fits (dirProp == DirProp.RLI) then
      { loop.addFlags [dirProp] with
        state
        isolateCount := max loop.isolateCount state.validIsolateCount
        brackets := loop.brackets.processLRI_RLI state.embeddingLevel }
    else
      -- WS, so that it is handled by adjustWSLevels()
      { loop.setDirProp i .WS with state }
  | .PDI =>
    let loop := loop.processBoundary
    let loop :=
      if loop.state.overflowIsolateCount > 0 then loop.setDirProp i .WS
      else if loop.state.validIsolateCount > 0 then
        { loop.addFlags [.PDI] with brackets := loop.brackets.processPDI }
      else loop.setDirProp i .WS
    let loop := loop.addFlags [.ON, .ofLevel state.embeddingLevel]
    { loop.setLevel i (noOverride state.embeddingLevel) with state }
  | .B =>
    let loop := (loop.addFlags [.B]).setLevel i (o.getParaLevel i)
    if i + 1 < o.length ∧ ¬ ExplicitState.isCRLF o i = true then
      { loop with state, brackets := loop.brackets.processB state.embeddingLevel }
    else { loop with state }
  | _ =>
    let embeddingLevel := loop.state.embeddingLevel
    let loop :=
      if loop.levelChanges then
        loop.processBoundary.addFlags
          [if isOverride embeddingLevel then flagO embeddingLevel else flagE embeddingLevel]
      else loop
    let loop := loop.setLevel i embeddingLevel
    let brackets := loop.brackets.processChar settings (o.charAt i) i
    -- the dirProp may have been changed in bracketProcessChar()
    { loop.addFlags [brackets.dirPropAt i] with state, brackets }

/-- The loop from `i` on. -/
def run : Nat → Nat → ExplicitLoop → ExplicitLoop
  | 0, _, loop => loop
  | fuel + 1, i, loop => run fuel (i + 1) (loop.step settings o i)

end ExplicitLoop

structure ExplicitResult where
  direction : UBiDiDirection
  dirProps : List DirProp
  levels : List Nat
  flags : Flags
  multiRuns : Bool
  isolateCount : Nat

def paraLevels (o : UBiDi) : List Nat := (List.range o.length).map o.getParaLevel

def bracketLoop (settings : Settings) (o : UBiDi) : Nat → Nat → Brackets → Brackets
  | 0, _, b => b
  | fuel + 1, i, b =>
    let dirProp := b.dirPropAt i
    bracketLoop settings o fuel (i + 1)
      (if dirProp = .BN then b
      else if dirProp = .B then
        if i + 1 < o.length ∧ ¬ ExplicitState.isCRLF o i = true then b.processB (o.getParaLevel i)
        else b
      else b.processChar settings (o.charAt i) i)

/-- `resolveExplicitLevels(pBiDi)`. The arrays of the brackets have what is in the memory. -/
def resolveExplicitLevels (settings : Settings) (o : UBiDi) (flags : Flags) (data : BracketData) :
    ExplicitResult :=
  let direction := directionFromFlags flags
  let level := o.getParaLevel 0
  if direction ≠ .mixed then
    { direction, dirProps := o.dirProps, levels := o.levels, flags, multiRuns := false,
      isolateCount := 0 }
  else if settings.reorderingMode ≠ .default ∧ settings.reorderingMode ≠ .numbersSpecial then
    -- inverse BiDi: all characters are at the paragraph level
    { direction, dirProps := o.dirProps, levels := paraLevels o, flags, multiRuns := false,
      isolateCount := 0 }
  else if ¬ flags.any (fun dirProp => dirProp.isExplicit || dirProp.isIso) = true then
    -- no embeddings, we still have to perform bracket matching
    let b := bracketLoop settings o o.length 0
      (Brackets.init ⟨o.dirProps, paraLevels o, data⟩ level)
    { direction, dirProps := b.dirProps, levels := b.levels, flags, multiRuns := false,
      isolateCount := 0 }
  else
    let loop := ExplicitLoop.run settings o o.length 0
      { state := .init level
        brackets := Brackets.init ⟨o.dirProps, List.replicate o.length 0, data⟩ level
        flags := []
        multiRuns := false
        isolateCount := 0 }
    let flags :=
      if loop.flags.any DirProp.isEmbedding then DirProp.ofLevel o.paraLevel :: loop.flags
      else loop.flags
    let flags := if settings.orderParagraphsLTR ∧ DirProp.B ∈ flags then .L :: flags else flags
    { direction := directionFromFlags flags
      dirProps := loop.brackets.dirProps
      levels := loop.brackets.levels
      flags
      multiRuns := loop.multiRuns
      isolateCount := loop.isolateCount }

/-- The counter and the maximum of `checkExplicitLevels`. -/
def countIsolates (count : Int × Int) (dirProp : DirProp) : Int × Int :=
  match dirProp with
  | .LRI | .RLI => (count.1 + 1, max count.2 (count.1 + 1))
  | .PDI => (count.1 - 1, count.2)
  | .B => (0, count.2)
  | _ => count

def levelFlags (dirProp : DirProp) (level : Nat) : Flags :=
  if isOverride level then [flagO (noOverride level)] else [flagE level, dirProp]

def levelIsOut (o : UBiDi) (i : Nat) (level : Nat) : Bool :=
  decide (noOverride level < o.getParaLevel i ∧ ¬ (noOverride level = 0 ∧ o.dirPropAt i = .B) ∨
    maxExplicitLevel < noOverride level)

/-- The flags that `checkExplicitLevels(pBiDi)` leaves. -/
def callerFlags (o : UBiDi) : Flags :=
  let flags := ((List.range o.length).map fun i => levelFlags (o.dirPropAt i) (o.levelAt i)).flatten
  if flags.any DirProp.isEmbedding then DirProp.ofLevel o.paraLevel :: flags else flags

/-- The number of isolates that `checkExplicitLevels(pBiDi)` finds open at most. -/
def nestedIsolates (o : UBiDi) : Nat :=
  (((List.range o.length).map o.dirPropAt).foldl countIsolates (0, 0)).2.toNat

/-- `checkExplicitLevels(pBiDi)` -/
def checkExplicitLevels (o : UBiDi) : Except UErrorCode ExplicitResult :=
  if (List.range o.length).any fun i => levelIsOut o i (o.levelAt i) then
    .error .illegalArgumentError
  else
    .ok
      { direction := directionFromFlags (callerFlags o)
        dirProps := o.dirProps
        levels := o.levels
        flags := callerFlags o
        multiRuns := false
        isolateCount := nestedIsolates o }

end Icu.BiDi
