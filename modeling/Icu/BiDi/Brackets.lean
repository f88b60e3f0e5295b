import Icu.BiDi.Properties

/-! # Paired brackets

The functions of `ubidi.c` that give the brackets of a pair their direction while the explicit
levels are resolved. The arrays of `BracketData` are total functions.
-/

namespace Icu.BiDi

/-- `UBIDI_LEVEL_OVERRIDE` -/
def levelOverride : Nat := 0x80

/-- `level&UBIDI_LEVEL_OVERRIDE` -/
def isOverride (level : Nat) : Bool := level / levelOverride % 2 == 1

/-- `NO_OVERRIDE(level)` -/
def noOverride (level : Nat) : Nat :=
  if isOverride level then level - levelOverride else level

/-- `match` is the matching character, or minus the position of the closing bracket. -/
structure Opening where
  position : Nat
  «match» : Int
  contextPos : Nat
  foundL : Bool
  foundR : Bool
  contextDir : DirProp
  deriving DecidableEq, Repr

structure IsoRun where
  contextPos : Nat
  start : Nat
  limit : Nat
  level : Nat
  lastStrong : DirProp
  lastBase : DirProp
  contextDir : DirProp
  deriving DecidableEq, Repr

structure BracketData where
  openings : Nat → Opening
  isoRuns : Nat → IsoRun
  isoRunLast : Nat

structure Brackets where
  dirProps : List DirProp
  levels : List Nat
  data : BracketData

namespace Brackets

variable (settings : Settings) (b : Brackets) {dirProp newProp : DirProp}
  {i k newPropPosition position start openIdx c idx : Nat}

def dirPropAt (i : Nat) : DirProp := b.dirProps.getD i .L
def levelAt (i : Nat) : Nat := b.levels.getD i 0

/-- `pLastIsoRun` -/
def last : IsoRun := b.data.isoRuns b.data.isoRunLast

def opening (i : Nat) : Opening := b.data.openings i

def updateLast (f : IsoRun → IsoRun) : Brackets :=
  { b with data := { b.data with
      isoRuns := Function.update b.data.isoRuns b.data.isoRunLast (f b.last) } }

def setOpening (i : Nat) (opening : Opening) : Brackets :=
  { b with data := { b.data with openings := Function.update b.data.openings i opening } }

def setDirProp (i : Nat) (dirProp : DirProp) : Brackets :=
  { b with dirProps := b.dirProps.set i dirProp }

/-- `levels[i]&=~UBIDI_LEVEL_OVERRIDE` -/
def clearOverride (i : Nat) : Brackets :=
  { b with levels := b.levels.modify i noOverride }

/-- `bracketInit(pBiDi, bd)`, with `level` for `GET_PARALEVEL(pBiDi, 0)`. -/
def init (level : Nat) : Brackets :=
  { b with data := { b.data with
      isoRunLast := 0
      isoRuns := Function.update b.data.isoRuns 0
        { contextPos := 0, start := 0, limit := 0, level := level, lastStrong := .ofLevel level,
          lastBase := .ofLevel level, contextDir := .ofLevel level } } }

/-- `bracketProcessB(bd, level)` -/
def processB (level : Nat) : Brackets :=
  let b := { b with data := { b.data with isoRunLast := 0 } }
  b.updateLast fun run => { run with
    limit := 0
    level := level
    lastStrong := .ofLevel level
    lastBase := .ofLevel level
    contextDir := .ofLevel level
    contextPos := 0 }

/-- `bracketProcessBoundary(bd, lastCcPos, contextLevel, embeddingLevel)` -/
def processBoundary (lastCcPos contextLevel embeddingLevel : Nat) : Brackets :=
  if (b.dirPropAt lastCcPos).isIso then b
  else
    let contextLevel :=
      if noOverride embeddingLevel > noOverride contextLevel then embeddingLevel else contextLevel
    b.updateLast fun run => { run with
      limit := run.start
      level := embeddingLevel
      lastStrong := .ofLevel contextLevel
      lastBase := .ofLevel contextLevel
      contextDir := .ofLevel contextLevel
      contextPos := lastCcPos }

/-- `bracketProcessLRI_RLI(bd, level)` -/
def processLRI_RLI (level : Nat) : Brackets :=
  let lastLimit := b.last.limit
  let b := b.updateLast fun run => { run with lastBase := .ON }
  let b := { b with data := { b.data with isoRunLast := b.data.isoRunLast + 1 } }
  b.updateLast fun _ =>
    { contextPos := 0, start := lastLimit, limit := lastLimit, level := level,
      lastStrong := .ofLevel level, lastBase := .ofLevel level, contextDir := .ofLevel level }

/-- `bracketProcessPDI(bd)` -/
def processPDI : Brackets :=
  let b := { b with data := { b.data with isoRunLast := b.data.isoRunLast - 1 } }
  b.updateLast fun run => { run with lastBase := .ON }

/-- `bracketAddOpening(bd, match, position)`. The counter has 16 bits. -/
def addOpening (match' position : Nat) : Brackets :=
  let run := b.last
  (b.setOpening run.limit
    { position := position, «match» := match', contextPos := run.contextPos, foundL := false,
      foundR := false, contextDir := run.contextDir }).updateLast fun run =>
    { run with limit := (run.limit + 1) % 0x10000 }

/-- The loop of `fixN0c` from the entry `k`, with its recursive calls. -/
def fixN0cLoop : Nat → Nat → Nat → DirProp → Brackets → Brackets
  | 0, _, _, _, b => b
  | fuel + 1, k, newPropPosition, newProp, b =>
    if b.last.limit ≤ k then b
    else
      let qOpening := b.opening k
      if qOpening.match ≥ 0 then fixN0cLoop fuel (k + 1) newPropPosition newProp b
      else if newPropPosition < qOpening.contextPos then b
      else if newPropPosition ≥ qOpening.position then
        fixN0cLoop fuel (k + 1) newPropPosition newProp b
      else if newProp = qOpening.contextDir then b
      else
        let closingPosition := (-qOpening.match).toNat
        let b := (b.setDirProp qOpening.position newProp).setDirProp closingPosition newProp
        let b := b.setOpening k { qOpening with «match» := 0 }
        let b := fixN0cLoop fuel (k + 1) qOpening.position newProp b
        let b := fixN0cLoop fuel (k + 1) closingPosition newProp b
        fixN0cLoop fuel (k + 1) newPropPosition newProp b

/-- `fixN0c(bd, openingIndex, newPropPosition, newProp)` -/
def fixN0c (openingIndex newPropPosition : Nat) (newProp : DirProp) : Brackets :=
  fixN0cLoop b.last.limit (openingIndex + 1) newPropPosition newProp b

/-- The limit without the entries below it that are for the same bracket. -/
def dropSynonyms (position start : Nat) : Nat → Nat
  | 0 => 0
  | limit + 1 =>
    if limit + 1 > start ∧ (b.opening limit).position = position then
      dropSynonyms position start limit
    else limit + 1

/-- Neutralize the entries below `k + 1` that are for the same bracket. -/
def neutralizeSynonyms (position start : Nat) : Nat → Brackets → Brackets
  | 0, b => b
  | k + 1, b =>
    if k ≥ start ∧ (b.opening k).position = position then
      neutralizeSynonyms position start k (b.setOpening k { b.opening k with «match» := 0 })
    else b

/-- Neutralize the unmatched openings from `k` on that are before `position`. -/
def neutralizeUnmatched (position : Nat) : Nat → Nat → Brackets → Brackets
  | 0, _, b => b
  | fuel + 1, k, b =>
    if b.last.limit ≤ k then b
    else
      let qOpening := b.opening k
      if qOpening.position ≥ position then b
      else
        neutralizeUnmatched position fuel (k + 1)
          (if qOpening.match > 0 then b.setOpening k { qOpening with «match» := 0 } else b)

/-- Both brackets of a pair get the direction, and the pairs that it changes. -/
def setPair (openIdx position : Nat) (newProp : DirProp) : Brackets :=
  let pOpening := b.opening openIdx
  ((b.setDirProp pOpening.position newProp).setDirProp position newProp).fixN0c openIdx
    pOpening.position newProp

/-- Forget any brackets nested within a pair that is stable, and its synonyms. -/
def forgetPair (openIdx : Nat) : Brackets :=
  b.updateLast fun run => { run with
    limit := b.dropSynonyms (b.opening openIdx).position run.start openIdx }

def keepPair (openIdx position : Nat) : Brackets :=
  let pOpening := b.opening openIdx
  let b := b.setOpening openIdx { pOpening with «match» := -(position : Int) }
  let b := neutralizeSynonyms pOpening.position b.last.start openIdx b
  neutralizeUnmatched position b.last.limit (openIdx + 1) b

/-- `bracketProcessClosing(bd, openIdx, position)`: L or R if N0b or N0c, ON if N0d. -/
def processClosing (openIdx position : Nat) : Brackets × DirProp :=
  let pOpening := b.opening openIdx
  let direction := DirProp.ofLevel b.last.level
  if direction = .L ∧ pOpening.foundL = true ∨ direction = .R ∧ pOpening.foundR = true then
    ((b.setPair openIdx position direction).forgetPair openIdx, direction) -- N0b
  else if pOpening.foundL = true ∨ pOpening.foundR = true then
    -- N0c1 or N0c2
    let newProp := if direction ≠ pOpening.contextDir then pOpening.contextDir else direction
    if openIdx = b.last.start then
      ((b.setPair openIdx position newProp).forgetPair openIdx, newProp)
    else ((b.setPair openIdx position newProp).keepPair openIdx position, newProp)
  else (b.updateLast fun run => { run with limit := openIdx }, .ON) -- N0d

/-- `openings[i].flags|=flag` for the entries from `i` up to `limit` that the condition picks. -/
def flagOpenings (dirProp : DirProp) (p : Opening → Bool) (limit : Nat) :
    Nat → Nat → Brackets → Brackets
  | 0, _, b => b
  | fuel + 1, i, b =>
    if limit ≤ i then b
    else
      let opening := b.opening i
      flagOpenings dirProp p limit fuel (i + 1)
        (if p opening then
          b.setOpening i { opening with
            foundL := opening.foundL || dirProp == .L
            foundR := opening.foundR || dirProp == .R }
        else b)

/-- The last entry below `idx` that the character matches. -/
def findMatch (c start : Nat) : Nat → Option Nat
  | 0 => none
  | idx + 1 =>
    if idx < start then none
    else if (b.opening idx).match = c then some idx
    else findMatch c start idx

/-- `DIR_FROM_STRONG(strong)` -/
def dirFromStrong (strong : DirProp) : DirProp := if strong = .L then .L else .R

/-- The opening brackets of `bracketProcessChar`. -/
def openBracket (c position : Nat) : Brackets :=
  let match' := settings.getBidiPairedBracket c
  if match' ≠ c ∧ settings.isOpenBracket c = true then
    let b :=
      if match' = 0x232a then b.addOpening 0x3009 position
      else if match' = 0x3009 then b.addOpening 0x232a position
      else b
    b.addOpening match' position
  else b

/-- A closing bracket that was matched with the entry `idx`. -/
def closeBracket (idx position : Nat) (newProp : DirProp) : Brackets :=
  let b := b.updateLast fun run =>
    { run with lastBase := .ON, contextDir := newProp, contextPos := position }
  let level := b.levelAt position
  let b :=
    if isOverride level then
      let newProp := DirProp.ofLevel level
      let b := b.updateLast fun run => { run with lastStrong := newProp }
      (flagOpenings newProp (fun _ => true) idx idx b.last.start b).clearOverride position
    else b
  -- matching brackets are not overridden by LRO/RLO
  b.clearOverride (b.opening idx).position

def setContext (lastBase lastStrong contextDir : DirProp) (position : Nat) : Brackets :=
  b.updateLast fun run => { run with
    lastBase := lastBase
    lastStrong := lastStrong
    contextDir := contextDir
    contextPos := position }

/-- The class of a character, with the direction for the brackets that are open. -/
def classify (dirProp : DirProp) (position : Nat) : Brackets × DirProp :=
  let level := b.levelAt position
  let run := b.last
  if isOverride level then
    let newProp := DirProp.ofLevel level
    let b :=
      if dirProp ≠ .S ∧ dirProp ≠ .WS ∧ dirProp ≠ .ON then b.setDirProp position newProp else b
    (b.setContext newProp newProp newProp position, newProp)
  else
    match dirProp with
    | .L | .R | .AL =>
      (b.setContext dirProp dirProp (dirFromStrong dirProp) position, dirFromStrong dirProp)
    | .EN =>
      if run.lastStrong = .L then
        let isNumbersSpecial := settings.reorderingMode = .numbersSpecial ∨
          settings.reorderingMode = .inverseForNumbersSpecial
        let b := if ¬ isNumbersSpecial then b.setDirProp position .ENL else b
        (b.setContext .EN run.lastStrong .L position, .L)
      else
        let b := b.setDirProp position (if run.lastStrong = .AL then .AN else .ENR)
        (b.setContext .EN run.lastStrong .R position, .R)
    | .AN => (b.setContext .AN run.lastStrong .R position, .R)
    | .NSM =>
      -- a mark on a bracket stays ON
      (if run.lastBase = .ON then b.setDirProp position .ON else b, run.lastBase)
    | _ => (b.updateLast fun run => { run with lastBase := dirProp }, dirProp)

/-- The second half of `bracketProcessChar`. -/
def processClass (dirProp : DirProp) (position : Nat) : Brackets :=
  let (b, newProp) := b.classify settings dirProp position
  if newProp = .L ∨ newProp = .R ∨ newProp = .AL then
    flagOpenings (dirFromStrong newProp) (fun opening => decide (position > opening.position))
      b.last.limit b.last.limit b.last.start b
  else b

/-- `bracketProcessChar(bd, position)`, for the unit `c`. -/
def processChar (c position : Nat) : Brackets :=
  let dirProp := b.dirPropAt position
  if dirProp = .ON then
    match b.findMatch c b.last.start b.last.limit with
    | some idx =>
      let closed := b.processClosing idx position
      if closed.2 = .ON then closed.1.processClass settings dirProp position
      else closed.1.closeBracket idx position closed.2
    | none => (b.openBracket settings c position).processClass settings dirProp position
  else b.processClass settings dirProp position

/-! ## What brackets leave alone -/

/-- Not a code that is removed, not an isolate and not a B. -/
def isOrdinary (dirProp : DirProp) : Bool :=
  !dirProp.isBNExplicit && dirProp != .B && dirProp != .LRI && dirProp != .RLI && dirProp != .PDI

theorem isOrdinary_ofLevel (level : Nat) : isOrdinary (.ofLevel level) = true := by
  unfold DirProp.ofLevel
  split
  · decide
  · decide

/-- Only ordinary characters change, and they stay so. -/
structure Keeps (ok : Nat → Prop) (b b' : Brackets) : Prop where
  dirProps : ∀ i, b'.dirPropAt i = b.dirPropAt i ∨ ok i ∧ isOrdinary (b'.dirPropAt i) = true
  levels : ∀ i, b'.levelAt i = b.levelAt i ∨ ok i ∧ noOverride (b'.levelAt i) =
    noOverride (b.levelAt i)
  size : b'.levels.length = b.levels.length

/-- An entry is for an ordinary character, and so is the closing bracket. -/
structure OpeningOk (ok : Nat → Prop) (opening : Opening) : Prop where
  position : ok opening.position
  closing : opening.match < 0 → ok (-opening.match).toNat
  contextDir : isOrdinary opening.contextDir = true

/-- The entries that were made, up to `made`, cover all runs that are open. -/
structure RunsOk (made : Nat) (data : BracketData) : Prop where
  start : ∀ r ≤ data.isoRunLast, (data.isoRuns r).start ≤ made
  limit : ∀ r ≤ data.isoRunLast, (data.isoRuns r).limit ≤ made
  contextDir : ∀ r ≤ data.isoRunLast, isOrdinary (data.isoRuns r).contextDir = true

structure Sound (ok : Nat → Prop) (made : Nat) (b : Brackets) : Prop where
  openings : ∀ k < made, OpeningOk ok (b.opening k)
  runs : RunsOk made b.data

variable {settings b} {ok : Nat → Prop} {made : Nat}

variable {b₁ b₂ b₃ : Brackets}

namespace Keeps

theorem refl (b : Brackets) : Keeps ok b b := ⟨fun _ => Or.inl rfl, fun _ => Or.inl rfl, rfl⟩

theorem trans (h : Keeps ok b₁ b₂) (h' : Keeps ok b₂ b₃) : Keeps ok b₁ b₃ := by
  constructor
  · intro i
    cases h'.dirProps i with
    | inl hsame =>
      rw [hsame]
      exact h.dirProps i
    | inr hchange => exact Or.inr hchange
  · intro i
    cases h'.levels i with
    | inl hsame =>
      rw [hsame]
      exact h.levels i
    | inr hchange =>
      cases h.levels i with
      | inl hsame =>
        rw [← hsame]
        exact Or.inr hchange
      | inr hfirst => exact Or.inr ⟨hfirst.1, hchange.2.trans hfirst.2⟩
  · exact h'.size.trans h.size

theorem of_eq {b' : Brackets} (hdir : b'.dirProps = b.dirProps) (hlevels : b'.levels = b.levels) :
    Keeps ok b b' := by
  constructor
  · intro i
    unfold dirPropAt
    rw [hdir]
    exact Or.inl rfl
  · intro i
    unfold levelAt
    rw [hlevels]
    exact Or.inl rfl
  · rw [hlevels]

end Keeps

theorem getD_set {α : Type} (xs : List α) (i j : Nat) (a d : α) :
    (xs.set i a).getD j d = if i = j ∧ j < xs.length then a else xs.getD j d := by
  rw [List.getD_eq_getElem?_getD, List.getD_eq_getElem?_getD, List.getElem?_set]
  by_cases hij : i = j
  · by_cases hj : j < xs.length
    · simp [hij, hj]
    · simp [hij, hj]
  · simp [hij]

theorem keeps_setDirProp (hi : ok i) (hdir : isOrdinary dirProp = true) :
    Keeps ok b (b.setDirProp i dirProp) := by
  constructor
  · intro j
    change (b.dirProps.set i dirProp).getD j .L = b.dirProps.getD j .L ∨
      ok j ∧ isOrdinary ((b.dirProps.set i dirProp).getD j .L) = true
    rw [getD_set]
    split
    · next hij =>
      rw [← hij.1]
      exact Or.inr ⟨hi, hdir⟩
    · exact Or.inl rfl
  · exact fun j => Or.inl rfl
  · rfl

theorem noOverride_noOverride (level : Nat) : noOverride (noOverride level) = noOverride level := by
  unfold noOverride isOverride levelOverride
  simp only [beq_iff_eq]
  split
  · rw [if_neg (by omega)]
  · rfl

theorem keeps_clearOverride (hi : ok i) : Keeps ok b (b.clearOverride i) := by
  constructor
  · exact fun j => Or.inl rfl
  · intro j
    unfold levelAt clearOverride
    rw [List.getD_eq_getElem?_getD, List.getD_eq_getElem?_getD, List.getElem?_modify]
    by_cases hij : i = j
    · rw [← hij]
      cases b.levels[i]? with
      | none => exact Or.inl rfl
      | some level =>
        refine Or.inr ⟨hi, ?_⟩
        simp only [↓reduceIte]
        exact noOverride_noOverride level
    · simp [hij]
  · exact List.length_modify _ _ _

def Preserves (ok : Nat → Prop) (made : Nat) (b b' : Brackets) : Prop :=
  Sound ok made b → Sound ok made b' ∧ Keeps ok b b'

theorem Preserves.refl (b : Brackets) : Preserves ok made b b := fun h => ⟨h, Keeps.refl b⟩

theorem Preserves.trans (h : Preserves ok made b₁ b₂)
    (h' : Preserves ok made b₂ b₃) : Preserves ok made b₁ b₃ := by
  intro hsound
  obtain ⟨hsound', hkeeps⟩ := h hsound
  obtain ⟨hsound'', hkeeps'⟩ := h' hsound'
  exact ⟨hsound'', hkeeps.trans hkeeps'⟩

theorem preserves_setDirProp (hi : ok i)
    (hdir : isOrdinary dirProp = true) : Preserves ok made b (b.setDirProp i dirProp) :=
  fun h => ⟨⟨h.openings, h.runs⟩, keeps_setDirProp hi hdir⟩

theorem preserves_clearOverride (hi : ok i) : Preserves ok made b (b.clearOverride i) :=
  fun h => ⟨⟨h.openings, h.runs⟩, keeps_clearOverride hi⟩

variable {opening : Opening}

theorem preserves_setOpening (hopening : OpeningOk ok opening) :
    Preserves ok made b (b.setOpening k opening) := by
  intro h
  refine ⟨⟨?_, ⟨h.runs.start, h.runs.limit, h.runs.contextDir⟩⟩, Keeps.of_eq rfl rfl⟩
  intro j hj
  unfold Brackets.opening setOpening
  dsimp only
  by_cases hjk : j = k
  · rw [hjk, Function.update_self]
    exact hopening
  · rw [Function.update_of_ne hjk]
    exact h.openings j hj

theorem Sound.last_start (h : Sound ok made b) :
    b.last.start ≤ made := h.runs.start _ (Nat.le_refl _)

theorem Sound.last_limit (h : Sound ok made b) :
    b.last.limit ≤ made := h.runs.limit _ (Nat.le_refl _)

theorem Sound.last_contextDir (h : Sound ok made b) : isOrdinary b.last.contextDir = true :=
  h.runs.contextDir _ (Nat.le_refl _)

theorem preserves_updateLast {f : IsoRun → IsoRun} (hstart : (f b.last).start ≤ made)
    (hlimit : (f b.last).limit ≤ made) (hdir : isOrdinary (f b.last).contextDir = true) :
    Preserves ok made b (b.updateLast f) := by
  intro h
  refine ⟨⟨h.openings, ?_⟩, Keeps.of_eq rfl rfl⟩
  have hall : ∀ p : IsoRun → Prop, p (f b.last) → (∀ r ≤ b.data.isoRunLast, p (b.data.isoRuns r)) →
      ∀ r ≤ b.data.isoRunLast,
        p (Function.update b.data.isoRuns b.data.isoRunLast (f b.last) r) := by
    intro p hrun hold r hr
    by_cases hlast : r = b.data.isoRunLast
    · rw [hlast, Function.update_self]
      exact hrun
    · rw [Function.update_of_ne hlast]
      exact hold r hr
  exact ⟨hall (·.start ≤ made) hstart h.runs.start, hall (·.limit ≤ made) hlimit h.runs.limit,
    hall (fun run => isOrdinary run.contextDir = true) hdir h.runs.contextDir⟩

theorem preserves_updateLast_of_eq {f : IsoRun → IsoRun} (hstart : ∀ run, (f run).start = run.start)
    (hlimit : ∀ run, (f run).limit = run.limit)
    (hdir : ∀ run, isOrdinary run.contextDir = true → isOrdinary (f run).contextDir = true) :
    Preserves ok made b (b.updateLast f) := by
  intro h
  have hs := h.last_start
  have hl := h.last_limit
  rw [← hstart] at hs
  rw [← hlimit] at hl
  exact preserves_updateLast hs hl (hdir _ h.last_contextDir) h

theorem RunsOk.mono {made' : Nat} {data : BracketData} (h : RunsOk made data) (hle : made ≤ made') :
    RunsOk made' data :=
  ⟨fun r hr => (h.start r hr).trans hle, fun r hr => (h.limit r hr).trans hle, h.contextDir⟩

theorem OpeningOk.neutral (h : OpeningOk ok opening) : OpeningOk ok { opening with «match» := 0 } :=
  ⟨h.position, fun hneg => absurd hneg (Int.lt_irrefl 0), h.contextDir⟩

theorem OpeningOk.withFlags (h : OpeningOk ok opening) (foundL foundR : Bool) :
    OpeningOk ok { opening with foundL, foundR } :=
  ⟨h.position, h.closing, h.contextDir⟩

/-! ### The functions -/

theorem preserves_fixN0cLoop (fuel : Nat) (hdir : isOrdinary newProp = true) :
    Preserves ok made b (fixN0cLoop fuel k newPropPosition newProp b) := by
  induction fuel generalizing k newPropPosition b with
  | zero => exact Preserves.refl b
  | succ fuel ih =>
    unfold fixN0cLoop
    dsimp only
    split
    · exact Preserves.refl b
    split
    · exact ih
    split
    · exact Preserves.refl b
    split
    · exact ih
    split
    · exact Preserves.refl b
    · next hlimit hmatch _ _ _ =>
      intro h
      have hlast := h.last_limit
      have hopening := h.openings k (by omega)
      have hclosing := hopening.closing (by omega)
      exact ((((((preserves_setDirProp hopening.position hdir).trans
        (preserves_setDirProp hclosing hdir)).trans (preserves_setOpening hopening.neutral)).trans
          ih).trans ih).trans ih) h

theorem preserves_fixN0c {openingIndex : Nat} (hdir : isOrdinary newProp = true) :
    Preserves ok made b (b.fixN0c openingIndex newPropPosition newProp) :=
  preserves_fixN0cLoop _ hdir

theorem dropSynonyms_le (position start : Nat) :
    ∀ limit, b.dropSynonyms position start limit ≤ limit
  | 0 => Nat.le_refl _
  | limit + 1 => by
    unfold dropSynonyms
    split
    · exact (dropSynonyms_le position start limit).trans (Nat.le_succ limit)
    · exact Nat.le_refl _

theorem preserves_neutralizeSynonyms (hk : k ≤ made) :
    Preserves ok made b (neutralizeSynonyms position start k b) := by
  induction k generalizing b with
  | zero => exact Preserves.refl b
  | succ k ih =>
    unfold neutralizeSynonyms
    split
    · intro h
      exact ((preserves_setOpening (h.openings k (by omega)).neutral).trans (ih (by omega))) h
    · exact Preserves.refl b

theorem preserves_neutralizeUnmatched (fuel : Nat) :
    Preserves ok made b (neutralizeUnmatched position fuel k b) := by
  induction fuel generalizing k b with
  | zero => exact Preserves.refl b
  | succ fuel ih =>
    unfold neutralizeUnmatched
    dsimp only
    split
    · exact Preserves.refl b
    split
    · exact Preserves.refl b
    split
    · next hlimit _ _ =>
      intro h
      have hlast := h.last_limit
      exact ((preserves_setOpening (h.openings k (by omega)).neutral).trans ih) h
    · exact ih

theorem preserves_flagOpenings {p : Opening → Bool} {limit : Nat} (fuel : Nat)
    (hlimit : limit ≤ made) : Preserves ok made b (flagOpenings dirProp p limit fuel i b) := by
  induction fuel generalizing i b with
  | zero => exact Preserves.refl b
  | succ fuel ih =>
    unfold flagOpenings
    dsimp only
    split
    · exact Preserves.refl b
    split
    · intro h
      have hopening := h.openings i (by omega)
      exact ((preserves_setOpening (hopening.withFlags _ _)).trans ih) h
    · exact ih

theorem isOrdinary_dirFromStrong (strong : DirProp) : isOrdinary (dirFromStrong strong) = true := by
  unfold dirFromStrong
  split
  · decide
  · decide

theorem preserves_setPair (hidx : openIdx < made)
    (hposition : ok position) (hdir : isOrdinary newProp = true) :
    Preserves ok made b (b.setPair openIdx position newProp) := by
  intro h
  have hopening := h.openings openIdx hidx
  unfold setPair
  exact (((preserves_setDirProp hopening.position hdir).trans
    (preserves_setDirProp hposition hdir)).trans (preserves_fixN0c hdir)) h

theorem preserves_forgetPair (hidx : openIdx ≤ made) :
    Preserves ok made b (b.forgetPair openIdx) := by
  intro h
  have hdrop := dropSynonyms_le (b := b) (b.opening openIdx).position b.last.start openIdx
  unfold forgetPair
  refine preserves_updateLast ?_ ?_ ?_ h
  · exact h.last_start
  · exact hdrop.trans hidx
  · exact h.last_contextDir

theorem preserves_keepPair (hidx : openIdx < made) (hposition : ok position) :
    Preserves ok made b (b.keepPair openIdx position) := by
  intro h
  have hopening := h.openings openIdx hidx
  have hnew : OpeningOk ok { b.opening openIdx with «match» := -(position : Int) } := by
    refine ⟨hopening.position, ?_, hopening.contextDir⟩
    intro _
    rw [Int.neg_neg, Int.toNat_natCast]
    exact hposition
  unfold keepPair
  exact (((preserves_setOpening hnew).trans (preserves_neutralizeSynonyms (by omega))).trans
    (preserves_neutralizeUnmatched _)) h

theorem preserves_processClosing (hidx : openIdx < made)
    (hposition : ok position) (h : Sound ok made b) :
    (Sound ok made (b.processClosing openIdx position).1 ∧
      Keeps ok b (b.processClosing openIdx position).1) ∧
      isOrdinary (b.processClosing openIdx position).2 = true := by
  have hlevel := isOrdinary_ofLevel b.last.level
  have hcontext := (h.openings openIdx hidx).contextDir
  unfold processClosing
  dsimp only
  split
  · exact ⟨((preserves_setPair hidx hposition hlevel).trans (preserves_forgetPair hidx.le)) h,
      hlevel⟩
  split
  · have hnew : isOrdinary (if DirProp.ofLevel b.last.level ≠ (b.opening openIdx).contextDir then
        (b.opening openIdx).contextDir else DirProp.ofLevel b.last.level) = true := by
      split
      · exact hcontext
      · exact hlevel
    split
    · exact ⟨((preserves_setPair hidx hposition hnew).trans (preserves_forgetPair hidx.le)) h, hnew⟩
    · exact ⟨((preserves_setPair hidx hposition hnew).trans (preserves_keepPair hidx hposition)) h,
        hnew⟩
  · refine ⟨?_, rfl⟩
    dsimp only
    refine preserves_updateLast ?_ ?_ ?_ h
    · exact h.last_start
    · exact hidx.le
    · exact h.last_contextDir

theorem findMatch_lt : ∀ {limit}, b.findMatch c start limit = some idx → idx < limit
  | limit + 1, h => by
    unfold findMatch at h
    split at h
    · cases h
    split at h
    · cases h
      exact Nat.lt_succ_self _
    · exact (findMatch_lt h).trans (Nat.lt_succ_self _)

def Frames (ok : Nat → Prop) (b b' : Brackets) : Prop :=
  (∃ made, Sound ok made b) → (∃ made, Sound ok made b') ∧ Keeps ok b b'

theorem Frames.trans (h : Frames ok b₁ b₂) (h' : Frames ok b₂ b₃) : Frames ok b₁ b₃ := by
  intro hsound
  obtain ⟨hsound', hkeeps⟩ := h hsound
  obtain ⟨hsound'', hkeeps'⟩ := h' hsound'
  exact ⟨hsound'', hkeeps.trans hkeeps'⟩

theorem frames_of_preserves {b' : Brackets} (h : ∀ made, Sound ok made b → Preserves ok made b b') :
    Frames ok b b' := by
  rintro ⟨made, hsound⟩
  obtain ⟨hsound', hkeeps⟩ := h made hsound hsound
  exact ⟨⟨made, hsound'⟩, hkeeps⟩

theorem frames_addOpening {match' : Nat} (hposition : ok position) :
    Frames ok b (b.addOpening match' position) := by
  rintro ⟨made, h⟩
  have hlimit := h.last_limit
  have hmod := Nat.mod_le (b.last.limit + 1) 0x10000
  refine ⟨⟨max made (b.last.limit + 1), ?_⟩, Keeps.of_eq rfl rfl⟩
  have hsound : Sound ok (max made (b.last.limit + 1)) (b.setOpening b.last.limit
      { position := position, «match» := match', contextPos := b.last.contextPos, foundL := false,
        foundR := false, contextDir := b.last.contextDir }) := by
    have hruns := h.runs.mono (Nat.le_max_left made (b.last.limit + 1))
    refine ⟨?_, ⟨hruns.start, hruns.limit, hruns.contextDir⟩⟩
    intro k hk
    unfold Brackets.opening setOpening
    dsimp only
    by_cases hlast : k = b.last.limit
    · rw [hlast, Function.update_self]
      exact ⟨hposition, fun hneg => absurd hneg (Int.not_lt.mpr (Int.natCast_nonneg _)),
        h.last_contextDir⟩
    · rw [Function.update_of_ne hlast]
      exact h.openings k (by omega)
  have hstart := h.last_start
  unfold addOpening
  refine (preserves_updateLast ?_ ?_ ?_ hsound).1
  · exact hstart.trans (Nat.le_max_left _ _)
  · exact hmod.trans (Nat.le_max_right _ _)
  · exact h.last_contextDir

theorem frames_openBracket (hposition : ok position) :
    Frames ok b (b.openBracket settings c position) := by
  unfold openBracket
  dsimp only
  split
  · split
    · exact (frames_addOpening hposition).trans (frames_addOpening hposition)
    split
    · exact (frames_addOpening hposition).trans (frames_addOpening hposition)
    · exact frames_addOpening hposition
  · exact fun h => ⟨h, Keeps.refl b⟩

/-- A character that closes a pair has no override any more, nor has the bracket that it closes. -/
theorem preserves_closeBracket (hidx : idx < made)
    (hposition : ok position) (hdir : isOrdinary newProp = true) :
    Preserves ok made b (b.closeBracket idx position newProp) := by
  have hcontext : Preserves ok made b (b.updateLast fun run =>
      { run with lastBase := .ON, contextDir := newProp, contextPos := position }) :=
    preserves_updateLast_of_eq (fun _ => rfl) (fun _ => rfl) fun _ _ => hdir
  have hclear : ∀ b' : Brackets,
    Preserves ok made b' (b'.clearOverride (b'.opening idx).position) :=
    fun b' h' => preserves_clearOverride (h'.openings idx hidx).position h'
  unfold closeBracket
  dsimp only
  split
  · refine Preserves.trans ?_ (hclear _)
    refine Preserves.trans ?_ (preserves_clearOverride hposition)
    refine Preserves.trans ?_ (preserves_flagOpenings _ hidx.le)
    refine hcontext.trans ?_
    exact preserves_updateLast_of_eq (fun _ => rfl) (fun _ => rfl) fun _ hold => hold
  · exact hcontext.trans (hclear _)

theorem preserves_setContext {lastBase lastStrong contextDir : DirProp}
    (hdir : isOrdinary contextDir = true) :
    Preserves ok made b (b.setContext lastBase lastStrong contextDir position) :=
  preserves_updateLast_of_eq (fun _ => rfl) (fun _ => rfl) fun _ _ => hdir

theorem preserves_classify (hposition : ok position) :
    Preserves ok made b (b.classify settings dirProp position).1 := by
  unfold classify
  dsimp only
  split
  · have hlevel := isOrdinary_ofLevel (b.levelAt position)
    split
    · exact (preserves_setDirProp hposition hlevel).trans (preserves_setContext hlevel)
    · exact preserves_setContext hlevel
  split
  · exact preserves_setContext (isOrdinary_dirFromStrong _)
  · exact preserves_setContext (isOrdinary_dirFromStrong _)
  · exact preserves_setContext (isOrdinary_dirFromStrong _)
  · split
    · dsimp only
      split
      · exact (preserves_setDirProp hposition rfl).trans (preserves_setContext rfl)
      · exact preserves_setContext rfl
    · refine (preserves_setDirProp hposition ?_).trans (preserves_setContext rfl)
      split
      · rfl
      · rfl
  · exact preserves_setContext rfl
  · dsimp only
    split
    · exact preserves_setDirProp hposition rfl
    · exact Preserves.refl b
  · dsimp only
    exact preserves_updateLast_of_eq (fun _ => rfl) (fun _ => rfl) fun _ hold => hold

theorem preserves_processClass (hposition : ok position) :
    Preserves ok made b (b.processClass settings dirProp position) := by
  intro h
  have hpreserves : Preserves ok made b (b.classify settings dirProp position).1 :=
    preserves_classify hposition
  have hclassify := hpreserves h
  unfold processClass
  dsimp only
  split
  · obtain ⟨hsound, hkeeps⟩ := hclassify
    obtain ⟨hsound', hkeeps'⟩ := preserves_flagOpenings _ hsound.last_limit hsound
    exact ⟨hsound', hkeeps.trans hkeeps'⟩
  · exact hclassify

/-- A character changes ordinary characters only, if it is one. -/
theorem frames_processChar (hposition : ok position) :
    Frames ok b (b.processChar settings c position) := by
  have hclass : ∀ (b' : Brackets) (dirProp : DirProp),
      Frames ok b' (b'.processClass settings dirProp position) :=
    fun b' dirProp => frames_of_preserves fun _ _ => preserves_processClass hposition
  unfold processChar
  dsimp only
  split
  · cases hmatch : b.findMatch c b.last.start b.last.limit with
    | none => exact (frames_openBracket hposition).trans (hclass _ _)
    | some idx =>
      rintro ⟨made, h⟩
      have hidx := (findMatch_lt hmatch).trans_le h.last_limit
      obtain ⟨⟨hsound, hkeeps⟩, hdir⟩ := preserves_processClosing hidx hposition h
      dsimp only
      split
      · obtain ⟨hsound', hkeeps'⟩ := hclass _ (b.dirPropAt position) ⟨made, hsound⟩
        exact ⟨hsound', hkeeps.trans hkeeps'⟩
      · obtain ⟨hsound', hkeeps'⟩ := preserves_closeBracket hidx hposition hdir hsound
        exact ⟨⟨made, hsound'⟩, hkeeps.trans hkeeps'⟩
  · exact hclass b _

theorem Sound.withLast (h : Sound ok made b) {n : Nat} (hn : n ≤ b.data.isoRunLast) :
    Sound ok made { b with data := { b.data with isoRunLast := n } } :=
  ⟨h.openings, ⟨fun r hr => h.runs.start r (hr.trans hn), fun r hr => h.runs.limit r (hr.trans hn),
    fun r hr => h.runs.contextDir r (hr.trans hn)⟩⟩

theorem frames_init (level : Nat) :
    (∃ made, Sound ok made (b.init level)) ∧ Keeps ok b (b.init level) := by
  refine ⟨⟨0, fun k hk => absurd hk (Nat.not_lt_zero k), ?_, ?_, ?_⟩, Keeps.of_eq rfl rfl⟩
  · intro r hr
    rw [show r = 0 from Nat.le_zero.mp hr]
    exact Nat.le_refl 0
  · intro r hr
    rw [show r = 0 from Nat.le_zero.mp hr]
    exact Nat.le_refl 0
  · intro r hr
    rw [show r = 0 from Nat.le_zero.mp hr]
    exact isOrdinary_ofLevel level

theorem frames_processB (level : Nat) : Frames ok b (b.processB level) := by
  rintro ⟨made, h⟩
  have hlast := h.withLast (Nat.zero_le _)
  unfold processB
  refine ⟨⟨made, (preserves_updateLast ?_ ?_ ?_ hlast).1⟩, Keeps.of_eq rfl rfl⟩
  · exact hlast.last_start
  · exact Nat.zero_le made
  · exact isOrdinary_ofLevel level

theorem frames_processBoundary (lastCcPos contextLevel embeddingLevel : Nat) :
    Frames ok b (b.processBoundary lastCcPos contextLevel embeddingLevel) := by
  rintro ⟨made, h⟩
  unfold processBoundary
  split
  · exact ⟨⟨made, h⟩, Keeps.refl b⟩
  refine ⟨⟨made, (preserves_updateLast ?_ ?_ ?_ h).1⟩, Keeps.of_eq rfl rfl⟩
  · exact h.last_start
  · exact h.last_start
  · exact isOrdinary_ofLevel _

theorem frames_processLRI_RLI (level : Nat) : Frames ok b (b.processLRI_RLI level) := by
  rintro ⟨made, h⟩
  have hold : Sound ok made (b.updateLast fun run => { run with lastBase := .ON }) := by
    refine (preserves_updateLast_of_eq ?_ ?_ ?_ h).1
    · exact fun _ => rfl
    · exact fun _ => rfl
    · exact fun _ hdir => hdir
  have hlimit := h.last_limit
  refine ⟨⟨made, hold.openings, ?_⟩, Keeps.of_eq rfl rfl⟩
  have hall : ∀ p : IsoRun → Prop, p
        { contextPos := 0, start := b.last.limit, limit := b.last.limit, level := level,
          lastStrong := .ofLevel level, lastBase := .ofLevel level, contextDir := .ofLevel level } →
      (∀ r ≤ b.data.isoRunLast,
        p ((b.updateLast fun run => { run with lastBase := .ON }).data.isoRuns r)) →
      ∀ r ≤ b.data.isoRunLast + 1, p ((b.processLRI_RLI level).data.isoRuns r) := by
    intro p hrun hruns r hr
    unfold processLRI_RLI updateLast
    dsimp only
    by_cases hlast : r = b.data.isoRunLast + 1
    · rw [hlast, Function.update_self]
      exact hrun
    · rw [Function.update_of_ne hlast]
      exact hruns r (by omega)
  exact ⟨hall (·.start ≤ made) hlimit hold.runs.start, hall (·.limit ≤ made) hlimit hold.runs.limit,
    hall (fun run => isOrdinary run.contextDir = true) (isOrdinary_ofLevel level)
      hold.runs.contextDir⟩

theorem frames_processPDI : Frames ok b b.processPDI := by
  rintro ⟨made, h⟩
  have hlast := h.withLast (Nat.sub_le b.data.isoRunLast 1)
  unfold processPDI
  refine ⟨⟨made, (preserves_updateLast_of_eq ?_ ?_ ?_ hlast).1⟩, Keeps.of_eq rfl rfl⟩
  · exact fun _ => rfl
  · exact fun _ => rfl
  · exact fun _ hdir => hdir

end Brackets

end Icu.BiDi
