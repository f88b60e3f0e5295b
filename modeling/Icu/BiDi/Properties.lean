import Icu.BiDi.Model
import Icu.Utf16.Boundaries

/-! # Directional properties

`getDirProps` of `ubidi.c`: the classes of the text, and its paragraphs with their levels. `Flags`
are the list of the classes whose bits are set.
-/

namespace Icu.BiDi

open Utf16

variable {controlCount length paraLevel : Nat} {isDefault : Bool}

inductive UBiDiReorderingMode
  | default
  | numbersSpecial
  | groupNumbersWithR
  | runsOnly
  | inverseNumbersAsL
  | inverseLikeDirect
  | inverseForNumbersSpecial
  deriving DecidableEq, Repr

namespace DirProp

/-- `DIRPROP_FLAG(dirProp)&MASK_LTR` -/
def isLTR : DirProp → Bool
  | .L | .EN | .ENL | .ENR | .AN | .LRE | .LRO | .LRI => true
  | _ => false

/-- `DIRPROP_FLAG(dirProp)&MASK_RTL` -/
def isRTL : DirProp → Bool
  | .R | .AL | .RLE | .RLO | .RLI => true
  | _ => false

/-- `DIRPROP_FLAG(dirProp)&MASK_EXPLICIT` -/
def isExplicit : DirProp → Bool
  | .LRE | .LRO | .RLE | .RLO | .PDF => true
  | _ => false

/-- `DIRPROP_FLAG(dirProp)&MASK_ISO` -/
def isIso : DirProp → Bool
  | .LRI | .RLI | .FSI | .PDI => true
  | _ => false

/-- `DIRPROP_FLAG(dirProp)&MASK_BN_EXPLICIT` -/
def isBNExplicit (dirProp : DirProp) : Bool := dirProp == .BN || dirProp.isExplicit

/-- `DIRPROP_FLAG(dirProp)&MASK_POSSIBLE_N` -/
def isPossibleN (dirProp : DirProp) : Bool :=
  dirProp == .ON || dirProp == .CS || dirProp == .ES || dirProp == .ET || dirProp.isWS

/-- `DIRPROP_FLAG(dirProp)&MASK_EMBEDDING` -/
def isEmbedding (dirProp : DirProp) : Bool := dirProp == .NSM || dirProp.isPossibleN

/-- `GET_LR_FROM_LEVEL(level)` -/
def ofLevel (level : Nat) : DirProp := if level % 2 = 1 then .R else .L

end DirProp

abbrev Flags := List DirProp

/-- `DIRPROP_FLAG_E(level)` -/
def flagE (level : Nat) : DirProp := if level % 2 = 1 then .RLE else .LRE

/-- `DIRPROP_FLAG_O(level)` -/
def flagO (level : Nat) : DirProp := if level % 2 = 1 then .RLO else .LRO

/-- `directionFromFlags(pBiDi)` -/
def directionFromFlags (flags : Flags) : UBiDiDirection :=
  if ¬ (flags.any DirProp.isRTL = true ∨ .AN ∈ flags ∧ flags.any DirProp.isPossibleN = true) then
    .ltr
  else if ¬ flags.any DirProp.isLTR = true then .rtl
  else .mixed

/-- What an object has been told before `ubidi_setPara`, and the properties of characters. -/
structure Settings where
  customizedClass : Nat → DirProp
  /-- `u_getBidiPairedBracket(c)` -/
  getBidiPairedBracket : Nat → Nat
  /-- `ubidi_getPairedBracketType(c)==U_BPT_OPEN` -/
  isOpenBracket : Nat → Bool
  reorderingMode : UBiDiReorderingMode
  streaming : Bool
  removeControls : Bool
  orderParagraphsLTR : Bool
  prologue : List UInt16

/-! ## The scan -/

inductive SeekState
  | notSeekingStrong
  | seekingStrongForPara
  | seekingStrongForFSI
  | lookingForPDI
  deriving DecidableEq, Repr

/-- The variables of `getDirProps`. `stack` has the entries of both stacks, the last one first, and
`overflow` counts the isolates that have no entry. -/
structure PropertyScan where
  dirProps : List DirProp
  flags : Flags
  paras : Nat → Para
  paraCount : Nat
  length : Nat
  controlCount : Nat
  scannedControls : Nat
  lastArabicPos : Int
  state : SeekState
  lastStrong : DirProp
  stack : List (Nat × SeekState)
  overflow : Nat

namespace PropertyScan

variable (settings : Settings) (scan : PropertyScan)

/-- `pBiDi->paras[index].level=level` -/
def setLevel (index level : Nat) : PropertyScan :=
  { scan with paras := Function.update scan.paras index { scan.paras index with level := level } }

/-- The strong character that decides the level of a paragraph or the kind of an FSI. -/
def foundStrong (level : Nat) : PropertyScan :=
  match scan.state with
  | .seekingStrongForPara =>
    { scan.setLevel (scan.paraCount - 1) level with state := .notSeekingStrong }
  | .seekingStrongForFSI =>
    let scan :=
      match scan.overflow, scan.stack with
      | 0, (isolateStart, _) :: _ =>
        if level = 0 then { scan with flags := .LRI :: scan.flags }
        else
          { scan with
            dirProps := scan.dirProps.set isolateStart .RLI
            flags := .RLI :: scan.flags }
      | _, _ => scan
    { scan with state := .lookingForPDI }
  | _ => scan

/-- FSI, LRI or RLI. The character ends before `i`. -/
def openIsolate (dirProp : DirProp) (i : Nat) : PropertyScan :=
  let scan :=
    if scan.stack.length ≤ maxExplicitLevel then
      { scan with stack := (i - 1, scan.state) :: scan.stack }
    else { scan with overflow := scan.overflow + 1 }
  if dirProp = .FSI then
    -- default if no strong char
    { scan with dirProps := scan.dirProps.set (i - 1) .LRI, state := .seekingStrongForFSI }
  else { scan with state := .lookingForPDI }

def closeIsolate : PropertyScan :=
  let scan :=
    if scan.state = .seekingStrongForFSI ∧ scan.overflow = 0 then
      { scan with flags := .LRI :: scan.flags }
    else scan
  match scan.overflow, scan.stack with
  | overflow + 1, _ => { scan with overflow }
  | 0, (_, state) :: stack => { scan with state, stack }
  | 0, [] => scan

def nextPara (isDefaultLevel : Bool) (paraLevel : Nat) : PropertyScan :=
  let scan := { scan with paraCount := scan.paraCount + 1, stack := [], overflow := 0 }
  if isDefaultLevel then
    { scan.setLevel (scan.paraCount - 1) (paraLevel % 2) with
      state := .seekingStrongForPara
      lastStrong := .ofLevel paraLevel }
  else { scan.setLevel (scan.paraCount - 1) paraLevel with state := .notSeekingStrong }

/-- A paragraph ends before `i`. -/
def endPara (isDefaultLevel isDefaultLevelInverse : Bool) (paraLevel originalLength i : Nat) :
    PropertyScan :=
  let last := scan.paraCount - 1
  let scan :=
    { scan with paras := Function.update scan.paras last { scan.paras last with limit := i } }
  let scan := if isDefaultLevelInverse ∧ scan.lastStrong = .R then scan.setLevel last 1 else scan
  let scan :=
    if settings.streaming then { scan with length := i, controlCount := scan.scannedControls }
    else scan
  -- B is not the last character of the text
  if i < originalLength then scan.nextPara isDefaultLevel paraLevel else scan

/-- One character that ends before `i`. -/
def readChar (text : List UInt16) (isDefaultLevel isDefaultLevelInverse : Bool) (paraLevel : Nat)
    (uchar i : Nat) : PropertyScan :=
  let dirProp := settings.customizedClass uchar
  let scan :=
    { scan with
      flags := (if uchar > 0xffff then [.BN, dirProp] else [dirProp]) ++ scan.flags
      -- a lead surrogate is a BN
      dirProps := scan.dirProps ++ if uchar > 0xffff then [.BN, dirProp] else [dirProp]
      scannedControls :=
        if settings.removeControls ∧ isBiDiControlChar uchar = true then scan.scannedControls + 1
        else scan.scannedControls }
  match dirProp with
  | .L => { scan.foundStrong 0 with lastStrong := .L }
  | .R => { scan.foundStrong 1 with lastStrong := .R }
  | .AL => { scan.foundStrong 1 with lastStrong := .R, lastArabicPos := (i : Int) - 1 }
  | .FSI => scan.openIsolate .FSI i
  | .LRI => scan.openIsolate .LRI i
  | .RLI => scan.openIsolate .RLI i
  | .PDI => scan.closeIsolate
  | .B =>
    -- do nothing on the CR of CR LF
    if i < text.length ∧ uchar = 0xd ∧ unitAt text i = some 0xa then scan
    else scan.endPara settings isDefaultLevel isDefaultLevelInverse paraLevel text.length i
  | _ => scan

def readText (text : List UInt16) (isDefaultLevel isDefaultLevelInverse : Bool) (paraLevel : Nat) :
    Nat → Nat → PropertyScan → PropertyScan
  | 0, _, scan => scan
  | fuel + 1, i, scan =>
    match u16Next text i text.length with
    | none => scan
    | some (uchar, i) =>
      readText text isDefaultLevel isDefaultLevelInverse paraLevel fuel i
        (scan.readChar settings text isDefaultLevel isDefaultLevelInverse paraLevel uchar i)

def hasOpenFSI : SeekState → List (Nat × SeekState) → Bool
  | _, [] => false
  | state, (_, previous) :: stack => state == .seekingStrongForFSI || hasOpenFSI previous stack

end PropertyScan

/-- The loop of `firstL_R_AL`. -/
def firstStrongLoop (settings : Settings) : Nat → Nat → DirProp → DirProp
  | 0, _, result => result
  | fuel + 1, i, result =>
    match u16Next settings.prologue i settings.prologue.length with
    | none => result
    | some (uchar, i) =>
      let dirProp := settings.customizedClass uchar
      firstStrongLoop settings fuel i
        (if result = .ON then
          if dirProp = .L ∨ dirProp = .R ∨ dirProp = .AL then dirProp else result
        else if dirProp = .B then .ON else result)

/-- `firstL_R_AL(pBiDi)` -/
def firstStrong (settings : Settings) : DirProp :=
  firstStrongLoop settings settings.prologue.length 0 .ON

/-- `IS_DEFAULT_LEVEL(level)` -/
def isDefaultLevel (level : Nat) : Bool := decide (0xfe ≤ level)

namespace PropertyScan

variable (settings : Settings) (scan : PropertyScan)

/-- The variables at the start, but the level of the first paragraph. -/
def init (paras : Nat → Para) (controlCount length : Nat) : PropertyScan :=
  { dirProps := []
    flags := []
    paras := paras
    paraCount := 1
    length := length
    controlCount := controlCount
    scannedControls := 0
    lastArabicPos := -1
    state := .notSeekingStrong
    lastStrong := .ON
    stack := []
    overflow := 0 }

def firstPara (isDefaultLevel : Bool) (paraLevel : Nat) : PropertyScan :=
  if isDefaultLevel then
    let strong := firstStrong settings
    if strong ≠ .ON then
      { scan.setLevel 0 (if strong = .L then 0 else 1) with lastStrong := .ofLevel paraLevel }
    else
      { scan.setLevel 0 (paraLevel % 2) with
        lastStrong := .ofLevel paraLevel
        state := .seekingStrongForPara }
  else scan.setLevel 0 paraLevel

def closeOpenIsolates : PropertyScan :=
  if scan.overflow > 0 ∨ hasOpenFSI scan.state scan.stack = true then
    { scan with flags := .LRI :: scan.flags }
  else scan

def lastPara (isDefaultLevelInverse : Bool) (originalLength : Nat) : PropertyScan :=
  let last := scan.paraCount - 1
  let scan :=
    if settings.streaming then
      if scan.length < originalLength then { scan with paraCount := scan.paraCount - 1 } else scan
    else
      { scan with
        paras := Function.update scan.paras last { scan.paras last with limit := originalLength }
        controlCount := scan.scannedControls }
  if isDefaultLevelInverse ∧ scan.lastStrong = .R ∧ scan.paraCount > 0 then
    scan.setLevel (scan.paraCount - 1) 1
  else scan

end PropertyScan

/-- The variables at the end of `getDirProps(pBiDi)`. -/
def scanText (settings : Settings) (text : List UInt16) (paraLevel : Nat) (o : UBiDi) :
    PropertyScan :=
  let isDefault := isDefaultLevel paraLevel
  let isDefaultInverse := isDefault &&
    (settings.reorderingMode == .inverseLikeDirect ||
      settings.reorderingMode == .inverseForNumbersSpecial)
  let start := (PropertyScan.init o.paras o.controlCount
    (if settings.streaming then 0 else text.length)).firstPara settings isDefault paraLevel
  let scan := start.readText settings text isDefault isDefaultInverse paraLevel text.length 0
  scan.closeOpenIsolates.lastPara settings isDefaultInverse text.length

/-- The object and the flags behind `getDirProps(pBiDi)`. -/
def getDirProps (settings : Settings) (text : List UInt16) (paraLevel : Nat) (o : UBiDi) :
    UBiDi × Flags :=
  let scan := scanText settings text paraLevel o
  let flags :=
    (List.range scan.paraCount).map (fun i => DirProp.ofLevel (scan.paras i).level) ++ scan.flags
  ({ o with
      dirProps := scan.dirProps
      length := scan.length
      paras := scan.paras
      paraCount := scan.paraCount
      paraLevel := if isDefaultLevel paraLevel then (scan.paras 0).level else paraLevel
      controlCount := scan.controlCount },
    if settings.orderParagraphsLTR ∧ .B ∈ flags then .L :: flags else flags)

/-! ## What the scan finds -/

/-- A paragraph object with classes that do not hide an isolate from the flags, and with levels. -/
structure ScanInv (text : List UInt16) (i : Nat) (scan : PropertyScan) : Prop where
  size : scan.dirProps.length = i
  left : IsBoundary text i
  length : scan.length ≤ text.length
  iso : ∀ j, (scan.dirProps.getD j .L).isIso = true → scan.flags.any DirProp.isIso = true
  stack : ∀ e ∈ scan.stack, (scan.dirProps.getD e.1 .L).isIso = true
  lines : ∀ j < i, unitAt text j = some 0xa → scan.dirProps.getD j .L = .B
  count : 0 < scan.paraCount
  levels : ∀ k < scan.paraCount, (scan.paras k).level ≤ maxExplicitLevel

namespace ScanInv

variable {settings : Settings} {text : List UInt16} {i : Nat} {scan : PropertyScan}
  {level uchar j : Nat} {isDefaultInverse : Bool}

section

variable (h : ScanInv text i scan)
include h

theorem setLevel (index : Nat) (hlevel : level ≤ maxExplicitLevel) :
    ScanInv text i (scan.setLevel index level) := by
  refine ⟨h.size, h.left, h.length, h.iso, h.stack, h.lines, h.count, ?_⟩
  intro k hk
  unfold PropertyScan.setLevel
  dsimp only
  by_cases hindex : k = index
  · rw [hindex, Function.update_self]
    exact hlevel
  · rw [Function.update_of_ne hindex]
    exact h.levels k hk

theorem addFlag (dirProp : DirProp) :
    ScanInv text i { scan with flags := dirProp :: scan.flags } := by
  refine ⟨h.size, h.left, h.length, ?_, h.stack, h.lines, h.count, h.levels⟩
  intro j hj
  rw [List.any_cons, h.iso j hj, Bool.or_true]

theorem withState (state : SeekState) : ScanInv text i { scan with state } :=
  ⟨h.size, h.left, h.length, h.iso, h.stack, h.lines, h.count, h.levels⟩

theorem withStrong (state : SeekState) (lastStrong : DirProp) :
    ScanInv text i { scan with state, lastStrong } :=
  ⟨h.size, h.left, h.length, h.iso, h.stack, h.lines, h.count, h.levels⟩

theorem withLast (lastStrong : DirProp) (lastArabicPos : Int) :
    ScanInv text i { scan with lastStrong, lastArabicPos } :=
  ⟨h.size, h.left, h.length, h.iso, h.stack, h.lines, h.count, h.levels⟩

theorem setIsolate {p : Nat} (hp : (scan.dirProps.getD p .L).isIso = true)
    {dirProp : DirProp} (hdir : dirProp.isIso = true) :
    ScanInv text i { scan with dirProps := scan.dirProps.set p dirProp } := by
  have hget : ∀ j, ((scan.dirProps.set p dirProp).getD j .L) =
      if p = j ∧ j < scan.dirProps.length then dirProp else scan.dirProps.getD j .L := by
    intro j
    rw [List.getD_eq_getElem?_getD, List.getD_eq_getElem?_getD, List.getElem?_set]
    by_cases hpj : p = j
    · by_cases hj : j < scan.dirProps.length
      · simp [hpj, hj]
      · simp [hpj, hj]
    · simp [hpj]
  refine ⟨by rw [List.length_set]; exact h.size, h.left, h.length, ?_, ?_, ?_, h.count, h.levels⟩
  · intro j hj
    rw [hget] at hj
    split at hj
    · exact h.iso p hp
    · exact h.iso j hj
  · intro e he
    rw [hget]
    split
    · exact hdir
    · exact h.stack e he
  · intro j hj hunit
    have hold := h.lines j hj hunit
    rw [hget, if_neg ?_]
    · exact hold
    rintro ⟨rfl, -⟩
    rw [hold] at hp
    cases hp

theorem foundStrong (hlevel : level ≤ 1) : ScanInv text i (scan.foundStrong level) := by
  have hmax : level ≤ maxExplicitLevel := hlevel.trans (by decide)
  unfold PropertyScan.foundStrong
  split
  · exact (h.setLevel _ hmax).withState _
  · refine ScanInv.withState ?_ _
    split
    · next isolateStart _ _ _ hstack =>
      have hiso := h.stack (isolateStart, _) (by rw [hstack]; exact List.mem_cons_self)
      split
      · exact h.addFlag _
      · exact (h.setIsolate hiso rfl).addFlag .RLI
    · exact h
  · exact h

theorem pushIsolate (hiso : (scan.dirProps.getD (i - 1) .L).isIso = true) :
    ScanInv text i (if scan.stack.length ≤ maxExplicitLevel then
      { scan with stack := (i - 1, scan.state) :: scan.stack }
    else { scan with overflow := scan.overflow + 1 }) := by
  split
  · refine ⟨h.size, h.left, h.length, h.iso, ?_, h.lines, h.count, h.levels⟩
    intro e he
    cases List.mem_cons.mp he with
    | inl heq =>
      rw [heq]
      exact hiso
    | inr hmem => exact h.stack e hmem
  · exact ⟨h.size, h.left, h.length, h.iso, h.stack, h.lines, h.count, h.levels⟩

theorem openIsolate (hiso : (scan.dirProps.getD (i - 1) .L).isIso = true)
    (dirProp : DirProp) : ScanInv text i (scan.openIsolate dirProp i) := by
  have hpushed := h.pushIsolate hiso
  have hsame : (if scan.stack.length ≤ maxExplicitLevel then
      { scan with stack := (i - 1, scan.state) :: scan.stack }
    else { scan with overflow := scan.overflow + 1 }).dirProps = scan.dirProps := by
    split
    · rfl
    · rfl
  unfold PropertyScan.openIsolate
  by_cases hdir : dirProp = .FSI
  · rw [if_pos hdir]
    refine ScanInv.withState (hpushed.setIsolate ?_ rfl) .seekingStrongForFSI
    rw [hsame]
    exact hiso
  · rw [if_neg hdir]
    exact hpushed.withState _

theorem closeIsolate : ScanInv text i scan.closeIsolate := by
  have hpopped : ∀ scan' : PropertyScan, ScanInv text i scan' →
      ScanInv text i (match scan'.overflow, scan'.stack with
        | overflow + 1, _ => { scan' with overflow }
        | 0, (_, state) :: stack => { scan' with state, stack }
        | 0, [] => scan') := by
    intro scan' h'
    split
    · exact ⟨h'.size, h'.left, h'.length, h'.iso, h'.stack, h'.lines, h'.count, h'.levels⟩
    · next hstack =>
      refine ⟨h'.size, h'.left, h'.length, h'.iso, ?_, h'.lines, h'.count, h'.levels⟩
      intro e he
      exact h'.stack e (by rw [hstack]; exact List.mem_cons_of_mem _ he)
    · exact h'
  unfold PropertyScan.closeIsolate
  refine hpopped (if scan.state = .seekingStrongForFSI ∧ scan.overflow = 0 then
    { scan with flags := .LRI :: scan.flags } else scan) ?_
  split
  · exact h.addFlag .LRI
  · exact h

/-- A variable that is not looked at. -/
theorem withLength (hlength : length ≤ text.length) :
    ScanInv text i { scan with length, controlCount } :=
  ⟨h.size, h.left, hlength, h.iso, h.stack, h.lines, h.count, h.levels⟩

theorem setLimit (index limit : Nat) : ScanInv text i { scan with
    paras := Function.update scan.paras index { scan.paras index with limit := limit } } := by
  refine ⟨h.size, h.left, h.length, h.iso, h.stack, h.lines, h.count, ?_⟩
  intro k hk
  dsimp only
  by_cases hindex : k = index
  · rw [hindex, Function.update_self]
    rw [hindex] at hk
    exact h.levels _ hk
  · rw [Function.update_of_ne hindex]
    exact h.levels k hk

theorem nextPara (hlevel : isDefault = false → paraLevel ≤ maxExplicitLevel) :
    ScanInv text i (scan.nextPara isDefault paraLevel) := by
  have hadded : ∀ level, level ≤ maxExplicitLevel → ScanInv text i
      (({ scan with paraCount := scan.paraCount + 1, stack := [], overflow := 0 } :
        PropertyScan).setLevel scan.paraCount level) := by
    intro level hmax
    refine ⟨h.size, h.left, h.length, h.iso, fun e he => absurd he List.not_mem_nil, h.lines,
      Nat.succ_pos _, ?_⟩
    intro k hk
    unfold PropertyScan.setLevel
    dsimp only
    by_cases hlast : k = scan.paraCount
    · rw [hlast, Function.update_self]
      exact hmax
    · rw [Function.update_of_ne hlast]
      exact h.levels k (Nat.lt_of_le_of_ne (Nat.le_of_lt_succ hk) hlast)
  unfold PropertyScan.nextPara
  cases isDefault with
  | true =>
    rw [if_pos rfl]
    exact (hadded (paraLevel % 2) (by unfold maxExplicitLevel; omega)).withStrong _ _
  | false =>
    rw [if_neg (by decide)]
    exact (hadded paraLevel (hlevel rfl)).withState _

theorem endPara (hlevel : isDefault = false → paraLevel ≤ maxExplicitLevel) :
    ScanInv text i (scan.endPara settings isDefault isDefaultInverse paraLevel text.length i) := by
  have hlimit := h.setLimit (scan.paraCount - 1) i
  have hstream : ∀ scan' : PropertyScan, ScanInv text i scan' → ScanInv text i
      (if settings.streaming then { scan' with length := i, controlCount := scan'.scannedControls }
      else scan') := by
    intro scan' h'
    split
    · exact h'.withLength h.left.1
    · exact h'
  unfold PropertyScan.endPara
  dsimp only
  split
  · apply ScanInv.nextPara _ hlevel
    apply hstream
    split
    · exact hlimit.setLevel _ (by decide)
    · exact hlimit
  · apply hstream
    split
    · exact hlimit.setLevel _ (by decide)
    · exact hlimit

theorem append {classes : List DirProp} (hright : IsBoundary text (i + classes.length))
    (hlines : ∀ k < classes.length, unitAt text (i + k) = some 0xa → classes.getD k .L = .B)
    (scannedControls : Nat) : ScanInv text (i + classes.length) { scan with
      flags := classes ++ scan.flags
      dirProps := scan.dirProps ++ classes
      scannedControls } := by
  have hold : ∀ j < i, (scan.dirProps ++ classes).getD j .L = scan.dirProps.getD j .L := by
    intro j hj
    rw [List.getD_eq_getElem?_getD, List.getD_eq_getElem?_getD,
      List.getElem?_append_left (by rw [h.size]; exact hj)]
  have hnew : ∀ j, i ≤ j → (scan.dirProps ++ classes).getD j .L = classes.getD (j - i) .L := by
    intro j hj
    rw [List.getD_eq_getElem?_getD, List.getD_eq_getElem?_getD,
      List.getElem?_append_right (by rw [h.size]; exact hj), h.size]
  refine ⟨?_, hright, h.length, ?_, ?_, ?_, h.count, h.levels⟩
  · rw [List.length_append, h.size]
  · intro j hj
    rw [List.any_append, Bool.or_eq_true]
    by_cases hlt : j < i
    · rw [hold j hlt] at hj
      exact Or.inr (h.iso j hj)
    rw [hnew j (Nat.not_lt.mp hlt)] at hj
    refine Or.inl (List.any_eq_true.mpr ⟨_, ?_, hj⟩)
    by_cases hin : j - i < classes.length
    · rw [List.getD_eq_getElem _ _ hin]
      exact List.getElem_mem hin
    · rw [List.getD_eq_default _ _ (Nat.not_lt.mp hin)] at hj
      cases hj
  · intro e he
    have hiso := h.stack e he
    by_cases hlt : e.1 < i
    · dsimp only
      rw [hold e.1 hlt]
      exact hiso
    · rw [List.getD_eq_default _ _ (by rw [h.size]; exact Nat.not_lt.mp hlt)] at hiso
      cases hiso
  · intro j hj hunit
    by_cases hlt : j < i
    · rw [hold j hlt]
      exact h.lines j hlt hunit
    rw [hnew j (Nat.not_lt.mp hlt)]
    apply hlines _ (by omega)
    rw [Nat.add_sub_cancel' (Nat.not_lt.mp hlt)]
    exact hunit

theorem appendChar (hnext : CodePointAt text i j uchar)
    (hLF : settings.customizedClass 0xa = .B) (scannedControls : Nat) : ScanInv text j { scan with
      flags := (if uchar > 0xffff then [.BN, settings.customizedClass uchar]
        else [settings.customizedClass uchar]) ++ scan.flags
      dirProps := scan.dirProps ++ if uchar > 0xffff then [.BN, settings.customizedClass uchar]
        else [settings.customizedClass uchar]
      scannedControls } := by
  have hright := hnext.right
  cases hnext with
  | unit hi hc hpair =>
    have hlt := unitAt_lt hc
    rw [if_neg (by omega)]
    refine h.append (show IsBoundary text (i + [settings.customizedClass uchar].length) from hright)
      ?_ _
    intro k hk hunit
    rw [List.length_singleton, Nat.lt_one_iff] at hk
    rw [hk, Nat.add_zero, hc, Option.some.injEq] at hunit
    rw [hk, hunit]
    exact hLF
  | @pair c c2 hi hc hc2 hlead htrail =>
    have hlt := unitAt_lt hc
    have hlt2 := unitAt_lt hc2
    rw [u16IsLead_iff (by omega)] at hlead
    rw [u16IsTrail_iff (by omega)] at htrail
    have hbounds := u16GetSupplementary_bounds hlead htrail
    rw [if_pos (by omega)]
    refine h.append (show IsBoundary text
      (i + [.BN, settings.customizedClass (u16GetSupplementary c c2)].length) from hright) ?_ _
    intro k hk hunit
    have hk' : k = 0 ∨ k = 1 := by
      change k < 2 at hk
      omega
    cases hk' with
    | inl hk' =>
      rw [hk', Nat.add_zero, hc, Option.some.injEq] at hunit
      omega
    | inr hk' =>
      rw [hk', hc2, Option.some.injEq] at hunit
      omega

end

theorem last_append {text : List UInt16} {i : Nat} (hnext : CodePointAt text i j uchar)
    {dirProps : List DirProp} (hsize : dirProps.length = i) (dirProp : DirProp) :
    (dirProps ++ if uchar > 0xffff then [.BN, dirProp] else [dirProp]).getD (j - 1) .L =
    dirProp := by
  cases hnext with
  | unit hi hc hpair =>
    have hlt := unitAt_lt hc
    rw [if_neg (by omega)]
    simp [← hsize]
  | pair hi hc hc2 hlead htrail =>
    have hlt := unitAt_lt hc
    have hlt2 := unitAt_lt hc2
    rw [u16IsLead_iff (by omega)] at hlead
    rw [u16IsTrail_iff (by omega)] at htrail
    have hbounds := u16GetSupplementary_bounds hlead htrail
    rw [if_pos (by omega)]
    simp [← hsize]

theorem readChar (h : ScanInv text i scan)
    (hlevel : isDefault = false → paraLevel ≤ maxExplicitLevel)
    (hLF : settings.customizedClass 0xa = .B)
    (hnext : CodePointAt text i j uchar) :
    ScanInv text j (scan.readChar settings text isDefault isDefaultInverse paraLevel uchar j) := by
  have hread := h.appendChar hnext hLF
    (if settings.removeControls ∧ isBiDiControlChar uchar = true then scan.scannedControls + 1
      else scan.scannedControls)
  have hlast := last_append hnext h.size (settings.customizedClass uchar)
  unfold PropertyScan.readChar
  dsimp only
  split
  · exact (hread.foundStrong (by decide)).withStrong _ _
  · exact (hread.foundStrong (by decide)).withStrong _ _
  · exact (hread.foundStrong (by decide)).withLast _ _
  · next hkind => exact hread.openIsolate (by dsimp only; rw [hlast, hkind]; rfl) _
  · next hkind => exact hread.openIsolate (by dsimp only; rw [hlast, hkind]; rfl) _
  · next hkind => exact hread.openIsolate (by dsimp only; rw [hlast, hkind]; rfl) _
  · exact hread.closeIsolate
  · split
    · exact hread
    · exact hread.endPara hlevel
  · exact hread

theorem readText
    (hlevel : isDefault = false → paraLevel ≤ maxExplicitLevel)
    (hLF : settings.customizedClass 0xa = .B)
    {fuel : Nat} (h : ScanInv text i scan) (hfuel : text.length ≤ i + fuel) :
    ScanInv text text.length
      (scan.readText settings text isDefault isDefaultInverse paraLevel fuel i) := by
  induction fuel generalizing i scan with
  | zero =>
    have hend : i = text.length := Nat.le_antisymm h.left.1 hfuel
    rw [hend] at h
    exact h
  | succ fuel ih =>
    unfold PropertyScan.readText
    rcases Nat.eq_or_lt_of_le h.left.1 with hend | hlt
    · have hnone : u16Next text i text.length = none := by
        unfold u16Next unitAt
        rw [List.getElem?_eq_none (by omega)]
        rfl
      rw [hnone]
      rw [hend] at h
      exact h
    · obtain ⟨j, uchar, hnext⟩ := h.left.exists_next hlt
      have hless := hnext.lt
      rw [hnext.u16Next_eq]
      exact ih (h.readChar hlevel hLF hnext) (by omega)

end ScanInv

theorem ScanInv.firstPara {settings : Settings} {text : List UInt16} {paras : Nat → Para}
    (hlength : length ≤ text.length)
    (hlevel : isDefault = false → paraLevel ≤ maxExplicitLevel) : ScanInv text 0
      ((PropertyScan.init paras controlCount length).firstPara settings isDefault paraLevel) := by
  have hstart : ∀ level, level ≤ maxExplicitLevel →
      ScanInv text 0 ((PropertyScan.init paras controlCount length).setLevel 0 level) := by
    intro level hmax
    refine ⟨rfl, isBoundary_zero text, hlength, fun j hj => Bool.noConfusion hj,
      fun e he => absurd he List.not_mem_nil, fun j hj => absurd hj (Nat.not_lt_zero j),
        Nat.one_pos, ?_⟩
    intro k hk
    rw [Nat.lt_one_iff.mp hk]
    unfold PropertyScan.setLevel
    dsimp only
    rw [Function.update_self]
    exact hmax
  unfold PropertyScan.firstPara
  dsimp only
  split
  · split
    · exact (hstart _ (by split <;> decide)).withStrong _ _
    · exact (hstart (paraLevel % 2) (by unfold maxExplicitLevel; omega)).withStrong _ _
  · next hdefault => exact hstart _ (hlevel (Bool.not_eq_true _ ▸ hdefault))

theorem ScanInv.closeOpenIsolates {text : List UInt16} {i : Nat} {scan : PropertyScan}
    (h : ScanInv text i scan) : ScanInv text i scan.closeOpenIsolates := by
  unfold PropertyScan.closeOpenIsolates
  split
  · exact h.addFlag .LRI
  · exact h

/-- What is known of the object behind `getDirProps(pBiDi)`: isolates are in the flags, levels are
in bounds, and a line feed is a B. -/
structure PropertiesFound (text : List UInt16) (scan : PropertyScan) : Prop where
  length : scan.length ≤ text.length
  iso : ∀ j, (scan.dirProps.getD j .L).isIso = true → scan.flags.any DirProp.isIso = true
  lines : ∀ j < text.length, unitAt text j = some 0xa → scan.dirProps.getD j .L = .B
  level : ∀ k ≤ scan.paraCount - 1, (scan.paras k).level ≤ maxExplicitLevel

theorem ScanInv.lastPara {settings : Settings} {text : List UInt16} {scan : PropertyScan}
    (h : ScanInv text text.length scan) (isDefaultInverse : Bool) :
    PropertiesFound text (scan.lastPara settings isDefaultInverse text.length) := by
  have hcount := h.count
  have hfound : PropertiesFound text scan :=
    ⟨h.length, h.iso, h.lines, fun k hk => h.levels k (by omega)⟩
  have hended : PropertiesFound text (if settings.streaming then
      if scan.length < text.length then { scan with paraCount := scan.paraCount - 1 } else scan
    else
      { scan with
        paras := Function.update scan.paras (scan.paraCount - 1)
          { scan.paras (scan.paraCount - 1) with limit := text.length }
        controlCount := scan.scannedControls }) := by
    split
    · split
      · refine ⟨h.length, h.iso, h.lines, fun k hk => h.levels k ?_⟩
        dsimp only at hk
        omega
      · exact hfound
    · have hlimit := h.setLimit (scan.paraCount - 1) text.length
      exact ⟨h.length, h.iso, h.lines, fun k hk => hlimit.levels k (by dsimp only at hk ⊢; omega)⟩
  unfold PropertyScan.lastPara
  dsimp only
  generalize (if settings.streaming then
      if scan.length < text.length then { scan with paraCount := scan.paraCount - 1 } else scan
    else
      { scan with
        paras := Function.update scan.paras (scan.paraCount - 1)
          { scan.paras (scan.paraCount - 1) with limit := text.length }
        controlCount := scan.scannedControls }) = ended at hended ⊢
  split
  · refine ⟨hended.length, hended.iso, hended.lines, fun k hk => ?_⟩
    unfold PropertyScan.setLevel
    dsimp only
    by_cases hlast : k = ended.paraCount - 1
    · rw [hlast, Function.update_self]
      change 1 ≤ 125
      decide
    · rw [Function.update_of_ne hlast]
      exact hended.level k hk
  · exact hended

theorem scanText_spec {settings : Settings}
    (hlevel : isDefaultLevel paraLevel = false → paraLevel ≤ maxExplicitLevel)
    (hLF : settings.customizedClass 0xa = .B) (text : List UInt16) (o : UBiDi) :
    PropertiesFound text (scanText settings text paraLevel o) := by
  have hstart : ScanInv text 0 ((PropertyScan.init o.paras o.controlCount
      (if settings.streaming then 0 else text.length)).firstPara settings (isDefaultLevel paraLevel)
        paraLevel) := by
    refine ScanInv.firstPara ?_ hlevel
    split
    · exact Nat.zero_le _
    · exact Nat.le_refl _
  unfold scanText
  exact (hstart.readText hlevel hLF (Nat.le_add_left _ _)).closeOpenIsolates.lastPara _

end Icu.BiDi
