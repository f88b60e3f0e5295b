import Icu.UnicodeSet.Basic

/-! # Character categories

The set builder divides the code points into ranges that lie wholly inside or outside of each set
of the rules, and numbers the groups of ranges that are in the same sets. Pointers to nodes of
sets are indices here.
-/

namespace Icu.Rbbi

open UnicodeSet

/-- The expression for a set, an or-ing together of its input symbols. -/
inductive SymbolNode
  | leafChar (fVal : Nat)
  | opOr (fLeftChild fRightChild : SymbolNode)
deriving Repr, DecidableEq

def SymbolNode.leafValues : SymbolNode → List Nat
  | leafChar fVal => [fVal]
  | opOr l r => l.leafValues ++ r.leafValues

inductive RefParent
  | varRef (fText : String)
  | other
deriving Repr, DecidableEq

/-- A node for a set. `fParent` is the reference to the set, with its own parent. -/
structure UsetNode where
  fInputSet : UnicodeSet
  fParent : Option (Option RefParent)
  fLeftChild : Option SymbolNode
  valid : IsInversionList fInputSet.list

structure RangeDescriptor where
  fStartChar : Int
  fEndChar : Int
  fNum : Nat
  fIncludesSets : List Nat
deriving Repr, DecidableEq

namespace UsetNode

def setName (usetNode : UsetNode) : String :=
  match usetNode.fParent with
  | some (some (.varRef fText)) => fText
  | _ => ""

/-- `addValToSet` -/
def addValToSet (usetNode : UsetNode) (val : Nat) : UsetNode :=
  let leafNode := SymbolNode.leafChar (val % 2 ^ 16)
  match usetNode.fLeftChild with
  | none => { usetNode with fLeftChild := some leafNode }
  | some left => { usetNode with fLeftChild := some (.opOr left leafNode) }

def eofString : List UInt16 := [0x65, 0x6f, 0x66]

def bofString : List UInt16 := [0x62, 0x6f, 0x66]

def addStrings (usetNode : UsetNode) : UsetNode :=
  let usetNode :=
    if eofString ∈ usetNode.fInputSet.strings then usetNode.addValToSet 1 else usetNode
  if bofString ∈ usetNode.fInputSet.strings then usetNode.addValToSet 2 else usetNode

end UsetNode

namespace RangeDescriptor

/-- `split(where)`: the range up to `where - 1`, and its copy from `where` on. -/
def split (r : RangeDescriptor) (position : Int) : RangeDescriptor × RangeDescriptor :=
  ({ r with fEndChar := position - 1 }, { r with fStartChar := position })

def addSet (r : RangeDescriptor) (usetNode : Nat) : RangeDescriptor :=
  if usetNode ∈ r.fIncludesSets then r
  else { r with fIncludesSets := r.fIncludesSets ++ [usetNode] }

def setDictionaryFlag (fUSetNodes : List UsetNode) (r : RangeDescriptor) : RangeDescriptor :=
  if r.fIncludesSets.any fun ix => fUSetNodes[ix]?.any fun usetNode =>
      usetNode.setName == "dictionary" then
    { r with fNum := r.fNum ||| 0x4000 }
  else r

end RangeDescriptor

/-- The loop over the ranges of an input set, with the list of ranges from `rlRange` on. Nothing
before `rlRange` is changed any more. The inner loop that skips ranges is part of it. -/
def includeRanges (inputSet : UnicodeSet) (usetNode : Nat) :
    Nat → List RangeDescriptor → Nat → Option (List RangeDescriptor)
  | 0, _, _ => none
  | fuel + 1, rlRange, inputSetRangeIndex =>
    if inputSetRangeIndex ≥ inputSet.getRangeCount then some rlRange
    else
      match rlRange, inputSet.getRangeStart inputSetRangeIndex,
          inputSet.getRangeEnd inputSetRangeIndex with
      | r :: rest, some inputSetRangeBegin, some inputSetRangeEnd =>
        if r.fEndChar < inputSetRangeBegin then
          (includeRanges inputSet usetNode fuel rest inputSetRangeIndex).map (r :: ·)
        else if r.fStartChar < inputSetRangeBegin then
          -- the first part will then be skipped over
          let (r, nr) := r.split inputSetRangeBegin
          includeRanges inputSet usetNode fuel (r :: nr :: rest) inputSetRangeIndex
        else
          let (r, rest) :=
            if r.fEndChar > inputSetRangeEnd then
              let (r, nr) := r.split (inputSetRangeEnd + 1)
              (r, nr :: rest)
            else (r, rest)
          let nextIndex :=
            if inputSetRangeEnd = r.fEndChar then inputSetRangeIndex + 1
            else inputSetRangeIndex
          (includeRanges inputSet usetNode fuel rest nextIndex).map (r.addSet usetNode :: ·)
      -- no range is left for the input set
      | _, _, _ => none

/-- The loop over the sets, where `ni` is the index of the first one. -/
def divideRanges (fuel : Nat) :
    List UsetNode → Nat → List RangeDescriptor → Option (List RangeDescriptor)
  | [], _, fRangeList => some fRangeList
  | usetNode :: fUSetNodes, ni, fRangeList => do
    let fRangeList ← includeRanges usetNode.fInputSet ni fuel fRangeList 0
    divideRanges fuel fUSetNodes (ni + 1) fRangeList

structure SetBuilder where
  fUSetNodes : List UsetNode
  fRangeList : List RangeDescriptor
  fGroupCount : Nat
  fSawBOF : Bool

namespace SetBuilder

def addValToSets (fUSetNodes : List UsetNode) (sets : List Nat) (val : Nat) : List UsetNode :=
  sets.foldl (fun fUSetNodes ix => fUSetNodes.modify ix fun usetNode => usetNode.addValToSet val)
    fUSetNodes

/-- The body of the loop over the ranges, where `fRangeList` has the ranges before `rlRange`. -/
def groupRange (builder : SetBuilder) (rlRange : RangeDescriptor) : SetBuilder :=
  let rlSearchRange := builder.fRangeList.find? fun rlSearchRange =>
    rlRange.fIncludesSets == rlSearchRange.fIncludesSets
  let rlRange : RangeDescriptor :=
    { rlRange with fNum := (rlSearchRange.map (·.fNum)).getD rlRange.fNum }
  if rlRange.fNum = 0 then
    let fGroupCount := builder.fGroupCount + 1
    let rlRange : RangeDescriptor := { rlRange with fNum := fGroupCount + 2 }
    let rlRange := rlRange.setDictionaryFlag builder.fUSetNodes
    { builder with
      fUSetNodes := addValToSets builder.fUSetNodes rlRange.fIncludesSets (fGroupCount + 2)
      fRangeList := builder.fRangeList ++ [rlRange]
      fGroupCount := fGroupCount }
  else { builder with fRangeList := builder.fRangeList ++ [rlRange] }

def groupRanges (fUSetNodes : List UsetNode) (fRangeList : List RangeDescriptor) : SetBuilder :=
  fRangeList.foldl groupRange ⟨fUSetNodes, [], 0, false⟩

def addStrings (builder : SetBuilder) : SetBuilder :=
  { builder with
    fUSetNodes := builder.fUSetNodes.map UsetNode.addStrings
    fSawBOF := builder.fUSetNodes.any fun usetNode =>
      decide (UsetNode.bofString ∈ usetNode.fInputSet.strings) }

/-- `build()`, without the trie. -/
def build (fuel : Nat) (fUSetNodes : List UsetNode) : Option SetBuilder := do
  let fRangeList ← divideRanges fuel fUSetNodes 0 [⟨0, 0x10ffff, 0, []⟩]
  return (groupRanges fUSetNodes fRangeList).addStrings

/-- The first code point of a category, or `none` for -1. -/
def getFirstChar (builder : SetBuilder) (category : Nat) : Option Int :=
  (builder.fRangeList.find? fun rlRange => rlRange.fNum == category).map (·.fStartChar)

end SetBuilder

end Icu.Rbbi
