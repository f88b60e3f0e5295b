import Mathlib.Computability.Language

/-! # State tables of break rules

The rules of a break iterator are compiled into a deterministic state table. The parse tree of
the rules comes here with its variables and sets replaced. Chained rules are left out, and so
are the tables for look-ahead and status tags.
-/

namespace Icu.Rbbi

open Computability

/-- The types of nodes without children that are left when the sets are flattened. -/
inductive LeafType
  | leafChar
  | lookAhead
  | tag
  | endMark
deriving Repr, DecidableEq

/-- A node without children. Nodes are compared by their addresses, which are numbers here in
the order that `uprv_memcmp` has for pointers. -/
structure Leaf where
  address : Nat
  fType : LeafType
  fVal : Nat
  fLookAheadEnd : Bool
deriving Repr, DecidableEq

inductive RBBINode
  | leaf (p : Leaf)
  | opCat (fLeftChild fRightChild : RBBINode)
  | opOr (fLeftChild fRightChild : RBBINode)
  | opStar (fLeftChild : RBBINode)
  | opPlus (fLeftChild : RBBINode)
  | opQuestion (fLeftChild : RBBINode)

/-- The loop of `setAdd` for one element of `dest`, with the loop for the elements behind it. -/
def setAddHead (d : Leaf) (dest : List Leaf) (addRest : List Leaf → List Leaf) :
    List Leaf → List Leaf
  | [] => d :: dest
  | s :: source =>
    if d.address = s.address then s :: addRest source
    else if d.address < s.address then d :: addRest (s :: source)
    else s :: setAddHead d dest addRest source

/-- `setAdd(dest, source)` merges sorted vectors. -/
def setAdd : List Leaf → List Leaf → List Leaf
  | [], source => source
  | d :: dest, source => setAddHead d dest (setAdd dest) source

/-- `setEquals(a, b)` -/
def setEquals (a b : List Leaf) : Bool := a.map Leaf.address == b.map Leaf.address

/-- The `fFollowPos` of the nodes, by their addresses. -/
abbrev FollowPos := Nat → List Leaf

/-- `setAdd(i->fFollowPos, source)` -/
def FollowPos.add (followPos : FollowPos) (source : List Leaf) (i : Leaf) : FollowPos :=
  fun address =>
    if address = i.address then setAdd (followPos address) source else followPos address

namespace RBBINode

def calcNullable : RBBINode → Bool
  | leaf p =>
    match p.fType with
    | .lookAhead => true
    | .tag => true
    | .endMark => false
    | .leafChar => false
  | opOr l r => l.calcNullable || r.calcNullable
  | opCat l r => l.calcNullable && r.calcNullable
  | opStar _ => true
  | opQuestion _ => true
  | opPlus _ => false

def calcFirstPos : RBBINode → List Leaf
  | leaf p => [p]
  | opOr l r => setAdd (setAdd [] l.calcFirstPos) r.calcFirstPos
  | opCat l r =>
    let firstPosSet := setAdd [] l.calcFirstPos
    if l.calcNullable then setAdd firstPosSet r.calcFirstPos else firstPosSet
  | opStar l => setAdd [] l.calcFirstPos
  | opQuestion l => setAdd [] l.calcFirstPos
  | opPlus l => setAdd [] l.calcFirstPos

def calcLastPos : RBBINode → List Leaf
  | leaf p => [p]
  | opOr l r => setAdd (setAdd [] l.calcLastPos) r.calcLastPos
  | opCat l r =>
    let lastPosSet := setAdd [] r.calcLastPos
    if r.calcNullable then setAdd lastPosSet l.calcLastPos else lastPosSet
  | opStar l => setAdd [] l.calcLastPos
  | opQuestion l => setAdd [] l.calcLastPos
  | opPlus l => setAdd [] l.calcLastPos

/-- The loops of Aho's rules 1 and 2: what is in `lastPos` is followed by what is in `firstPos`. -/
def addFollow (lastPos firstPos : List Leaf) (followPos : FollowPos) : FollowPos :=
  lastPos.foldl (fun followPos i => followPos.add firstPos i) followPos

def calcFollowPos : RBBINode → FollowPos → FollowPos
  | leaf _, followPos => followPos
  | opOr l r, followPos => r.calcFollowPos (l.calcFollowPos followPos)
  | opCat l r, followPos =>
    addFollow l.calcLastPos r.calcFirstPos (r.calcFollowPos (l.calcFollowPos followPos))
  | opStar l, followPos =>
    addFollow (opStar l).calcLastPos (opStar l).calcFirstPos (l.calcFollowPos followPos)
  | opPlus l, followPos =>
    addFollow (opPlus l).calcLastPos (opPlus l).calcFirstPos (l.calcFollowPos followPos)
  | opQuestion l, followPos => l.calcFollowPos followPos

/-- `findNodes(dest, kind)`, for a kind of nodes without children. -/
def findNodes (kind : LeafType) : RBBINode → List Leaf
  | leaf p => if p.fType = kind then [p] else []
  | opOr l r => l.findNodes kind ++ r.findNodes kind
  | opCat l r => l.findNodes kind ++ r.findNodes kind
  | opStar l => l.findNodes kind
  | opQuestion l => l.findNodes kind
  | opPlus l => l.findNodes kind

end RBBINode

structure RBBIStateDescriptor where
  fMarked : Bool
  fAccepting : Int
  fLookAhead : Int
  fPositions : List Leaf
  fDtran : List Nat
deriving Repr, DecidableEq

/-- `RBBIStateDescriptor(lastInputSymbol)`, with its positions. -/
def RBBIStateDescriptor.new (lastInputSymbol : Nat) (positions : List Leaf) : RBBIStateDescriptor :=
  { fMarked := false, fAccepting := 0, fLookAhead := 0, fPositions := positions
    fDtran := List.replicate (lastInputSymbol + 1) 0 }

/-- `U`, which is `NULL` if no position in `T` has the symbol `a`. -/
def nextPositions (followPos : FollowPos) (a : Nat) (positions : List Leaf) : Option (List Leaf) :=
  positions.foldl (fun U p =>
    if p.fType = .leafChar ∧ p.fVal = a then some (setAdd (U.getD []) (followPos p.address))
    else U) none

/-- `Dtran[T, a] := U` -/
def setDtran (ux a : Nat) (T : RBBIStateDescriptor) : RBBIStateDescriptor :=
  { T with fDtran := T.fDtran.set a ux }

/-- The body of the loop over the input symbols, for the state `tx` with its positions. -/
def addTransition (followPos : FollowPos) (lastInputSymbol tx : Nat) (positions : List Leaf)
    (states : List RBBIStateDescriptor) (a : Nat) : List RBBIStateDescriptor :=
  match nextPositions followPos a positions with
  | none => states
  | some U =>
    match states.findIdx? (fun temp => setEquals U temp.fPositions) with
    | some ux => states.modify tx (setDtran ux a)
    | none =>
      (states ++ [RBBIStateDescriptor.new lastInputSymbol U]).modify tx (setDtran states.length a)

/-- The first unmarked state, from state 1 on. -/
def findUnmarked (states : List RBBIStateDescriptor) : Option Nat :=
  ((states.drop 1).findIdx? fun temp => temp.fMarked == false).map (· + 1)

/-- Mark the state, and set its transitions. -/
def processState (followPos : FollowPos) (lastInputSymbol tx : Nat)
    (states : List RBBIStateDescriptor) : List RBBIStateDescriptor :=
  let positions := (states[tx]?.map RBBIStateDescriptor.fPositions).getD []
  (List.range' 1 lastInputSymbol).foldl (addTransition followPos lastInputSymbol tx positions)
    (states.modify tx fun T => { T with fMarked := true })

/-- While there is an unmarked state. -/
def buildStates (followPos : FollowPos) (lastInputSymbol : Nat) :
    Nat → List RBBIStateDescriptor → Option (List RBBIStateDescriptor)
  | 0, _ => none
  | fuel + 1, states =>
    match findUnmarked states with
    | none => some states
    | some tx =>
      buildStates followPos lastInputSymbol fuel
        (processState followPos lastInputSymbol tx states)

/-- `buildStateTable()`. State 0 is the stop state. -/
def buildStateTable (followPos : FollowPos) (lastInputSymbol fuel : Nat) (fTree : RBBINode) :
    Option (List RBBIStateDescriptor) :=
  buildStates followPos lastInputSymbol fuel
    [.new lastInputSymbol [], .new lastInputSymbol (setAdd [] fTree.calcFirstPos)]

/-- `flagAcceptingStates()` for one end marker and one state. -/
def flagAccepting (endMarker : Leaf) (sd : RBBIStateDescriptor) : RBBIStateDescriptor :=
  if (sd.fPositions.any fun p => p.address == endMarker.address) = true then
    let accepting :=
      if sd.fAccepting = 0 then if endMarker.fVal = 0 then -1 else (endMarker.fVal : Int)
      else sd.fAccepting
    let accepting := if accepting = -1 ∧ endMarker.fVal ≠ 0 then (endMarker.fVal : Int)
      else accepting
    { sd with
      fAccepting := accepting
      fLookAhead := if endMarker.fLookAheadEnd then accepting else sd.fLookAhead }
  else sd

def flagAcceptingStates (fTree : RBBINode) (states : List RBBIStateDescriptor) :
    List RBBIStateDescriptor :=
  (fTree.findNodes .endMark).foldl (fun states endMarker => states.map (flagAccepting endMarker))
    states

/-- The steps of `build()` on a tree that ends with the end mark. -/
def build (lastInputSymbol fuel : Nat) (fTree : RBBINode) : Option (List RBBIStateDescriptor) :=
  let followPos := fTree.calcFollowPos fun _ => []
  (buildStateTable followPos lastInputSymbol fuel fTree).map (flagAcceptingStates fTree)

/-- The run from state `s` never enters state 0 and ends in an accepting state. -/
def acceptsFrom (states : List RBBIStateDescriptor) : Nat → List Nat → Bool
  | s, [] => (states[s]?.map fun sd => sd.fAccepting != 0).getD false
  | s, a :: w =>
    let next := (states[s]?.map fun sd => sd.fDtran.getD a 0).getD 0
    next != 0 && acceptsFrom states next w

/-- The run from state 1. -/
def accepts (states : List RBBIStateDescriptor) (w : List Nat) : Bool := acceptsFrom states 1 w

namespace RBBINode

/-- The nodes without children, from left to right. -/
def leaves : RBBINode → List Leaf
  | leaf p => [p]
  | opOr l r => l.leaves ++ r.leaves
  | opCat l r => l.leaves ++ r.leaves
  | opStar l => l.leaves
  | opQuestion l => l.leaves
  | opPlus l => l.leaves

/-- The regular language of an expression over character categories. -/
def language : RBBINode → Language Nat
  | leaf p => {[p.fVal]}
  | opOr l r => l.language + r.language
  | opCat l r => l.language * r.language
  | opStar l => l.language∗
  | opPlus l => l.language * l.language∗
  | opQuestion l => l.language + 1

end RBBINode

/-- A rule expression without look-ahead and tags, concatenated with the end mark. -/
structure RuleTree (lastInputSymbol : Nat) where
  expression : RBBINode
  endMark : Leaf
  leafChar : ∀ p ∈ expression.leaves, p.fType = .leafChar
  category : ∀ p ∈ expression.leaves, 1 ≤ p.fVal ∧ p.fVal ≤ lastInputSymbol
  endMark_type : endMark.fType = .endMark
  distinct : ((expression.leaves ++ [endMark]).map Leaf.address).Nodup

/-- The tree whose positions are calculated. -/
def RuleTree.fTree {lastInputSymbol : Nat} (t : RuleTree lastInputSymbol) : RBBINode :=
  .opCat t.expression (.leaf t.endMark)

end Icu.Rbbi
