import Icu.Lib.OverlapChain
import Icu.Rbbi.Accepts

/-! # Chained rules

`calcChainedFollowPos` lets a match go on behind its last character as another match goes on behind
its first one. The sets are changed in place, but each of them only gets what was in the sets of
start nodes before.
-/

namespace Icu.Rbbi

open Icu.Lib

variable {p : Leaf} {n : RBBINode}

namespace RBBINode

def fLeftChild : RBBINode → Option RBBINode
  | leaf _ => none
  | opOr l _ => some l
  | opCat l _ => some l
  | opStar l => some l
  | opPlus l => some l
  | opQuestion l => some l

def fRightChild : RBBINode → Option RBBINode
  | opOr _ r => some r
  | opCat _ r => some r
  | _ => none

end RBBINode

/-- What `calcChainedFollowPos` asks the rule builder and the set builder for; `getFirstChar` is
`none` for -1. -/
structure ChainRules where
  sawBOF : Bool
  fLBCMNoChain : Bool
  getFirstChar : Nat → Option Int
  lineBreak : Int → Nat

/-- `U_LB_COMBINING_MARK`. -/
def lbCombiningMark : Nat := 9

def userRuleRoot (sawBOF : Bool) (tree : RBBINode) : Option RBBINode :=
  if sawBOF then do (← tree.fLeftChild).fRightChild else some tree

/-- The line break specific hack: no chaining from the class of combining marks. -/
def isNoChain (rules : ChainRules) (fVal : Nat) : Bool :=
  rules.fLBCMNoChain &&
    match rules.getFirstChar fVal with
    | none => false
    | some c => rules.lineBreak c == lbCombiningMark

def isEndNode (endMarkerNodes : List Leaf) (followPos : FollowPos) (tNode : Leaf) : Bool :=
  endMarkerNodes.any fun endMarker =>
    (followPos tNode.address).any fun p => p.address == endMarker.address

def chainStart (endNode : Leaf) (followPos : FollowPos) (startNode : Leaf) : FollowPos :=
  if startNode.fType = .leafChar ∧ endNode.fVal = startNode.fVal then
    followPos.add (followPos startNode.address) endNode
  else followPos

def chainLeaf (rules : ChainRules) (endMarkerNodes matchStartNodes : List Leaf)
    (followPos : FollowPos) (tNode : Leaf) : FollowPos :=
  if isEndNode endMarkerNodes followPos tNode && !isNoChain rules tNode.fVal then
    matchStartNodes.foldl (chainStart tNode) followPos
  else followPos

/-- `calcChainedFollowPos`, where `findNodes` lists the leaf nodes in the order of `leafNodes`. -/
def calcChainedFollowPos (rules : ChainRules) (leafNodes : List Leaf) (tree : RBBINode)
    (followPos : FollowPos) : Option FollowPos := do
  let root ← userRuleRoot rules.sawBOF tree
  return leafNodes.foldl (chainLeaf rules (tree.findNodes .endMark) root.calcFirstPos) followPos

theorem RBBINode.mem_findNodes {kind : LeafType} :
    p ∈ n.findNodes kind ↔ p ∈ n.leaves ∧ p.fType = kind := by
  induction n with
  | leaf q =>
    simp only [findNodes, leaves, List.mem_singleton]
    by_cases hq : q.fType = kind
    · rw [if_pos hq, List.mem_singleton]
      exact ⟨fun h => ⟨h, by rw [h, hq]⟩, fun h => h.1⟩
    rw [if_neg hq]
    refine ⟨fun h => absurd h List.not_mem_nil, fun h => absurd h.2 ?_⟩
    rw [h.1]
    exact hq
  | opOr l r ihl ihr => simp [findNodes, leaves, ihl, ihr, or_and_right]
  | opCat l r ihl ihr => simp [findNodes, leaves, ihl, ihr, or_and_right]
  | opStar l ih => exact ih
  | opPlus l ih => exact ih
  | opQuestion l ih => exact ih

section

variable {L : List Leaf} (hL : (L.map Leaf.address).Nodup)

include hL

theorem RBBINode.isSet_calcFirstPos (hsub : ∀ p ∈ n.leaves, p ∈ L) : IsSet L n.calcFirstPos := by
  induction n with
  | leaf p => exact .singleton (hsub p List.mem_cons_self)
  | opOr l r ihl ihr =>
    rw [leaves, List.forall_mem_append] at hsub
    exact (ihl hsub.1).setAdd hL (ihr hsub.2)
  | opCat l r ihl ihr =>
    rw [leaves, List.forall_mem_append] at hsub
    rw [calcFirstPos]
    split
    · exact (ihl hsub.1).setAdd hL (ihr hsub.2)
    · exact ihl hsub.1
  | opStar l ih => exact ih hsub
  | opPlus l ih => exact ih hsub
  | opQuestion l ih => exact ih hsub

theorem RBBINode.isSet_calcFollowPos (hsub : ∀ p ∈ n.leaves, p ∈ L)
    {followPos : FollowPos} (hf : ∀ i, IsSet L (followPos i)) (i : Nat) :
    IsSet L (n.calcFollowPos followPos i) := by
  induction n generalizing followPos i with
  | leaf p => exact hf i
  | opOr l r ihl ihr =>
    rw [leaves, List.forall_mem_append] at hsub
    exact ihr hsub.2 (ihl hsub.1 hf) i
  | opCat l r ihl ihr =>
    rw [leaves, List.forall_mem_append] at hsub
    exact isSet_addFollow hL (isSet_calcFirstPos hL hsub.2) (ihr hsub.2 (ihl hsub.1 hf)) i
  | opStar l ih => exact isSet_addFollow hL (isSet_calcFirstPos hL hsub) (ih hsub hf) i
  | opPlus l ih => exact isSet_addFollow hL (isSet_calcFirstPos hL hsub) (ih hsub hf) i
  | opQuestion l ih => exact ih hsub hf i

/-! ## What is added -/

theorem isEndNode_iff {endMarkerNodes : List Leaf} (hmarkers : ∀ p ∈ endMarkerNodes, p ∈ L)
    {followPos : FollowPos} (hf : ∀ i, IsSet L (followPos i)) :
    isEndNode endMarkerNodes followPos p = true ↔
      ∃ q ∈ endMarkerNodes, q ∈ followPos p.address := by
  simp only [isEndNode, List.any_eq_true, beq_iff_eq]
  constructor
  · rintro ⟨q, hq, r, hr, haddress⟩
    rw [eq_of_address hL ((hf _).subset r hr) (hmarkers q hq) haddress] at hr
    exact ⟨q, hq, hr⟩
  · rintro ⟨q, hq, hfollow⟩
    exact ⟨q, hq, q, hfollow, rfl⟩

end

def IsStartOf (matchStartNodes : List Leaf) (p s : Leaf) : Prop :=
  s ∈ matchStartNodes ∧ s.fType = .leafChar ∧ p.fVal = s.fVal

def IsChained (rules : ChainRules) (leafNodes endMarkerNodes : List Leaf) (before : FollowPos)
    (p : Leaf) : Prop :=
  p ∈ leafNodes ∧ isEndNode endMarkerNodes before p = true ∧ isNoChain rules p.fVal = false

/-- The sets at any time in the loops: they have what they had before, and some of what was in the
sets of start nodes. -/
structure Chaining (L : List Leaf) (rules : ChainRules)
    (leafNodes endMarkerNodes matchStartNodes : List Leaf) (before followPos : FollowPos) :
    Prop where
  isSet : ∀ i, IsSet L (followPos i)
  grows : ∀ p ∈ L, ∀ q ∈ before p.address, q ∈ followPos p.address
  bounded : ∀ p ∈ L, ∀ q ∈ followPos p.address, q ∈ before p.address ∨
    IsChained rules leafNodes endMarkerNodes before p ∧
      ∃ s, IsStartOf matchStartNodes p s ∧ q ∈ before s.address

section

variable {L : List Leaf} (hL : (L.map Leaf.address).Nodup) {rules : ChainRules}
  {leafNodes endMarkerNodes matchStartNodes : List Leaf} (hleaves : ∀ p ∈ leafNodes, p ∈ L)
  (hmarkers : ∀ p ∈ endMarkerNodes, p ∈ L) (hstarts : ∀ p ∈ matchStartNodes, p ∈ L)
  {before : FollowPos} (hbefore : ∀ i, IsSet L (before i)) {e q : Leaf}

include hL hmarkers hbefore in
theorem Chaining.isEndNode_eq {followPos : FollowPos}
    (h : Chaining L rules leafNodes endMarkerNodes matchStartNodes before followPos)
    (hp : p ∈ L) : isEndNode endMarkerNodes followPos p = isEndNode endMarkerNodes before p := by
  rw [Bool.eq_iff_iff]
  constructor
  · intro hend
    obtain ⟨q, hq, hfollow⟩ := (isEndNode_iff hL hmarkers h.isSet).mp hend
    rcases h.bounded p hp q hfollow with hmem | ⟨⟨-, hend, -⟩, -⟩
    · exact (isEndNode_iff hL hmarkers hbefore).mpr ⟨q, hq, hmem⟩
    · exact hend
  · intro hend
    obtain ⟨q, hq, hfollow⟩ := (isEndNode_iff hL hmarkers hbefore).mp hend
    exact (isEndNode_iff hL hmarkers h.isSet).mpr ⟨q, hq, h.grows p hp q hfollow⟩

include hL in
theorem mem_followPos_add {followPos : FollowPos} (hf : ∀ i, IsSet L (followPos i))
    {source : List Leaf} (hs : IsSet L source) (he : e ∈ L) (hp : p ∈ L) :
    q ∈ followPos.add source e p.address ↔ q ∈ followPos p.address ∨ p = e ∧ q ∈ source := by
  simpa [RBBINode.addFollow] using
    @mem_addFollow L hL source hs p q hp [e] followPos (by simpa using he) hf

include hL hstarts in
/-- A start node of the category gives the end node what it has itself. It may have been visited
before, and it may be the end node. -/
theorem Chaining.chainStart {followPos : FollowPos}
    (h : Chaining L rules leafNodes endMarkerNodes matchStartNodes before followPos) {s : Leaf}
    (he : e ∈ L) (hchained : IsChained rules leafNodes endMarkerNodes before e)
    (hs : s ∈ matchStartNodes) : Chaining L rules leafNodes endMarkerNodes matchStartNodes before
        (chainStart e followPos s) ∧
      (∀ p ∈ L, ∀ q ∈ followPos p.address, q ∈ Rbbi.chainStart e followPos s p.address) ∧
      (IsStartOf matchStartNodes e s →
        ∀ q ∈ before s.address, q ∈ Rbbi.chainStart e followPos s e.address) := by
  rw [Rbbi.chainStart]
  split
  · next hstart =>
    have hmem : ∀ p ∈ L, ∀ q, q ∈ followPos.add (followPos s.address) e p.address ↔
        q ∈ followPos p.address ∨ p = e ∧ q ∈ followPos s.address :=
      fun p hp q => mem_followPos_add hL h.isSet (h.isSet _) he hp
    refine ⟨⟨isSet_add hL h.isSet (h.isSet _) e, ?_, ?_⟩, ?_, ?_⟩
    · intro p hp q hq
      exact (hmem p hp q).mpr (.inl (h.grows p hp q hq))
    · intro p hp q hq
      rcases (hmem p hp q).mp hq with hq | ⟨rfl, hsource⟩
      · exact h.bounded p hp q hq
      right
      refine ⟨hchained, ?_⟩
      rcases h.bounded s (hstarts s hs) q hsource with hq | ⟨-, r, ⟨hr, htype, hval⟩, hq⟩
      · exact ⟨s, ⟨hs, hstart⟩, hq⟩
      · exact ⟨r, ⟨hr, htype, hstart.2.trans hval⟩, hq⟩
    · intro p hp q hq
      exact (hmem p hp q).mpr (.inl hq)
    · intro _ q hq
      exact (hmem e he q).mpr (.inr ⟨rfl, h.grows s (hstarts s hs) q hq⟩)
  · next hstart => exact ⟨h, fun p _ q hq => hq, fun hs => absurd hs.2 hstart⟩

include hL hstarts in
theorem Chaining.foldl_chainStart (he : e ∈ L)
    (hchained : IsChained rules leafNodes endMarkerNodes before e) {starts : List Leaf}
    (hsub : ∀ s ∈ starts, s ∈ matchStartNodes) {followPos : FollowPos}
    (h : Chaining L rules leafNodes endMarkerNodes matchStartNodes before followPos) :
    Chaining L rules leafNodes endMarkerNodes matchStartNodes before
        (starts.foldl (Rbbi.chainStart e) followPos) ∧
      (∀ p ∈ L, ∀ q ∈ followPos p.address,
        q ∈ starts.foldl (Rbbi.chainStart e) followPos p.address) ∧
      ∀ s ∈ starts, IsStartOf matchStartNodes e s →
        ∀ q ∈ before s.address, q ∈ starts.foldl (Rbbi.chainStart e) followPos e.address := by
  induction starts generalizing followPos with
  | nil => exact ⟨h, fun p _ q hq => hq, fun s hs => absurd hs List.not_mem_nil⟩
  | cons s starts ih =>
    rw [List.forall_mem_cons] at hsub
    obtain ⟨hstep, hgrows, hadded⟩ := h.chainStart hL hstarts he hchained hsub.1
    obtain ⟨hrun, hgrows', hadded'⟩ := ih hsub.2 hstep
    refine ⟨hrun, fun p hp q hq => hgrows' p hp q (hgrows p hp q hq), ?_⟩
    intro r hr hstart q hq
    rcases List.mem_cons.mp hr with rfl | hr
    · exact hgrows' e he q (hadded hstart q hq)
    · exact hadded' r hr hstart q hq

include hL hmarkers hstarts hbefore in
theorem Chaining.chainLeaf {followPos : FollowPos}
    (h : Chaining L rules leafNodes endMarkerNodes matchStartNodes before followPos)
    (he : e ∈ L) (hmem : e ∈ leafNodes) :
    Chaining L rules leafNodes endMarkerNodes matchStartNodes before
        (chainLeaf rules endMarkerNodes matchStartNodes followPos e) ∧
      (∀ p ∈ L, ∀ q ∈ followPos p.address,
        q ∈ Rbbi.chainLeaf rules endMarkerNodes matchStartNodes followPos e p.address) ∧
      (IsChained rules leafNodes endMarkerNodes before e → ∀ s, IsStartOf matchStartNodes e s →
        ∀ q ∈ before s.address,
          q ∈ Rbbi.chainLeaf rules endMarkerNodes matchStartNodes followPos e e.address) := by
  rw [Rbbi.chainLeaf, h.isEndNode_eq hL hmarkers hbefore he]
  split
  · next hvisit =>
    rw [Bool.and_eq_true, Bool.not_eq_true'] at hvisit
    obtain ⟨hrun, hgrows, hadded⟩ :=
      h.foldl_chainStart hL hstarts he ⟨hmem, hvisit⟩ fun s (hs : s ∈ matchStartNodes) => hs
    exact ⟨hrun, hgrows, fun _ s hs => hadded s hs.1 hs⟩
  · next hvisit =>
    refine ⟨h, fun p _ q hq => hq, fun hchained => absurd ?_ hvisit⟩
    simp [hchained.2.1, hchained.2.2]

include hL hmarkers hstarts hbefore hleaves in
theorem Chaining.foldl_chainLeaf {nodes : List Leaf} (hsub : ∀ p ∈ nodes, p ∈ leafNodes)
    {followPos : FollowPos}
    (h : Chaining L rules leafNodes endMarkerNodes matchStartNodes before followPos) :
    Chaining L rules leafNodes endMarkerNodes matchStartNodes before
        (nodes.foldl (Rbbi.chainLeaf rules endMarkerNodes matchStartNodes) followPos) ∧
      (∀ p ∈ L, ∀ q ∈ followPos p.address, q ∈ nodes.foldl
        (Rbbi.chainLeaf rules endMarkerNodes matchStartNodes) followPos p.address) ∧
      ∀ e ∈ nodes, IsChained rules leafNodes endMarkerNodes before e →
        ∀ s, IsStartOf matchStartNodes e s → ∀ q ∈ before s.address, q ∈ nodes.foldl
          (Rbbi.chainLeaf rules endMarkerNodes matchStartNodes) followPos e.address := by
  induction nodes generalizing followPos with
  | nil => exact ⟨h, fun p _ q hq => hq, fun e he => absurd he List.not_mem_nil⟩
  | cons e nodes ih =>
    rw [List.forall_mem_cons] at hsub
    have he := hleaves e hsub.1
    obtain ⟨hstep, hgrows, hadded⟩ := h.chainLeaf hL hmarkers hstarts hbefore he hsub.1
    obtain ⟨hrun, hgrows', hadded'⟩ := ih hsub.2 hstep
    refine ⟨hrun, fun p hp q hq => hgrows' p hp q (hgrows p hp q hq), ?_⟩
    intro r hr hchained s hs q hq
    rcases List.mem_cons.mp hr with rfl | hr
    · exact hgrows' r he q (hadded hchained s hs q hq)
    · exact hadded' r hr hchained s hs q hq

include hL hmarkers hstarts hbefore hleaves in
/-- After the loops the set of a chained node has what was in the sets of its start nodes, whatever
the order of the leaf nodes. -/
theorem mem_foldl_chainLeaf (hp : p ∈ L) :
    q ∈ leafNodes.foldl (chainLeaf rules endMarkerNodes matchStartNodes) before p.address ↔
      q ∈ before p.address ∨ IsChained rules leafNodes endMarkerNodes before p ∧
        ∃ s, IsStartOf matchStartNodes p s ∧ q ∈ before s.address := by
  have h : Chaining L rules leafNodes endMarkerNodes matchStartNodes before before :=
    ⟨hbefore, fun _ _ _ hq => hq, fun _ _ _ hq => .inl hq⟩
  obtain ⟨hrun, -, hadded⟩ :=
    h.foldl_chainLeaf hL hleaves hmarkers hstarts hbefore fun p (hp : p ∈ leafNodes) => hp
  constructor
  · exact hrun.bounded p hp q
  rintro (hq | ⟨hchained, s, hs, hq⟩)
  · exact hrun.grows p hp q hq
  · exact hadded p hchained.1 hchained s hs q hq

end

theorem leaves_userRuleRoot {sawBOF : Bool} {tree root : RBBINode}
    (h : userRuleRoot sawBOF tree = some root) : ∀ p ∈ root.leaves, p ∈ tree.leaves := by
  rw [userRuleRoot] at h
  split at h
  · obtain ⟨left, hleft, hright⟩ := Option.bind_eq_some_iff.mp h
    have hsub : ∀ p ∈ root.leaves, p ∈ left.leaves := by
      cases left <;> simp_all [RBBINode.fRightChild, RBBINode.leaves]
    have hsub' : ∀ p ∈ left.leaves, p ∈ tree.leaves := by
      cases tree <;> simp_all [RBBINode.fLeftChild, RBBINode.leaves]
    exact fun p hp => hsub' p (hsub p hp)
  · obtain rfl := Option.some.inj h
    exact fun p hp => hp

theorem mem_calcChainedFollowPos {rules : ChainRules} {tree root : RBBINode}
    {leafNodes : List Leaf} (hdistinct : (tree.leaves.map Leaf.address).Nodup)
    (hleafNodes : leafNodes.Perm (tree.findNodes .leafChar))
    (hroot : userRuleRoot rules.sawBOF tree = some root) {before : FollowPos}
    (hbefore : ∀ i, IsSet tree.leaves (before i)) :
    ∃ after, calcChainedFollowPos rules leafNodes tree before = some after ∧
      (∀ i, IsSet tree.leaves (after i)) ∧
      ∀ p ∈ tree.leaves, ∀ q, q ∈ after p.address ↔ q ∈ before p.address ∨
        (p.fType = .leafChar ∧ isNoChain rules p.fVal = false ∧
          ∃ e ∈ before p.address, e.fType = .endMark) ∧
        ∃ s ∈ root.calcFirstPos, s.fType = .leafChar ∧ p.fVal = s.fVal ∧
          q ∈ before s.address := by
  have hmem : ∀ p, p ∈ leafNodes ↔ p ∈ tree.leaves ∧ p.fType = .leafChar :=
    fun p => hleafNodes.mem_iff.trans RBBINode.mem_findNodes
  have hmarkers : ∀ p ∈ tree.findNodes .endMark, p ∈ tree.leaves :=
    fun p hp => (RBBINode.mem_findNodes.mp hp).1
  have hstarts := (RBBINode.isSet_calcFirstPos hdistinct (leaves_userRuleRoot hroot)).subset
  have hleaves : ∀ p ∈ leafNodes, p ∈ tree.leaves := fun p hp => ((hmem p).mp hp).1
  refine ⟨leafNodes.foldl (chainLeaf rules (tree.findNodes .endMark) root.calcFirstPos) before,
    by rw [calcChainedFollowPos, hroot]; rfl, ?_, fun p hp q => ?_⟩
  · have h : Chaining tree.leaves rules leafNodes (tree.findNodes .endMark) root.calcFirstPos
        before before := ⟨hbefore, fun _ _ _ hq => hq, fun _ _ _ hq => .inl hq⟩
    exact (h.foldl_chainLeaf hdistinct hleaves hmarkers hstarts hbefore fun _ hp => hp).1.isSet
  rw [mem_foldl_chainLeaf hdistinct hleaves hmarkers hstarts hbefore hp, IsChained,
    isEndNode_iff hdistinct hmarkers hbefore, hmem p]
  have hend : (∃ e ∈ tree.findNodes .endMark, e ∈ before p.address) ↔
      ∃ e ∈ before p.address, e.fType = .endMark := by
    constructor
    · rintro ⟨e, he, hbefore'⟩
      exact ⟨e, hbefore', (RBBINode.mem_findNodes.mp he).2⟩
    · rintro ⟨e, he, htype⟩
      exact ⟨e, RBBINode.mem_findNodes.mpr ⟨(hbefore _).subset e he, htype⟩, he⟩
  rw [hend]
  refine or_congr_right (and_congr ?_ (exists_congr fun s => ?_))
  · exact ⟨fun h => ⟨h.1.2, h.2.2, h.2.1⟩, fun h => ⟨⟨hp, h.1⟩, h.2.2, h.2.1⟩⟩
  · rw [IsStartOf, and_assoc, and_assoc]

namespace RBBINode

variable {w : List Nat}

/-- The strings of categories, except the empty one, that the automaton of positions accepts. -/
def acceptedStrings (tree : RBBINode) (followPos : FollowPos) : Language Nat :=
  {w | w ≠ [] ∧ w ∈ (positionAutomaton {p | p.fType = .endMark} tree.calcFirstPos
    followPos).accepts}

/-- The positions of characters that a string of categories can begin with, end with and have
behind each other. -/
def positionSpec (tree : RBBINode) (followPos : FollowPos) : LocalSpec Leaf where
  nullable := False
  first := {p | p ∈ tree.calcFirstPos ∧ p.fType = .leafChar}
  last := {p | (p ∈ tree.leaves ∧ p.fType = .leafChar) ∧
    ∃ e ∈ followPos p.address, e.fType = .endMark}
  follow p := {q | (p ∈ tree.leaves ∧ p.fType = .leafChar) ∧
    q ∈ followPos p.address ∧ q.fType = .leafChar}

variable {tree : RBBINode} {followPos : FollowPos}

theorem acceptsFrom_iff_completes (hf : ∀ i, IsSet tree.leaves (followPos i))
    (hp : p ∈ tree.leaves) (htype : p.fType = .leafChar) :
    w ∈ (positionAutomaton {p | p.fType = .endMark} tree.calcFirstPos followPos).acceptsFrom
        {q | q ∈ followPos p.address} ↔ (tree.positionSpec followPos).Completes Leaf.fVal p w := by
  induction w generalizing p with
  | nil =>
    rw [NFA.nil_mem_acceptsFrom]
    exact ⟨fun ⟨e, he, hend⟩ => ⟨⟨hp, htype⟩, e, he, hend⟩, fun ⟨_, e, he, hend⟩ => ⟨e, he, hend⟩⟩
  | cons a w ih =>
    rw [cons_mem_positionAutomaton]
    constructor
    · rintro ⟨q, hq, ⟨hqtype, hval⟩, hw⟩
      exact ⟨q, ⟨⟨hp, htype⟩, hq, hqtype⟩, hval, (ih ((hf _).subset q hq) hqtype).mp hw⟩
    · rintro ⟨q, ⟨-, hq, hqtype⟩, hval, hw⟩
      exact ⟨q, hq, ⟨hqtype, hval⟩, (ih ((hf _).subset q hq) hqtype).mpr hw⟩

theorem mem_acceptedStrings (hdistinct : (tree.leaves.map Leaf.address).Nodup)
    (hf : ∀ i, IsSet tree.leaves (followPos i)) : w ∈ tree.acceptedStrings followPos ↔
      w ≠ [] ∧ w ∈ (tree.positionSpec followPos).language Leaf.fVal := by
  have hfirst := (isSet_calcFirstPos hdistinct fun p (hp : p ∈ tree.leaves) => hp).subset
  refine and_congr_right fun hne => ?_
  cases w with
  | nil => exact absurd rfl hne
  | cons a w =>
    rw [LocalSpec.cons_mem_language]
    refine Iff.trans (b := a :: w ∈ (positionAutomaton _ _ _).acceptsFrom _) Iff.rfl ?_
    rw [cons_mem_positionAutomaton]
    constructor
    · rintro ⟨p, hp, ⟨htype, hval⟩, hw⟩
      exact ⟨p, ⟨hp, htype⟩, hval, (acceptsFrom_iff_completes hf (hfirst p hp) htype).mp hw⟩
    · rintro ⟨p, ⟨hp, htype⟩, hval, hw⟩
      exact ⟨p, hp, ⟨htype, hval⟩, (acceptsFrom_iff_completes hf (hfirst p hp) htype).mpr hw⟩

/-- A string that the automaton accepts is not empty, and so are the words of a chain. -/
theorem overlaps_acceptedStrings (hdistinct : (tree.leaves.map Leaf.address).Nodup)
    (hf : ∀ i, IsSet tree.leaves (followPos i)) : overlaps (tree.acceptedStrings followPos) =
      overlaps ((tree.positionSpec followPos).language Leaf.fVal) := by
  have hword : ∀ x, (x ∈ tree.acceptedStrings followPos ∧ x ≠ []) ↔
      x ∈ (tree.positionSpec followPos).language Leaf.fVal ∧ x ≠ [] := by
    intro x
    rw [mem_acceptedStrings hdistinct hf]
    tauto
  simp only [overlaps, hword]
  rfl

theorem positionSpec_chained {before after : FollowPos}
    (hafter : ∀ p ∈ tree.leaves, ∀ q, q ∈ after p.address ↔ q ∈ before p.address ∨
      (p.fType = .leafChar ∧ ∃ e ∈ before p.address, e.fType = .endMark) ∧
      ∃ s ∈ tree.calcFirstPos, s.fType = .leafChar ∧ p.fVal = s.fVal ∧ q ∈ before s.address)
    (hfirst : ∀ p ∈ tree.calcFirstPos, p ∈ tree.leaves) :
    tree.positionSpec after = (tree.positionSpec before).chain Leaf.fVal := by
  rw [positionSpec, LocalSpec.chain, LocalSpec.mk.injEq]
  refine ⟨rfl, rfl, ?_, funext fun p => ?_⟩
  · ext p
    refine and_congr_right fun hp => ⟨?_, ?_⟩
    · rintro ⟨e, he, htype⟩
      rcases (hafter p hp.1 e).mp he with he | ⟨⟨-, hend⟩, -⟩
      · exact ⟨e, he, htype⟩
      · exact hend
    · rintro ⟨e, he, htype⟩
      exact ⟨e, (hafter p hp.1 e).mpr (.inl he), htype⟩
  ext q
  constructor
  · rintro ⟨hp, hq, htype⟩
    rcases (hafter p hp.1 q).mp hq with hq | ⟨⟨-, hend⟩, s, hs, hstype, hval, hq⟩
    · exact .inl ⟨hp, hq, htype⟩
    · exact .inr ⟨⟨hp, hend⟩, s, ⟨hs, hstype⟩, hval.symm, ⟨hfirst s hs, hstype⟩, hq, htype⟩
  · rintro (⟨hp, hq, htype⟩ | ⟨⟨hp, hend⟩, s, ⟨hs, hstype⟩, hval, -, hq, htype⟩)
    · exact ⟨hp, (hafter p hp.1 q).mpr (.inl hq), htype⟩
    refine ⟨hp, (hafter p hp.1 q).mpr (.inr ?_), htype⟩
    exact ⟨⟨hp.2, hend⟩, s, hs, hstype, hval.symm, hq⟩

end RBBINode

/-- Chained rules accept the chains of matches in which each match begins with the category that
the one before ends with. -/
theorem calcChainedFollowPos_overlaps {rules : ChainRules} {tree : RBBINode}
    {leafNodes : List Leaf} (hdistinct : (tree.leaves.map Leaf.address).Nodup)
    (hleafNodes : leafNodes.Perm (tree.findNodes .leafChar)) (hbof : rules.sawBOF = false)
    (hcm : rules.fLBCMNoChain = false) :
    ∃ after, calcChainedFollowPos rules leafNodes tree (tree.calcFollowPos fun _ => []) =
        some after ∧
      tree.acceptedStrings after =
        overlaps (tree.acceptedStrings (tree.calcFollowPos fun _ => [])) := by
  have hbefore := fun i => RBBINode.isSet_calcFollowPos hdistinct (fun p (hp : p ∈ tree.leaves) =>
    hp)
    (fun _ => .nil) i
  have hfirst := (RBBINode.isSet_calcFirstPos hdistinct fun p (hp : p ∈ tree.leaves) => hp).subset
  have hroot : userRuleRoot rules.sawBOF tree = some tree := by rw [hbof]; rfl
  obtain ⟨after, hrun, hf, hafter⟩ := mem_calcChainedFollowPos hdistinct hleafNodes hroot hbefore
  refine ⟨after, hrun, ?_⟩
  have hspec := @RBBINode.positionSpec_chained tree (tree.calcFollowPos fun _ => []) after
    (by simpa [isNoChain, hcm] using hafter) hfirst
  rw [RBBINode.overlaps_acceptedStrings hdistinct hbefore]
  ext w
  rw [RBBINode.mem_acceptedStrings hdistinct hf, hspec]
  constructor
  · rintro ⟨hne, hw⟩
    exact (LocalSpec.language_chain hne).mp hw
  intro hw
  have hne := ne_nil_of_mem_overlaps hw
  exact ⟨hne, (LocalSpec.language_chain hne).mpr hw⟩

/-- Two letters of the same category, where the later one is visited first. -/
def doubledTree : RBBINode :=
  .opCat (.opCat (.leaf ⟨1, .leafChar, 3, false⟩) (.leaf ⟨2, .leafChar, 3, false⟩))
    (.leaf ⟨3, .endMark, 0, false⟩)

theorem calcChainedFollowPos_overlaps_doubled :
    ∃ after, calcChainedFollowPos ⟨false, false, fun _ => none, fun _ => 0⟩
        [⟨2, .leafChar, 3, false⟩, ⟨1, .leafChar, 3, false⟩] doubledTree
        (doubledTree.calcFollowPos fun _ => []) = some after ∧
      doubledTree.acceptedStrings after =
        overlaps (doubledTree.acceptedStrings (doubledTree.calcFollowPos fun _ => [])) :=
  calcChainedFollowPos_overlaps (by decide) (by decide) rfl rfl

end Icu.Rbbi
