import Icu.Rbbi.Categories
import Icu.Rbbi.Chaining

/-! # No chaining from combining marks

The test for combining marks goes from the value of a leaf node to the first character of its
category. The numbers of ranges have the dictionary flag and the values of leaf nodes have not, so
nothing is found for the categories of the dictionary.
-/

namespace Icu.Rbbi

open UnicodeSet

variable {r : RangeDescriptor}

theorem IsPartition.append {start : Int} {as bs : List RangeDescriptor}
    (h : IsPartition start (as ++ r :: bs)) : IsPartition r.fStartChar (r :: bs) := by
  induction as generalizing start with
  | nil => exact ⟨rfl, h.2.1, h.2.2⟩
  | cons a as ih => exact ih h.2.2

theorem IsSet.ext {L a b : List Leaf} (ha : IsSet L a) (hb : IsSet L b) (h : ∀ q, q ∈ a ↔ q ∈ b) :
    a = b := by
  have : Std.Irrefl fun p q : Leaf => p.address < q.address := ⟨fun _ => lt_irrefl _⟩
  have : Std.Antisymm fun p q : Leaf => p.address < q.address :=
    ⟨fun _ _ hpq hqp => absurd hpq (lt_asymm hqp)⟩
  exact ha.sorted.eq_of_mem_iff hb.sorted h

namespace SetBuilder

variable {category : Nat} {c : Int}

def IsFirstOf (builder : SetBuilder) (category : Nat) (c : Int) : Prop :=
  (∃ r ∈ builder.fRangeList, r.category = category ∧ r.Contains c) ∧
    ∀ r ∈ builder.fRangeList, r.category = category → ∀ d, r.Contains d → c ≤ d

/-- The category is contained in a set named `dictionary`. -/
def InDictionary (fUSetNodes : List UsetNode) (builder : SetBuilder) (category : Nat) : Prop :=
  ∃ n ∈ fUSetNodes, n.setName = "dictionary" ∧
    ∀ s ∈ builder.fRangeList, s.category = category → ∀ c, s.Contains c → n.Contains c

def chainRules (builder : SetBuilder) (lineBreak : Int → Nat) : ChainRules where
  sawBOF := builder.fSawBOF
  fLBCMNoChain := true
  getFirstChar := builder.getFirstChar
  lineBreak := lineBreak

variable {fUSetNodes : List UsetNode} {builder : SetBuilder}

section

variable (h : Categorizes fUSetNodes builder)
include h

theorem Categorizes.fNum_eq_iff
    (hcount : builder.fGroupCount < 0x3FF0) {s : RangeDescriptor} (hr : r ∈ builder.fRangeList)
    (hs : s ∈ builder.fRangeList) :
    r.fNum = s.category ↔ r.category = s.category ∧
    ¬ InDictionary fUSetNodes builder s.category := by
  obtain ⟨-, hrle, hrnum⟩ := h.number r hr
  obtain ⟨-, hsle, -⟩ := h.number s hs
  have hflag := h.flag r hr
  constructor
  · intro heq
    cases hbit : r.fNum.testBit 14 with
    | false =>
      rw [hbit, if_neg (by decide), Nat.add_zero] at hrnum
      refine ⟨hrnum.symm.trans heq, fun hdict => ?_⟩
      rw [← heq, hrnum] at hdict
      rw [hflag.mpr hdict] at hbit
      contradiction
    | true =>
      rw [hbit, if_pos rfl] at hrnum
      omega
  · rintro ⟨hcategory, hdict⟩
    rw [← hcategory] at hdict
    have hbit : r.fNum.testBit 14 = false := by
      rw [← Bool.not_eq_true, hflag]
      exact hdict
    rw [hbit, if_neg (by decide), Nat.add_zero, hcategory] at hrnum
    exact hrnum

theorem Categorizes.getFirstChar_eq
    (hcount : builder.fGroupCount < 0x3FF0) (hc : builder.IsFirstOf category c) :
    (InDictionary fUSetNodes builder category → builder.getFirstChar category = none) ∧
      (¬ InDictionary fUSetNodes builder category → builder.getFirstChar category = some c) := by
  obtain ⟨⟨s, hs, rfl, hcontains⟩, hfirst⟩ := hc
  constructor
  · intro hdict
    rw [getFirstChar, Option.map_eq_none_iff, List.find?_eq_none]
    intro r hr hnum
    exact ((h.fNum_eq_iff hcount hr hs).mp (by simpa using hnum)).2 hdict
  intro hdict
  cases hfind : builder.fRangeList.find? (fun r => r.fNum == s.category) with
  | none =>
    have hnone := List.find?_eq_none.mp hfind s hs
    have hnum := (h.fNum_eq_iff hcount hs hs).mpr ⟨rfl, hdict⟩
    simp [hnum] at hnone
  | some r =>
    obtain ⟨hnum, as, bs, hlist, hbefore⟩ := List.find?_eq_some_iff_append.mp hfind
    have hr : r ∈ builder.fRangeList := List.mem_of_find?_eq_some hfind
    have hpartition := h.partition
    rw [hlist] at hpartition
    have hrest := hpartition.append
    have hstart := hrest.start_le (r := r) List.mem_cons_self
    -- the range with the first code point is not before the one that is found
    have hmem : s ∈ r :: bs := by
      rw [hlist] at hs
      refine (List.mem_append.mp hs).resolve_left fun hcon => ?_
      have hnum := (h.fNum_eq_iff hcount (hlist ▸ List.mem_append_left _ hcon)
        (hlist ▸ hs)).mpr ⟨rfl, hdict⟩
      simpa [hnum] using hbefore s hcon
    have hle := (hrest.start_le hmem).1
    have hcategory := ((h.fNum_eq_iff hcount hr hs).mp (by simpa using hnum)).1
    have hge := hfirst r hr hcategory r.fStartChar ⟨le_refl _, hstart.2⟩
    have hlow := hcontains.1
    rw [getFirstChar, hfind, Option.map_some, Option.some.injEq]
    omega

theorem Categorizes.isNoChain_iff (hcount : builder.fGroupCount < 0x3FF0) {lineBreak : Int → Nat}
    (hc : builder.IsFirstOf category c) (hmark : lineBreak c = lbCombiningMark) :
    isNoChain (builder.chainRules lineBreak) category = false ↔
      InDictionary fUSetNodes builder category := by
  obtain ⟨hnone, hsome⟩ := h.getFirstChar_eq hcount hc
  by_cases hdict : InDictionary fUSetNodes builder category
  · simp [isNoChain, chainRules, hnone hdict, hdict]
  · simp [isNoChain, chainRules, hsome hdict, hdict, hmark]

end

/-- The sets of the leaf nodes with combining marks stay as they are. -/
def KeepsMarks (builder : SetBuilder) (lineBreak : Int → Nat) (leafNodes : List Leaf)
    (tree : RBBINode) : Prop :=
  ∃ after, calcChainedFollowPos (builder.chainRules lineBreak) leafNodes tree
      (tree.calcFollowPos fun _ => []) = some after ∧
    ∀ p ∈ tree.leaves, p.fType = .leafChar → ∀ c, builder.IsFirstOf p.fVal c →
      lineBreak c = lbCombiningMark →
      after p.address = tree.calcFollowPos (fun _ => []) p.address

/-- The sets stay as they are, except for nodes with a category of the dictionary that can end a
match and are not followed yet by all that follows a start node of the category. -/
theorem Categorizes.keepsMarks_iff (h : Categorizes fUSetNodes builder)
    (hcount : builder.fGroupCount < 0x3FF0) (lineBreak : Int → Nat) {tree root : RBBINode}
    {leafNodes : List Leaf} (hdistinct : (tree.leaves.map Leaf.address).Nodup)
    (hleafNodes : leafNodes.Perm (tree.findNodes .leafChar))
    (hroot : userRuleRoot builder.fSawBOF tree = some root) :
    builder.KeepsMarks lineBreak leafNodes tree ↔
      ∀ p ∈ tree.leaves, p.fType = .leafChar → ∀ c, builder.IsFirstOf p.fVal c →
        lineBreak c = lbCombiningMark → InDictionary fUSetNodes builder p.fVal →
        (∃ e ∈ tree.calcFollowPos (fun _ => []) p.address, e.fType = .endMark) →
        ∀ s ∈ root.calcFirstPos, s.fType = .leafChar → s.fVal = p.fVal →
          ∀ q ∈ tree.calcFollowPos (fun _ => []) s.address,
            q ∈ tree.calcFollowPos (fun _ => []) p.address := by
  have hbefore := fun i => RBBINode.isSet_calcFollowPos hdistinct (fun p (hp : p ∈ tree.leaves) =>
    hp)
    (fun _ => .nil) i
  obtain ⟨after, hrun, hafter, hmem⟩ := @mem_calcChainedFollowPos (builder.chainRules lineBreak)
    tree root leafNodes hdistinct hleafNodes hroot _ hbefore
  constructor
  · rintro ⟨after', hrun', hkeeps⟩ p hp htype c hc hmark hdict hend s hs hstype hval q hq
    obtain rfl : after = after' := Option.some.inj (hrun.symm.trans hrun')
    rw [← hkeeps p hp htype c hc hmark, hmem p hp]
    exact .inr ⟨⟨htype, (h.isNoChain_iff hcount hc hmark).mpr hdict, hend⟩, s, hs, hstype,
      hval.symm,
      hq⟩
  intro hkeeps
  refine ⟨after, hrun, fun p hp htype c hc hmark => ?_⟩
  refine (hafter _).ext (hbefore _) fun q => ?_
  rw [hmem p hp]
  refine ⟨?_, .inl⟩
  rintro (hq | ⟨⟨-, hchain, hend⟩, s, hs, hstype, hval, hq⟩)
  · exact hq
  have hdict := (h.isNoChain_iff hcount hc hmark).mp hchain
  exact hkeeps p hp htype c hc hmark hdict hend s hs hstype hval.symm q hq

/-- For every list of sets and every tree. -/
theorem build_keepsMarks_iff {fUSetNodes : List UsetNode}
    (hfresh : ∀ n ∈ fUSetNodes, n.fLeftChild = none) :
    ∃ bound builder, (∀ fuel ≥ bound, build fuel fUSetNodes = some builder) ∧
      (builder.fGroupCount < 0x3FF0 → ∀ (lineBreak : Int → Nat) (tree root : RBBINode)
        (leafNodes : List Leaf), (tree.leaves.map Leaf.address).Nodup →
        leafNodes.Perm (tree.findNodes .leafChar) → userRuleRoot builder.fSawBOF tree = some root →
        (builder.KeepsMarks lineBreak leafNodes tree ↔
          ∀ p ∈ tree.leaves, p.fType = .leafChar → ∀ c, builder.IsFirstOf p.fVal c →
            lineBreak c = lbCombiningMark → InDictionary fUSetNodes builder p.fVal →
            (∃ e ∈ tree.calcFollowPos (fun _ => []) p.address, e.fType = .endMark) →
            ∀ s ∈ root.calcFirstPos, s.fType = .leafChar → s.fVal = p.fVal →
              ∀ q ∈ tree.calcFollowPos (fun _ => []) s.address,
                q ∈ tree.calcFollowPos (fun _ => []) p.address)) := by
  obtain ⟨bound, builder, hrun, hcategorizes⟩ := build_categorizes hfresh
  refine ⟨bound, builder, hrun, fun hcount lineBreak tree root leafNodes hdistinct hleafNodes
    hroot => ?_⟩
  exact (hcategorizes hcount).keepsMarks_iff hcount lineBreak hdistinct hleafNodes hroot

theorem build_keepsMarks_iff_letters :
    ∃ bound builder, (∀ fuel ≥ bound, build fuel letterNodes = some builder) ∧
      (builder.fGroupCount < 0x3FF0 → ∀ (lineBreak : Int → Nat) (tree root : RBBINode)
        (leafNodes : List Leaf), (tree.leaves.map Leaf.address).Nodup →
        leafNodes.Perm (tree.findNodes .leafChar) → userRuleRoot builder.fSawBOF tree = some root →
        (builder.KeepsMarks lineBreak leafNodes tree ↔
          ∀ p ∈ tree.leaves, p.fType = .leafChar → ∀ c, builder.IsFirstOf p.fVal c →
            lineBreak c = lbCombiningMark → InDictionary letterNodes builder p.fVal →
            (∃ e ∈ tree.calcFollowPos (fun _ => []) p.address, e.fType = .endMark) →
            ∀ s ∈ root.calcFirstPos, s.fType = .leafChar → s.fVal = p.fVal →
              ∀ q ∈ tree.calcFollowPos (fun _ => []) s.address,
                q ∈ tree.calcFollowPos (fun _ => []) p.address)) :=
  build_keepsMarks_iff (by decide)

def markNodes : List UsetNode :=
  [⟨⟨[0x300, 0x370, 0x110000], [], none, false⟩, some (some (.varRef "dictionary")), none,
    by decide, by decide, rfl⟩]

def markTree : RBBINode :=
  .opCat (.opCat (.leaf ⟨1, .leafChar, 4, false⟩) (.leaf ⟨2, .leafChar, 4, false⟩))
    (.leaf ⟨3, .endMark, 0, false⟩)

def markLineBreak (c : Int) : Nat := if c = 0x300 then lbCombiningMark else 0

/-- A match goes on behind the second mark. -/
theorem mark_chained : ∃ builder after, build 8 markNodes = some builder ∧
    builder.fGroupCount < 0x3FF0 ∧
    calcChainedFollowPos (builder.chainRules markLineBreak) (markTree.findNodes .leafChar) markTree
      (markTree.calcFollowPos fun _ => []) = some after ∧
    ∃ p ∈ markTree.leaves, p.fType = .leafChar ∧ builder.IsFirstOf p.fVal 0x300 ∧
      markLineBreak 0x300 = lbCombiningMark ∧
      after p.address ≠ markTree.calcFollowPos (fun _ => []) p.address := by
  refine ⟨_, _, rfl, by decide, rfl, ⟨2, .leafChar, 4, false⟩, by decide, rfl, ?_, rfl, by decide⟩
  constructor
  · exact ⟨⟨0x300, 0x36f, 0x4004, [0]⟩, by decide, by decide, by decide, by decide⟩
  intro r hr hcategory d hd
  refine le_trans ?_ hd.1
  clear hd d
  revert r
  decide

end SetBuilder

end Icu.Rbbi
