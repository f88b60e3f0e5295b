import Mathlib.Computability.NFA
import Icu.Rbbi.StateTable

/-! # What a state table accepts

The table runs the automaton of positions, which accepts the strings that the positions
describe.
-/

namespace Icu.Rbbi

open Icu.Lib Computability

variable {w : List Nat} {S : Set Leaf} {a : Nat}

theorem flagAccepting_eq (endMarker : Leaf) (sd : RBBIStateDescriptor) :
    (flagAccepting endMarker sd).fPositions = sd.fPositions ∧
      (flagAccepting endMarker sd).fDtran = sd.fDtran ∧
      (sd.fAccepting = 0 → ((flagAccepting endMarker sd).fAccepting ≠ 0 ↔
        ∃ p ∈ sd.fPositions, p.address = endMarker.address)) := by
  have hany : (sd.fPositions.any fun p => p.address == endMarker.address) = true ↔
      ∃ p ∈ sd.fPositions, p.address = endMarker.address := by simp
  rw [flagAccepting]
  split
  · next h =>
    refine ⟨rfl, rfl, fun hzero => ⟨fun _ => hany.mp h, fun _ => ?_⟩⟩
    dsimp only
    rw [if_pos hzero]
    by_cases hval : endMarker.fVal = 0
    · rw [if_pos hval, if_neg (by omega)]
      decide
    · rw [if_neg hval, if_neg (by omega)]
      omega
  · next h => exact ⟨rfl, rfl, fun hzero => ⟨fun hcon => absurd hzero hcon, fun hex =>
      absurd (hany.mpr hex) h⟩⟩

theorem findNodes_endMark {n : RBBINode} (h : ∀ p ∈ n.leaves, p.fType = .leafChar) :
    n.findNodes .endMark = [] := by
  induction n with
  | leaf p => simp [RBBINode.findNodes, h p List.mem_cons_self]
  | opOr l r ihl ihr =>
    rw [RBBINode.leaves, List.forall_mem_append] at h
    rw [RBBINode.findNodes, ihl h.1, ihr h.2]
    rfl
  | opCat l r ihl ihr =>
    rw [RBBINode.leaves, List.forall_mem_append] at h
    rw [RBBINode.findNodes, ihl h.1, ihr h.2]
    rfl
  | opStar l ih => exact ih h
  | opPlus l ih => exact ih h
  | opQuestion l ih => exact ih h

/-! ## Automata of positions -/

def positionAutomaton (accept : Set Leaf) (firstPos : List Leaf) (followPos : FollowPos) :
    NFA Nat Leaf where
  step p a := {q | (p.fType = .leafChar ∧ p.fVal = a) ∧ q ∈ followPos p.address}
  start := {p | p ∈ firstPos}
  accept := accept

section

variable {accept : Set Leaf} {firstPos : List Leaf} {followPos : FollowPos}

theorem not_mem_positionAutomaton_empty :
    w ∉ (positionAutomaton accept firstPos followPos).acceptsFrom ∅ := by
  induction w with
  | nil => simp
  | cons a w ih =>
    rw [NFA.cons_mem_acceptsFrom, NFA.stepSet_empty]
    exact ih

theorem cons_mem_positionAutomaton :
    a :: w ∈ (positionAutomaton accept firstPos followPos).acceptsFrom S ↔
      ∃ p ∈ S, (p.fType = .leafChar ∧ p.fVal = a) ∧
        w ∈ (positionAutomaton accept firstPos followPos).acceptsFrom
          {q | q ∈ followPos p.address} := by
  rw [NFA.cons_mem_acceptsFrom, NFA.stepSet, NFA.acceptsFrom_iUnion₂]
  refine Set.mem_iUnion₂.trans (exists_congr fun p => ?_)
  rw [exists_prop]
  refine and_congr_right fun _ => ?_
  by_cases hp : p.fType = .leafChar ∧ p.fVal = a
  · have hset : (positionAutomaton accept firstPos followPos).step p a =
        {q | q ∈ followPos p.address} := by
      ext q
      exact and_iff_right hp
    rw [hset]
    exact (and_iff_right hp).symm
  · have hset : (positionAutomaton accept firstPos followPos).step p a = ∅ := by
      ext q
      exact ⟨fun hq => absurd hq.1 hp, fun hq => absurd hq (Set.notMem_empty q)⟩
    rw [hset]
    exact ⟨fun hw => absurd hw not_mem_positionAutomaton_empty, fun hw => absurd hw.1 hp⟩

end

namespace RuleTree

variable {lastInputSymbol : Nat} (t : RuleTree lastInputSymbol)

def positions : List Leaf := t.expression.leaves ++ [t.endMark]

def automaton : NFA Nat Leaf where
  step p a := {q | (p.fType = .leafChar ∧ p.fVal = a) ∧
    q ∈ t.fTree.calcFollowPos (fun _ => []) p.address}
  start := {p | p ∈ t.fTree.calcFirstPos}
  accept := {t.endMark}

theorem nodup_positions : t.positions.Nodup := List.Nodup.of_map _ t.distinct

theorem endMark_not_mem : t.endMark ∉ t.expression.leaves := by
  have h := t.nodup_positions
  rw [positions, List.nodup_append'] at h
  intro hcon
  exact h.2.2 hcon (List.mem_singleton_self _)

theorem isPlain : t.fTree.IsPlain := by
  intro p hp
  rcases List.mem_append.mp hp with hp | hp
  · exact .inl (t.leafChar p hp)
  rw [List.mem_singleton.mp hp]
  exact .inr t.endMark_type

theorem isSet_follow (i : Nat) : IsSet t.positions (t.fTree.calcFollowPos (fun _ => []) i) :=
  (RBBINode.calcFollowPos_spec t.distinct t.isPlain (fun _ hp => hp) fun _ => .nil).1 i

theorem mem_follow {p q : Leaf} (hp : p ∈ t.positions) :
    q ∈ t.fTree.calcFollowPos (fun _ => []) p.address ↔ q ∈ t.fTree.spec.follow p := by
  have h := (RBBINode.calcFollowPos_spec t.distinct t.isPlain (fun _ hp => hp)
    fun _ => .nil).2 p hp q
  simpa using h

theorem not_mem_acceptsFrom_empty : w ∉ t.automaton.acceptsFrom ∅ :=
  not_mem_positionAutomaton_empty

theorem cons_mem_acceptsFrom :
    a :: w ∈ t.automaton.acceptsFrom S ↔ ∃ p ∈ S, (p.fType = .leafChar ∧ p.fVal = a) ∧
      w ∈ t.automaton.acceptsFrom {q | q ∈ t.fTree.calcFollowPos (fun _ => []) p.address} :=
  cons_mem_positionAutomaton

theorem acceptsFrom_follow : ∀ {w : List Nat} {p : Leaf}, p ∈ t.expression.leaves →
    (w ∈ t.automaton.acceptsFrom {q | q ∈ t.fTree.calcFollowPos (fun _ => []) p.address} ↔
      t.expression.spec.Completes Leaf.fVal p w)
  | [], p, hp => by
    have hwithin := t.expression.within_leaves
    have hend := t.endMark_not_mem
    rw [NFA.nil_mem_acceptsFrom]
    constructor
    · rintro ⟨q, hq, rfl⟩
      rw [Set.mem_ofPred_eq, t.mem_follow (List.mem_append_left _ hp)] at hq
      rcases hq with (hq | hq) | hq
      · exact absurd (hwithin.follow p t.endMark hq).2 hend
      · exact absurd hq (Set.notMem_empty _)
      · exact hq.1
    · intro hlast
      refine ⟨t.endMark, ?_, rfl⟩
      rw [Set.mem_ofPred_eq, t.mem_follow (List.mem_append_left _ hp)]
      exact .inr ⟨hlast, rfl⟩
  | a :: w, p, hp => by
    have hwithin := t.expression.within_leaves
    rw [t.cons_mem_acceptsFrom]
    constructor
    · rintro ⟨q, hq, ⟨htype, hval⟩, hw⟩
      rw [Set.mem_ofPred_eq, t.mem_follow (List.mem_append_left _ hp)] at hq
      rcases hq with (hq | hq) | ⟨-, hq⟩
      · exact ⟨q, hq, hval, (acceptsFrom_follow (hwithin.follow p q hq).2).mp hw⟩
      · exact absurd hq (Set.notMem_empty _)
      · rw [show q = t.endMark from hq, t.endMark_type] at htype
        contradiction
    · rintro ⟨q, hq, hval, hw⟩
      have hmem := (hwithin.follow p q hq).2
      refine ⟨q, ?_, ⟨t.leafChar q hmem, hval⟩, (acceptsFrom_follow hmem).mpr hw⟩
      rw [Set.mem_ofPred_eq, t.mem_follow (List.mem_append_left _ hp)]
      exact .inl (.inl hq)

theorem mem_automaton_accepts (hne : w ≠ []) :
    w ∈ t.automaton.acceptsFrom {p | p ∈ t.fTree.calcFirstPos} ↔
      w ∈ t.expression.strictLanguage := by
  have hwithin := t.expression.within_leaves
  have hfirst := (RBBINode.calcFirstPos_spec t.distinct t.isPlain fun _ hp => hp).2
  have hnodup : t.expression.leaves.Nodup := (List.nodup_append'.mp t.nodup_positions).1
  rw [← RBBINode.language_spec hnodup]
  cases w with
  | nil => exact absurd rfl hne
  | cons a w =>
    rw [t.cons_mem_acceptsFrom, LocalSpec.cons_mem_language]
    constructor
    · rintro ⟨p, hp, ⟨htype, hval⟩, hw⟩
      rcases (hfirst p).mp hp with hp | ⟨-, hp⟩
      · exact ⟨p, hp, hval, (t.acceptsFrom_follow (hwithin.first hp)).mp hw⟩
      rw [show p = t.endMark from hp, t.endMark_type] at htype
      contradiction
    · rintro ⟨p, hp, hval, hw⟩
      have hmem := hwithin.first hp
      exact ⟨p, (hfirst p).mpr (.inl hp), ⟨t.leafChar p hmem, hval⟩,
        (t.acceptsFrom_follow hmem).mpr hw⟩

/-! ## The table -/

theorem flagAcceptingStates_eq (states : List RBBIStateDescriptor) :
    flagAcceptingStates t.fTree states = states.map (flagAccepting t.endMark) := by
  have hnodes : t.fTree.findNodes .endMark = [t.endMark] := by
    rw [fTree, RBBINode.findNodes, findNodes_endMark t.leafChar, RBBINode.findNodes,
      if_pos t.endMark_type]
    rfl
  rw [flagAcceptingStates, hnodes]
  rfl

theorem acceptsFrom_iff {states : List RBBIStateDescriptor} {first : List Leaf} {tx : Nat}
    (h : Building t.positions (t.fTree.calcFollowPos fun _ => []) lastInputSymbol first tx
      (lastInputSymbol + 1) states)
    (hmarked : ∀ (i : Nat) (sd : RBBIStateDescriptor), 1 ≤ i → states[i]? = some sd →
      sd.fMarked = true) :
    ∀ {w : List Nat} {s : Nat} {positions : List Leaf}, 1 ≤ s → (sets states)[s]? = some positions →
    (acceptsFrom (states.map (flagAccepting t.endMark)) s w = true ↔
      w ∈ t.automaton.acceptsFrom {p | p ∈ positions})
  | [], s, positions, _, hs => by
    obtain ⟨sd, hsd, rfl⟩ := Option.map_eq_some_iff.mp (List.getElem?_map ▸ hs)
    have hmem := List.mem_of_getElem? hsd
    obtain ⟨-, -, hflag⟩ := flagAccepting_eq t.endMark sd
    rw [acceptsFrom, List.getElem?_map, hsd, NFA.nil_mem_acceptsFrom]
    simp only [Option.map_some, Option.getD_some, bne_iff_ne]
    rw [hflag (h.accepting sd hmem)]
    constructor
    · rintro ⟨p, hp, haddress⟩
      refine ⟨p, hp, ?_⟩
      exact eq_of_address t.distinct ((h.isSet _ (List.mem_map_of_mem hmem)).subset p hp)
        (List.mem_append_right _ (List.mem_singleton_self _)) haddress
    · rintro ⟨p, hp, rfl⟩
      exact ⟨t.endMark, hp, rfl⟩
  | a :: w, s, positions, h1, hs => by
    obtain ⟨sd, hsd, rfl⟩ := Option.map_eq_some_iff.mp (List.getElem?_map ▸ hs)
    have hmem := List.mem_of_getElem? hsd
    have hsubset := (h.isSet _ (List.mem_map_of_mem hmem)).subset
    obtain ⟨-, hdtran, -⟩ := flagAccepting_eq t.endMark sd
    have hnext : (((states.map (flagAccepting t.endMark))[s]?.map fun sd =>
        sd.fDtran.getD a 0).getD 0) = sd.fDtran.getD a 0 := by
      rw [List.getElem?_map, hsd, Option.map_some, Option.map_some, Option.getD_some, hdtran]
    -- the automaton after the symbol is in the state for its next positions
    have hstep : a :: w ∈ t.automaton.acceptsFrom {p | p ∈ sd.fPositions} ↔
        w ∈ t.automaton.acceptsFrom
          {p | p ∈ nextSet (t.fTree.calcFollowPos fun _ => []) a sd.fPositions} := by
      rw [NFA.cons_mem_acceptsFrom]
      have hset : t.automaton.stepSet {p | p ∈ sd.fPositions} a =
          {p | p ∈ nextSet (t.fTree.calcFollowPos fun _ => []) a sd.fPositions} := by
        ext q
        rw [NFA.mem_stepSet]
        exact ((nextSet_spec t.distinct t.isSet_follow a sd.fPositions).2 q).symm
      rw [hset]
    rw [acceptsFrom, hnext, hstep]
    by_cases ha : 1 ≤ a ∧ a ≤ lastInputSymbol
    · have hedge := h.edge s sd hsd (hmarked s sd h1 hsd) a ha.1 ha.2 fun _ => by omega
      by_cases hzero : sd.fDtran.getD a 0 = 0
      · rw [hzero, h.stop, Option.some.injEq] at hedge
        rw [hzero, ← hedge]
        simpa using t.not_mem_acceptsFrom_empty
      · rw [Bool.and_eq_true, bne_iff_ne, and_iff_right hzero]
        exact acceptsFrom_iff h hmarked (by omega) hedge
    -- no position has this symbol
    have hzero : sd.fDtran.getD a 0 = 0 := by
      have hwidth := h.width sd hmem
      by_cases ha0 : a = 0
      · exact h.zero s sd hsd a (.inr (.inl ha0))
      · rw [List.getD_eq_getElem?_getD, List.getElem?_eq_none (by omega), Option.getD_none]
    have hempty : {p | p ∈ nextSet (t.fTree.calcFollowPos fun _ => []) a sd.fPositions} = ∅ := by
      ext q
      refine ⟨fun hq => ?_, fun hq => absurd hq (Set.notMem_empty q)⟩
      obtain ⟨p, hp, ⟨htype, hval⟩, -⟩ :=
        ((nextSet_spec t.distinct t.isSet_follow a sd.fPositions).2 q).mp hq
      rcases List.mem_append.mp (hsubset p hp) with hleaf | hend
      · have := t.category p hleaf
        omega
      · rw [List.mem_singleton.mp hend, t.endMark_type] at htype
        contradiction
    rw [hzero, hempty]
    simpa using t.not_mem_acceptsFrom_empty

theorem setAdd_ne_nil {dest : List Leaf} (h : dest ≠ []) (source : List Leaf) :
    setAdd dest source ≠ [] := by
  cases dest with
  | nil => exact absurd rfl h
  | cons d dest =>
    rw [setAdd]
    cases source with
    | nil => exact List.cons_ne_nil d dest
    | cons s source =>
      rw [setAddHead]
      split
      · exact List.cons_ne_nil _ _
      · split <;> exact List.cons_ne_nil _ _

theorem calcFirstPos_ne_nil : ∀ n : RBBINode, n.calcFirstPos ≠ []
  | .leaf p => List.cons_ne_nil p []
  | .opOr l r => setAdd_ne_nil (calcFirstPos_ne_nil l) _
  | .opCat l r => by
    rw [RBBINode.calcFirstPos]
    split
    · exact setAdd_ne_nil (calcFirstPos_ne_nil l) _
    · exact calcFirstPos_ne_nil l
  | .opStar l => calcFirstPos_ne_nil l
  | .opPlus l => calcFirstPos_ne_nil l
  | .opQuestion l => calcFirstPos_ne_nil l

theorem building_start : Building t.positions (t.fTree.calcFollowPos fun _ => []) lastInputSymbol
    t.fTree.calcFirstPos 0 (lastInputSymbol + 1)
    [.new lastInputSymbol [], .new lastInputSymbol (setAdd [] t.fTree.calcFirstPos)] := by
  have hfirst := (RBBINode.calcFirstPos_spec t.distinct t.isPlain fun _ hp => hp).1
  have hstates : ∀ {i : Nat} {sd : RBBIStateDescriptor},
      [RBBIStateDescriptor.new lastInputSymbol [],
        .new lastInputSymbol (setAdd [] t.fTree.calcFirstPos)][i]? = some sd →
      sd.fMarked = false ∧ sd.fDtran = List.replicate (lastInputSymbol + 1) 0 := by
    intro i sd hsd
    have hmem := List.mem_of_getElem? hsd
    simp only [List.mem_cons, List.not_mem_nil, or_false] at hmem
    rcases hmem with rfl | rfl
    · exact ⟨rfl, rfl⟩
    · exact ⟨rfl, rfl⟩
  refine ⟨rfl, rfl, ?_, ?_, ?_, ?_, ?_, ?_⟩
  · intro s hs
    simp only [sets, List.map_cons, List.map_nil, List.mem_cons, List.not_mem_nil, or_false] at hs
    rcases hs with rfl | rfl
    · exact .nil
    · exact hfirst
  · have hne : [] ≠ t.fTree.calcFirstPos := (calcFirstPos_ne_nil t.fTree).symm
    simpa [sets, RBBIStateDescriptor.new] using hne
  · simp [RBBIStateDescriptor.new]
  · simp [RBBIStateDescriptor.new]
  · intro i sd hsd a _
    rw [(hstates hsd).2, List.getD_eq_getElem?_getD, List.getElem?_replicate]
    split <;> rfl
  · intro i sd hsd hmarked
    rw [(hstates hsd).1] at hmarked
    contradiction

/-- The table that `build()` makes. -/
def IsTable (states : List RBBIStateDescriptor) : Prop :=
  ∀ fuel, 2 ^ t.positions.length ≤ fuel → build lastInputSymbol fuel t.fTree = some states

theorem buildStates_mono {followPos : FollowPos} {states' : List RBBIStateDescriptor} :
    ∀ {fuel : Nat} {states : List RBBIStateDescriptor},
    buildStates followPos lastInputSymbol fuel states = some states' →
    buildStates followPos lastInputSymbol (fuel + 1) states = some states'
  | 0, _, h => by simp [buildStates] at h
  | fuel + 1, states, h => by
    rw [buildStates] at h ⊢
    cases hfind : findUnmarked states with
    | none =>
      rw [hfind] at h
      exact h
    | some tx =>
      rw [hfind] at h
      exact buildStates_mono h

/-- The compilation comes to its end, and the table accepts the non-empty strings of the
expression in which a repetition with `opPlus` is not empty. -/
theorem exists_isTable : ∃ states, t.IsTable states ∧
    ∀ w ≠ [], accepts states w = true ↔ w ∈ t.expression.strictLanguage := by
  obtain ⟨states, tx, hbuild, hbuilding, hmarked⟩ := @buildStates_spec t.positions t.distinct
    (t.fTree.calcFollowPos fun _ => []) t.isSet_follow lastInputSymbol t.fTree.calcFirstPos
    (2 ^ t.positions.length) 0 1 _ t.building_start (le_refl 1) (fun i h1 h2 => by omega)
    (Nat.lt_succ_self _)
  refine ⟨states.map (flagAccepting t.endMark), fun fuel hfuel => ?_, fun w hne => ?_⟩
  · have hmono : buildStates (t.fTree.calcFollowPos fun _ => []) lastInputSymbol fuel
        [.new lastInputSymbol [], .new lastInputSymbol (setAdd [] t.fTree.calcFirstPos)] =
        some states := by
      induction fuel, hfuel using Nat.le_induction with
      | base => exact hbuild
      | succ fuel _ ih => exact buildStates_mono ih
    rw [build, buildStateTable, hmono, Option.map_some, t.flagAcceptingStates_eq]
  · rw [accepts, t.acceptsFrom_iff hbuilding hmarked (le_refl 1) hbuilding.start]
    exact t.mem_automaton_accepts hne

/-- The table accepts the language of the expression, exactly if it is the same language when a
repetition with `opPlus` is not empty. It is if no operand of `opPlus` matches the empty string. -/
theorem table_accepts_language_iff : ∃ states, t.IsTable states ∧
    ((∀ w ≠ [], accepts states w = true ↔ w ∈ t.expression.language) ↔
      ∀ w ≠ [], w ∈ t.expression.strictLanguage ↔ w ∈ t.expression.language) ∧
    (t.expression.PlusConsumes →
      ∀ w ≠ [], accepts states w = true ↔ w ∈ t.expression.language) := by
  obtain ⟨states, htable, haccepts⟩ := t.exists_isTable
  refine ⟨states, htable, ⟨fun h w hne => ?_, fun h w hne => ?_⟩, fun hplus w hne => ?_⟩
  · rw [← haccepts w hne, h w hne]
  · rw [haccepts w hne, h w hne]
  · rw [haccepts w hne, RBBINode.strictLanguage_eq hplus]

end RuleTree

/-- `a (b?)+`, for letters of the categories 3 and 4. -/
def optionalTailTree : RuleTree 4 where
  expression := .opCat (.leaf ⟨1, .leafChar, 3, false⟩)
    (.opPlus (.opQuestion (.leaf ⟨2, .leafChar, 4, false⟩)))
  endMark := ⟨3, .endMark, 0, false⟩
  leafChar := by decide
  category := by decide
  endMark_type := rfl
  distinct := by decide

/-- The letter `a` alone matches the rule, but the table does not accept it. -/
theorem optional_tail_rejected : ∃ states, optionalTailTree.IsTable states ∧
    [3] ∈ optionalTailTree.expression.language ∧ accepts states [3] = false := by
  obtain ⟨states, htable, -⟩ := optionalTailTree.exists_isTable
  refine ⟨states, htable, ?_, ?_⟩
  · refine ⟨[3], rfl, [], ?_, rfl⟩
    exact ⟨[], .inr rfl, [], Language.nil_mem_kstar _, rfl⟩
  have hbuild : (build 4 8 optionalTailTree.fTree).map (fun s => accepts s [3]) = some false := by
    decide
  rw [htable 8 (by decide), Option.map_some, Option.some.injEq] at hbuild
  exact hbuild

end Icu.Rbbi
