import Mathlib.Data.Finset.Powerset
import Mathlib.Data.Finset.Sort
import Icu.Rbbi.Positions

/-! # The subset construction

The states are distinct sets of positions. When all of them are marked, every transition leads
to the set of the positions that follow.
-/

namespace Icu.Rbbi

/-- The positions after the symbol `a`. -/
def nextSet (followPos : FollowPos) (a : Nat) (positions : List Leaf) : List Leaf :=
  (nextPositions followPos a positions).getD []

section

variable {L : List Leaf} (hL : (L.map Leaf.address).Nodup) {followPos : FollowPos}
  (hfollow : ∀ i, IsSet L (followPos i))

include hL hfollow

theorem nextPositions_foldl {a : Nat} : ∀ {positions : List Leaf} {U : Option (List Leaf)},
    IsSet L (U.getD []) → IsSet L ((positions.foldl (fun U p =>
      if p.fType = .leafChar ∧ p.fVal = a then some (setAdd (U.getD []) (followPos p.address))
      else U) U).getD []) ∧
    ∀ q, q ∈ (positions.foldl (fun U p =>
      if p.fType = .leafChar ∧ p.fVal = a then some (setAdd (U.getD []) (followPos p.address))
      else U) U).getD [] ↔ q ∈ U.getD [] ∨
        ∃ p ∈ positions, (p.fType = .leafChar ∧ p.fVal = a) ∧ q ∈ followPos p.address
  | [], U, hU => ⟨hU, by simp⟩
  | p :: positions, U, hU => by
    rw [List.foldl_cons]
    by_cases hp : p.fType = .leafChar ∧ p.fVal = a
    · rw [if_pos hp]
      obtain ⟨hset, hmem⟩ := @nextPositions_foldl a positions
        (some (setAdd (U.getD []) (followPos p.address))) (hU.setAdd hL (hfollow _))
      refine ⟨hset, fun q => (hmem q).trans ?_⟩
      rw [Option.getD_some, mem_setAdd hL hU.subset (hfollow _).subset]
      simp only [List.mem_cons, exists_eq_or_imp, hp, and_self, true_and]
      exact or_assoc
    · rw [if_neg hp]
      obtain ⟨hset, hmem⟩ := @nextPositions_foldl a positions U hU
      refine ⟨hset, fun q => (hmem q).trans ?_⟩
      simp only [List.mem_cons, exists_eq_or_imp, hp, false_and, false_or]

theorem nextSet_spec (a : Nat) (positions : List Leaf) : IsSet L (nextSet followPos a positions) ∧
    ∀ q, q ∈ nextSet followPos a positions ↔
      ∃ p ∈ positions, (p.fType = .leafChar ∧ p.fVal = a) ∧ q ∈ followPos p.address := by
  obtain ⟨hset, hmem⟩ := @nextPositions_foldl L hL followPos hfollow a positions none .nil
  refine ⟨hset, fun q => (hmem q).trans ?_⟩
  simp

end

/-! ## The states -/

abbrev sets (states : List RBBIStateDescriptor) : List (List Leaf) :=
  states.map RBBIStateDescriptor.fPositions

/-- The states when the state `tx` has its transitions for the symbols below `k`. -/
structure Building (L : List Leaf) (followPos : FollowPos) (lastInputSymbol : Nat)
    (first : List Leaf) (tx k : Nat) (states : List RBBIStateDescriptor) : Prop where
  stop : (sets states)[0]? = some []
  start : (sets states)[1]? = some first
  isSet : ∀ s ∈ sets states, IsSet L s
  nodup : (sets states).Nodup
  accepting : ∀ sd ∈ states, sd.fAccepting = 0
  width : ∀ sd ∈ states, sd.fDtran.length = lastInputSymbol + 1
  zero : ∀ i sd, states[i]? = some sd → ∀ a, sd.fMarked = false ∨ a = 0 ∨ i = tx ∧ k ≤ a →
    sd.fDtran.getD a 0 = 0
  edge : ∀ i sd, states[i]? = some sd → sd.fMarked = true → ∀ a, 1 ≤ a → a ≤ lastInputSymbol →
    (i = tx → a < k) →
    (sets states)[sd.fDtran.getD a 0]? = some (nextSet followPos a sd.fPositions)

theorem sets_modify {states : List RBBIStateDescriptor} {tx : Nat}
    {f : RBBIStateDescriptor → RBBIStateDescriptor} (hf : ∀ sd, (f sd).fPositions = sd.fPositions) :
    sets (states.modify tx f) = sets states := by
  apply List.ext_getElem?
  intro i
  rw [List.getElem?_map, List.getElem?_modify, List.getElem?_map]
  cases states[i]? with
  | none => rfl
  | some sd =>
    by_cases hi : tx = i
    · simp [hi, hf]
    · simp [hi]

namespace Building

variable {L : List Leaf} {followPos : FollowPos} {lastInputSymbol : Nat} {first : List Leaf}
  {tx k a : Nat} {states : List RBBIStateDescriptor}

/-- A new state, which is not marked. -/
theorem append (h : Building L followPos lastInputSymbol first tx k states) {U : List Leaf}
    (hU : IsSet L U) (hnew : U ∉ sets states) :
    Building L followPos lastInputSymbol first tx k (states ++ [.new lastInputSymbol U]) := by
  have hsets : sets (states ++ [.new lastInputSymbol U]) = sets states ++ [U] := List.map_append
  have hkeep : ∀ {i : Nat} {s : List Leaf}, (sets states)[i]? = some s →
      (sets (states ++ [.new lastInputSymbol U]))[i]? = some s := by
    intro i s hs
    rw [hsets, List.getElem?_append_left (List.getElem?_eq_some_iff.mp hs).1, hs]
  have hcases : ∀ {i : Nat} {sd : RBBIStateDescriptor},
      (states ++ [.new lastInputSymbol U])[i]? = some sd →
      states[i]? = some sd ∨ sd = .new lastInputSymbol U := by
    intro i sd hsd
    by_cases hi : i < states.length
    · rw [List.getElem?_append_left hi] at hsd
      exact .inl hsd
    · rw [List.getElem?_append_right (by omega)] at hsd
      exact .inr (by simpa using List.mem_of_getElem? hsd)
  refine ⟨hkeep h.stop, hkeep h.start, ?_, ?_, ?_, ?_, ?_, ?_⟩
  · rw [hsets, List.forall_mem_append]
    exact ⟨h.isSet, by simpa using hU⟩
  · rw [hsets]
    exact List.nodup_append'.mpr ⟨h.nodup, List.nodup_singleton U, by simpa using hnew⟩
  · rw [List.forall_mem_append]
    exact ⟨h.accepting, by simp [RBBIStateDescriptor.new]⟩
  · rw [List.forall_mem_append]
    exact ⟨h.width, by simp [RBBIStateDescriptor.new]⟩
  · intro i sd hsd a ha
    rcases hcases hsd with hsd | rfl
    · exact h.zero i sd hsd a ha
    rw [List.getD_eq_getElem?_getD, RBBIStateDescriptor.new, List.getElem?_replicate]
    split <;> rfl
  · intro i sd hsd hmarked a h1 h2 hlt
    rcases hcases hsd with hsd | rfl
    · exact hkeep (h.edge i sd hsd hmarked a h1 h2 hlt)
    · simp [RBBIStateDescriptor.new] at hmarked

theorem transition (h : Building L followPos lastInputSymbol first tx a states) {ux : Nat}
    {positions : List Leaf} (htx : (sets states)[tx]? = some positions)
    (hux : (sets states)[ux]? = some (nextSet followPos a positions)) (h1 : 1 ≤ a)
    (h2 : a ≤ lastInputSymbol) (hmarked : ∀ sd, states[tx]? = some sd → sd.fMarked = true) :
    Building L followPos lastInputSymbol first tx (a + 1) (states.modify tx (setDtran ux a)) := by
  have hsets : sets (states.modify tx (setDtran ux a)) = sets states := sets_modify fun _ => rfl
  have hcases : ∀ {i : Nat} {sd : RBBIStateDescriptor},
      (states.modify tx (setDtran ux a))[i]? = some sd →
      (i ≠ tx ∧ states[i]? = some sd) ∨
        (i = tx ∧ ∃ sd', states[tx]? = some sd' ∧ sd = setDtran ux a sd') := by
    intro i sd hsd
    by_cases hi : tx = i
    · rw [← hi, List.getElem?_modify_eq] at hsd
      obtain ⟨sd', hsd', rfl⟩ := Option.map_eq_some_iff.mp hsd
      exact .inr ⟨hi.symm, sd', hsd', rfl⟩
    · rw [List.getElem?_modify_ne _ _ hi] at hsd
      exact .inl ⟨fun hcon => hi hcon.symm, hsd⟩
  have hmem : ∀ sd ∈ states.modify tx (setDtran ux a), ∃ sd' ∈ states, sd = sd' ∨
      sd = setDtran ux a sd' := by
    intro sd hsd
    obtain ⟨i, hi⟩ := List.mem_iff_getElem?.mp hsd
    rcases hcases hi with ⟨-, hsame⟩ | ⟨-, sd', hchanged, rfl⟩
    · exact ⟨sd, List.mem_of_getElem? hsame, .inl rfl⟩
    · exact ⟨sd', List.mem_of_getElem? hchanged, .inr rfl⟩
  -- the entries of the changed vector
  have hget : ∀ sd' ∈ states, ∀ b, (setDtran ux a sd').fDtran.getD b 0 =
      if b = a then ux else sd'.fDtran.getD b 0 := by
    intro sd' hsd' b
    have hwidth := h.width sd' hsd'
    rw [setDtran, List.getD_eq_getElem?_getD, List.getElem?_set]
    by_cases hb : b = a
    · rw [if_pos hb.symm, if_pos (by omega), if_pos hb, Option.getD_some]
    · rw [if_neg fun hcon => hb hcon.symm, if_neg hb, List.getD_eq_getElem?_getD]
  refine ⟨by rw [hsets]; exact h.stop, by rw [hsets]; exact h.start, by rw [hsets]; exact h.isSet,
    by rw [hsets]; exact h.nodup, ?_, ?_, ?_, ?_⟩
  · intro sd hsd
    obtain ⟨sd', hsd', rfl | rfl⟩ := hmem sd hsd
    · exact h.accepting sd hsd'
    · exact h.accepting sd' hsd'
  · intro sd hsd
    obtain ⟨sd', hsd', rfl | rfl⟩ := hmem sd hsd
    · exact h.width sd hsd'
    · exact (List.length_set).trans (h.width sd' hsd')
  · intro i sd hsd b hb
    rcases hcases hsd with ⟨hne, hsd⟩ | ⟨rfl, sd', hsd', rfl⟩
    · exact h.zero i sd hsd b (by tauto)
    have htrue := hmarked sd' hsd'
    have hb' : b = 0 ∨ a + 1 ≤ b := by
      rcases hb with hb | hb | ⟨-, hb⟩
      · rw [setDtran, htrue] at hb
        contradiction
      · exact .inl hb
      · exact .inr hb
    rw [hget sd' (List.mem_of_getElem? hsd') b, if_neg (by omega)]
    exact h.zero i sd' hsd' b (.inr (by omega))
  · intro i sd hsd hm b h3 h4 hlt
    rw [hsets]
    rcases hcases hsd with ⟨hne, hsd⟩ | ⟨rfl, sd', hsd', rfl⟩
    · exact h.edge i sd hsd hm b h3 h4 fun hcon => absurd hcon hne
    rw [hget sd' (List.mem_of_getElem? hsd') b]
    by_cases hb : b = a
    · have hpositions : (setDtran ux a sd').fPositions = positions := by
        rw [List.getElem?_map, hsd'] at htx
        exact Option.some.inj htx
      rw [if_pos hb, hux, hb, hpositions]
    · rw [if_neg hb]
      have := hlt rfl
      exact h.edge i sd' hsd' hm b h3 h4 fun _ => by omega

theorem skip (h : Building L followPos lastInputSymbol first tx a states)
    (hnone : ∀ sd, states[tx]? = some sd → nextSet followPos a sd.fPositions = []) :
    Building L followPos lastInputSymbol first tx (a + 1) states := by
  refine ⟨h.stop, h.start, h.isSet, h.nodup, h.accepting, h.width, ?_, ?_⟩
  · intro i sd hsd b hb
    apply h.zero i sd hsd b
    rcases hb with hb | hb | ⟨hi, hb⟩
    · exact .inl hb
    · exact .inr (.inl hb)
    · exact .inr (.inr ⟨hi, by omega⟩)
  intro i sd hsd hmarked b h1 h2 hlt
  by_cases hb : i = tx ∧ b = a
  · obtain ⟨rfl, rfl⟩ := hb
    rw [h.zero i sd hsd b (.inr (.inr ⟨rfl, le_refl b⟩)), h.stop, hnone sd hsd]
  refine h.edge i sd hsd hmarked b h1 h2 fun hi => ?_
  have := hlt hi
  omega

end Building

/-- States are added, and the marks and positions of the others are kept. -/
def Extends (states states' : List RBBIStateDescriptor) : Prop :=
  ∀ (i : Nat) (sd : RBBIStateDescriptor), states[i]? = some sd → ∃ sd' : RBBIStateDescriptor,
    states'[i]? = some sd' ∧ sd'.fMarked = sd.fMarked ∧ sd'.fPositions = sd.fPositions

theorem Extends.refl (states : List RBBIStateDescriptor) : Extends states states :=
  fun _ sd h => ⟨sd, h, rfl, rfl⟩

theorem Extends.trans {states₁ states₂ states₃ : List RBBIStateDescriptor}
    (h : Extends states₁ states₂) (h' : Extends states₂ states₃) : Extends states₁ states₃ := by
  intro i sd hsd
  obtain ⟨sd₂, h₂, hm, hp⟩ := h i sd hsd
  obtain ⟨sd₃, h₃, hm', hp'⟩ := h' i sd₂ h₂
  exact ⟨sd₃, h₃, hm'.trans hm, hp'.trans hp⟩

theorem extends_append (states : List RBBIStateDescriptor) (sd : RBBIStateDescriptor) :
    Extends states (states ++ [sd]) := by
  intro i sd' h
  refine ⟨sd', ?_, rfl, rfl⟩
  rw [List.getElem?_append_left (List.getElem?_eq_some_iff.mp h).1, h]

theorem extends_setDtran (states : List RBBIStateDescriptor) (tx ux a : Nat) :
    Extends states (states.modify tx (setDtran ux a)) := by
  intro i sd h
  by_cases hi : tx = i
  · refine ⟨setDtran ux a sd, ?_, rfl, rfl⟩
    rw [hi, List.getElem?_modify_eq, h]
    rfl
  · exact ⟨sd, by rw [List.getElem?_modify_ne _ _ hi, h], rfl, rfl⟩

section

variable {L : List Leaf} (hL : (L.map Leaf.address).Nodup) {followPos : FollowPos}
  (hfollow : ∀ i, IsSet L (followPos i)) {lastInputSymbol : Nat} {first positions : List Leaf}
  {tx a : Nat} {T : RBBIStateDescriptor}

include hL hfollow

theorem addTransition_building {states : List RBBIStateDescriptor}
    (h : Building L followPos lastInputSymbol first tx a states) (hT : states[tx]? = some T)
    (hmarked : T.fMarked = true) (hpositions : T.fPositions = positions) (h1 : 1 ≤ a)
    (h2 : a ≤ lastInputSymbol) : Building L followPos lastInputSymbol first tx (a + 1)
        (addTransition followPos lastInputSymbol tx positions states a) ∧
      Extends states (addTransition followPos lastInputSymbol tx positions states a) := by
  have htx : (sets states)[tx]? = some positions := by
    rw [List.getElem?_map, hT]
    exact congrArg some hpositions
  have hset := (nextSet_spec hL hfollow a positions).1
  rw [addTransition]
  cases hnext : nextPositions followPos a positions with
  | none =>
    refine ⟨h.skip fun sd hsd => ?_, Extends.refl states⟩
    rw [hT, Option.some.injEq] at hsd
    rw [← hsd, hpositions, nextSet, hnext, Option.getD_none]
  | some U =>
    have hU : nextSet followPos a positions = U := by rw [nextSet, hnext, Option.getD_some]
    have hequal : ∀ sd ∈ states, setEquals U sd.fPositions = true ↔ U = sd.fPositions :=
      fun sd hsd => setEquals_iff hL (hU ▸ hset.subset)
        (h.isSet _ (List.mem_map_of_mem hsd)).subset
    dsimp only
    cases hfind : states.findIdx? (fun temp => setEquals U temp.fPositions) with
    | some ux =>
      obtain ⟨hlt, heq, -⟩ := List.findIdx?_eq_some_iff_getElem.mp hfind
      refine ⟨h.transition htx ?_ h1 h2 fun sd hsd => ?_, extends_setDtran states tx ux a⟩
      · rw [List.getElem?_map, List.getElem?_eq_getElem hlt, hU,
          (hequal _ (List.getElem_mem hlt)).mp heq]
        rfl
      · rw [hT, Option.some.injEq] at hsd
        rw [← hsd, hmarked]
    | none =>
      have hnew : U ∉ sets states := by
        intro hcon
        obtain ⟨sd, hsd, heq⟩ := List.mem_map.mp hcon
        have := List.findIdx?_eq_none_iff.mp hfind sd hsd
        rw [(hequal sd hsd).mpr heq.symm] at this
        contradiction
      have happend := h.append (hU ▸ hset) hnew
      obtain ⟨T', hT', hm', hp'⟩ := extends_append states (.new lastInputSymbol U) tx T hT
      have htx' : (sets (states ++ [.new lastInputSymbol U]))[tx]? = some positions := by
        rw [List.getElem?_map, hT']
        exact congrArg some (hp'.trans hpositions)
      refine ⟨happend.transition htx' ?_ h1 h2 fun sd hsd => ?_,
        (extends_append states _).trans (extends_setDtran _ tx _ a)⟩
      · rw [List.getElem?_map, List.getElem?_append_right (le_refl _), Nat.sub_self, hU]
        rfl
      · rw [hT', Option.some.injEq] at hsd
        rw [← hsd, hm', hmarked]

theorem foldl_addTransition : ∀ {n a : Nat} {states : List RBBIStateDescriptor},
    Building L followPos lastInputSymbol first tx a states → states[tx]? = some T →
    T.fMarked = true → T.fPositions = positions → 1 ≤ a → a + n = lastInputSymbol + 1 →
    Building L followPos lastInputSymbol first tx (lastInputSymbol + 1)
        ((List.range' a n).foldl (addTransition followPos lastInputSymbol tx positions) states) ∧
      Extends states
        ((List.range' a n).foldl (addTransition followPos lastInputSymbol tx positions)
          states) := by
  intro n
  induction n generalizing T with
  | zero =>
    intro a states h _ _ _ _ hn
    obtain rfl : a = lastInputSymbol + 1 := by omega
    exact ⟨h, Extends.refl states⟩
  | succ n ih =>
    intro a states h hT hm hp h1 hn
    obtain ⟨hnext, hextends⟩ := addTransition_building hL hfollow h hT hm hp h1 (by omega)
    obtain ⟨T', hT', hm', hp'⟩ := hextends tx T hT
    rw [List.range'_succ, List.foldl_cons]
    obtain ⟨hrest, hextends'⟩ := ih hnext hT' (hm'.trans hm) (hp'.trans hp) (by omega) (by omega)
    exact ⟨hrest, hextends.trans hextends'⟩

/-! ## All states -/

theorem processState_building {states : List RBBIStateDescriptor} {k t : Nat}
    (h : Building L followPos lastInputSymbol first t k states) (hk : k = lastInputSymbol + 1)
    (hT : states[tx]? = some T) (hunmarked : T.fMarked = false) :
    Building L followPos lastInputSymbol first tx (lastInputSymbol + 1)
        (processState followPos lastInputSymbol tx states) ∧
      Extends (states.modify tx fun T => { T with fMarked := true })
        (processState followPos lastInputSymbol tx states) := by
  have hsets : sets (states.modify tx fun T => { T with fMarked := true }) = sets states :=
    sets_modify fun _ => rfl
  have hcases : ∀ {i : Nat} {sd : RBBIStateDescriptor},
      (states.modify tx fun T => { T with fMarked := true })[i]? = some sd →
      ∃ sd', states[i]? = some sd' ∧ sd.fPositions = sd'.fPositions ∧ sd.fDtran = sd'.fDtran ∧
        sd.fAccepting = sd'.fAccepting ∧ (i ≠ tx → sd = sd') := by
    intro i sd hsd
    by_cases hi : tx = i
    · rw [← hi, List.getElem?_modify_eq] at hsd
      obtain ⟨sd', hsd', rfl⟩ := Option.map_eq_some_iff.mp hsd
      exact ⟨sd', hi ▸ hsd', rfl, rfl, rfl, fun hne => absurd hi.symm hne⟩
    · rw [List.getElem?_modify_ne _ _ hi] at hsd
      exact ⟨sd, hsd, rfl, rfl, rfl, fun _ => rfl⟩
  -- marking changes nothing else
  have hstart : Building L followPos lastInputSymbol first tx 1
      (states.modify tx fun T => { T with fMarked := true }) := by
    refine ⟨by rw [hsets]; exact h.stop, by rw [hsets]; exact h.start, by rw [hsets]; exact h.isSet,
      by rw [hsets]; exact h.nodup, ?_, ?_, ?_, ?_⟩
    · intro sd hsd
      obtain ⟨i, hi⟩ := List.mem_iff_getElem?.mp hsd
      obtain ⟨sd', hsd', -, -, heq, -⟩ := hcases hi
      rw [heq, h.accepting sd' (List.mem_of_getElem? hsd')]
    · intro sd hsd
      obtain ⟨i, hi⟩ := List.mem_iff_getElem?.mp hsd
      obtain ⟨sd', hsd', -, heq, -, -⟩ := hcases hi
      rw [heq, h.width sd' (List.mem_of_getElem? hsd')]
    · intro i sd hsd a ha
      obtain ⟨sd', hsd', -, heq, -, hsame⟩ := hcases hsd
      rw [heq]
      by_cases hi : i = tx
      · rw [hi, hT, Option.some.injEq] at hsd'
        exact h.zero tx sd' (hsd' ▸ hT) a (.inl (hsd' ▸ hunmarked))
      refine h.zero i sd' hsd' a ?_
      rw [← hsame hi]
      rcases ha with ha | ha | ⟨hcon, -⟩
      · exact .inl ha
      · exact .inr (.inl ha)
      · exact absurd hcon hi
    · intro i sd hsd hmarked a h1 h2 hlt
      obtain ⟨sd', hsd', hp, heq, -, hsame⟩ := hcases hsd
      have hi : i ≠ tx := fun hcon => by
        have := hlt hcon
        omega
      rw [hsets, heq, hp]
      exact h.edge i sd' hsd' (hsame hi ▸ hmarked) a h1 h2 fun _ => by omega
  have hT' : (states.modify tx fun T => { T with fMarked := true })[tx]? =
      some { T with fMarked := true } := by
    rw [List.getElem?_modify_eq, hT]
    rfl
  rw [processState, hT]
  exact foldl_addTransition hL hfollow hstart hT' rfl rfl (le_refl 1) (by omega)

omit hfollow in
/-- There are not more states than sets of positions. -/
theorem Building.length_le {states : List RBBIStateDescriptor} {k : Nat}
    (h : Building L followPos lastInputSymbol first tx k states) :
    states.length ≤ 2 ^ L.length := by
  have hinj : ∀ s ∈ sets states, ∀ s' ∈ sets states,
      (s.map Leaf.address).toFinset = (s'.map Leaf.address).toFinset → s = s' := by
    intro s hs s' hs' heq
    have hsorted : ∀ s ∈ sets states, (s.map Leaf.address).Pairwise (· < ·) := fun s hs =>
      List.pairwise_map.mpr (h.isSet s hs).sorted
    have hmap : s.map Leaf.address = s'.map Leaf.address := by
      apply List.Perm.eq_of_pairwise' (hsorted s hs) (hsorted s' hs')
      rw [List.perm_ext_iff_of_nodup ((hsorted s hs).imp Nat.ne_of_lt)
        ((hsorted s' hs').imp Nat.ne_of_lt)]
      intro i
      rw [← List.mem_toFinset, heq, List.mem_toFinset]
    exact (setEquals_iff hL (h.isSet s hs).subset (h.isSet s' hs').subset).mp (by
      rw [setEquals, hmap, beq_self_eq_true])
  have hnodup : ((sets states).map fun s => (s.map Leaf.address).toFinset).Nodup :=
    h.nodup.map_on hinj
  have hsub : ((sets states).map fun s => (s.map Leaf.address).toFinset).toFinset ⊆
      (L.map Leaf.address).toFinset.powerset := by
    intro x hx
    obtain ⟨s, hs, rfl⟩ := List.mem_map.mp (List.mem_toFinset.mp hx)
    rw [Finset.mem_powerset]
    intro i hi
    obtain ⟨p, hp, rfl⟩ := List.mem_map.mp (List.mem_toFinset.mp hi)
    exact List.mem_toFinset.mpr (List.mem_map_of_mem ((h.isSet s hs).subset p hp))
  have hcard := Finset.card_le_card hsub
  rw [List.toFinset_card_of_nodup hnodup, Finset.card_powerset, List.toFinset_card_of_nodup hL,
    List.length_map, List.length_map, List.length_map] at hcard
  exact hcard

end

theorem findUnmarked_some {states : List RBBIStateDescriptor} {tx : Nat}
    (h : findUnmarked states = some tx) : 1 ≤ tx ∧
      (∃ T, states[tx]? = some T ∧ T.fMarked = false) ∧
      ∀ i, 1 ≤ i → i < tx → ∃ sd, states[i]? = some sd ∧ sd.fMarked = true := by
  obtain ⟨j, hj, rfl⟩ := Option.map_eq_some_iff.mp h
  obtain ⟨hlt, hfound, hbefore⟩ := List.findIdx?_eq_some_iff_getElem.mp hj
  refine ⟨by omega, ⟨(states.drop 1)[j], ?_, by simpa using hfound⟩, ?_⟩
  · rw [← List.getElem?_eq_getElem hlt, List.getElem?_drop, Nat.add_comm]
  intro i h1 hi
  have hi' : i - 1 < (states.drop 1).length := by omega
  refine ⟨(states.drop 1)[i - 1], ?_, by simpa using hbefore (i - 1) (by omega)⟩
  rw [← List.getElem?_eq_getElem hi', List.getElem?_drop, Nat.add_comm, Nat.sub_add_cancel h1]

theorem findUnmarked_none {states : List RBBIStateDescriptor} (h : findUnmarked states = none)
    {i : Nat} {sd : RBBIStateDescriptor} (h1 : 1 ≤ i) (hsd : states[i]? = some sd) :
    sd.fMarked = true := by
  rw [findUnmarked, Option.map_eq_none_iff, List.findIdx?_eq_none_iff] at h
  have hmem : sd ∈ states.drop 1 := by
    apply List.mem_of_getElem? (i := i - 1)
    rw [List.getElem?_drop, Nat.add_comm, Nat.sub_add_cancel h1, hsd]
  simpa using h sd hmem

theorem buildStates_spec {L : List Leaf} (hL : (L.map Leaf.address).Nodup) {followPos : FollowPos}
    (hfollow : ∀ i, IsSet L (followPos i)) {lastInputSymbol : Nat} {first : List Leaf} :
    ∀ {fuel t m : Nat} {states : List RBBIStateDescriptor},
    Building L followPos lastInputSymbol first t (lastInputSymbol + 1) states → 1 ≤ m →
    (∀ i, 1 ≤ i → i < m → ∃ sd, states[i]? = some sd ∧ sd.fMarked = true) →
    2 ^ L.length < fuel + m →
    ∃ states' t', buildStates followPos lastInputSymbol fuel states = some states' ∧
      Building L followPos lastInputSymbol first t' (lastInputSymbol + 1) states' ∧
      ∀ (i : Nat) (sd : RBBIStateDescriptor), 1 ≤ i → states'[i]? = some sd → sd.fMarked =
      true := by
  intro fuel
  induction fuel with
  | zero =>
    -- there are more marked states than sets of positions
    intro t m states h h1 hmarked hlt
    have hlength := h.length_le hL
    have hstart := (List.getElem?_eq_some_iff.mp h.start).1
    rw [List.length_map] at hstart
    obtain ⟨sd, hsd, -⟩ := hmarked (m - 1) (by omega) (by omega)
    have := (List.getElem?_eq_some_iff.mp hsd).1
    omega
  | succ fuel ih =>
    intro t m states h h1 hmarked hlt
    rw [buildStates]
    cases hfind : findUnmarked states with
    | none => exact ⟨states, t, rfl, h, fun i sd h1 hsd => findUnmarked_none hfind h1 hsd⟩
    | some tx =>
      obtain ⟨htx, ⟨T, hT, hunmarked⟩, hbefore⟩ := findUnmarked_some hfind
      obtain ⟨hnext, hextends⟩ := processState_building hL hfollow h rfl hT hunmarked
      have hm : m ≤ tx := by
        by_contra hcon
        obtain ⟨sd, hsd, htrue⟩ := hmarked tx htx (by omega)
        rw [hT, Option.some.injEq] at hsd
        rw [hsd, htrue] at hunmarked
        contradiction
      refine ih hnext (show 1 ≤ tx + 1 by omega) (fun i h1 hi => ?_) (by omega)
      by_cases heq : i = tx
      · obtain ⟨T', hT', hm', -⟩ := hextends tx { T with fMarked := true } (by
          rw [List.getElem?_modify_eq, hT]
          rfl)
        exact ⟨T', heq ▸ hT', hm'⟩
      · obtain ⟨sd, hsd, htrue⟩ := hbefore i h1 (by omega)
        obtain ⟨sd', hsd', hm', -⟩ := hextends i sd (by
          rw [List.getElem?_modify_ne _ _ (fun hcon => heq hcon.symm), hsd])
        exact ⟨sd', hsd', hm'.trans htrue⟩

end Icu.Rbbi
