import Icu.Rbbi.HandleNext

/-! # The longest match

Without look-ahead the break engine returns the end of the longest match. A round has seen the
categories of a prefix of the text, and knows the longest match among its prefixes.
-/

namespace Icu.Rbbi

/-- `n` is the last number up to `k` with a property, or 0. -/
structure IsLast (P : Nat → Prop) (k n : Nat) : Prop where
  le : n ≤ k
  holds : n = 0 ∨ P n
  last : ∀ m, n < m → m ≤ k → ¬ P m

namespace IsLast

variable {P Q : Nat → Prop} {k n : Nat}

theorem zero (P : Nat → Prop) : IsLast P 0 0 := ⟨le_refl 0, .inl rfl, fun m _ _ => by omega⟩

theorem succ_of_holds (h : P (k + 1)) : IsLast P (k + 1) (k + 1) :=
  ⟨le_refl _, .inr h, fun m _ _ => by omega⟩

theorem succ_of_not (hlast : IsLast P k n) (h : ¬ P (k + 1)) : IsLast P (k + 1) n := by
  refine ⟨Nat.le_succ_of_le hlast.le, hlast.holds, fun m hm hle => ?_⟩
  rcases Nat.lt_or_eq_of_le hle with hlt | rfl
  · exact hlast.last m hm (Nat.le_of_lt_succ hlt)
  · exact h

theorem extend (hlast : IsLast P k n) {l : Nat} (hl : k ≤ l) (hsame : ∀ m, P m → Q m)
    (hno : ∀ m, m ≤ l → Q m → P m ∧ m ≤ k) : IsLast Q l n := by
  refine ⟨le_trans hlast.le hl, hlast.holds.imp_right (hsame n), fun m hm hle hQ => ?_⟩
  obtain ⟨hP, hmk⟩ := hno m hle hQ
  exact hlast.last m hm hmk hP

end IsLast

namespace UText

variable {text : UText} {p q : Nat}

theorem nativeIndexAt_succ {position : Nat} (h : position < text.chars.length) :
    text.nativeIndexAt (position + 1) =
      text.nativeIndexAt position + text.chars[position].units := by
  rw [nativeIndexAt, nativeIndexAt, List.take_succ_eq_append_getElem h, List.map_append,
    List.sum_append, List.map_singleton, List.sum_singleton]

theorem nativeIndexAt_mono (h : p ≤ q) : text.nativeIndexAt p ≤ text.nativeIndexAt q := by
  obtain ⟨d, rfl⟩ := Nat.exists_eq_add_of_le h
  rw [nativeIndexAt, nativeIndexAt, List.take_add, List.map_append, List.sum_append]
  exact Nat.le_add_right _ _

theorem nativeIndexAt_lt {p q : Nat} (h : p < q) (hq : q ≤ text.chars.length) :
    text.nativeIndexAt p < text.nativeIndexAt q := by
  have hp : p < text.chars.length := by omega
  have hstep := nativeIndexAt_succ hp
  have hpos := (text.chars[p]).pos
  have hmono : text.nativeIndexAt (p + 1) ≤ text.nativeIndexAt q := nativeIndexAt_mono h
  omega

theorem nativeIndexAt_inj (hp : p ≤ text.chars.length) (hq : q ≤ text.chars.length) :
    text.nativeIndexAt p = text.nativeIndexAt q ↔ p = q := by
  refine ⟨fun h => ?_, fun h => by rw [h]⟩
  rcases Nat.lt_trichotomy p q with hlt | heq | hlt
  · have := nativeIndexAt_lt hlt hq
    omega
  · exact heq
  · have := nativeIndexAt_lt hlt hp
    omega

theorem countP_lt_range (p n : Nat) :
    (List.range n).countP (fun i => decide (i < p)) = min p n := by
  induction n with
  | zero => simp
  | succ n ih =>
    rw [List.range_succ, List.countP_append, ih, List.countP_singleton]
    split
    · next h =>
      rw [decide_eq_true_eq] at h
      omega
    · next h =>
      rw [decide_eq_true_eq] at h
      omega

theorem setNativeIndex_nativeIndexAt (hp : p ≤ text.chars.length) :
    text.setNativeIndex (text.nativeIndexAt p) = { text with position := p } := by
  have hiff : ∀ i ∈ List.range text.chars.length,
      decide (text.nativeIndexAt (i + 1) ≤ text.nativeIndexAt p) = decide (i < p) := by
    intro i hi
    rw [List.mem_range] at hi
    rw [decide_eq_decide]
    constructor
    · intro hle
      by_contra hcon
      have := @nativeIndexAt_lt text p (i + 1) (by omega) (by omega)
      omega
    · exact fun hlt => nativeIndexAt_mono hlt
  rw [setNativeIndex, List.countP_congr fun i hi => by rw [hiff i hi], countP_lt_range,
    Nat.min_eq_left hp]

theorem next32_eq (h : text.position ≤ text.chars.length) : text.next32 =
    (text.chars[text.position]?.map TextChar.c,
      { text with position := min (text.position + 1) text.chars.length }) := by
  rw [next32]
  rcases Nat.lt_or_eq_of_le h with hlt | heq
  · rw [List.getElem?_eq_getElem hlt, Nat.min_eq_left hlt]
    rfl
  · rw [List.getElem?_eq_none (le_of_eq heq.symm), Nat.min_eq_right (by omega), ← heq]
    rfl

end UText

section

variable {states cats : Nat}

namespace RBBIStateTable

variable {w : List (Fin (cats + 3))} {statetable : RBBIStateTable states cats}

/-- Where state 0 does not accept, as in the tables that are built, a match never comes to it. -/
theorem matches_iff_accepts (hstop : (statetable.row 0).fAccepting ≠ -1) :
    statetable.Matches w ↔ statetable.Accepts w := by
  refine ⟨fun h => ⟨h.accepting, fun u hu hzero => ?_⟩,
    fun h => ⟨h.1, fun u hu _ => h.2 u hu⟩⟩
  by_cases hne : u = w
  · have haccepting := h.accepting
    rw [← hne, hzero] at haccepting
    exact hstop haccepting
  · exact h.running u hu hne hzero

theorem stateAfter_concat (w : List (Fin (cats + 3))) (a : Fin (cats + 3)) :
    statetable.stateAfter (w ++ [a]) =
      (statetable.row (statetable.stateAfter w)).fNextState a := by
  rw [stateAfter, List.foldl_concat, stateAfter]

theorem matches_concat_iff {a : Fin (cats + 3)}
    (hrunning : ∀ u, u <+: w → statetable.stateAfter u ≠ 0) : statetable.Matches (w ++ [a]) ↔
      (statetable.row (statetable.stateAfter (w ++ [a]))).fAccepting = -1 := by
  refine ⟨fun h => h.accepting, fun h => ⟨h, fun u hu hne => ?_⟩⟩
  exact hrunning u ((List.prefix_concat_iff.mp hu).resolve_left hne)

theorem not_matches_of_stop {v : List (Fin (cats + 3))} (hstop : statetable.stateAfter w = 0)
    (hextends : w <+: v) (hlt : w.length < v.length) : ¬ statetable.Matches v := by
  intro h
  refine h.running w hextends (fun heq => ?_) hstop
  rw [heq] at hlt
  exact lt_irrefl _ hlt

end RBBIStateTable

/-! ## Rounds -/

variable {statetable : RBBIStateTable states cats}

theorem transition_eq (hlook : ∀ state, (statetable.row state).fLookAhead = 0)
    (category : Fin (cats + 3)) (s : EngineState states) :
    ∃ fLastRuleStatusIndex lookaheadStatus, transition statetable category s = continueOn { s with
      state := (statetable.row s.state).fNextState category
      result :=
        if (statetable.row ((statetable.row s.state).fNextState category)).fAccepting = -1 ∧
          s.mode ≠ .start then s.fText.getNativeIndex else s.result
      fLastRuleStatusIndex := fLastRuleStatusIndex
      lookaheadStatus := lookaheadStatus } := by
  rw [transition]
  simp only [hlook, ne_eq, not_true_eq_false, if_false]
  by_cases haccepting :
      (statetable.row ((statetable.row s.state).fNextState category)).fAccepting = -1
  · simp only [haccepting, if_true, true_and]
    exact ⟨_, _, rfl⟩
  simp only [haccepting, if_false, false_and]
  split
  · exact ⟨_, _, rfl⟩
  · exact ⟨_, _, rfl⟩

/-- The state of the engine before it takes in the code point `k` of the text. -/
structure Running (statetable : RBBIStateTable states cats) (fData : RBBIDataWrapper cats)
    (text : UText) (before : List (Fin (cats + 3))) (k : Nat) (s : EngineState states) : Prop where
  mode : s.mode = .run
  c : s.c = text.chars[text.position + k]?.map TextChar.c
  fText : s.fText = { text with position := min (text.position + k + 1) text.chars.length }
  lookaheadResult : s.lookaheadResult = 0
  state : s.state = statetable.stateAfter (before ++ (text.categories fData).take k)
  running : ∀ u, u <+: before ++ (text.categories fData).take k → statetable.stateAfter u ≠ 0
  result : ∃ n, s.result = text.nativeIndexAt (text.position + n) ∧
    IsLast (fun m => statetable.Matches (before ++ (text.categories fData).take m)) k n

structure Stopped (statetable : RBBIStateTable states cats) (fData : RBBIDataWrapper cats)
    (text : UText) (before : List (Fin (cats + 3))) (s : EngineState states) : Prop where
  chars : s.fText.chars = text.chars
  result : ∃ n, s.result = text.nativeIndexAt (text.position + n) ∧
    IsLast (MatchesPrefix statetable.Matches before (text.categories fData))
      (text.categories fData).length n

section

variable {fData : RBBIDataWrapper cats} {text : UText} {before : List (Fin (cats + 3))} {k : Nat}
  {s : EngineState states}

theorem length_categories : (text.categories fData).length = text.chars.length - text.position := by
  rw [UText.categories, List.length_map, List.length_drop]

theorem take_succ_categories (hk : text.position + k < text.chars.length) :
    (text.categories fData).take (k + 1) =
      (text.categories fData).take k ++ [fData.category text.chars[text.position + k].c] := by
  have hlength : k < (text.categories fData).length := by
    rw [length_categories]
    omega
  rw [List.take_succ_eq_append_getElem hlength]
  simp [UText.categories]

theorem Running.isLast_succ (h : Running statetable fData text before k s)
    (hk : text.position + k < text.chars.length) :
    ∃ n, IsLast (fun m => statetable.Matches (before ++ (text.categories fData).take m)) (k + 1) n ∧
      text.nativeIndexAt (text.position + n) =
        if (statetable.row (statetable.stateAfter
          (before ++ (text.categories fData).take (k + 1)))).fAccepting = -1
        then text.nativeIndexAt (text.position + k + 1) else s.result := by
  obtain ⟨n, hresult, hlast⟩ := h.result
  have hmatches : statetable.Matches (before ++ (text.categories fData).take (k + 1)) ↔
      (statetable.row (statetable.stateAfter
        (before ++ (text.categories fData).take (k + 1)))).fAccepting = -1 := by
    rw [take_succ_categories hk, ← List.append_assoc]
    exact RBBIStateTable.matches_concat_iff h.running
  split
  · next haccepting => exact ⟨k + 1, .succ_of_holds (hmatches.mpr haccepting), rfl⟩
  · next haccepting => exact ⟨n, hlast.succ_of_not fun hcon => haccepting (hmatches.mp hcon),
      hresult.symm⟩

theorem isLast_of_stop {n : Nat}
    (hlast : IsLast (fun m => statetable.Matches (before ++ (text.categories fData).take m)) k n)
    (hk : k ≤ (text.categories fData).length)
    (hstop : statetable.stateAfter (before ++ (text.categories fData).take k) = 0) :
    IsLast (MatchesPrefix statetable.Matches before (text.categories fData))
      (text.categories fData).length n := by
  refine hlast.extend hk (fun m => .inl) fun m hm hmatch => ?_
  rcases hmatch with hmatch | ⟨rfl, hmatch⟩
  · refine ⟨hmatch, ?_⟩
    by_contra hcon
    refine RBBIStateTable.not_matches_of_stop hstop ?_ ?_ hmatch
    · exact List.prefix_append_right_inj before |>.mpr (List.take_prefix_take_left (by omega))
    simp only [List.length_append, List.length_take]
    omega
  · refine absurd hmatch (RBBIStateTable.not_matches_of_stop hstop ?_ ?_)
    · rw [List.append_assoc]
      refine List.prefix_append_right_inj before |>.mpr ?_
      exact (List.take_prefix k _).trans (List.prefix_append _ _)
    · simp only [List.length_append, List.length_take, List.length_singleton]
      omega

theorem round_run {c : Nat} (hc : s.c = some c) (hmode : s.mode = .run) :
    ∃ fDictionaryCharCount, round statetable fData s = transition statetable (fData.category c)
      { s with fDictionaryCharCount := fDictionaryCharCount } := by
  cases s
  subst hc hmode
  by_cases hflag : fData.fTrie c &&& 0x4000 ≠ 0
  · exact ⟨_, congrArg (transition statetable (fData.category c)) (if_pos hflag)⟩
  · exact ⟨_, congrArg (transition statetable (fData.category c)) (if_neg hflag)⟩

theorem Running.round (h : Running statetable fData text before k s)
    (hlook : ∀ state, (statetable.row state).fLookAhead = 0)
    (hk : text.position + k < text.chars.length) : (∃ s', Rbbi.round statetable fData s = .next s' ∧
        Running statetable fData text before (k + 1) s') ∨
      ∃ s', Rbbi.round statetable fData s = .stop s' ∧ Stopped statetable fData text before s' := by
  have hc := h.c
  rw [List.getElem?_eq_getElem hk, Option.map_some] at hc
  have hnext : (statetable.row s.state).fNextState
      (fData.category text.chars[text.position + k].c) =
      statetable.stateAfter (before ++ (text.categories fData).take (k + 1)) := by
    rw [h.state, take_succ_categories hk, ← List.append_assoc,
      RBBIStateTable.stateAfter_concat]
  have hindex : s.fText.getNativeIndex = text.nativeIndexAt (text.position + k + 1) := by
    rw [h.fText, Nat.min_eq_left (by omega)]
    rfl
  have hmode : s.mode ≠ .start := by
    rw [h.mode]
    decide
  obtain ⟨n, hlast, hresult⟩ := h.isLast_succ hk
  obtain ⟨count, hround⟩ := @round_run states cats statetable fData s _ hc h.mode
  obtain ⟨tag, status, htransition⟩ := transition_eq hlook
    (fData.category text.chars[text.position + k].c) { s with fDictionaryCharCount := count }
  rw [hround, htransition]
  rw [hnext, continueOn]
  simp only [hmode, ne_eq, not_false_eq_true, and_true, hindex, ← hresult]
  by_cases hstop : statetable.stateAfter (before ++ (text.categories fData).take (k + 1)) = 0
  · rw [if_pos hstop]
    refine .inr ⟨_, rfl, by rw [h.fText], n, rfl, ?_⟩
    have hlength := @length_categories cats fData text
    exact isLast_of_stop hlast (by omega) hstop
  rw [if_neg hstop, h.mode]
  have hnext32 := @UText.next32_eq s.fText (by rw [h.fText]; exact Nat.min_le_right _ _)
  rw [h.fText, Nat.min_eq_left (by omega)] at hnext32
  refine .inl ⟨_, rfl, rfl, ?_, ?_, h.lookaheadResult, rfl, ?_, n, rfl, hlast⟩
  · dsimp only
    rw [h.fText, Nat.min_eq_left (by omega), hnext32]
    rfl
  · dsimp only
    rw [h.fText, Nat.min_eq_left (by omega), hnext32]
    rfl
  · intro u hu
    rw [take_succ_categories hk, ← List.append_assoc] at hu
    rcases List.prefix_concat_iff.mp hu with rfl | hu
    · rwa [List.append_assoc, ← take_succ_categories hk]
    · exact h.running u hu

theorem Running.round_end (h : Running statetable fData text before k s)
    (hlook : ∀ state, (statetable.row state).fLookAhead = 0)
    (hk : text.position + k = text.chars.length) :
    ∃ s', Stopped statetable fData text before s' ∧ (Rbbi.round statetable fData s = .stop s' ∨
      Rbbi.round statetable fData s = .next s' ∧ Rbbi.round statetable fData s' = .stop s') := by
  have hlength := @length_categories cats fData text
  obtain rfl : k = (text.categories fData).length := by omega
  have hc : s.c = none := by rw [h.c, List.getElem?_eq_none (by omega), Option.map_none]
  have hround : Rbbi.round statetable fData s = transition statetable 1 { s with mode :=
    .atEnd } := by
    rw [Rbbi.round, hc, h.mode]
  obtain ⟨tag, status, htransition⟩ := transition_eq hlook 1 { s with mode := .atEnd }
  have hstate := h.state
  have hrunning := h.running
  rw [List.take_of_length_le (le_refl _)] at hstate hrunning
  have hnext : (statetable.row s.state).fNextState 1 =
      statetable.stateAfter (before ++ text.categories fData ++ [1]) := by
    rw [hstate, RBBIStateTable.stateAfter_concat]
  have hindex : s.fText.getNativeIndex =
      text.nativeIndexAt (text.position + (text.categories fData).length) := by
    rw [h.fText, Nat.min_eq_right (by omega), hk]
    rfl
  obtain ⟨n, hresult, hlast⟩ := h.result
  have hmatches := RBBIStateTable.matches_concat_iff (a := 1) hrunning
  obtain ⟨n, hlast, hresult⟩ : ∃ n, IsLast (MatchesPrefix statetable.Matches before
      (text.categories fData)) (text.categories fData).length n ∧
      text.nativeIndexAt (text.position + n) =
        if (statetable.row (statetable.stateAfter
          (before ++ text.categories fData ++ [1]))).fAccepting = -1
        then text.nativeIndexAt (text.position + (text.categories fData).length) else s.result := by
    split
    · next haccepting =>
      exact ⟨_, ⟨le_refl _, .inr (.inr ⟨rfl, hmatches.mpr haccepting⟩), fun m _ _ => by omega⟩, rfl⟩
    · next haccepting =>
      refine ⟨n, hlast.extend (le_refl _) (fun m => .inl) fun m hm hmatch => ⟨?_, hm⟩, hresult.symm⟩
      exact hmatch.resolve_right fun hcon => haccepting (hmatches.mp hcon.2)
  rw [hround, htransition]
  rw [hnext, continueOn]
  simp only [ne_eq, reduceCtorEq, not_false_eq_true, and_true, hindex, ← hresult]
  have hstopped : ∀ s' : EngineState states, s'.fText = s.fText →
      s'.result = text.nativeIndexAt (text.position + n) →
      Stopped statetable fData text before s' := by
    intro s' hfText hresult'
    exact ⟨by rw [hfText, h.fText], n, hresult', hlast⟩
  by_cases hstop : statetable.stateAfter (before ++ text.categories fData ++ [1]) = 0
  · refine ⟨_, ?_, .inl (if_pos hstop)⟩
    exact hstopped _ rfl rfl
  refine ⟨_, ?_, .inr ⟨if_neg hstop, ?_⟩⟩
  · exact hstopped _ rfl rfl
  rw [Rbbi.round]
  simp only [hc, h.lookaheadResult]
  rfl

theorem Running.runEngine (hlook : ∀ state, (statetable.row state).fLookAhead = 0) (d : Nat)
    (h : Running statetable fData text before k s)
    (hd : text.position + k + d = text.chars.length) :
    ∃ s', Stopped statetable fData text before s' ∧
      ∀ fuel, d + 2 ≤ fuel → Rbbi.runEngine statetable fData fuel s = some (s', false) := by
  induction d generalizing k s with
  | zero =>
    obtain ⟨s', hstopped, hround | ⟨hround, hround'⟩⟩ := h.round_end hlook hd
    · refine ⟨s', hstopped, fun fuel hfuel => ?_⟩
      obtain ⟨fuel, rfl⟩ := Nat.exists_eq_add_of_le' hfuel
      rw [Rbbi.runEngine, hround]
    refine ⟨s', hstopped, fun fuel hfuel => ?_⟩
    obtain ⟨fuel, rfl⟩ := Nat.exists_eq_add_of_le' hfuel
    rw [Rbbi.runEngine, hround]
    dsimp only
    rw [Rbbi.runEngine, hround']
  | succ d ih =>
    rcases h.round hlook (by omega) with ⟨s', hround, hrunning⟩ | ⟨s', hround, hstopped⟩
    · obtain ⟨s'', hstopped, hrun⟩ := ih hrunning (by omega)
      refine ⟨s'', hstopped, fun fuel hfuel => ?_⟩
      obtain ⟨fuel, rfl⟩ := Nat.exists_eq_add_of_le' hfuel
      rw [show fuel + (d + 1 + 2) = fuel + (d + 2) + 1 from rfl, Rbbi.runEngine, hround]
      exact hrun _ (Nat.le_add_left _ _)
    · refine ⟨s', hstopped, fun fuel hfuel => ?_⟩
      obtain ⟨fuel, rfl⟩ := Nat.exists_eq_add_of_le' hfuel
      rw [show fuel + (d + 1 + 2) = fuel + (d + 2) + 1 from rfl, Rbbi.runEngine, hround]

theorem round_start (hlook : ∀ state, (statetable.row state).fLookAhead = 0)
    (hposition : text.position < text.chars.length) {c : Nat}
    (hc : text.chars[text.position]?.map TextChar.c = some c)
    (hfText : s.fText = { text with position := text.position + 1 }) (hstate : s.state = 1)
    (hmode : s.mode = .start) (hsc : s.c = some c) (hlookahead : s.lookaheadResult = 0)
    (hresult : s.result = text.nativeIndexAt text.position) :
    (∃ s', round statetable fData s = .next s' ∧ Running statetable fData text [2] 0 s') ∨
      ∃ s', round statetable fData s = .stop s' ∧ Stopped statetable fData text [2] s' := by
  have hround : round statetable fData s = transition statetable 2 s := by
    rw [round, hsc, hmode]
  obtain ⟨tag, status, htransition⟩ := transition_eq hlook 2 s
  have hnext : (statetable.row s.state).fNextState 2 = statetable.stateAfter [2] := by
    rw [hstate]
    rfl
  have hlast : IsLast (fun m => statetable.Matches ([2] ++ (text.categories fData).take m)) 0 0 :=
    .zero _
  rw [hround, htransition, hnext, continueOn]
  simp only [hmode, ne_eq, not_true_eq_false, and_false, if_false]
  by_cases hstop : statetable.stateAfter [2] = 0
  · rw [if_pos hstop]
    refine .inr ⟨_, rfl, by rw [hfText], 0, hresult, ?_⟩
    exact isLast_of_stop hlast (Nat.zero_le _) hstop
  rw [if_neg hstop]
  refine .inl ⟨_, rfl, rfl, ?_, ?_, hlookahead, rfl, ?_, 0, hresult, hlast⟩
  · exact hsc.trans hc.symm
  · refine hfText.trans ?_
    rw [Nat.min_eq_left (by omega)]
  · intro u hu
    rcases (@List.prefix_concat_iff _ u [] 2).mp hu with rfl | hu
    · exact hstop
    rw [List.prefix_nil.mp hu, RBBIStateTable.stateAfter]
    exact Fin.zero_ne_one.symm

theorem Stopped.finish (h : Stopped statetable fData text before s)
    (hposition : text.position < text.chars.length) : ∃ n,
    IsLast (MatchesPrefix statetable.Matches before (text.categories fData))
      (text.categories fData).length n ∧
    (finish (text.nativeIndexAt text.position) s).result =
      text.nativeIndexAt (text.position + max n 1) ∧
    (finish (text.nativeIndexAt text.position) s).fText =
      { text with position := text.position + max n 1 } := by
  obtain ⟨n, hresult, hlast⟩ := h.result
  have hle := hlast.le
  rw [length_categories] at hle
  have hset : ∀ p ≤ text.chars.length,
      s.fText.setNativeIndex (text.nativeIndexAt p) = { text with position := p } := by
    intro p hp
    have htext : s.fText = { text with position := s.fText.position } := by rw [← h.chars]
    rw [htext]
    exact UText.setNativeIndex_nativeIndexAt hp
  refine ⟨n, hlast, ?_⟩
  rw [Rbbi.finish]
  by_cases hn : n = 0
  · subst hn
    rw [Nat.add_zero] at hresult
    rw [if_pos hresult, hset _ (le_of_lt hposition), UText.next32_eq (le_of_lt hposition)]
    rw [Nat.min_eq_left hposition]
    refine ⟨rfl, ?_⟩
    exact UText.setNativeIndex_nativeIndexAt hposition
  have hne : s.result ≠ text.nativeIndexAt text.position := by
    rw [hresult, Ne, UText.nativeIndexAt_inj (by omega) (by omega)]
    omega
  rw [if_neg hne, Nat.max_eq_left (Nat.pos_of_ne_zero hn)]
  refine ⟨hresult, ?_⟩
  rw [hresult]
  exact hset _ (by omega)

end

/-- Before the end of the text, `handleNext` returns the end of the longest match, or the next code
point boundary if there is none, and leaves the iterator there. -/
theorem handleNext_longest (hlook : ∀ state, (statetable.row state).fLookAhead = 0)
    {iter : RuleBasedBreakIterator cats} {fData : RBBIDataWrapper cats}
    (hdata : iter.fData = some fData) (hposition : iter.fText.position < iter.fText.chars.length) :
    ∃ n iter', IsLast (MatchesPrefix statetable.Matches
        (if statetable.fFlags &&& rbbiBofRequired ≠ 0 then [2] else [])
        (iter.fText.categories fData)) (iter.fText.categories fData).length n ∧
      iter'.fText = { iter.fText with position := iter.fText.position + max n 1 } ∧
      ∀ fuel, iter.fText.chars.length - iter.fText.position + 3 ≤ fuel →
        handleNext fuel statetable iter =
          some (some (iter.fText.nativeIndexAt (iter.fText.position + max n 1)), iter') := by
  have hnext32 : iter.fText.next32 = (some iter.fText.chars[iter.fText.position].c,
      { iter.fText with position := iter.fText.position + 1 }) := by
    rw [UText.next32_eq (le_of_lt hposition), List.getElem?_eq_getElem hposition,
      Nat.min_eq_left hposition]
    rfl
  have hc : iter.fText.chars[iter.fText.position]?.map TextChar.c =
      some iter.fText.chars[iter.fText.position].c := by
    rw [List.getElem?_eq_getElem hposition, Option.map_some]
  let first : EngineState states :=
    { fText := { iter.fText with position := iter.fText.position + 1 }
      state := 1
      mode := if statetable.fFlags &&& rbbiBofRequired ≠ 0 then .start else .run
      c := some iter.fText.chars[iter.fText.position].c
      lookaheadStatus := 0
      lookaheadTagIdx := 0
      lookaheadResult := 0
      result := iter.fText.getNativeIndex
      fLastRuleStatusIndex := 0
      fDictionaryCharCount := iter.fDictionaryCharCount }
  have hrun : ∃ s, Stopped statetable fData iter.fText
      (if statetable.fFlags &&& rbbiBofRequired ≠ 0 then [2] else []) s ∧
      ∀ fuel, iter.fText.chars.length - iter.fText.position + 3 ≤ fuel →
        runEngine statetable fData fuel first = some (s, false) := by
    by_cases hbof : statetable.fFlags &&& rbbiBofRequired ≠ 0
    · rw [if_pos hbof]
      rcases @round_start states cats statetable fData iter.fText first hlook hposition _ hc rfl rfl
        (if_pos hbof) rfl rfl rfl with ⟨s, hround, hrunning⟩ | ⟨s, hround, hstopped⟩
      · obtain ⟨s', hstopped, hrun⟩ := hrunning.runEngine hlook
          (iter.fText.chars.length - iter.fText.position) (by omega)
        refine ⟨s', hstopped, fun fuel hfuel => ?_⟩
        obtain ⟨fuel, rfl⟩ := Nat.exists_eq_add_of_le' hfuel
        rw [← Nat.add_assoc, runEngine, hround]
        exact hrun _ (by omega)
      · refine ⟨s, hstopped, fun fuel hfuel => ?_⟩
        obtain ⟨fuel, rfl⟩ := Nat.exists_eq_add_of_le' hfuel
        rw [← Nat.add_assoc, runEngine, hround]
    · rw [if_neg hbof]
      have hrunning : Running statetable fData iter.fText [] 0 first := by
        refine ⟨if_neg hbof, hc.symm, ?_, rfl, rfl, ?_, 0, rfl, .zero _⟩
        · rw [Nat.min_eq_left (by omega)]
        intro u hu
        rw [List.prefix_nil.mp hu, RBBIStateTable.stateAfter]
        exact Fin.zero_ne_one.symm
      obtain ⟨s', hstopped, hrun⟩ := hrunning.runEngine hlook
        (iter.fText.chars.length - iter.fText.position) (by omega)
      exact ⟨s', hstopped, fun fuel hfuel => hrun fuel (by omega)⟩
  obtain ⟨s, hstopped, hrun⟩ := hrun
  obtain ⟨n, hlast, hresult, hfText⟩ := hstopped.finish hposition
  refine ⟨n, { iter with
    fText := (finish iter.fText.getNativeIndex s).fText
    fLastStatusIndexValid := true
    fLastRuleStatusIndex := (finish iter.fText.getNativeIndex s).fLastRuleStatusIndex
    fDictionaryCharCount := (finish iter.fText.getNativeIndex s).fDictionaryCharCount },
    hlast, hfText, fun fuel hfuel => ?_⟩
  rw [handleNext]
  simp only [hdata, hnext32]
  rw [← hresult]
  change Option.map _ (runEngine statetable fData fuel first) = _
  rw [hrun fuel hfuel]
  rfl

end

/-- Two characters of category 3 lead to state 0, which accepts. -/
def acceptingStopTable : RBBIStateTable 1 1 where
  fFlags := 0
  row state :=
    { fAccepting := if state = 0 then -1 else 0
      fLookAhead := 0
      fTagIdx := 0
      fNextState := fun category => if state = 1 ∧ category = 3 then 2 else 0 }

def letterData : RBBIDataWrapper 1 where
  fTrie _ := 3
  valid _ := by decide

def twoLetters : RuleBasedBreakIterator 1 where
  fText := ⟨[⟨0x61, 1, by decide⟩, ⟨0x62, 1, by decide⟩], 0⟩
  fData := some letterData
  fLastStatusIndexValid := false
  fLastRuleStatusIndex := 0
  fDictionaryCharCount := 0

theorem handleNext_longest_two_letters : ∃ n iter', IsLast (MatchesPrefix acceptingStopTable.Matches
        (if acceptingStopTable.fFlags &&& rbbiBofRequired ≠ 0 then [2] else [])
        (twoLetters.fText.categories letterData)) (twoLetters.fText.categories letterData).length
          n ∧
      iter'.fText = { twoLetters.fText with position := twoLetters.fText.position + max n 1 } ∧
      ∀ fuel, twoLetters.fText.chars.length - twoLetters.fText.position + 3 ≤ fuel →
        handleNext fuel acceptingStopTable twoLetters = some (some
          (twoLetters.fText.nativeIndexAt (twoLetters.fText.position + max n 1)), iter') :=
  handleNext_longest (fun _ => rfl) rfl (by decide)

/-- The result is behind the second character, although each string of categories leads to state 0
when it leads to an accepting state. -/
theorem stop_state_recorded : (∀ state, (acceptingStopTable.row state).fLookAhead = 0 ∧
      ((acceptingStopTable.row state).fAccepting = 0 ∨
        (acceptingStopTable.row state).fAccepting = -1)) ∧
    (handleNext 5 acceptingStopTable twoLetters).map (fun r => r.1) =
      some (some (twoLetters.fText.nativeIndexAt 2)) ∧
    twoLetters.fText.nativeIndexAt 1 ≠ twoLetters.fText.nativeIndexAt 2 ∧
    ∀ m, ¬ MatchesPrefix acceptingStopTable.Accepts []
      (twoLetters.fText.categories letterData) m := by
  have hnone : ∀ w, ¬ acceptingStopTable.Accepts w := by
    rintro w ⟨haccepting, hrunning⟩
    have hrow : (if acceptingStopTable.stateAfter w = 0 then (-1 : Int) else 0) = -1 := haccepting
    rw [if_neg (hrunning w (List.prefix_refl w))] at hrow
    contradiction
  refine ⟨by decide, by decide, by decide, ?_⟩
  rintro m (h | ⟨-, h⟩)
  · exact hnone _ h
  · exact hnone _ h

end Icu.Rbbi
