import Icu.BiDi.Explicit

/-! # What the explicit levels are

What the loop of `resolveExplicitLevels` leaves at each character, whatever the brackets do, and the
stack that decides it.
-/

namespace Icu.BiDi

variable {level j entry : Nat} {dirProp left : DirProp}

/-! ## What the loop leaves -/

/-- The variables before the character at `i`. -/
def stateAt (o : UBiDi) : Nat → ExplicitState
  | 0 => .init (o.getParaLevel 0)
  | i + 1 => (stateAt o i).next o (o.dirPropAt i) i

/-- The class and the level that are left at `i`, where the class was `dirProp`. -/
def CharLeft (o : UBiDi) (i : Nat) (dirProp left : DirProp) (level : Nat) : Prop :=
  let s := stateAt o i
  match dirProp with
  | .LRE | .RLE | .LRO | .RLO | .PDF | .BN => level = s.previousLevel ∧ left = dirProp
  | .LRI | .RLI => level = noOverride s.embeddingLevel ∧
      left = if s.fits (dirProp == DirProp.RLI) then dirProp else .WS
  | .PDI => level = noOverride (s.popIsolate i).embeddingLevel ∧
      left = if s.overflowIsolateCount > 0 ∨ s.validIsolateCount = 0 then .WS else .PDI
  | .B => level = o.getParaLevel i ∧ left = .B
  | _ => noOverride level = noOverride s.embeddingLevel ∧ Brackets.isOrdinary left = true

/-- The characters before `i` that brackets may change. -/
def Ordinary (o : UBiDi) (i j : Nat) : Prop := j < i ∧ Brackets.isOrdinary (o.dirPropAt j) = true

theorem charLeft_ordinary {o : UBiDi} {i : Nat}
    (h : Brackets.isOrdinary dirProp = true) : CharLeft o i dirProp left level ↔
      noOverride level = noOverride (stateAt o i).embeddingLevel ∧ Brackets.isOrdinary left =
      true := by
  cases dirProp <;> first | exact Iff.rfl | cases h

namespace Brackets

variable {b : Brackets} {ok ok' : Nat → Prop} {made : Nat}

theorem Sound.imp (h : Sound ok made b) (himp : ∀ i, ok i → ok' i) : Sound ok' made b :=
  ⟨fun k hk => ⟨himp _ (h.openings k hk).position, fun hneg =>
    himp _ ((h.openings k hk).closing hneg),
    (h.openings k hk).contextDir⟩, h.runs⟩

theorem dirPropAt_setDirProp {i : Nat} (h : b.dirPropAt i ≠ .L) :
    (b.setDirProp i dirProp).dirPropAt i = dirProp := by
  unfold setDirProp dirPropAt at *
  rw [getD_set]
  by_cases hi : i < b.dirProps.length
  · rw [if_pos ⟨rfl, hi⟩]
  rw [List.getD_eq_default _ _ (Nat.not_lt.mp hi)] at h
  exact absurd rfl h

theorem dirPropAt_setDirProp_ne {i : Nat} (h : i ≠ j) :
    (b.setDirProp i dirProp).dirPropAt j = b.dirPropAt j := by
  unfold setDirProp dirPropAt
  rw [getD_set, if_neg fun hboth => h hboth.1]

theorem levelAt_set {i : Nat} (h : i < b.levels.length) :
    ({ b with levels := b.levels.set i level } : Brackets).levelAt i = level := by
  unfold levelAt
  rw [getD_set, if_pos ⟨rfl, h⟩]

theorem levelAt_set_ne {i : Nat} (h : i ≠ j) :
    ({ b with levels := b.levels.set i level } : Brackets).levelAt j = b.levelAt j := by
  unfold levelAt
  rw [getD_set, if_neg fun hboth => h hboth.1]

end Brackets

/-- What was left is not changed by brackets. -/
theorem CharLeft.keeps {o : UBiDi} {i : Nat} {b b' : Brackets}
    (h : Brackets.Keeps (Ordinary o i) b b')
    (hleft : CharLeft o j (o.dirPropAt j) (b.dirPropAt j) (b.levelAt j)) :
    CharLeft o j (o.dirPropAt j) (b'.dirPropAt j) (b'.levelAt j) := by
  by_cases hordinary : Brackets.isOrdinary (o.dirPropAt j) = true
  · rw [charLeft_ordinary hordinary] at hleft ⊢
    constructor
    · cases h.levels j with
      | inl hsame =>
        rw [hsame]
        exact hleft.1
      | inr hchange => exact hchange.2.trans hleft.1
    · cases h.dirProps j with
      | inl hsame =>
        rw [hsame]
        exact hleft.2
      | inr hchange => exact hchange.2
  · have hdir : b'.dirPropAt j = b.dirPropAt j := by
      cases h.dirProps j with
      | inl hsame => exact hsame
      | inr hchange => exact absurd hchange.1.2 hordinary
    have hlevel : b'.levelAt j = b.levelAt j := by
      cases h.levels j with
      | inl hsame => exact hsame
      | inr hchange => exact absurd hchange.1.2 hordinary
    rw [hdir, hlevel]
    exact hleft

/-- Characters that were not read are not changed by brackets. -/
theorem dirPropAt_keeps {o : UBiDi} {i : Nat} {b b' : Brackets}
    (h : Brackets.Keeps (Ordinary o i) b b')
    (hj : i ≤ j) : b'.dirPropAt j = b.dirPropAt j := by
  cases h.dirProps j with
  | inl hsame => exact hsame
  | inr hchange => exact absurd hchange.1.1 (Nat.not_lt.mpr hj)

/-- The characters before `i` are done, and nothing was done to those behind it. -/
structure Reading (o : UBiDi) (i : Nat) (b : Brackets) : Prop where
  size : b.levels.length = o.length
  ahead : ∀ j, i < j → b.dirPropAt j = o.dirPropAt j
  behind : ∀ j < i, CharLeft o j (o.dirPropAt j) (b.dirPropAt j) (b.levelAt j)
  sound : ∃ made, Brackets.Sound (Ordinary o i) made b

/-- Nothing was done to the character at `i`. -/
structure Read (o : UBiDi) (i : Nat) (b : Brackets) : Prop extends Reading o i b where
  here : b.dirPropAt i = o.dirPropAt i

section

variable {settings : Settings} {o : UBiDi} {i : Nat} {b b' : Brackets}

theorem Reading.frames (h : Reading o i b) (hframes : Brackets.Frames (Ordinary o i) b b') :
    Reading o i b' ∧ b'.dirPropAt i = b.dirPropAt i ∧ b'.levelAt i = b.levelAt i := by
  obtain ⟨hsound, hkeeps⟩ := hframes h.sound
  refine ⟨⟨hkeeps.size.trans h.size, ?_, ?_, hsound⟩, dirPropAt_keeps hkeeps (Nat.le_refl i), ?_⟩
  · exact fun j hj => (dirPropAt_keeps hkeeps hj.le).trans (h.ahead j hj)
  · exact fun j hj => (h.behind j hj).keeps hkeeps
  · cases hkeeps.levels i with
    | inl hsame => exact hsame
    | inr hchange => exact absurd hchange.1.1 (Nat.lt_irrefl i)

theorem Reading.setLevel (h : Reading o i b) (level : Nat) :
    Reading o i { b with levels := b.levels.set i level } := by
  refine ⟨?_, h.ahead, ?_, ?_⟩
  · dsimp only
    rw [List.length_set]
    exact h.size
  · intro j hj
    rw [Brackets.levelAt_set_ne (Nat.ne_of_gt hj)]
    exact h.behind j hj
  · obtain ⟨made, hsound⟩ := h.sound
    exact ⟨made, hsound.openings, hsound.runs⟩

theorem Reading.setDirProp (h : Reading o i b) (dirProp : DirProp) :
    Reading o i (b.setDirProp i dirProp) := by
  refine ⟨h.size, ?_, ?_, ?_⟩
  · intro j hj
    rw [Brackets.dirPropAt_setDirProp_ne (Nat.ne_of_lt hj)]
    exact h.ahead j hj
  · intro j hj
    rw [Brackets.dirPropAt_setDirProp_ne (Nat.ne_of_gt hj)]
    exact h.behind j hj
  · obtain ⟨made, hsound⟩ := h.sound
    exact ⟨made, hsound.openings, hsound.runs⟩

theorem Reading.next (h : Reading o i b)
    (hleft : CharLeft o i (o.dirPropAt i) (b.dirPropAt i) (b.levelAt i)) : Read o (i + 1) b := by
  obtain ⟨made, hsound⟩ := h.sound
  refine ⟨⟨h.size, fun j hj => h.ahead j (by omega), ?_, made,
    hsound.imp fun j hj => ⟨by have := hj.1; omega, hj.2⟩⟩, h.ahead (i + 1) (Nat.lt_succ_self i)⟩
  intro j hj
  rcases Nat.lt_succ_iff_lt_or_eq.mp hj with hlt | heq
  · exact h.behind j hlt
  rw [heq]
  exact hleft

theorem Read.frames (h : Read o i b) (hframes : Brackets.Frames (Ordinary o i) b b') :
    Read o i b' := by
  obtain ⟨hreading, hhere, -⟩ := h.toReading.frames hframes
  exact ⟨hreading, hhere.trans h.here⟩

theorem charLeft_removed (h : dirProp.isBNExplicit = true) :
    CharLeft o i dirProp left level ↔ level = (stateAt o i).previousLevel ∧ left = dirProp := by
  cases dirProp <;> first | exact Iff.rfl | cases h

/-- The loop of the rules (X1) to (X8) before the character at `i`. -/
structure LoopInv (o : UBiDi) (i : Nat) (loop : ExplicitLoop) : Prop where
  state : loop.state = stateAt o i
  read : Read o i loop.brackets
  count : ∀ j ≤ i, (stateAt o j).validIsolateCount ≤ loop.isolateCount

variable {loop : ExplicitLoop}

theorem frames_boundary (loop : ExplicitLoop) (ok : Nat → Prop) :
    Brackets.Frames ok loop.brackets loop.processBoundary.brackets := by
  unfold ExplicitLoop.processBoundary
  split
  · exact Brackets.frames_processBoundary _ _ _
  · exact fun h => ⟨h, Brackets.Keeps.refl _⟩

theorem processBoundary_state : loop.processBoundary.state = loop.state := by
  unfold ExplicitLoop.processBoundary
  split
  · rfl
  · rfl

theorem processBoundary_isolateCount : loop.processBoundary.isolateCount = loop.isolateCount := by
  unfold ExplicitLoop.processBoundary
  split
  · rfl
  · rfl

theorem LoopInv.count_succ {n : Nat} (h : LoopInv o i loop) (hle : loop.isolateCount ≤ n)
    (hnext : (stateAt o (i + 1)).validIsolateCount ≤ n) :
    ∀ j ≤ i + 1, (stateAt o j).validIsolateCount ≤ n := by
  intro j hj
  rcases Nat.le_succ_iff.mp hj with hle' | heq
  · exact (h.count j hle').trans hle
  rw [heq]
  exact hnext

theorem dirProp_kinds (dirProp : DirProp) : dirProp.isBNExplicit = true ∨
    (dirProp = .LRI ∨ dirProp = .RLI) ∨ dirProp = .PDI ∨ dirProp = .B ∨
      Brackets.isOrdinary dirProp = true := by
  cases dirProp <;> decide

theorem step_removed (h : (loop.brackets.dirPropAt i).isBNExplicit = true) :
    loop.step settings o i =
    { (loop.setLevel i loop.state.previousLevel).addFlags [.BN] with
      state := loop.state.next o (loop.brackets.dirPropAt i) i } := by
  unfold ExplicitLoop.step
  cases hdir : loop.brackets.dirPropAt i <;> first | rfl | (rw [hdir] at h; cases h)

theorem step_ordinary (h : Brackets.isOrdinary (loop.brackets.dirPropAt i) = true) :
    (loop.step settings o i).state =
    { loop.state with previousLevel := loop.state.embeddingLevel } ∧
      (loop.step settings o i).isolateCount = loop.isolateCount ∧
      ∃ b, Brackets.Frames (Ordinary o i) loop.brackets b ∧ (loop.step settings o i).brackets =
        ({ b with levels := b.levels.set i loop.state.embeddingLevel } : Brackets).processChar
          settings (o.charAt i) i := by
  have hboundary : ∃ flags, (if loop.levelChanges = true then loop.processBoundary.addFlags
      [if isOverride loop.state.embeddingLevel = true then flagO loop.state.embeddingLevel
        else flagE loop.state.embeddingLevel] else loop) = loop.processBoundary.addFlags flags := by
    unfold ExplicitLoop.processBoundary
    by_cases hchange : loop.levelChanges = true
    · simp only [if_pos hchange]
      exact ⟨_, rfl⟩
    · simp only [if_neg hchange]
      exact ⟨[], rfl⟩
  obtain ⟨flags, hflags⟩ := hboundary
  have hstep : loop.step settings o i =
      (let l := (loop.processBoundary.addFlags flags).setLevel i loop.state.embeddingLevel
      let brackets := l.brackets.processChar settings (o.charAt i) i
      { l.addFlags [brackets.dirPropAt i] with
        state := { loop.state with previousLevel := loop.state.embeddingLevel }, brackets }) := by
    rw [← hflags]
    unfold ExplicitLoop.step
    cases hdir : loop.brackets.dirPropAt i <;> first | rfl | (rw [hdir] at h; cases h)
  rw [hstep]
  exact ⟨rfl, processBoundary_isolateCount, _, frames_boundary _ _, rfl⟩

theorem embed_valid (s : ExplicitState) (odd override : Bool) (i : Nat) :
    (s.embed odd override i).validIsolateCount = s.validIsolateCount := by
  unfold ExplicitState.embed
  split
  · rfl
  split
  · rfl
  · rfl

theorem popEmbedding_valid (s : ExplicitState) (i : Nat) :
    (s.popEmbedding i).validIsolateCount = s.validIsolateCount := by
  unfold ExplicitState.popEmbedding
  split
  · rfl
  split
  · rfl
  split
  · rfl
  · rfl

theorem next_removed_valid {s : ExplicitState} (h : dirProp.isBNExplicit = true) :
    (s.next o dirProp i).validIsolateCount = s.validIsolateCount := by
  cases dirProp <;> first
    | rfl
    | exact embed_valid s _ _ i
    | exact popEmbedding_valid s i
    | cases h

theorem LoopInv.step_removed (h : LoopInv o i loop) (hi : i < o.length)
    (hdir : (o.dirPropAt i).isBNExplicit = true) : LoopInv o (i + 1) (loop.step settings o i) := by
  have hhere := h.read.here
  have hsize := h.read.size
  rw [BiDi.step_removed (by rw [hhere]; exact hdir), hhere]
  refine ⟨congrArg (fun s => s.next o (o.dirPropAt i) i) h.state, ?_,
    h.count_succ (Nat.le_refl _) ?_⟩
  · refine (h.read.toReading.setLevel _).next ?_
    have hlevel : ((loop.setLevel i loop.state.previousLevel).addFlags [.BN]).brackets.levelAt i =
        (stateAt o i).previousLevel := by
      rw [← h.state]
      exact Brackets.levelAt_set (by omega)
    exact (charLeft_removed hdir).mpr ⟨hlevel, hhere⟩
  · change ((stateAt o i).next o (o.dirPropAt i) i).validIsolateCount ≤ loop.isolateCount
    rw [next_removed_valid hdir]
    exact h.count i (Nat.le_refl i)

theorem LoopInv.step_ordinary (h : LoopInv o i loop) (hi : i < o.length)
    (hdir : Brackets.isOrdinary (o.dirPropAt i) = true) :
    LoopInv o (i + 1) (loop.step settings o i) := by
  have hhere := h.read.here
  obtain ⟨hstate, hcount, b, hframes, hbrackets⟩ :=
    @BiDi.step_ordinary settings o i loop (by rw [hhere]; exact hdir)
  have hnext : (stateAt o i).next o (o.dirPropAt i) i =
      { stateAt o i with previousLevel := (stateAt o i).embeddingLevel } := by
    cases hkind : o.dirPropAt i <;> first | rfl | (rw [hkind] at hdir; cases hdir)
  obtain ⟨hreading, hdir', -⟩ := h.read.toReading.frames hframes
  have hsize := hreading.size
  refine ⟨?_, ?_, ?_⟩
  · rw [hstate, h.state]
    exact hnext.symm
  · rw [hbrackets]
    have hdone := (hreading.setLevel loop.state.embeddingLevel).next (by
      rw [charLeft_ordinary hdir, Brackets.levelAt_set (by omega), h.state]
      refine ⟨rfl, ?_⟩
      change Brackets.isOrdinary (b.dirPropAt i) = true
      rw [hdir', hhere]
      exact hdir)
    exact hdone.frames (Brackets.frames_processChar ⟨Nat.lt_succ_self i, hdir⟩)
  · rw [hcount]
    refine h.count_succ (Nat.le_refl _) ?_
    change ((stateAt o i).next o (o.dirPropAt i) i).validIsolateCount ≤ loop.isolateCount
    rw [hnext]
    exact h.count i (Nat.le_refl i)

theorem step_isolate (h : loop.brackets.dirPropAt i = .LRI ∨ loop.brackets.dirPropAt i = .RLI) :
    ∃ l : ExplicitLoop, l = ((loop.addFlags [.ON, .ofLevel loop.state.embeddingLevel]).setLevel i
        (noOverride loop.state.embeddingLevel)).processBoundary ∧ loop.step settings o i =
      if loop.state.fits (loop.brackets.dirPropAt i == DirProp.RLI) then
        { l.addFlags [loop.brackets.dirPropAt i] with
          state := loop.state.next o (loop.brackets.dirPropAt i) i
          isolateCount :=
            max l.isolateCount (loop.state.next o (loop.brackets.dirPropAt i) i).validIsolateCount
          brackets := l.brackets.processLRI_RLI
            (loop.state.next o (loop.brackets.dirPropAt i) i).embeddingLevel }
      else
        { l.setDirProp i .WS with state := loop.state.next o (loop.brackets.dirPropAt i) i } := by
  refine ⟨_, rfl, ?_⟩
  have hfits : ({ ((loop.addFlags [.ON, .ofLevel loop.state.embeddingLevel]).setLevel i
      (noOverride loop.state.embeddingLevel)).processBoundary.state with
        previousLevel := loop.state.embeddingLevel } : ExplicitState).fits
          (loop.brackets.dirPropAt i == DirProp.RLI) =
      loop.state.fits (loop.brackets.dirPropAt i == DirProp.RLI) := by
    rw [processBoundary_state]
    rfl
  rw [← hfits]
  unfold ExplicitLoop.step
  cases h with
  | inl h => rw [h]
  | inr h => rw [h]

theorem next_isolate {s : ExplicitState} (h : dirProp = .LRI ∨ dirProp = .RLI) :
    s.next o dirProp i = s.isolate (dirProp == DirProp.RLI) i := by
  cases h with
  | inl h => rw [h]; rfl
  | inr h => rw [h]; rfl

theorem charLeft_isolate (h : dirProp = .LRI ∨ dirProp = .RLI) :
    CharLeft o i dirProp left level ↔ level = noOverride (stateAt o i).embeddingLevel ∧
      left = if (stateAt o i).fits (dirProp == DirProp.RLI) then dirProp else .WS := by
  cases h with
  | inl h =>
    rw [h]
    exact Iff.rfl
  | inr h =>
    rw [h]
    exact Iff.rfl

theorem LoopInv.step_isolate (h : LoopInv o i loop) (hi : i < o.length)
    (hdir : o.dirPropAt i = .LRI ∨ o.dirPropAt i = .RLI) :
    LoopInv o (i + 1) (loop.step settings o i) := by
  have hhere := h.read.here
  obtain ⟨l, hl, hstep⟩ := @BiDi.step_isolate settings o i loop (by rw [hhere]; exact hdir)
  rw [hhere, h.state] at hstep
  rw [hstep]
  have hsize := h.read.size
  obtain ⟨hreading, hdir', hlevel⟩ := (h.read.toReading.setLevel
    (noOverride (stateAt o i).embeddingLevel)).frames (frames_boundary
      ((loop.addFlags [.ON, .ofLevel (stateAt o i).embeddingLevel]).setLevel i
        (noOverride (stateAt o i).embeddingLevel)) _)
  rw [Brackets.levelAt_set (by omega)] at hlevel
  have hcount : l.isolateCount = loop.isolateCount := by
    rw [hl]
    exact processBoundary_isolateCount
  rw [h.state] at hl
  rw [← hl] at hreading hdir' hlevel
  have hnext := next_isolate (o := o) (i := i) (s := stateAt o i) hdir
  by_cases hfits : (stateAt o i).fits (o.dirPropAt i == DirProp.RLI) = true
  · rw [if_pos hfits]
    refine ⟨rfl, ?_, ?_⟩
    · have hdone : Read o (i + 1) l.brackets := hreading.next (by
        rw [charLeft_isolate hdir, if_pos hfits]
        exact ⟨hlevel, hdir'.trans hhere⟩)
      exact hdone.frames (Brackets.frames_processLRI_RLI _)
    · refine h.count_succ ?_ (Nat.le_max_right _ _)
      rw [← hcount]
      exact Nat.le_max_left _ _
  rw [if_neg hfits]
  refine ⟨rfl, ?_, ?_⟩
  · refine (hreading.setDirProp .WS).next ?_
    rw [charLeft_isolate hdir, if_neg hfits]
    refine ⟨hlevel, Brackets.dirPropAt_setDirProp ?_⟩
    rw [hdir']
    change loop.brackets.dirPropAt i ≠ .L
    rw [hhere]
    cases hdir with
    | inl hdir => simp [hdir]
    | inr hdir => simp [hdir]
  · refine h.count_succ hcount.ge ?_
    change ((stateAt o i).next o (o.dirPropAt i) i).validIsolateCount ≤ l.isolateCount
    have hfits' : ¬ ({ stateAt o i with previousLevel := (stateAt o i).embeddingLevel } :
        ExplicitState).fits (o.dirPropAt i == DirProp.RLI) = true := hfits
    rw [hnext, hcount]
    unfold ExplicitState.isolate
    rw [if_neg hfits']
    exact h.count i (Nat.le_refl i)

theorem step_pdi (h : loop.brackets.dirPropAt i = .PDI) : loop.step settings o i =
    (let state := loop.state.popIsolate i
    let l := loop.processBoundary
    let l :=
      if loop.state.overflowIsolateCount > 0 then l.setDirProp i .WS
      else if loop.state.validIsolateCount > 0 then
        { l.addFlags [.PDI] with brackets := l.brackets.processPDI }
      else l.setDirProp i .WS
    { (l.addFlags [.ON, .ofLevel state.embeddingLevel]).setLevel i
        (noOverride state.embeddingLevel) with state }) := by
  unfold ExplicitLoop.step
  rw [h]
  dsimp only
  rw [processBoundary_state]
  rfl

theorem popIsolate_valid (s : ExplicitState) (i : Nat) :
    (s.popIsolate i).validIsolateCount ≤ s.validIsolateCount := by
  unfold ExplicitState.popIsolate
  split
  · exact Nat.le_refl _
  split
  · exact Nat.sub_le _ _
  · exact Nat.le_refl _

theorem LoopInv.step_pdi (h : LoopInv o i loop) (hi : i < o.length) (hdir : o.dirPropAt i = .PDI) :
    LoopInv o (i + 1) (loop.step settings o i) := by
  have hhere := h.read.here
  rw [BiDi.step_pdi (by rw [hhere]; exact hdir), h.state]
  obtain ⟨hreading, hdir', -⟩ := h.read.toReading.frames (frames_boundary loop _)
  have hne : loop.processBoundary.brackets.dirPropAt i ≠ .L := by
    rw [hdir', hhere, hdir]
    decide
  -- each branch leaves an object like this one
  have hdone : ∀ l : ExplicitLoop, Reading o i l.brackets → l.isolateCount = loop.isolateCount →
      l.brackets.dirPropAt i = (if (stateAt o i).overflowIsolateCount > 0 ∨
        (stateAt o i).validIsolateCount = 0 then .WS else .PDI) →
      LoopInv o (i + 1) { (l.addFlags [.ON,
        .ofLevel ((stateAt o i).popIsolate i).embeddingLevel]).setLevel i
        (noOverride ((stateAt o i).popIsolate i).embeddingLevel) with
          state := (stateAt o i).popIsolate i } := by
    intro l hl hcount hleft
    have hsize := hl.size
    refine ⟨?_, ?_, ?_⟩
    · change (stateAt o i).popIsolate i = (stateAt o i).next o (o.dirPropAt i) i
      rw [hdir]
      rfl
    · refine (hl.setLevel _).next ?_
      rw [hdir]
      exact ⟨Brackets.levelAt_set (by omega), hleft⟩
    · refine h.count_succ hcount.ge ?_
      change ((stateAt o i).next o (o.dirPropAt i) i).validIsolateCount ≤ l.isolateCount
      rw [hdir, hcount]
      exact (popIsolate_valid _ i).trans (h.count i (Nat.le_refl i))
  split
  · next hoverflow =>
    refine hdone _ (hreading.setDirProp .WS) processBoundary_isolateCount ?_
    rw [if_pos (Or.inl hoverflow)]
    exact Brackets.dirPropAt_setDirProp hne
  split
  · next hoverflow hvalid =>
    obtain ⟨hreading', hdir'', -⟩ := hreading.frames Brackets.frames_processPDI
    refine hdone _ hreading' processBoundary_isolateCount ?_
    rw [if_neg (by omega)]
    exact hdir''.trans (hdir'.trans (hhere.trans hdir))
  · next hoverflow hvalid =>
    refine hdone _ (hreading.setDirProp .WS) processBoundary_isolateCount ?_
    rw [if_pos (Or.inr (by omega))]
    exact Brackets.dirPropAt_setDirProp hne

theorem LoopInv.step_b (h : LoopInv o i loop) (hi : i < o.length) (hdir : o.dirPropAt i = .B) :
    LoopInv o (i + 1) (loop.step settings o i) := by
  have hhere := h.read.here
  have hsize := h.read.size
  have hdone : Read o (i + 1) ((loop.addFlags [.B]).setLevel i (o.getParaLevel i)).brackets := by
    refine (h.read.toReading.setLevel _).next ?_
    rw [hdir]
    exact ⟨Brackets.levelAt_set (by omega), hhere.trans hdir⟩
  have hstep : loop.step settings o i =
      (if i + 1 < o.length ∧ ¬ ExplicitState.isCRLF o i = true then
        { (loop.addFlags [.B]).setLevel i (o.getParaLevel i) with
          state := loop.state.next o .B i
          brackets := ((loop.addFlags [.B]).setLevel i (o.getParaLevel i)).brackets.processB
            (loop.state.next o .B i).embeddingLevel }
      else
        { (loop.addFlags [.B]).setLevel i (o.getParaLevel i) with
          state := loop.state.next o .B i }) := by
    unfold ExplicitLoop.step
    rw [hhere, hdir]
  have hstate : loop.state.next o .B i = stateAt o (i + 1) := by
    change loop.state.next o .B i = (stateAt o i).next o (o.dirPropAt i) i
    rw [hdir, h.state]
  have hvalid : (stateAt o (i + 1)).validIsolateCount ≤ loop.isolateCount := by
    rw [← hstate]
    unfold ExplicitState.next
    dsimp only
    split
    · exact Nat.zero_le _
    rw [h.state]
    exact h.count i (Nat.le_refl i)
  rw [hstep]
  split
  · exact ⟨hstate, hdone.frames (Brackets.frames_processB _), h.count_succ (Nat.le_refl _) hvalid⟩
  · exact ⟨hstate, hdone, h.count_succ (Nat.le_refl _) hvalid⟩

theorem LoopInv.step (h : LoopInv o i loop) (hi : i < o.length) :
    LoopInv o (i + 1) (loop.step settings o i) := by
  rcases dirProp_kinds (o.dirPropAt i) with hkind | hkind | hkind | hkind | hkind
  · exact h.step_removed hi hkind
  · exact h.step_isolate hi hkind
  · exact h.step_pdi hi hkind
  · exact h.step_b hi hkind
  · exact h.step_ordinary hi hkind

theorem LoopInv.run {fuel : Nat} (h : LoopInv o i loop) (hfuel : i + fuel = o.length) :
    LoopInv o o.length (ExplicitLoop.run settings o fuel i loop) := by
  induction fuel generalizing i loop with
  | zero =>
    rw [← hfuel]
    exact h
  | succ fuel ih =>
    unfold ExplicitLoop.run
    exact ih (h.step (by omega)) (by omega)

theorem LoopInv.start (o : UBiDi) (data : BracketData) : LoopInv o 0
    { state := .init (o.getParaLevel 0)
      brackets := Brackets.init ⟨o.dirProps, List.replicate o.length 0, data⟩ (o.getParaLevel 0)
      flags := []
      multiRuns := false
      isolateCount := 0 } := by
  refine ⟨rfl, ⟨⟨List.length_replicate, fun _ _ => rfl, fun j hj => absurd hj (Nat.not_lt_zero j),
    (Brackets.frames_init _).1⟩, rfl⟩, ?_⟩
  intro j hj
  rw [Nat.le_zero.mp hj]
  exact Nat.le_refl 0

end

/-! ## The stack -/

/-- The level of an entry, without override and without isolate. -/
def entryLevel (entry : Nat) : Nat := noOverride (entry % 0x100)

def isIsolate (entry : Nat) : Bool := decide (isolateFlag ≤ entry)

theorem not_isIsolate (h : entry < isolateFlag) : ¬ isIsolate entry = true := by
  simpa [isIsolate] using h

theorem isIsolate_of_le (h : isolateFlag ≤ entry) : isIsolate entry = true := by
  simpa [isIsolate] using h

def outerStack (stack : List Nat) : List Nat :=
  (stack.dropWhile fun entry => decide (entry < isolateFlag)).tail

/-- The levels of the entries rise, isolates are counted, and the base is not an isolate. -/
structure StackInv (s : ExplicitState) : Prop where
  embeddingLevel : s.embeddingLevel = ExplicitState.topLevel s.stack
  rises : s.stack.Pairwise fun upper lower => entryLevel lower < entryLevel upper
  count : s.stack.countP isIsolate = s.validIsolateCount
  base : ∃ entries base, s.stack = entries ++ [base] ∧ base < isolateFlag

theorem noOverride_le (level : Nat) : noOverride level ≤ level := by
  unfold noOverride
  split
  · exact Nat.sub_le _ _
  · exact Nat.le_refl _

theorem noOverride_of_lt (h : level < levelOverride) : noOverride level = level := by
  unfold noOverride isOverride
  rw [Nat.div_eq_of_lt h]
  rfl

theorem isOverride_noOverride (level : Nat) : isOverride (noOverride level) = false := by
  unfold noOverride isOverride levelOverride
  simp only [beq_iff_eq, beq_eq_false_iff_ne]
  split
  · omega
  · assumption

theorem entryLevel_override (h : level < levelOverride) :
    entryLevel (level + levelOverride) = level := by
  unfold entryLevel noOverride isOverride levelOverride at *
  simp only [beq_iff_eq]
  split
  · omega
  · omega

theorem entryLevel_of_lt (h : level < levelOverride) : entryLevel level = level := by
  unfold entryLevel
  unfold levelOverride at h
  rw [Nat.mod_eq_of_lt (by omega)]
  exact noOverride_of_lt h

theorem entryLevel_isolate (h : level < levelOverride) :
    entryLevel (level + isolateFlag) = level := by
  unfold entryLevel isolateFlag
  unfold levelOverride at h
  rw [Nat.add_mod_right, Nat.mod_eq_of_lt (by omega)]
  exact noOverride_of_lt h

theorem lt_nextLevel (embeddingLevel : Nat) (odd : Bool) :
    noOverride embeddingLevel < ExplicitState.nextLevel embeddingLevel odd := by
  unfold ExplicitState.nextLevel
  split
  · omega
  · omega

namespace StackInv

variable {s : ExplicitState} {o : UBiDi} {i : Nat}

theorem ne_nil (h : StackInv s) : s.stack ≠ [] := by
  obtain ⟨entries, base, heq, -⟩ := h.base
  rw [heq]
  exact List.append_ne_nil_of_right_ne_nil _ (List.cons_ne_nil _ _)

theorem entryLevel_head {stack : List Nat} (h : StackInv s) (heq : s.stack = entry :: stack) :
    entryLevel entry = noOverride s.embeddingLevel := by
  rw [h.embeddingLevel, heq]
  rfl

theorem push (h : StackInv s) (hlevel : noOverride s.embeddingLevel < entryLevel entry) :
    (entry :: s.stack).Pairwise fun upper lower => entryLevel lower < entryLevel upper := by
  rw [List.pairwise_cons]
  refine ⟨?_, h.rises⟩
  intro lower hlower
  cases hstack : s.stack with
  | nil => exact absurd hstack h.ne_nil
  | cons top stack =>
    have htop := h.entryLevel_head hstack
    have hrises := h.rises
    rw [hstack] at hlower hrises
    rcases List.mem_cons.mp hlower with heq | hmem
    · rw [heq, htop]
      exact hlevel
    · have hless := (List.pairwise_cons.mp hrises).1 lower hmem
      omega

end StackInv

theorem exists_split {stack : List Nat} (h : 0 < stack.countP isIsolate) :
    ∃ upper entry, stack = upper ++ entry :: outerStack stack ∧
      (∀ e ∈ upper, e < isolateFlag) ∧ isolateFlag ≤ entry := by
  induction stack with
  | nil => exact absurd h (Nat.lt_irrefl 0)
  | cons top stack ih =>
    unfold outerStack
    by_cases htop : top < isolateFlag
    · rw [List.countP_cons_of_neg (not_isIsolate htop)] at h
      obtain ⟨upper, entry, heq, hupper, hentry⟩ := ih h
      rw [List.dropWhile_cons_of_pos (by simpa using htop)]
      refine ⟨top :: upper, entry, congrArg (top :: ·) heq, ?_, hentry⟩
      exact List.forall_mem_cons.mpr ⟨htop, hupper⟩
    · rw [List.dropWhile_cons_of_neg (by simpa using htop)]
      exact ⟨[], top, rfl, fun e he => absurd he List.not_mem_nil, Nat.not_lt.mp htop⟩

namespace StackInv

variable {s : ExplicitState} {o : UBiDi} {i : Nat}

/-- What is behind the last isolate: the base at least, at lower levels. -/
theorem outer (h : StackInv s) (hvalid : 0 < s.validIsolateCount) : ∃ upper entry,
    s.stack = upper ++ entry :: outerStack s.stack ∧ isolateFlag ≤ entry ∧
      (outerStack s.stack).countP isIsolate + 1 = s.validIsolateCount ∧
      ∃ entries base, outerStack s.stack = entries ++ [base] ∧ base < isolateFlag := by
  have hcounted : 0 < s.stack.countP isIsolate := by
    rw [h.count]
    exact hvalid
  obtain ⟨upper, entry, heq, hupper, hentry⟩ := exists_split hcounted
  refine ⟨upper, entry, heq, hentry, ?_, ?_⟩
  · have hcount := h.count
    have hnone : upper.countP isIsolate = 0 := by
      rw [List.countP_eq_zero]
      exact fun e he => not_isIsolate (hupper e he)
    rw [heq, List.countP_append, hnone, List.countP_cons_of_pos (isIsolate_of_le hentry)] at hcount
    omega
  obtain ⟨entries, base, hbase, hlt⟩ := h.base
  rcases List.eq_nil_or_concat (outerStack s.stack) with hnil | ⟨rest, last, hlast⟩
  · rw [hnil] at heq
    have hsame := (List.append_inj' (heq.symm.trans hbase) rfl).2
    rw [List.cons.injEq] at hsame
    omega
  rw [List.concat_eq_append] at hlast
  refine ⟨rest, last, hlast, ?_⟩
  rw [hlast, ← List.cons_append, ← List.append_assoc] at heq
  have hsame := (List.append_inj' (heq.symm.trans hbase) rfl).2
  rw [List.cons.injEq] at hsame
  rw [hsame.1]
  exact hlt

theorem outer_lt (h : StackInv s) (hvalid : 0 < s.validIsolateCount) :
    noOverride (ExplicitState.topLevel (outerStack s.stack)) < noOverride s.embeddingLevel := by
  obtain ⟨upper, entry, heq, -, -, entries, base, hbase, -⟩ := h.outer hvalid
  have hrises := h.rises
  cases hstack : s.stack with
  | nil => exact absurd hstack h.ne_nil
  | cons top stack =>
    have htop := h.entryLevel_head hstack
    cases houter : outerStack s.stack with
    | nil =>
      rw [hbase] at houter
      exact absurd houter (List.append_ne_nil_of_right_ne_nil _ (List.cons_ne_nil _ _))
    | cons next rest =>
      have hmem : next ∈ stack := by
        rw [houter] at heq
        cases upper with
        | nil =>
          rw [hstack, List.nil_append, List.cons.injEq] at heq
          rw [heq.2]
          exact List.mem_cons_self
        | cons e upper =>
          rw [hstack, List.cons_append, List.cons.injEq] at heq
          rw [heq.2]
          exact List.mem_append_right _ (List.mem_cons_of_mem _ List.mem_cons_self)
      rw [hstack] at hrises
      have hless := (List.pairwise_cons.mp hrises).1 next hmem
      rw [htop] at hless
      rw [← hstack, houter]
      exact hless

theorem base_push (h : StackInv s) (entry : Nat) :
    ∃ entries base, entry :: s.stack = entries ++ [base] ∧ base < isolateFlag := by
  obtain ⟨entries, base, hbase, hlt⟩ := h.base
  exact ⟨entry :: entries, base, congrArg (entry :: ·) hbase, hlt⟩

theorem newPara (s : ExplicitState) (h : level ≤ maxExplicitLevel) :
    StackInv (s.newPara level) := by
  unfold maxExplicitLevel at h
  refine ⟨?_, List.pairwise_singleton _ _, ?_, [], level, rfl, ?_⟩
  · change level = level % 0x100
    omega
  · change [level].countP _ = 0
    have hlt : level < isolateFlag := by
      unfold isolateFlag
      omega
    rw [List.countP_cons_of_neg (not_isIsolate hlt), List.countP_nil]
  · unfold isolateFlag
    omega

theorem init (h : level ≤ maxExplicitLevel) : StackInv (.init level) :=
  newPara (.init level) h

theorem embed (h : StackInv s) (odd override : Bool) (i : Nat) :
    StackInv (s.embed odd override i) := by
  unfold ExplicitState.embed
  split
  · next hfits =>
    have hnext := lt_nextLevel s.embeddingLevel odd
    unfold ExplicitState.fits maxExplicitLevel at hfits
    simp only [Bool.and_eq_true, decide_eq_true_eq] at hfits
    have hlevel : ExplicitState.nextLevel s.embeddingLevel odd < levelOverride := by
      unfold levelOverride
      omega
    have hentry : entryLevel (ExplicitState.nextLevel s.embeddingLevel odd +
        if override = true then levelOverride else 0) =
          ExplicitState.nextLevel s.embeddingLevel odd := by
      split
      · exact entryLevel_override hlevel
      · exact entryLevel_of_lt hlevel
    have hlt : ExplicitState.nextLevel s.embeddingLevel odd +
        (if override = true then levelOverride else 0) < isolateFlag := by
      unfold levelOverride isolateFlag at *
      split
      · omega
      · omega
    refine ⟨?_, h.push (by rw [hentry]; exact hnext), ?_, h.base_push _⟩
    · exact (Nat.mod_eq_of_lt hlt).symm
    dsimp only
    rw [List.countP_cons_of_neg (not_isIsolate hlt)]
    exact h.count
  split
  · exact ⟨h.embeddingLevel, h.rises, h.count, h.base⟩
  · exact h

theorem popEmbedding (h : StackInv s) (i : Nat) : StackInv (s.popEmbedding i) := by
  unfold ExplicitState.popEmbedding
  split
  · exact h
  split
  · exact ⟨h.embeddingLevel, h.rises, h.count, h.base⟩
  split
  · next hpop =>
    obtain ⟨entries, base, hbase, hbase'⟩ := h.base
    cases hstack : s.stack with
    | nil => exact absurd hstack h.ne_nil
    | cons top stack =>
      have hrises := h.rises
      have hcount := h.count
      rw [hstack] at hpop hrises hcount
      rw [List.headD_cons] at hpop
      rw [List.countP_cons_of_neg (not_isIsolate hpop.2)] at hcount
      refine ⟨rfl, (List.pairwise_cons.mp hrises).2, hcount, ?_⟩
      cases entries with
      | nil =>
        rw [hstack, List.nil_append, List.cons.injEq] at hbase
        rw [hbase.2] at hpop
        exact absurd hpop.1 (Nat.lt_irrefl 1)
      | cons e entries =>
        rw [hstack, List.cons_append, List.cons.injEq] at hbase
        exact ⟨entries, base, hbase.2, hbase'⟩
  · exact h

theorem isolate (h : StackInv s) (odd : Bool) (i : Nat) : StackInv (s.isolate odd i) := by
  unfold ExplicitState.isolate
  dsimp only
  split
  · next hfits =>
    have hnext := lt_nextLevel s.embeddingLevel odd
    unfold ExplicitState.fits maxExplicitLevel at hfits
    simp only [Bool.and_eq_true, decide_eq_true_eq] at hfits
    have hlevel : ExplicitState.nextLevel s.embeddingLevel odd < levelOverride := by
      unfold levelOverride
      omega
    refine ⟨?_, h.push (by rw [entryLevel_isolate hlevel]; exact hnext), ?_, h.base_push _⟩
    · change _ = (_ + 0x100) % 0x100
      unfold levelOverride at hlevel
      rw [Nat.add_mod_right, Nat.mod_eq_of_lt (by omega)]
    · dsimp only
      rw [List.countP_cons_of_pos (isIsolate_of_le (Nat.le_add_left _ _)), h.count]
  · exact ⟨h.embeddingLevel, h.rises, h.count, h.base⟩

theorem popIsolate (h : StackInv s) (i : Nat) : StackInv (s.popIsolate i) := by
  unfold ExplicitState.popIsolate
  split
  · exact ⟨rfl, h.rises, h.count, h.base⟩
  split
  · next hvalid =>
    obtain ⟨upper, entry, heq, -, hcount, hbase⟩ := h.outer hvalid
    have hrises := h.rises
    rw [heq, List.pairwise_append] at hrises
    refine ⟨rfl, (List.pairwise_cons.mp hrises.2.1).2, ?_, hbase⟩
    change (outerStack s.stack).countP _ = s.validIsolateCount - 1
    omega
  · exact ⟨rfl, h.rises, h.count, h.base⟩

theorem next (h : StackInv s) (hpara : ∀ i, o.getParaLevel i ≤ maxExplicitLevel) (dirProp : DirProp)
    (i : Nat) : StackInv (s.next o dirProp i) := by
  have hsame : StackInv { s with previousLevel := s.embeddingLevel } :=
    ⟨h.embeddingLevel, h.rises, h.count, h.base⟩
  cases dirProp with
  | LRE => exact h.embed _ _ i
  | RLE => exact h.embed _ _ i
  | LRO => exact h.embed _ _ i
  | RLO => exact h.embed _ _ i
  | PDF => exact h.popEmbedding i
  | LRI => exact h.isolate _ i
  | RLI => exact h.isolate _ i
  | PDI => exact h.popIsolate i
  | B =>
    unfold ExplicitState.next
    dsimp only
    split
    · exact newPara s (hpara _)
    · exact h
  | BN => exact h
  | _ => exact hsame

end StackInv

theorem stackInv_stateAt {o : UBiDi} (hpara : ∀ i, o.getParaLevel i ≤ maxExplicitLevel) (i : Nat) :
    StackInv (stateAt o i) := by
  induction i with
  | zero => exact StackInv.init (hpara 0)
  | succ i ih => exact ih.next hpara _ i

end Icu.BiDi
