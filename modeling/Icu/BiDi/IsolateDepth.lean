import Icu.BiDi.Isolates
import Icu.Lib.CountSince
import Mathlib.Order.Lattice.Nat

/-! # How deep isolates nest

The array `isolates[]` gets entries for the nesting that the passes over the text count. With the
levels that ICU finds no more than `UBIDI_MAX_EXPLICIT_LEVEL` isolates are valid. With the levels of
the caller it is the depth of all LRIs, RLIs and PDIs.
-/

namespace Icu.BiDi

open Lib Lib.LevelReversal

section Valid

variable {settings : Settings} {o : UBiDi} {loop : ExplicitLoop} {i : Nat} {s : ExplicitState}

theorem length_le_entryLevel {top : Nat} {stack : List Nat}
    (h : (top :: stack).Pairwise fun upper lower => entryLevel lower < entryLevel upper) :
    stack.length ≤ entryLevel top := by
  induction stack generalizing top with
  | nil => exact Nat.zero_le _
  | cons next stack ih =>
    rw [List.pairwise_cons] at h
    have hnext := h.1 next List.mem_cons_self
    have hrest := ih h.2
    rw [List.length_cons]
    omega

/-- The levels of the entries rise from the base, which is not an isolate. -/
theorem StackInv.valid_le (h : StackInv s) : s.validIsolateCount ≤ noOverride s.embeddingLevel := by
  obtain ⟨entries, base, hstack, hbase⟩ := h.base
  have hrises := h.rises
  cases htop : s.stack with
  | nil => exact absurd htop h.ne_nil
  | cons top stack =>
    rw [htop] at hrises
    have hlength := length_le_entryLevel hrises
    rw [h.entryLevel_head htop] at hlength
    have hcount := h.count
    rw [hstack, List.countP_append, List.countP_cons_of_neg (not_isIsolate hbase),
      List.countP_nil] at hcount
    have hentries := List.countP_le_length (p := isIsolate) (l := entries)
    have hsame := congrArg List.length (htop.symm.trans hstack)
    rw [List.length_cons, List.length_append, List.length_singleton] at hsame
    omega

theorem valid_isolate (h : StackInv s) {odd : Bool} (hfits : s.fits odd = true) :
    (s.isolate odd i).validIsolateCount ≤ maxExplicitLevel := by
  have hvalid := (h.isolate odd i).valid_le
  have hlevel : (s.isolate odd i).embeddingLevel =
    ExplicitState.nextLevel s.embeddingLevel odd := by
    unfold ExplicitState.isolate
    exact congrArg ExplicitState.embeddingLevel (if_pos hfits)
  rw [hlevel] at hvalid
  unfold ExplicitState.fits at hfits
  simp only [Bool.and_eq_true, decide_eq_true_eq] at hfits
  have hle := noOverride_le (ExplicitState.nextLevel s.embeddingLevel odd)
  omega

theorem LoopInv.step_isolateCount (h : LoopInv o i loop) (hstack : StackInv (stateAt o i))
    (hle : loop.isolateCount ≤ maxExplicitLevel) :
    (loop.step settings o i).isolateCount ≤ maxExplicitLevel := by
  have hhere := h.read.here
  rcases dirProp_kinds (o.dirPropAt i) with hkind | hkind | hkind | hkind | hkind
  · rw [BiDi.step_removed (by rw [hhere]; exact hkind)]
    exact hle
  · obtain ⟨l, hl, hstep⟩ := @BiDi.step_isolate settings o i loop (by rw [hhere]; exact hkind)
    have hl' : l.isolateCount = loop.isolateCount := by
      rw [hl]
      exact processBoundary_isolateCount
    rw [hstep, hhere, h.state, next_isolate hkind]
    split
    · next hfits =>
      refine Nat.max_le.mpr ⟨?_, valid_isolate hstack hfits⟩
      rw [hl']
      exact hle
    · exact hl'.trans_le hle
  · rw [BiDi.step_pdi (by rw [hhere]; exact hkind)]
    have hboundary := (@processBoundary_isolateCount loop).trans_le hle
    dsimp only
    split
    · exact hboundary
    split
    · exact hboundary
    · exact hboundary
  · unfold ExplicitLoop.step
    rw [hhere, hkind]
    dsimp only
    split
    · exact hle
    · exact hle
  · rw [(@BiDi.step_ordinary settings o i loop (by rw [hhere]; exact hkind)).2.1]
    exact hle

theorem LoopInv.run_isolateCount (hpara : ∀ i, o.getParaLevel i ≤ maxExplicitLevel) {fuel : Nat}
    (h : LoopInv o i loop) (hfuel : i + fuel = o.length)
    (hle : loop.isolateCount ≤ maxExplicitLevel) :
    (ExplicitLoop.run settings o fuel i loop).isolateCount ≤ maxExplicitLevel := by
  induction fuel generalizing i loop with
  | zero => exact hle
  | succ fuel ih =>
    unfold ExplicitLoop.run
    exact ih (h.step (by omega)) (by omega) (h.step_isolateCount (stackInv_stateAt hpara i) hle)

end Valid

/-- The largest size in bytes that is an `int32_t` has room for the isolates. -/
theorem le_allocatedIsolates {isolateCount : Nat} (h : isolateCount ≤ 178956970)
    (isolatesSize : Nat) : isolateCount ≤ allocatedIsolates isolateCount isolatesSize := by
  unfold allocatedIsolates isolateBytes
  rw [int32_of_lt (show isolateCount * 12 < 0x80000000 by omega)]
  dsimp only
  split
  · assumption
  split
  · omega
  · omega

/-! ## The depth of the text -/

instance (dirProp : DirProp) : Decidable (opensIsolate dirProp) :=
  inferInstanceAs (Decidable (_ ∨ _))

/-- The LRIs and RLIs less the PDIs before `i`, in the paragraph of the character before it. -/
def isolateDepth (o : UBiDi) (i : Nat) : Int :=
  countSince (fun p => opensIsolate (o.dirPropAt p)) (fun p => o.dirPropAt p = .B) i -
    countSince (fun p => o.dirPropAt p = .PDI) (fun p => o.dirPropAt p = .B) i

def maxDepth (o : UBiDi) : Nat :=
  (Finset.range o.length).sup fun i => (isolateDepth o (i + 1)).toNat

theorem isolateDepth_succ (o : UBiDi) (i : Nat) : isolateDepth o (i + 1) =
    if o.dirPropAt i = .B then 0
    else isolateDepth o i + (if opensIsolate (o.dirPropAt i) then 1 else 0) -
      if o.dirPropAt i = .PDI then 1 else 0 := by
  unfold isolateDepth
  by_cases hb : o.dirPropAt i = .B
  · rw [countSince_succ_of_separator hb, countSince_succ_of_separator hb, if_pos hb, hb]
    rfl
  · rw [countSince_succ hb, countSince_succ hb, if_neg hb]
    push_cast
    omega

/-- The scan of `checkExplicitLevels` counts the depth and its maximum. -/
theorem countIsolates_eq (o : UBiDi) (n : Nat) :
    ((List.range n).map o.dirPropAt).foldl countIsolates (0, 0) =
      (isolateDepth o n,
        (((Finset.range n).sup fun i => (isolateDepth o (i + 1)).toNat : Nat) : Int)) ∧
    (isolateDepth o n).toNat ≤ (Finset.range n).sup fun i => (isolateDepth o (i + 1)).toNat := by
  induction n with
  | zero => exact ⟨rfl, Nat.le_refl 0⟩
  | succ n ih =>
    obtain ⟨hscan, hle⟩ := ih
    rw [List.range_succ, List.map_append, List.foldl_append, hscan, Finset.range_add_one,
      Finset.sup_insert, isolateDepth_succ]
    generalize (Finset.range n).sup (fun i => (isolateDepth o (i + 1)).toNat) = most at hle ⊢
    generalize isolateDepth o n = depth at hle ⊢
    refine ⟨?_, le_sup_left⟩
    change countIsolates (depth, (most : Int)) (o.dirPropAt n) = _
    unfold opensIsolate
    cases o.dirPropAt n <;> simp [countIsolates] <;> omega

theorem nestedIsolates_eq (o : UBiDi) : nestedIsolates o = maxDepth o := by
  unfold nestedIsolates
  rw [(countIsolates_eq o o.length).1]
  exact Int.toNat_natCast _

end Icu.BiDi
