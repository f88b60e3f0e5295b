import Icu.UnicodeSet.Merge

/-! # What the merge loops compute

Each loop is a run of its turn function, so each result is one invariant with one
step lemma. `retain` and `exclusiveOr` only append, and their invariants are
pointwise identities of coverage. `add` also takes entries back, so its invariant
reads the buffer as closed ranges with at most one range still open.
-/

namespace Icu.UnicodeSet

open Lib Lib.InversionList

variable {list : List Int} {F : Int → Bool}

variable {st : MergeState}

/-- A run whose turns keep an invariant and read something ends in the postcondition. -/
theorem mergeLoop_spec {step : MergeState → Option (Option MergeState)}
    {Inv : MergeState → Prop} {Post : List Int → Prop} (hstep : ∀ st, Inv st →
      (step st = some none ∧ Post (unicodesetHigh :: st.buffer).reverse) ∨
        ∃ st', step st = some (some st') ∧ Inv st' ∧ st'.unread < st.unread)
    {fuel : Nat} (hi : Inv st) (hf : st.unread < fuel) :
    ∃ out, mergeLoop step fuel st = some out ∧ Post out := by
  induction fuel generalizing st with
  | zero => omega
  | succ fuel ih =>
    rcases hstep st hi with ⟨hs, hp⟩ | ⟨st', hs, hi', hlt⟩
    · exact ⟨_, by simp [mergeLoop, hs], hp⟩
    obtain ⟨out, ho, hp⟩ := ih hi' (by omega)
    exact ⟨out, by simpa [mergeLoop, hs] using ho, hp⟩

theorem runMerge_spec {step : MergeState → Option (Option MergeState)}
    {Inv : MergeState → Prop} {Post : List Int → Prop} (hstep : ∀ st, Inv st →
      (step st = some none ∧ Post (unicodesetHigh :: st.buffer).reverse) ∨
        ∃ st', step st = some (some st') ∧ Inv st' ∧ st'.unread < st.unread)
    {st : MergeState} (hi : Inv st) : ∃ out, runMerge step st = some out ∧ Post out :=
  mergeLoop_spec hstep hi (Nat.lt_succ_self _)

/-! ## Unread input -/

/-- Increasing, except that the sentinel may be repeated: the three-element arrays built
for a range that ends at `0x10ffff` repeat it. -/
def Before (u v : Int) : Prop := u < v ∨ (u = unicodesetHigh ∧ v = unicodesetHigh)

/-- The current entry and the unread rest of a list that is being merged. -/
structure Feed (x : Int) (xs : List Int) : Prop where
  increasing : (x :: xs).Pairwise Before
  nonneg : 0 ≤ x
  bounded : ∀ v ∈ x :: xs, v ≤ unicodesetHigh
  terminated : (x :: xs).getLast? = some unicodesetHigh

namespace Feed

variable {x : Int} {xs : List Int} {v : Int}

section

variable (h : Feed x xs)
include h

theorem le_high : x ≤ unicodesetHigh := h.bounded x List.mem_cons_self

theorem lt_of_mem (hx : x < unicodesetHigh) (hv : v ∈ xs) : x < v := by
  rcases (List.pairwise_cons.mp h.increasing).1 v hv with hlt | ⟨heq, -⟩
  · exact hlt
  · omega

theorem next (hx : x < unicodesetHigh) : ∃ y ys, xs = y :: ys ∧ x < y ∧ Feed y ys := by
  cases xs with
  | nil =>
    have := h.terminated
    simp at this
    omega
  | cons y ys =>
    have hxy := h.lt_of_mem hx List.mem_cons_self
    have hn := h.nonneg
    exact ⟨y, ys, rfl, hxy, (List.pairwise_cons.mp h.increasing).2, by omega,
      fun v hv => h.bounded v (List.mem_cons_of_mem x hv), by simpa using h.terminated⟩

theorem covers_below {c : Int} (hc : c < x) : covers (x :: xs) c = false := by
  refine covers_of_forall_lt fun v hv => ?_
  rcases List.mem_cons.mp hv with rfl | hv
  · exact hc
  · rcases (List.pairwise_cons.mp h.increasing).1 v hv with hlt | ⟨h1, h2⟩ <;> omega

/-- Behind the sentinel there are only sentinels. -/
theorem eq_high (hx : x = unicodesetHigh) (hv : v ∈ xs) : v = unicodesetHigh := by
  have hle := h.bounded v (List.mem_cons_of_mem x hv)
  rcases (List.pairwise_cons.mp h.increasing).1 v hv with hlt | ⟨-, h2⟩ <;> omega

theorem tail_le (hv : v ∈ xs) : x ≤ v := by
  rcases (List.pairwise_cons.mp h.increasing).1 v hv with hlt | ⟨h1, h2⟩ <;> omega

end

end Feed

theorem IsInversionList.feed (h : IsInversionList list) : ∃ x xs, list = x :: xs ∧ Feed x xs := by
  cases list with
  | nil => exact absurd rfl h.ne_nil
  | cons x xs =>
    exact ⟨x, xs, rfl, h.increasing.imp Or.inl, h.nonneg x List.mem_cons_self,
      fun v hv => h.le_high hv, h.terminated⟩

theorem feed_range {start limit : Int} (h0 : 0 ≤ start) (h : start < limit)
    (hl : limit ≤ unicodesetHigh) : Feed start [limit, unicodesetHigh] where
  increasing := by
    simp only [List.pairwise_cons, List.mem_cons, List.not_mem_nil, or_false, forall_eq_or_imp,
      forall_eq, Before]
    refine ⟨⟨Or.inl h, Or.inl (by omega)⟩, ?_, ?_⟩
    · exact (Int.lt_or_eq_of_le hl).imp id fun heq => ⟨heq, trivial⟩
    · simp
  nonneg := h0
  bounded := by
    simp only [List.mem_cons, List.not_mem_nil, or_false, forall_eq_or_imp, forall_eq]
    omega
  terminated := rfl

/-- The finished list covers `F` on the code points. -/
def MergeResult (F : Int → Bool) (out : List Int) : Prop :=
  IsInversionList out ∧ ∀ c, c < unicodesetHigh → covers out c = F c

theorem mergeResult_of_buffer {buffer : List Int}
    (hs : buffer.Pairwise (· > ·)) (hb : ∀ x ∈ buffer, 0 ≤ x ∧ x < unicodesetHigh)
    (hF : ∀ c, c < unicodesetHigh → covers buffer c = F c) :
    MergeResult F (unicodesetHigh :: buffer).reverse := by
  refine ⟨⟨?_, ?_, by simp⟩, fun c hc => ?_⟩
  · rw [List.pairwise_reverse, List.pairwise_cons]
    exact ⟨fun x hx => (hb x hx).2, hs⟩
  · intro x hx
    rcases List.mem_cons.mp (List.mem_reverse.mp hx) with rfl | hx
    · decide
    · exact (hb x hx).1
  · have : ¬ unicodesetHigh ≤ c := by omega
    rw [covers_reverse, covers_cons, ← hF c hc]
    simp [this]

structure ExclusiveOrInv (F : Int → Bool) (st : MergeState) : Prop where
  feedA : Feed st.a st.list
  feedB : Feed st.b st.other
  sorted : st.buffer.Pairwise (· > ·)
  below : ∀ x ∈ st.buffer, 0 ≤ x ∧ x < st.a ∧ x < st.b
  value : ∀ c, c < unicodesetHigh →
    F c = (covers st.buffer c ^^ covers (st.a :: st.list) c ^^ covers (st.b :: st.other) c)

theorem exclusiveOrStep_spec (h : ExclusiveOrInv F st) : (exclusiveOrStep st = some none ∧
        MergeResult F (unicodesetHigh :: st.buffer).reverse) ∨
      ∃ st', exclusiveOrStep st = some (some st') ∧ ExclusiveOrInv F st' ∧
        st'.unread < st.unread := by
  obtain ⟨a, list, b, other, buffer, p, q⟩ := st
  obtain ⟨hA, hB, hs, hb, hv⟩ := h
  dsimp only at hA hB hs hb hv
  have hA' := hA.le_high
  have hB' := hB.le_high
  rcases lt_trichotomy a b with hab | hab | hab
  · obtain ⟨x, xs, rfl, hax, hx⟩ := hA.next (by omega)
    refine .inr ⟨⟨x, xs, b, other, a :: buffer, !p, q⟩, ?_, ⟨hx, hB, ?_, ?_, ?_⟩, ?_⟩
    · simp [exclusiveOrStep, hab, MergeState.push, MergeState.nextA]
    · exact List.pairwise_cons.mpr ⟨fun y hy => (hb y hy).2.1, hs⟩
    · intro y hy
      have hn := hA.nonneg
      rcases List.mem_cons.mp hy with rfl | hy
      · exact ⟨hn, hax, hab⟩
      · have := hb y hy; dsimp only; omega
    · intro c hc
      rw [hv c hc, covers_cons a buffer, covers_cons a]
      cases decide (a ≤ c) <;> simp
    · simp [MergeState.unread]
  · subst hab
    by_cases hhigh : a = unicodesetHigh
    · refine .inl ⟨by simp [exclusiveOrStep, hhigh], ?_⟩
      refine mergeResult_of_buffer hs (fun x hx => ?_) fun c hc => ?_
      · have := hb x hx; omega
      rw [hv c hc, hA.covers_below (by omega), hB.covers_below (by omega)]
      simp
    obtain ⟨x, xs, rfl, hax, hx⟩ := hA.next (by omega)
    obtain ⟨y, ys, rfl, hby, hy⟩ := hB.next (by omega)
    refine .inr ⟨⟨x, xs, y, ys, buffer, !p, !q⟩, ?_, ⟨hx, hy, hs, ?_, ?_⟩, ?_⟩
    · simp [exclusiveOrStep, hhigh, MergeState.nextA, MergeState.nextB]
    · intro z hz
      have := hb z hz
      dsimp only
      omega
    · intro c hc
      rw [hv c hc, covers_cons a, covers_cons a]
      cases decide (a ≤ c) <;> simp
    · simp only [MergeState.unread, List.length_cons]; omega
  · obtain ⟨y, ys, rfl, hby, hy⟩ := hB.next (by omega)
    have hba : ¬ a < b := by omega
    refine .inr ⟨⟨a, list, y, ys, b :: buffer, p, !q⟩, ?_, ⟨hA, hy, ?_, ?_, ?_⟩, ?_⟩
    · simp [exclusiveOrStep, hab, hba, MergeState.push, MergeState.nextB]
    · exact List.pairwise_cons.mpr ⟨fun z hz => (hb z hz).2.2, hs⟩
    · intro z hz
      have hn := hB.nonneg
      rcases List.mem_cons.mp hz with rfl | hz
      · exact ⟨hn, hab, hby⟩
      · have := hb z hz; dsimp only; omega
    · intro c hc
      rw [hv c hc, covers_cons b buffer, covers_cons b]
      cases decide (b ≤ c) <;> simp
    · simp [MergeState.unread]

theorem exclusiveOr_spec {a b : Int} {other : List Int} (hA : Feed a list) (hB : Feed b other) :
    ∃ out, exclusiveOr (a :: list) (b :: other) false false = some out ∧
      MergeResult (fun c => covers (a :: list) c ^^ covers (b :: other) c) out := by
  simp only [exclusiveOr, startMerge, Option.bind_some]
  refine runMerge_spec (fun st h => exclusiveOrStep_spec h)
    ⟨hA, hB, List.Pairwise.nil, by simp, fun c _ => by simp⟩

/-- Taking an entry of one list writes it exactly when the other list is inside a range. -/
theorem retainStep_lt (h : st.a < st.b) :
    retainStep st = (if st.bSecond then st.push st.a else st).nextA.map some := by
  obtain ⟨a, list, b, other, buffer, p, q⟩ := st
  have h' : ¬ b < a := by dsimp only at h; omega
  cases p <;> cases q <;> simp_all [retainStep]

theorem retainStep_gt (h : st.b < st.a) :
    retainStep st = (if st.aSecond then st.push st.b else st).nextB.map some := by
  obtain ⟨a, list, b, other, buffer, p, q⟩ := st
  have h' : ¬ a < b := by dsimp only at h; omega
  cases p <;> cases q <;> simp_all [retainStep]

theorem retainStep_eq (h : st.a = st.b) :
    retainStep st = if st.a = unicodesetHigh then some none else
      ((if st.aSecond = st.bSecond then st.push st.a else st).nextA.bind (·.nextB)).map some := by
  obtain ⟨a, list, b, other, buffer, p, q⟩ := st
  dsimp only at h
  subst h
  cases p <;> cases q <;> simp [retainStep]

structure RetainInv (F : Int → Bool) (st : MergeState) : Prop where
  feedA : Feed st.a st.list
  feedB : Feed st.b st.other
  sorted : st.buffer.Pairwise (· > ·)
  below : ∀ x ∈ st.buffer, 0 ≤ x ∧ x < st.a ∧ x < st.b
  value : ∀ c, c < unicodesetHigh →
    F c = (covers st.buffer c ^^ (st.aSecond && st.bSecond) ^^
      ((covers (st.a :: st.list) c ^^ st.aSecond) && (covers (st.b :: st.other) c ^^ st.bSecond)))

theorem retainStep_spec (h : RetainInv F st) :
    (retainStep st = some none ∧ MergeResult F (unicodesetHigh :: st.buffer).reverse) ∨
      ∃ st', retainStep st = some (some st') ∧ RetainInv F st' ∧ st'.unread < st.unread := by
  obtain ⟨a, list, b, other, buffer, p, q⟩ := st
  obtain ⟨hA, hB, hs, hb, hv⟩ := h
  dsimp only at hA hB hs hb hv
  have hA' := hA.le_high
  have hB' := hB.le_high
  rcases lt_trichotomy a b with hab | hab | hab
  · obtain ⟨x, xs, rfl, hax, hx⟩ := hA.next (by omega)
    refine .inr ⟨⟨x, xs, b, other, if q then a :: buffer else buffer, !p, q⟩, ?_,
      ⟨hx, hB, ?_, ?_, ?_⟩, ?_⟩
    · rw [retainStep_lt hab]
      cases q <;> simp [MergeState.push, MergeState.nextA]
    · cases q
      · exact hs
      · exact List.pairwise_cons.mpr ⟨fun y hy => (hb y hy).2.1, hs⟩
    · have hn := hA.nonneg
      intro y hy
      cases q
      · have := hb y hy; dsimp only; omega
      rcases List.mem_cons.mp hy with rfl | hy
      · exact ⟨hn, hax, hab⟩
      · have := hb y hy; dsimp only; omega
    · intro c hc
      rw [hv c hc, covers_cons a]
      -- Below `a` neither list has been entered, so only the bits differ.
      by_cases hac : a ≤ c
      · cases q <;> simp [covers_cons a, hac]
      rw [hB.covers_below (by omega), hx.covers_below (by omega)]
      cases p <;> cases q <;> simp [covers_cons a, hac]
    · simp [MergeState.unread]
  · subst hab
    by_cases hhigh : a = unicodesetHigh
    · refine .inl ⟨by rw [retainStep_eq rfl]; simp [hhigh], ?_⟩
      refine mergeResult_of_buffer hs (fun x hx => ?_) fun c hc => ?_
      · have := hb x hx; omega
      rw [hv c hc, hA.covers_below (by omega), hB.covers_below (by omega)]
      simp
    obtain ⟨x, xs, rfl, hax, hx⟩ := hA.next (by omega)
    obtain ⟨y, ys, rfl, hby, hy⟩ := hB.next (by omega)
    refine .inr ⟨⟨x, xs, y, ys, if p = q then a :: buffer else buffer, !p, !q⟩, ?_,
      ⟨hx, hy, ?_, ?_, ?_⟩, ?_⟩
    · rw [retainStep_eq rfl]
      cases p <;> cases q <;> simp [hhigh, MergeState.push, MergeState.nextA, MergeState.nextB]
    · split
      · exact List.pairwise_cons.mpr ⟨fun y hy => (hb y hy).2.1, hs⟩
      · exact hs
    · have hn := hA.nonneg
      intro z hz
      split at hz
      · rcases List.mem_cons.mp hz with rfl | hz
        · exact ⟨hn, hax, hby⟩
        · have := hb z hz; dsimp only; omega
      · have := hb z hz; dsimp only; omega
    · intro c hc
      rw [hv c hc, covers_cons a, covers_cons a]
      by_cases hac : a ≤ c
      · cases p <;> cases q <;> simp [covers_cons a, hac]
      rw [hx.covers_below (by omega), hy.covers_below (by omega)]
      cases p <;> cases q <;> simp [covers_cons a, hac]
    · simp only [MergeState.unread, List.length_cons]; omega
  · obtain ⟨y, ys, rfl, hby, hy⟩ := hB.next (by omega)
    refine .inr ⟨⟨a, list, y, ys, if p then b :: buffer else buffer, p, !q⟩, ?_,
      ⟨hA, hy, ?_, ?_, ?_⟩, ?_⟩
    · rw [retainStep_gt hab]
      cases p <;> simp [MergeState.push, MergeState.nextB]
    · cases p
      · exact hs
      · exact List.pairwise_cons.mpr ⟨fun z hz => (hb z hz).2.2, hs⟩
    · have hn := hB.nonneg
      intro z hz
      cases p
      · have := hb z hz; dsimp only; omega
      rcases List.mem_cons.mp hz with rfl | hz
      · exact ⟨hn, hab, hby⟩
      · have := hb z hz; dsimp only; omega
    · intro c hc
      rw [hv c hc, covers_cons b]
      by_cases hbc : b ≤ c
      · cases p <;> simp [covers_cons b, hbc]
      rw [hA.covers_below (by omega), hy.covers_below (by omega)]
      cases p <;> cases q <;> simp [covers_cons b, hbc]
    · simp [MergeState.unread]

/-- Unless both operands are complemented, `retain` intersects them; a set bit
complements its operand. -/
theorem retainMerge_spec {a b : Int} {list other : List Int} (hA : Feed a list)
    (hB : Feed b other) {p q : Bool} (hpq : (p && q) = false) :
    ∃ out, retainMerge (a :: list) (b :: other) p q = some out ∧
      MergeResult (fun c => (covers (a :: list) c ^^ p) && (covers (b :: other) c ^^ q)) out := by
  simp only [retainMerge, startMerge, Option.bind_some]
  refine runMerge_spec (fun st h => retainStep_spec h)
    ⟨hA, hB, List.Pairwise.nil, by simp, fun c _ => by simp [hpq]⟩

end Icu.UnicodeSet
