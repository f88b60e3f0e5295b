import Icu.UnicodeSet.MergeProof

/-! # Union by merging

`add` writes the start of a range as soon as it is taken and may take the end of the
last range back. Between turns the buffer is therefore a list of closed ranges, followed
by the start `s` of an open range whenever one of the inputs is inside a range.
-/

namespace Icu.UnicodeSet

open Lib Lib.InversionList

variable {e c y a b : Int} {buffer ys other list : List Int} {p q : Bool} {F : Int → Bool}
  {st : MergeState}

/-- Closed ranges in the buffer, last entry first. -/
structure ClosedRanges (buffer : List Int) : Prop where
  even : buffer.length % 2 = 0
  sorted : buffer.Pairwise (· > ·)
  bounds : ∀ x ∈ buffer, 0 ≤ x ∧ x < unicodesetHigh

/-- An open range at `s` behind closed ranges. -/
structure OpenRange (s : Int) (closed : List Int) : Prop where
  ranges : ClosedRanges closed
  above : ∀ x ∈ closed, x < s
  bounds : 0 ≤ s ∧ s < unicodesetHigh

/-- The limit of the range an input is in, and its unread entries. The limit may have
been raised over entries that are still unread. -/
structure Limit (s x : Int) (xs : List Int) : Prop where
  lt : s < x
  rest : (x = unicodesetHigh ∧ ∀ v ∈ xs, v = unicodesetHigh) ∨
    (x < unicodesetHigh ∧ ∃ y ys, xs = y :: ys ∧ Feed y ys ∧ s < y)

namespace OpenRange

variable {s : Int} {closed : List Int}

section

variable (h : OpenRange s closed)
include h

theorem covers_start (c : Int) : covers (s :: closed) c = (decide (s ≤ c) || covers closed c) :=
  covers_open h.ranges.even (fun z hz => Int.le_of_lt (h.above z hz)) c

theorem covers_end (he : s < e) (c : Int) :
    covers (e :: s :: closed) c = (decide (s ≤ c ∧ c < e) || covers closed c) :=
  covers_close h.ranges.even (fun z hz => Int.le_of_lt (h.above z hz)) (Int.le_of_lt he) c

theorem close (he : s < e) (he' : e < unicodesetHigh) : ClosedRanges (e :: s :: closed) where
  even := by have := h.ranges.even; simp only [List.length_cons]; omega
  sorted := by
    refine List.pairwise_cons.mpr ⟨?_, List.pairwise_cons.mpr ⟨h.above, h.ranges.sorted⟩⟩
    intro z hz
    rcases List.mem_cons.mp hz with rfl | hz
    · exact he
    · have := h.above z hz; omega
  bounds := by
    have hs := h.bounds
    intro z hz
    rcases List.mem_cons.mp hz with rfl | hz
    · omega
    rcases List.mem_cons.mp hz with rfl | hz
    · exact hs
    · exact h.ranges.bounds z hz

theorem buffer_bounds : ∀ x ∈ s :: closed, 0 ≤ x ∧ x < unicodesetHigh := by
  intro x hx
  rcases List.mem_cons.mp hx with rfl | hx
  · exact h.bounds
  · exact h.ranges.bounds x hx

end

end OpenRange

theorem ClosedRanges.cases (h : ClosedRanges buffer) :
    buffer = [] ∨ ∃ e s closed, buffer = e :: s :: closed ∧ OpenRange s closed ∧ s < e := by
  obtain ⟨he, hs, hb⟩ := h
  match buffer with
  | [] => exact .inl rfl
  | [x] => simp at he
  | e :: s :: closed =>
    obtain ⟨hes, hrest⟩ := List.pairwise_cons.mp hs
    obtain ⟨hsc, hc⟩ := List.pairwise_cons.mp hrest
    refine .inr ⟨e, s, closed, rfl, ⟨⟨?_, hc, ?_⟩, hsc, hb s (by simp)⟩, hes s (by simp)⟩
    · simp only [List.length_cons] at he; omega
    · exact fun x hx => hb x (by simp [hx])

theorem Limit.covers_below {s x : Int} {xs : List Int} (h : Limit s x xs) (hc : c ≤ s)
    (hs : s < unicodesetHigh) : covers xs c = false := by
  rcases h.rest with ⟨-, hv⟩ | ⟨-, y, ys, rfl, hf, hy⟩
  · exact covers_of_forall_lt fun v hmem => by have := hv v hmem; omega
  · exact hf.covers_below (by omega)

/-- A range that starts inside the open one, or right behind it, only moves its limit. -/
theorem feed_overlap {s x : Int} (hf : Feed x (y :: ys)) (hx : x < unicodesetHigh) (hs : s ≤ x) :
    Limit s y ys ∧ ∀ c, covers (x :: y :: ys) c = (decide (x ≤ c ∧ c < y) || covers ys c) := by
  obtain ⟨y', ys', heq, hxy, hy⟩ := hf.next hx
  obtain ⟨rfl, rfl⟩ := List.cons.inj heq
  refine ⟨⟨by omega, ?_⟩, covers_pair (Int.le_of_lt hxy) fun z hz => hy.tail_le hz⟩
  rcases Int.lt_or_eq_of_le hy.le_high with hlt | heq
  · obtain ⟨z, zs, rfl, hyz, hz⟩ := hy.next hlt
    exact .inr ⟨hlt, z, zs, rfl, hz, by omega⟩
  · exact .inl ⟨heq, fun v hv => hy.eq_high heq hv⟩

theorem Limit.raise {s x : Int} {xs : List Int} (h : Limit s x xs) (he : e < unicodesetHigh) :
    Limit s (max x e) xs := by
  have hlt := h.lt
  refine ⟨by omega, ?_⟩
  rcases h.rest with ⟨rfl, hv⟩ | ⟨hx, hy⟩
  · exact .inl ⟨by omega, hv⟩
  · exact .inr ⟨by omega, hy⟩

theorem takeStart_spec {x : Int} (hx : x < unicodesetHigh)
    (hf : Feed x (y :: ys)) (hb : ClosedRanges buffer)
    (hfloor : ∀ e s closed, buffer = e :: s :: closed → s < x) :
    ∃ limit s closed, takeStart x y buffer = (limit, s :: closed) ∧ OpenRange s closed ∧
      Limit s limit ys ∧ s ≤ x ∧ x < limit ∧ (s = x ∨ ∃ e, buffer = e :: s :: closed) ∧
      ∀ c, (covers buffer c || covers (x :: y :: ys) c) =
        (covers closed c || decide (s ≤ c ∧ c < limit) || covers ys c) := by
  obtain ⟨hlimit, hpair⟩ := feed_overlap hf hx (Int.le_refl x)
  have hxy := hlimit.lt
  have hx0 := hf.nonneg
  rcases hb.cases with rfl | ⟨e, s, closed, rfl, ho, hse⟩
  · refine ⟨y, x, [], rfl, ⟨hb, by simp, hx0, hx⟩, hlimit, Int.le_refl _, hxy, .inl rfl, ?_⟩
    intro c
    rw [Bool.eq_iff_iff, hpair]
    simp
  have hsx := hfloor e s closed rfl
  by_cases hover : x ≤ e
  · have hehigh := (hb.bounds e (by simp)).2
    obtain ⟨hlimit', -⟩ := feed_overlap hf hx (Int.le_of_lt hsx)
    refine ⟨max y e, s, closed, by simp [takeStart, hover], ho, hlimit'.raise hehigh,
      Int.le_of_lt hsx, by omega, .inr ⟨e, rfl⟩, fun c => ?_⟩
    rw [Bool.eq_iff_iff, hpair, ho.covers_end hse]
    simp only [Bool.or_eq_true, decide_eq_true_eq]
    grind
  refine ⟨y, x, e :: s :: closed, by simp [takeStart, hover], ⟨hb, ?_, hx0, hx⟩, hlimit,
    Int.le_refl _, hxy, .inl rfl, fun c => ?_⟩
  · intro z hz
    rcases List.mem_cons.mp hz with rfl | hz
    · omega
    have := (List.pairwise_cons.mp hb.sorted).1 z hz
    omega
  · rw [Bool.eq_iff_iff, hpair]
    simp only [Bool.or_eq_true, decide_eq_true_eq, or_assoc]

/-- What an input still contributes when the open range starts at `s`. -/
def contribution (s : Int) (second : Bool) (x : Int) (xs : List Int) (c : Int) : Bool :=
  if second then decide (s ≤ c ∧ c < x) || covers xs c else covers (x :: xs) c

/-- An input whose next entry is a limit or, above `s`, a start. -/
def Pending (s : Int) (second : Bool) (x : Int) (xs : List Int) : Prop :=
  if second then Limit s x xs else Feed x xs ∧ s < x

structure AddOutside (F : Int → Bool) (st : MergeState) : Prop where
  feedA : Feed st.a st.list
  feedB : Feed st.b st.other
  ranges : ClosedRanges st.buffer
  floor : ∀ e s closed, st.buffer = e :: s :: closed → s < st.a ∧ s < st.b
  value : ∀ c, c < unicodesetHigh →
    F c = (covers st.buffer c || covers (st.a :: st.list) c || covers (st.b :: st.other) c)

/-- At least one input is inside of a range, which starts at `s`. -/
structure AddInside (F : Int → Bool) (st : MergeState) (s : Int) (closed : List Int) : Prop where
  buffer : st.buffer = s :: closed
  opened : OpenRange s closed
  pendingA : Pending s st.aSecond st.a st.list
  pendingB : Pending s st.bSecond st.b st.other
  value : ∀ c, c < unicodesetHigh →
    F c = (covers closed c || contribution s st.aSecond st.a st.list c ||
      contribution s st.bSecond st.b st.other c)

def AddInv (F : Int → Bool) (st : MergeState) : Prop :=
  if st.aSecond || st.bSecond then ∃ s closed, AddInside F st s closed else AddOutside F st

namespace Limit

variable {s x : Int} {xs : List Int}

theorem le_high (h : Limit s x xs) : x ≤ unicodesetHigh := by
  rcases h.rest with ⟨h, -⟩ | ⟨h, -⟩ <;> omega

theorem next (h : Limit s x xs) (hx : x < unicodesetHigh) :
    ∃ y ys, xs = y :: ys ∧ Feed y ys ∧ s < y := by
  rcases h.rest with ⟨h, -⟩ | ⟨-, h⟩
  · omega
  · exact h

theorem covers_high (h : Limit s x xs) (hx : x = unicodesetHigh)
    (hc : c < unicodesetHigh) : covers xs c = false := by
  rcases h.rest with ⟨-, hv⟩ | ⟨hlt, -⟩
  · exact covers_of_forall_lt fun v hmem => by have := hv v hmem; omega
  · omega

end Limit

def MergeState.swap (st : MergeState) : MergeState :=
  ⟨st.b, st.other, st.a, st.list, st.buffer, st.bSecond, st.aSecond⟩

@[simp] theorem MergeState.swap_mk (a b : Int) (list other buffer : List Int) (p q : Bool) :
    MergeState.swap ⟨a, list, b, other, buffer, p, q⟩ = ⟨b, other, a, list, buffer, q, p⟩ := rfl

theorem addStep_swap (h : a ≠ b ∨ p ≠ q) : addStep ⟨b, other, a, list, buffer, q, p⟩ =
      (addStep ⟨a, list, b, other, buffer, p, q⟩).map (Option.map MergeState.swap) := by
  rcases lt_trichotomy a b with hab | hab | hab
  · have h1 : ¬ b < a := by omega
    have h2 : ¬ b ≤ a := by omega
    have h3 : a ≤ b := by omega
    cases p <;> cases q <;> cases list <;> cases other
    all_goals simp [addStep, takeStartA, takeStartB, MergeState.push, MergeState.nextA,
      MergeState.nextB, hab, h1, h2, h3]
    all_goals
      split
      all_goals simp
  · subst hab
    cases p <;> cases q <;> cases list <;> cases other <;>
      simp_all [addStep, MergeState.nextA, MergeState.nextB] <;> split <;> simp
  · have h1 : ¬ a < b := by omega
    have h2 : ¬ a ≤ b := by omega
    have h3 : b ≤ a := by omega
    cases p <;> cases q <;> cases list <;> cases other
    all_goals simp [addStep, takeStartA, takeStartB, MergeState.push, MergeState.nextA,
      MergeState.nextB, hab, h1, h2, h3]
    all_goals
      split
      all_goals simp

theorem AddInside.swap {s : Int} {closed : List Int}
    (h : AddInside F ⟨a, list, b, other, buffer, p, q⟩ s closed) :
    AddInside F ⟨b, other, a, list, buffer, q, p⟩ s closed where
  buffer := h.buffer
  opened := h.opened
  pendingA := h.pendingB
  pendingB := h.pendingA
  value := fun c hc => by
    rw [h.value c hc, Bool.or_assoc, Bool.or_assoc]
    congr 1
    rw [Bool.or_comm]

theorem AddOutside.swap (h : AddOutside F ⟨a, list, b, other, buffer, p, q⟩) :
    AddOutside F ⟨b, other, a, list, buffer, q, p⟩ where
  feedA := h.feedB
  feedB := h.feedA
  ranges := h.ranges
  floor := fun e s closed he => (h.floor e s closed he).symm
  value := fun c hc => by
    rw [h.value c hc, Bool.or_assoc, Bool.or_assoc]
    congr 1
    rw [Bool.or_comm]

theorem AddInv.swap (h : AddInv F st) : AddInv F st.swap := by
  obtain ⟨a, list, b, other, buffer, p, q⟩ := st
  cases p <;> cases q <;> simp only [AddInv, MergeState.swap_mk, Bool.or_false, Bool.or_true,
    Bool.false_eq_true, if_true, if_false] at h ⊢
  · exact h.swap
  all_goals
    obtain ⟨s, closed, h⟩ := h
    exact ⟨s, closed, h.swap⟩

def AddTurn (F : Int → Bool) (st : MergeState) : Prop :=
  (addStep st = some none ∧ MergeResult F (unicodesetHigh :: st.buffer).reverse) ∨
    ∃ st', addStep st = some (some st') ∧ AddInv F st' ∧ st'.unread < st.unread

theorem AddTurn.swap (hne : a ≠ b ∨ p ≠ q) (h : AddTurn F ⟨a, list, b, other, buffer, p, q⟩) :
    AddTurn F ⟨b, other, a, list, buffer, q, p⟩ := by
  unfold AddTurn
  rw [addStep_swap hne]
  rcases h with ⟨hs, hr⟩ | ⟨st', hs, hi, hlt⟩
  · exact .inl ⟨by simp [hs], hr⟩
  refine .inr ⟨st'.swap, by simp [hs], hi.swap, ?_⟩
  simp only [MergeState.unread, MergeState.swap] at hlt ⊢
  omega

/-! ## Turns -/

theorem addTurn_outside_lt
    (h : AddOutside F ⟨a, list, b, other, buffer, false, false⟩) (hab : a < b) :
    AddTurn F ⟨a, list, b, other, buffer, false, false⟩ := by
  obtain ⟨hA, hB, hr, hfl, hv⟩ := h
  dsimp only at hA hB hr hfl hv
  have hB' := hB.le_high
  have ha : a < unicodesetHigh := by omega
  obtain ⟨x, xs, rfl, -, -⟩ := hA.next ha
  obtain ⟨limit, s, closed, htake, ho, hlim, -, -, hs, hcov⟩ :=
    takeStart_spec ha hA hr fun e s closed he => (hfl e s closed he).1
  have hsb : s < b := by
    rcases hs with rfl | ⟨e, he⟩
    · exact hab
    · exact (hfl e s closed he).2
  refine .inr ⟨⟨limit, xs, b, other, s :: closed, true, false⟩, ?_, ?_, ?_⟩
  · simp [addStep, hab, takeStartA, htake]
  · simp only [AddInv, Bool.or_false, if_true]
    refine ⟨s, closed, rfl, ho, by simpa [Pending] using hlim, by simp [Pending, hB, hsb], ?_⟩
    intro c hc
    rw [hv c hc, hcov c]
    simp only [contribution, if_true, Bool.false_eq_true, if_false, Bool.or_assoc]
  · simp [MergeState.unread]

theorem addTurn_outside_eq (h : AddOutside F ⟨a, list, a, other, buffer, false, false⟩) :
    AddTurn F ⟨a, list, a, other, buffer, false, false⟩ := by
  obtain ⟨hA, hB, hr, hfl, hv⟩ := h
  dsimp only at hA hB hr hfl hv
  by_cases hhigh : a = unicodesetHigh
  · refine .inl ⟨by simp [addStep, hhigh], mergeResult_of_buffer hr.sorted hr.bounds ?_⟩
    intro c hc
    rw [hv c hc, hA.covers_below (by omega), hB.covers_below (by omega)]
    simp
  have hA' := hA.le_high
  have ha : a < unicodesetHigh := by omega
  obtain ⟨x, xs, rfl, -, -⟩ := hA.next ha
  obtain ⟨y, ys, rfl, -, -⟩ := hB.next ha
  obtain ⟨limit, s, closed, htake, ho, hlim, hsa, hal, hs, hcov⟩ :=
    takeStart_spec ha hA hr fun e s closed he => (hfl e s closed he).1
  obtain ⟨hlimB, hcovB⟩ := feed_overlap hB ha hsa
  refine .inr ⟨⟨limit, xs, y, ys, s :: closed, true, true⟩, ?_, ?_, ?_⟩
  · simp [addStep, hhigh, takeStartA, htake, MergeState.nextB]
  · simp only [AddInv, Bool.or_true, if_true]
    refine ⟨s, closed, rfl, ho, by simpa [Pending] using hlim, by simpa [Pending] using hlimB, ?_⟩
    intro c hc
    rw [Bool.eq_iff_iff, hv c hc, hcov c, hcovB c]
    simp only [contribution, if_true, Bool.or_eq_true, decide_eq_true_eq]
    grind
  · simp only [MergeState.unread, List.length_cons]; omega

theorem addTurn_insideA {s : Int} {closed : List Int}
    (h : AddInside F ⟨a, list, b, other, buffer, true, false⟩ s closed) :
    AddTurn F ⟨a, list, b, other, buffer, true, false⟩ := by
  obtain ⟨hbuf, ho, hA, hB, hv⟩ := h
  simp only [Pending, if_true, Bool.false_eq_true, if_false] at hbuf hA hB hv
  subst hbuf
  obtain ⟨hB, hsb⟩ := hB
  have hA' := hA.le_high
  have hB' := hB.le_high
  have hsa := hA.lt
  rcases lt_trichotomy a b with hab | hab | hab
  · -- The range of `a` ends before the next one of `b`.
    have ha : a < unicodesetHigh := by omega
    obtain ⟨x, xs, rfl, hx, hsx⟩ := hA.next ha
    refine .inr ⟨⟨x, xs, b, other, a :: s :: closed, false, false⟩, ?_, ?_, ?_⟩
    · simp [addStep, hab, MergeState.push, MergeState.nextA]
    · simp only [AddInv, Bool.or_false, Bool.false_eq_true, if_false]
      refine ⟨hx, hB, ho.close hsa ha, ?_, fun c hc => ?_⟩
      · intro e s' closed' he
        obtain ⟨-, hs, -⟩ : a = e ∧ s = s' ∧ closed = closed' := by simpa using he
        exact hs ▸ ⟨hsx, hsb⟩
      rw [Bool.eq_iff_iff, hv c hc, ho.covers_end hsa]
      simp only [contribution, if_true, Bool.false_eq_true, if_false, Bool.or_eq_true,
        decide_eq_true_eq]
      grind
    · simp [MergeState.unread]
  · subst hab
    by_cases hhigh : a = unicodesetHigh
    · refine .inl ⟨by simp [addStep, hhigh], mergeResult_of_buffer
        (List.pairwise_cons.mpr ⟨ho.above, ho.ranges.sorted⟩) ho.buffer_bounds ?_⟩
      intro c hc
      rw [hv c hc, ho.covers_start, Bool.eq_iff_iff]
      simp only [contribution, if_true, Bool.false_eq_true, if_false, hA.covers_high hhigh hc,
        hB.covers_below (show c < a by omega), Bool.or_eq_true, decide_eq_true_eq, or_false]
      grind
    have ha : a < unicodesetHigh := by omega
    obtain ⟨x, xs, rfl, hx, hsx⟩ := hA.next ha
    obtain ⟨y, ys, rfl, hay, -⟩ := hB.next ha
    obtain ⟨hlimB, hcovB⟩ := feed_overlap hB ha (Int.le_of_lt hsb)
    refine .inr ⟨⟨x, xs, y, ys, s :: closed, false, true⟩, ?_, ?_, ?_⟩
    · simp [addStep, hhigh, MergeState.nextA, MergeState.nextB]
    · simp only [AddInv, Bool.or_true, if_true]
      refine ⟨s, closed, rfl, ho, by simp [Pending, hx, hsx], by simpa [Pending] using hlimB, ?_⟩
      intro c hc
      rw [Bool.eq_iff_iff, hv c hc]
      simp only [contribution, if_true, Bool.false_eq_true, if_false, hcovB c, Bool.or_eq_true,
        decide_eq_true_eq]
      grind
    · simp only [MergeState.unread, List.length_cons]; omega
  · have hb : b < unicodesetHigh := by omega
    have hba : ¬ a < b := by omega
    obtain ⟨y, ys, rfl, -, -⟩ := hB.next hb
    obtain ⟨hlimB, hcovB⟩ := feed_overlap hB hb (Int.le_of_lt hsb)
    refine .inr ⟨⟨a, list, y, ys, s :: closed, true, true⟩, ?_, ?_, ?_⟩
    · simp [addStep, hab, hba, MergeState.nextB]
    · simp only [AddInv, Bool.or_true, if_true]
      refine ⟨s, closed, rfl, ho, by simpa [Pending] using hA, by simpa [Pending] using hlimB, ?_⟩
      intro c hc
      rw [Bool.eq_iff_iff, hv c hc]
      simp only [contribution, if_true, Bool.false_eq_true, if_false, hcovB c, Bool.or_eq_true,
        decide_eq_true_eq]
      grind
    · simp [MergeState.unread]

theorem addTurn_insideBoth {s : Int} {closed : List Int}
    (h : AddInside F ⟨a, list, b, other, buffer, true, true⟩ s closed) (hba : b ≤ a) :
    AddTurn F ⟨a, list, b, other, buffer, true, true⟩ := by
  obtain ⟨hbuf, ho, hA, hB, hv⟩ := h
  simp only [Pending, if_true] at hbuf hA hB hv
  subst hbuf
  have hA' := hA.le_high
  have hsa := hA.lt
  have hsb := hB.lt
  by_cases hhigh : a = unicodesetHigh
  · refine .inl ⟨by rw [hhigh] at hba; simp [addStep, hba, hhigh], mergeResult_of_buffer
      (List.pairwise_cons.mpr ⟨ho.above, ho.ranges.sorted⟩) ho.buffer_bounds ?_⟩
    intro c hc
    have hbelow : c < s → covers other c = false := fun hcs =>
      hB.covers_below (Int.le_of_lt hcs) ho.bounds.2
    rw [hv c hc, ho.covers_start, Bool.eq_iff_iff]
    simp only [contribution, if_true, hA.covers_high hhigh hc, Bool.or_eq_true, decide_eq_true_eq]
    grind
  have ha : a < unicodesetHigh := by omega
  obtain ⟨x, xs, rfl, hx, hsx⟩ := hA.next ha
  obtain ⟨y, ys, rfl, hy, hsy⟩ := hB.next (by omega)
  refine .inr ⟨⟨x, xs, y, ys, a :: s :: closed, false, false⟩, ?_, ?_, ?_⟩
  · simp [addStep, hba, hhigh, MergeState.push, MergeState.nextA, MergeState.nextB]
  · simp only [AddInv, Bool.or_false, Bool.false_eq_true, if_false]
    refine ⟨hx, hy, ho.close hsa ha, ?_, fun c hc => ?_⟩
    · intro e s' closed' he
      obtain ⟨-, hs, -⟩ : a = e ∧ s = s' ∧ closed = closed' := by simpa using he
      exact hs ▸ ⟨hsx, hsy⟩
    · rw [Bool.eq_iff_iff, hv c hc, ho.covers_end hsa]
      simp only [contribution, if_true, Bool.or_eq_true, decide_eq_true_eq]
      grind
  · simp only [MergeState.unread, List.length_cons]; omega

theorem addStep_spec (h : AddInv F st) : AddTurn F st := by
  obtain ⟨a, list, b, other, buffer, p, q⟩ := st
  cases p <;> cases q <;> simp only [AddInv, Bool.or_false, Bool.or_true,
    Bool.false_eq_true, if_true, if_false] at h
  · rcases lt_trichotomy a b with hab | rfl | hab
    · exact addTurn_outside_lt h hab
    · exact addTurn_outside_eq h
    · exact (addTurn_outside_lt h.swap hab).swap (.inl (by omega))
  · obtain ⟨s, closed, h⟩ := h
    exact (addTurn_insideA h.swap).swap (.inr (by decide))
  · obtain ⟨s, closed, h⟩ := h
    exact addTurn_insideA h
  · obtain ⟨s, closed, h⟩ := h
    by_cases hba : b ≤ a
    · exact addTurn_insideBoth h hba
    · exact (addTurn_insideBoth h.swap (by omega)).swap (.inl (by omega))

theorem addMerge_spec (hA : Feed a list) (hB : Feed b other) :
    ∃ out, addMerge (a :: list) (b :: other) false false = some out ∧
      MergeResult (fun c => covers (a :: list) c || covers (b :: other) c) out := by
  simp only [addMerge, startMerge, Option.bind_some]
  refine @runMerge_spec addStep (AddInv _) _ (fun st h => addStep_spec h) _ ?_
  simp only [AddInv, Bool.or_false, Bool.false_eq_true, if_false]
  exact ⟨hA, hB, ⟨rfl, List.Pairwise.nil, by simp⟩, by simp, fun c _ => by simp⟩

end Icu.UnicodeSet
