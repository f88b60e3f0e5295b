import Icu.UnicodeSet.UnionProof
import Icu.UnicodeSet.Basic
import Mathlib.Order.ConditionallyCompleteLattice.Basic

/-! # The algebra of code point sets

Every operation on a set in normal form yields a set in normal form and covers the
set-theoretic result. Expressions over the operations give the whole runs: their code
meaning and their set meaning agree, and lists decide equality.
-/

namespace Icu.UnicodeSet

open Lib Lib.InversionList

variable {list rest : List Int} {x start stop : Int}

/-- A set in normal form: not frozen, not bogus, without strings, and with a valid list. -/
structure CodePointSet (set : UnicodeSet) : Prop where
  list : IsInversionList set.list
  strings : set.strings = []
  thawed : set.isFrozen = false
  sound : set.isBogus = false

/-! ## Adding one code point -/

private theorem boundary_xor (c x : Int) :
    (decide (c ≤ x) ^^ decide (c + 1 ≤ x)) = decide (x = c) := by
  by_cases h : c ≤ x <;> by_cases h' : c + 1 ≤ x <;> by_cases hx : x = c <;> simp_all <;> omega

private theorem split_at_rank (hl : IsInversionList list) {c : Int} (hc : c < unicodesetHigh) :
    ∃ pre next post, list = pre ++ next :: post ∧ pre.length = rank list c ∧
      (∀ x ∈ pre, x ≤ c) ∧ c < next := by
  have hlt := hl.rank_lt_length hc
  refine ⟨list.take (rank list c), list[rank list c], list.drop (rank list c + 1), ?_, ?_, ?_, ?_⟩
  · rw [← List.drop_eq_getElem_cons hlt, List.take_append_drop]
  · simp; omega
  · intro x hx
    obtain ⟨i, hi, rfl⟩ := List.mem_take_iff_getElem.mp hx
    refine (le_iff_lt_rank hl.increasing (c := c) (List.getElem?_eq_getElem (by omega))).mpr ?_
    omega
  · have := le_iff_lt_rank hl.increasing (c := c) (List.getElem?_eq_getElem hlt)
    by_contra hcon
    have := this.mp (by omega)
    omega

private theorem isInversionList_append {pre : List Int} (hp : pre.Pairwise (· < ·))
    (h0 : ∀ x ∈ pre, 0 ≤ x) (hr : IsInversionList rest)
    (hlt : ∀ x ∈ pre, ∀ y ∈ rest, x < y) : IsInversionList (pre ++ rest) where
  increasing := List.pairwise_append.mpr ⟨hp, hr.increasing, hlt⟩
  nonneg := fun x hx => (List.mem_append.mp hx).elim (h0 x) (hr.nonneg x)
  terminated := by
    rw [List.getLast?_append, hr.terminated]
    rfl

private theorem isInversionList_cons (h0 : 0 ≤ x)
    (hr : IsInversionList rest) (hlt : ∀ y ∈ rest, x < y) : IsInversionList (x :: rest) := by
  have := isInversionList_append (List.pairwise_singleton _ x) (by simpa using h0) hr
    (by simpa using hlt)
  simpa using this

private theorem prev_eq_iff {pre r : List Int} {c : Int} :
    (pre.length > 0 ∧ (pre ++ r)[pre.length - 1]? = some c) ↔ ∃ pre', pre = pre' ++ [c] := by
  constructor
  · rintro ⟨hpos, h⟩
    rw [List.getElem?_append_left (by omega), ← List.getLast?_eq_getElem?] at h
    exact List.getLast?_eq_some_iff.mp h
  · rintro ⟨pre', rfl⟩
    simp

private theorem lt_of_not_last {pre : List Int} {c : Int} (hp : pre.Pairwise (· < ·))
    (hle : ∀ x ∈ pre, x ≤ c) (h : ¬ ∃ pre', pre = pre' ++ [c]) : ∀ x ∈ pre, x < c := by
  intro x hx
  have hxc := hle x hx
  rcases List.eq_nil_or_concat' pre with rfl | ⟨init, last, rfl⟩
  · simp at hx
  have hlast : last ≠ c := fun heq => h ⟨init, by rw [heq]⟩
  have hlc := hle last (by simp)
  rcases List.mem_append.mp hx with hx | hx
  · have := (List.pairwise_append.mp hp).2.2 x hx last (by simp)
    omega
  · simp only [List.mem_singleton] at hx
    omega

private theorem touched_tail {post : List Int} {c : Int} (h : IsInversionList ((c + 1) :: post))
    (h0 : 0 ≤ c) :
    IsInversionList (c :: (if c = unicodesetHigh - 1 then post ++ [unicodesetHigh] else post)) ∧
      ∀ x, x < unicodesetHigh →
        covers (if c = unicodesetHigh - 1 then post ++ [unicodesetHigh] else post) x =
          covers post x := by
  have hgt : ∀ y ∈ post, c + 1 < y := (List.pairwise_cons.mp h.increasing).1
  split
  case isTrue hmax =>
    have hpost : post = [] := by
      cases post with
      | nil => rfl
      | cons y ys =>
        have h1 := hgt y List.mem_cons_self
        have h2 := h.le_high (show y ∈ (c + 1) :: y :: ys by simp)
        omega
    subst hpost
    refine ⟨isInversionList_cons h0 isInversionList_high ?_, fun x hx => ?_⟩
    · simp only [List.nil_append, List.mem_singleton, forall_eq]
      omega
    · rw [List.nil_append, covers_of_forall_lt (by simpa using hx), covers_nil]
  case isFalse hmax =>
    refine ⟨isInversionList_cons h0 ⟨(List.pairwise_cons.mp h.increasing).2, ?_, ?_⟩ ?_,
      fun _ _ => rfl⟩
    · exact fun x hx => h.nonneg x (by simp [hx])
    · have hlast := h.terminated
      cases post with
      | nil => simp at hlast; omega
      | cons y ys => simpa using hlast
    · intro y hy
      have := hgt y hy
      omega

section Insert

variable {pre post : List Int} {next c : Int}

private theorem insert_before (hl : IsInversionList (pre ++ next :: post))
    (htail : IsInversionList (next :: post)) (hpre : ∀ x ∈ pre, x ≤ c) (h0 : 0 ≤ c)
    (hadj : c = next - 1) : ∃ out, insertCodePoint (pre ++ next :: post) c pre.length = some out ∧
      IsInversionList out ∧ ∀ x, x < unicodesetHigh →
        covers out x = (covers (pre ++ next :: post) x ^^ decide (x = c)) := by
  have hnext : next = c + 1 := by omega
  subst hnext
  obtain ⟨hok, hcov⟩ := touched_tail htail h0
  generalize htl : (if c = unicodesetHigh - 1 then post ++ [unicodesetHigh] else post) =
    tail at hok hcov
  have hset : (if c = unicodesetHigh - 1 then
      (pre ++ (c + 1) :: post).set pre.length c ++ [unicodesetHigh]
      else (pre ++ (c + 1) :: post).set pre.length c) = pre ++ c :: tail := by
    rw [← htl]
    split <;> simp
  have hp := (List.pairwise_append.mp hl.increasing).1
  have hpre0 : ∀ x ∈ pre, 0 ≤ x := fun x hx => hl.nonneg x (by simp [hx])
  have hgt : ∀ y ∈ tail, c < y := (List.pairwise_cons.mp hok.increasing).1
  have hflip : ∀ x, x < unicodesetHigh →
      covers (pre ++ c :: tail) x = (covers (pre ++ (c + 1) :: post) x ^^ decide (x = c)) := by
    intro x hx
    rw [covers_append, covers_append, covers_cons, covers_cons, hcov x hx, ← boundary_xor c x]
    cases covers pre x <;> cases covers post x <;> cases decide (c ≤ x) <;>
      cases decide (c + 1 ≤ x) <;> rfl
  by_cases hcol : ∃ pre', pre = pre' ++ [c]
  · -- collapse adjacent ranges
    have hcond := (prev_eq_iff (r := c :: tail)).mpr hcol
    obtain ⟨pre', rfl⟩ := hcol
    refine ⟨pre' ++ tail, ?_, ?_, fun x hx => ?_⟩
    · simp only [insertCodePoint, List.getElem?_append_right (Nat.le_refl _), Nat.sub_self,
        List.getElem?_cons_zero, if_pos hadj, hset]
      rw [if_pos hcond]
      have hdrop : (pre' ++ [c] ++ c :: tail).drop ((pre' ++ [c]).length + 1) = tail := by
        rw [← List.drop_drop, List.drop_left' rfl, List.drop_one, List.tail_cons]
      rw [hdrop]
      simp
    · refine isInversionList_append (List.pairwise_append.mp hp).1
        (fun x hx => hpre0 x (by simp [hx])) ?_ fun x hx y hy => ?_
      · refine ⟨(List.pairwise_cons.mp hok.increasing).2, fun x hx => hok.nonneg x (by simp [hx]),
          ?_⟩
        have hlast := hok.terminated
        cases tail with
        | nil =>
          -- A lowered entry is never the last one.
          have : c = unicodesetHigh := by simpa using hlast
          have := htail.le_high (show c + 1 ∈ (c + 1) :: post by simp)
          omega
        | cons y ys => simpa using hlast
      · have h1 := hpre x (by simp [hx])
        have h2 := hgt y hy
        omega
    · rw [← hflip x hx]
      simp [covers_append, covers_cons]
  · have hcond : ¬ (pre.length > 0 ∧ (pre ++ c :: tail)[pre.length - 1]? = some c) :=
      fun h => hcol (prev_eq_iff.mp h)
    refine ⟨pre ++ c :: tail, ?_, ?_, hflip⟩
    · simp only [insertCodePoint, List.getElem?_append_right (Nat.le_refl _), Nat.sub_self,
        List.getElem?_cons_zero, if_pos hadj, hset]
      rw [if_neg hcond]
    refine isInversionList_append hp hpre0 hok fun x hx y hy => ?_
    have hxc := lt_of_not_last hp hpre hcol x hx
    rcases List.mem_cons.mp hy with rfl | hy
    · exact hxc
    have := hgt y hy
    omega

private theorem insert_after {pre' : List Int}
    (hl : IsInversionList ((pre' ++ [c]) ++ next :: post))
    (htail : IsInversionList (next :: post)) (h0 : 0 ≤ c) (hadj : c + 1 < next) :
    ∃ out, insertCodePoint ((pre' ++ [c]) ++ next :: post) c (pre' ++ [c]).length = some out ∧
      IsInversionList out ∧ ∀ x, x < unicodesetHigh →
        covers out x = (covers ((pre' ++ [c]) ++ next :: post) x ^^ decide (x = c)) := by
  have hne : ¬ c = next - 1 := by omega
  have hcond := (@prev_eq_iff (pre' ++ [c]) (next :: post) c).mpr ⟨pre', rfl⟩
  refine ⟨pre' ++ (c + 1) :: next :: post, ?_, ?_, fun x _ => ?_⟩
  · simp only [insertCodePoint, List.getElem?_append_right (Nat.le_refl _), Nat.sub_self,
      List.getElem?_cons_zero, if_neg hne]
    rw [if_pos hcond]
    simp
  · obtain ⟨hp, -, hcross⟩ := List.pairwise_append.mp hl.increasing
    obtain ⟨hp', -, hlt⟩ := List.pairwise_append.mp hp
    refine isInversionList_append hp' (fun x hx => hl.nonneg x (by simp [hx]))
      (isInversionList_cons (by omega) htail ?_) ?_
    · intro y hy
      rcases List.mem_cons.mp hy with rfl | hy
      · exact hadj
      have := (List.pairwise_cons.mp htail.increasing).1 y hy
      omega
    · intro x hx y hy
      have hxc := hlt x hx c (by simp)
      rcases List.mem_cons.mp hy with rfl | hy
      · omega
      · exact hcross x (by simp [hx]) y hy
  · simp only [covers_append, covers_cons, covers_nil, Bool.xor_false]
    rw [← boundary_xor c x]
    cases covers pre' x <;> cases covers post x <;> cases decide (c ≤ x) <;>
      cases decide (c + 1 ≤ x) <;> cases decide (next ≤ x) <;> rfl

/-- `c` is not adjacent to any existing range. -/
private theorem insert_between (hl : IsInversionList (pre ++ next :: post))
    (htail : IsInversionList (next :: post)) (hpre : ∀ x ∈ pre, x ≤ c) (h0 : 0 ≤ c)
    (hadj : c + 1 < next) (hprev : ¬ ∃ pre', pre = pre' ++ [c]) :
    ∃ out, insertCodePoint (pre ++ next :: post) c pre.length = some out ∧
      IsInversionList out ∧ ∀ x, x < unicodesetHigh →
        covers out x = (covers (pre ++ next :: post) x ^^ decide (x = c)) := by
  have hne : ¬ c = next - 1 := by omega
  have hcond : ¬ (pre.length > 0 ∧ (pre ++ next :: post)[pre.length - 1]? = some c) :=
    fun h => hprev (prev_eq_iff.mp h)
  have hp := (List.pairwise_append.mp hl.increasing).1
  have hgt : ∀ y ∈ next :: post, c + 1 < y := by
    intro y hy
    rcases List.mem_cons.mp hy with rfl | hy
    · exact hadj
    have := (List.pairwise_cons.mp htail.increasing).1 y hy
    omega
  refine ⟨pre ++ c :: (c + 1) :: next :: post, ?_, ?_, fun x _ => ?_⟩
  · simp only [insertCodePoint, List.getElem?_append_right (Nat.le_refl _), Nat.sub_self,
      List.getElem?_cons_zero, if_neg hne]
    rw [if_neg hcond]
    simp
  · have hok : IsInversionList (c :: (c + 1) :: next :: post) := by
      refine isInversionList_cons h0 (isInversionList_cons (by omega) htail hgt) ?_
      intro y hy
      rcases List.mem_cons.mp hy with rfl | hy
      · omega
      have := hgt y hy
      omega
    refine isInversionList_append hp (fun x hx => hl.nonneg x (by simp [hx])) hok ?_
    intro x hx y hy
    have hxc := lt_of_not_last hp hpre hprev x hx
    rcases List.mem_cons.mp hy with rfl | hy
    · exact hxc
    have := (List.pairwise_cons.mp hok.increasing).1 y hy
    omega
  · simp only [covers_append, covers_cons]
    rw [← boundary_xor c x]
    cases covers pre x <;> cases covers post x <;> cases decide (c ≤ x) <;>
      cases decide (c + 1 ≤ x) <;> cases decide (next ≤ x) <;> rfl

end Insert

theorem insertCodePoint_spec (hl : IsInversionList list) {c : Int}
    (h0 : minValue ≤ c) (h1 : c ≤ maxValue) (heven : rank list c % 2 = 0) :
    ∃ out, insertCodePoint list c (rank list c) = some out ∧ IsInversionList out ∧
      ∀ x, x < unicodesetHigh → covers out x = (covers list x || decide (x = c)) := by
  have hc0 : 0 ≤ c := h0
  have hc1 : c < unicodesetHigh := Int.lt_add_one_of_le h1
  have hout : covers list c = false := by simp [covers_eq_rank, heven]
  obtain ⟨pre, next, post, rfl, hlen, hpre, hnext⟩ := split_at_rank hl hc1
  have htail : IsInversionList (next :: post) :=
    ⟨(List.pairwise_append.mp hl.increasing).2.1,
      fun x hx => hl.nonneg x (List.mem_append_right pre hx), by
        have := hl.terminated
        rwa [List.getLast?_append_of_ne_nil _ (by simp)] at this⟩
  -- Flipping the coverage of a code point that is not covered adds it.
  suffices h : ∃ out, insertCodePoint (pre ++ next :: post) c pre.length = some out ∧
      IsInversionList out ∧ ∀ x, x < unicodesetHigh →
        covers out x = (covers (pre ++ next :: post) x ^^ decide (x = c)) by
    obtain ⟨out, ho, hok, hcov⟩ := h
    refine ⟨out, by rw [← hlen]; exact ho, hok, fun x hx => ?_⟩
    rw [hcov x hx]
    by_cases hxc : x = c
    · simp [hxc, hout]
    · simp [hxc]
  by_cases hadj : c = next - 1
  · exact insert_before hl htail hpre hc0 hadj
  by_cases hprev : ∃ pre', pre = pre' ++ [c]
  · obtain ⟨pre', rfl⟩ := hprev
    exact insert_after hl htail hc0 (by omega)
  · exact insert_between hl htail hpre hc0 (by omega) hprev

def codePoints : Set Int := {c | minValue ≤ c ∧ c ≤ maxValue}

/-- A range of code points, each end pinned. -/
def pinnedRange (start stop : Int) : Set Int :=
  {c | pinCodePoint start ≤ c ∧ c ≤ pinCodePoint stop}

/-- A set in normal form whose code points are those of `D`. -/
structure Denotes (set : UnicodeSet) (D : Set Int) : Prop where
  codePointSet : CodePointSet set
  subset : D ⊆ codePoints
  covers_iff : ∀ c ∈ codePoints, covers set.list c = true ↔ c ∈ D

theorem lt_high_of_mem {c : Int} (h : c ∈ codePoints) : c < unicodesetHigh :=
  Int.lt_add_one_of_le h.2

theorem pinCodePoint_mem_codePoints (c : Int) : pinCodePoint c ∈ codePoints := pinCodePoint_mem c

theorem pinnedRange_subset (start stop : Int) : pinnedRange start stop ⊆ codePoints := by
  rintro c ⟨h0, h1⟩
  exact ⟨(pinCodePoint_mem start).1.trans h0, h1.trans (pinCodePoint_mem stop).2⟩

theorem pinnedRange_eq_empty (h : pinCodePoint stop < pinCodePoint start) :
    pinnedRange start stop = ∅ := by
  ext c
  simp only [pinnedRange, Set.mem_ofPred_eq, Set.mem_empty_iff_false, iff_false]
  omega

theorem covers_range {c : Int} (h : start ≤ stop) (hc : c < unicodesetHigh) :
    covers [start, stop + 1, unicodesetHigh] c = true ↔ start ≤ c ∧ c ≤ stop := by
  have hhigh : ¬ unicodesetHigh ≤ c := by omega
  simp only [covers_cons, covers_nil, hhigh]
  by_cases h0 : start ≤ c <;> by_cases h1 : stop + 1 ≤ c <;> simp [h0, h1] <;> omega

theorem feed_pinned (h : pinCodePoint start ≤ pinCodePoint stop) :
    Feed (pinCodePoint start) [pinCodePoint stop + 1, unicodesetHigh] :=
  feed_range (pinCodePoint_mem start).1 (by omega)
    (Int.add_le_add_right (pinCodePoint_mem stop).2 1)

namespace Denotes

variable {set other : UnicodeSet} {D E : Set Int} {xs : List Int}

theorem of_mergeResult (h : Denotes set D) {F : Int → Bool} {out : List Int}
    (hout : MergeResult F out) (hsub : E ⊆ codePoints)
    (hF : ∀ c ∈ codePoints, F c = true ↔ c ∈ E) : Denotes { set with list := out } E where
  codePointSet := ⟨hout.1, h.codePointSet.strings, h.codePointSet.thawed, h.codePointSet.sound⟩
  subset := hsub
  covers_iff := fun c hc => by rw [hout.2 c (lt_high_of_mem hc), hF c hc]

theorem writable (h : Denotes set D) : (set.isFrozen || set.isBogus) = false := by
  rw [h.codePointSet.thawed, h.codePointSet.sound]
  rfl

theorem addList (h : Denotes set D) (hx : Feed x xs)
    (hsub : E ⊆ codePoints) (hE : ∀ c ∈ codePoints, covers (x :: xs) c = true ↔ c ∈ E) :
    ∃ out, set.addList (x :: xs) = some out ∧ Denotes out (D ∪ E) := by
  obtain ⟨a, as, hlist, ha⟩ := h.codePointSet.list.feed
  obtain ⟨out, hout, hres⟩ := addMerge_spec ha hx
  refine ⟨{ set with list := out }, ?_, h.of_mergeResult hres (Set.union_subset h.subset hsub) ?_⟩
  · simp [UnicodeSet.addList, h.writable, hlist, hout]
  intro c hc
  rw [Bool.or_eq_true, ← hlist, h.covers_iff c hc, hE c hc]
  rfl

theorem retainList {x : Int} {xs : List Int} (h : Denotes set D) (hx : Feed x xs)
    (hE : ∀ c ∈ codePoints, covers (x :: xs) c = true ↔ c ∈ E) :
    ∃ out, set.retainList (x :: xs) false = some out ∧ Denotes out (D ∩ E) := by
  obtain ⟨a, as, hlist, ha⟩ := h.codePointSet.list.feed
  obtain ⟨out, hout, hres⟩ := @retainMerge_spec _ _ _ _ ha hx false false rfl
  refine ⟨{ set with list := out }, ?_,
    h.of_mergeResult hres (Set.inter_subset_left.trans h.subset) ?_⟩
  · simp [UnicodeSet.retainList, h.writable, hlist, hout]
  intro c hc
  rw [Bool.and_eq_true, Bool.xor_false, Bool.xor_false, ← hlist, h.covers_iff c hc, hE c hc]
  rfl

theorem removeList {x : Int} {xs : List Int} (h : Denotes set D) (hx : Feed x xs)
    (hE : ∀ c ∈ codePoints, covers (x :: xs) c = true ↔ c ∈ E) :
    ∃ out, set.retainList (x :: xs) true = some out ∧ Denotes out (D \ E) := by
  obtain ⟨a, as, hlist, ha⟩ := h.codePointSet.list.feed
  obtain ⟨out, hout, hres⟩ := @retainMerge_spec _ _ _ _ ha hx false true rfl
  refine ⟨{ set with list := out }, ?_,
    h.of_mergeResult hres (Set.sdiff_subset.trans h.subset) ?_⟩
  · simp [UnicodeSet.retainList, h.writable, hlist, hout]
  intro c hc
  rw [Bool.and_eq_true, Bool.xor_false, Bool.xor_true, Bool.not_eq_true', ← hlist,
    h.covers_iff c hc, ← Bool.not_eq_true, hE c hc]
  rfl

theorem exclusiveOrList (h : Denotes set D) (hx : Feed x xs)
    (hsub : E ⊆ codePoints) (hE : ∀ c ∈ codePoints, covers (x :: xs) c = true ↔ c ∈ E) :
    ∃ out, set.exclusiveOrList (x :: xs) = some out ∧ Denotes out (symmDiff D E) := by
  obtain ⟨a, as, hlist, ha⟩ := h.codePointSet.list.feed
  obtain ⟨out, hout, hres⟩ := exclusiveOr_spec ha hx
  have hsym : symmDiff D E ⊆ codePoints := by
    rintro c (hc | hc)
    · exact h.subset hc.1
    · exact hsub hc.1
  refine ⟨{ set with list := out }, ?_, h.of_mergeResult hres hsym ?_⟩
  · simp [UnicodeSet.exclusiveOrList, h.writable, hlist, hout]
  intro c hc
  have h1 := h.covers_iff c hc
  have h2 := hE c hc
  rw [← hlist, Set.mem_symmDiff, ← h1, ← h2]
  cases covers set.list c <;> cases covers (x :: xs) c <;> simp

theorem empty : Denotes UnicodeSet.empty ∅ where
  codePointSet := ⟨isInversionList_high, rfl, rfl, rfl⟩
  subset := Set.empty_subset _
  covers_iff := fun c hc => by
    rw [covers_of_forall_lt (by simpa [UnicodeSet.empty] using lt_high_of_mem hc)]
    simp

section

variable (h : Denotes set D)
include h

theorem add (c : Int) : ∃ out, set.add c = some out ∧ Denotes out (insert (pinCodePoint c) D) := by
  have hpin := pinCodePoint_mem_codePoints c
  have hlt := lt_high_of_mem hpin
  have hfind := h.codePointSet.list.findCodePoint_eq hlt
  have hsub : insert (pinCodePoint c) D ⊆ codePoints :=
    Set.insert_subset hpin h.subset
  by_cases hodd : rank set.list (pinCodePoint c) % 2 = 1
  · -- already in the set
    have hmem : pinCodePoint c ∈ D := by
      rw [← h.covers_iff _ hpin, covers_eq_rank, decide_eq_true hodd]
    refine ⟨set, ?_, by rwa [Set.insert_eq_of_mem hmem]⟩
    simp [UnicodeSet.add, hfind, Nat.and_one_is_mod, hodd]
  obtain ⟨out, hout, hlist, hcov⟩ :=
    insertCodePoint_spec h.codePointSet.list hpin.1 hpin.2 (by omega)
  refine ⟨{ set with list := out }, ?_, h.of_mergeResult ⟨hlist, hcov⟩ hsub ?_⟩
  · have hw := h.codePointSet.thawed
    have hb := h.codePointSet.sound
    have heven : rank set.list (pinCodePoint c) % 2 = 0 := by omega
    simp [UnicodeSet.add, hfind, Nat.and_one_is_mod, heven, hw, hb, hout]
  · intro x hx
    rw [Bool.or_eq_true, h.covers_iff x hx, decide_eq_true_eq, Set.mem_insert_iff, or_comm]

theorem addRange (start stop : Int) :
    ∃ out, set.addRange start stop = some out ∧ Denotes out (D ∪ pinnedRange start stop) := by
  rcases Int.lt_trichotomy (pinCodePoint start) (pinCodePoint stop) with hlt | heq | hgt
  · obtain ⟨out, hout, hd⟩ := h.addList (feed_pinned (Int.le_of_lt hlt))
      (pinnedRange_subset start stop)
      (fun c hc => covers_range (Int.le_of_lt hlt) (lt_high_of_mem hc))
    exact ⟨out, by simp [UnicodeSet.addRange, hlt, hout], hd⟩
  · obtain ⟨out, hout, hd⟩ := h.add (pinCodePoint start)
    have hpp : pinCodePoint (pinCodePoint start) = pinCodePoint start :=
      pinCodePoint_eq (pinCodePoint_mem start).1 (pinCodePoint_mem start).2
    have hr : pinnedRange start stop = {pinCodePoint start} := by
      ext c
      simp only [pinnedRange, ← heq, Set.mem_ofPred_eq, Set.mem_singleton_iff]
      omega
    refine ⟨out, ?_, ?_⟩
    · simp [UnicodeSet.addRange, ← heq, hout]
    · rwa [hpp, Set.insert_eq, Set.union_comm, ← hr] at hd
  · refine ⟨set, ?_, by rwa [pinnedRange_eq_empty hgt, Set.union_empty]⟩
    have h1 : ¬ pinCodePoint start < pinCodePoint stop := by omega
    have h2 : ¬ pinCodePoint start = pinCodePoint stop := by omega
    simp [UnicodeSet.addRange, h1, h2]

theorem clear : Denotes set.clear ∅ where
  codePointSet := by
    have hf := h.codePointSet.thawed
    simp only [UnicodeSet.clear, hf, Bool.false_eq_true, if_false]
    exact ⟨isInversionList_high, rfl, hf, rfl⟩
  subset := Set.empty_subset _
  covers_iff := fun c hc => by
    have hf := h.codePointSet.thawed
    simp only [UnicodeSet.clear, hf, Bool.false_eq_true, if_false, Set.mem_empty_iff_false]
    rw [covers_of_forall_lt (by simpa using lt_high_of_mem hc)]
    simp

theorem retainRange (start stop : Int) :
    ∃ out, set.retainRange start stop = some out ∧ Denotes out (D ∩ pinnedRange start stop) := by
  by_cases hle : pinCodePoint start ≤ pinCodePoint stop
  · obtain ⟨out, hout, hd⟩ := @retainList _ _ (pinnedRange start stop) _ _ h (feed_pinned hle)
      (fun c hc => covers_range hle (lt_high_of_mem hc))
    exact ⟨out, by simp [UnicodeSet.retainRange, hle, hout], hd⟩
  · refine ⟨set.clear, by simp [UnicodeSet.retainRange, hle], ?_⟩
    rw [pinnedRange_eq_empty (by omega), Set.inter_empty]
    exact h.clear

theorem removeRange (start stop : Int) :
    ∃ out, set.removeRange start stop = some out ∧ Denotes out (D \ pinnedRange start stop) := by
  by_cases hle : pinCodePoint start ≤ pinCodePoint stop
  · obtain ⟨out, hout, hd⟩ := @removeList _ _ (pinnedRange start stop) _ _ h (feed_pinned hle)
      (fun c hc => covers_range hle (lt_high_of_mem hc))
    exact ⟨out, by simp [UnicodeSet.removeRange, hle, hout], hd⟩
  · refine ⟨set, by simp [UnicodeSet.removeRange, hle], ?_⟩
    rwa [pinnedRange_eq_empty (by omega), Set.sdiff_empty]

theorem complementRange (start stop : Int) : ∃ out, set.complementRange start stop = some out ∧
      Denotes out (symmDiff D (pinnedRange start stop)) := by
  by_cases hle : pinCodePoint start ≤ pinCodePoint stop
  · obtain ⟨out, hout, hd⟩ := h.exclusiveOrList (feed_pinned hle) (pinnedRange_subset start stop)
      (fun c hc => covers_range hle (lt_high_of_mem hc))
    exact ⟨out, by simp [UnicodeSet.complementRange, h.writable, hle, hout], hd⟩
  · refine ⟨set, by simp [UnicodeSet.complementRange, h.writable, hle], ?_⟩
    rw [pinnedRange_eq_empty (by omega), ← Set.bot_eq_empty, symmDiff_bot]
    exact h

theorem complement : ∃ out, set.complement = some out ∧ Denotes out (codePoints \ D) := by
  have hl := h.codePointSet.list
  -- Dropping or adding a boundary at the lowest code point flips every parity.
  suffices hs : ∃ out, set.complement = some { set with list := out } ∧ IsInversionList out ∧
      ∀ c, covers out c = (decide (unicodesetLow ≤ c) ^^ covers set.list c) by
    obtain ⟨out, hout, hok, hcov⟩ := hs
    refine ⟨_, hout, h.of_mergeResult ⟨hok, fun c _ => hcov c⟩ Set.sdiff_subset fun c hc => ?_⟩
    have hlow : unicodesetLow ≤ c := hc.1
    simp only [hlow, decide_true, Bool.true_xor, Bool.not_eq_true', Set.mem_sdiff,
      ← h.covers_iff c hc, hc, true_and, Bool.not_eq_true]
  cases hlist : set.list with
  | nil => exact absurd hlist hl.ne_nil
  | cons x xs =>
    rw [hlist] at hl
    have hx0 : unicodesetLow ≤ x := hl.nonneg x List.mem_cons_self
    by_cases hx : x = unicodesetLow
    · subst hx
      refine ⟨xs, by simp [UnicodeSet.complement, h.writable, hlist], ⟨?_, ?_, ?_⟩, fun c => ?_⟩
      · exact (List.pairwise_cons.mp hl.increasing).2
      · exact fun v hv => hl.nonneg v (List.mem_cons_of_mem _ hv)
      · cases xs with
        | nil => exact absurd hl.terminated (by decide)
        | cons y ys => simpa using hl.terminated
      · rw [covers_cons, ← Bool.xor_assoc, Bool.xor_self, Bool.false_xor]
    · refine ⟨unicodesetLow :: x :: xs, by simp [UnicodeSet.complement, h.writable, hlist, hx],
        isInversionList_cons (Int.le_refl _) hl fun v hv => ?_, fun c => covers_cons _ _ c⟩
      rcases List.mem_cons.mp hv with rfl | hv
      · omega
      have := (List.pairwise_cons.mp hl.increasing).1 v hv
      omega

theorem addAll (ho : Denotes other E) :
    ∃ out, set.addAll other = some out ∧ Denotes out (D ∪ E) := by
  obtain ⟨b, bs, hlist, hb⟩ := ho.codePointSet.list.feed
  obtain ⟨out, hout, hd⟩ := h.addList hb ho.subset (by simpa only [← hlist] using ho.covers_iff)
  refine ⟨out, ?_, hd⟩
  simp [UnicodeSet.addAll, hlist, hout, ho.codePointSet.strings, addStrings]

theorem retainAll (ho : Denotes other E) :
    ∃ out, set.retainAll other = some out ∧ Denotes out (D ∩ E) := by
  obtain ⟨b, bs, hlist, hb⟩ := ho.codePointSet.list.feed
  obtain ⟨out, hout, hd⟩ := h.retainList hb (by simpa only [← hlist] using ho.covers_iff)
  refine ⟨{ out with strings := [] }, ?_, ?_⟩
  · simp [UnicodeSet.retainAll, h.writable, hlist, hout, hd.codePointSet.strings]
  have hs := hd.codePointSet.strings
  cases out
  cases hs
  exact hd

theorem removeAll (ho : Denotes other E) :
    ∃ out, set.removeAll other = some out ∧ Denotes out (D \ E) := by
  obtain ⟨b, bs, hlist, hb⟩ := ho.codePointSet.list.feed
  obtain ⟨out, hout, hd⟩ := h.removeList hb (by simpa only [← hlist] using ho.covers_iff)
  refine ⟨{ out with strings := [] }, ?_, ?_⟩
  · simp [UnicodeSet.removeAll, h.writable, hlist, hout, hd.codePointSet.strings]
  have hs := hd.codePointSet.strings
  cases out
  cases hs
  exact hd

theorem complementAll (ho : Denotes other E) :
    ∃ out, set.complementAll other = some out ∧ Denotes out (symmDiff D E) := by
  obtain ⟨b, bs, hlist, hb⟩ := ho.codePointSet.list.feed
  obtain ⟨out, hout, hd⟩ :=
    h.exclusiveOrList hb ho.subset (by simpa only [← hlist] using ho.covers_iff)
  refine ⟨out, ?_, hd⟩
  simp [UnicodeSet.complementAll, h.writable, hlist, hout, ho.codePointSet.strings,
    complementStrings]

theorem setOf_odd_findCodePoint :
    {c | c ∈ codePoints ∧ ∃ i, findCodePoint set.list c = some i ∧ i % 2 = 1} = D := by
  ext c
  constructor
  · rintro ⟨hc, i, hi, hodd⟩
    rw [h.codePointSet.list.findCodePoint_eq (lt_high_of_mem hc), Option.some.injEq] at hi
    rw [← h.covers_iff c hc, covers_eq_rank, hi, decide_eq_true hodd]
  intro hD
  have hc := h.subset hD
  refine ⟨hc, _, h.codePointSet.list.findCodePoint_eq (lt_high_of_mem hc), ?_⟩
  have := (h.covers_iff c hc).mpr hD
  rwa [covers_eq_rank, decide_eq_true_eq] at this

theorem beq_iff (ho : Denotes other E) : set.beq other = true ↔ D = E := by
  have hstr : set.strings = other.strings := by
    rw [h.codePointSet.strings, ho.codePointSet.strings]
  have hbeq : set.beq other = true ↔ set.list = other.list := by
    simp [UnicodeSet.beq, hstr]
  rw [hbeq, eq_iff_covers_eq h.codePointSet.list ho.codePointSet.list]
  constructor
  · intro heq
    ext c
    constructor
    · intro hD
      have hc := h.subset hD
      rwa [← ho.covers_iff c hc, ← heq c hc.1 hc.2, h.covers_iff c hc]
    · intro hE
      have hc := ho.subset hE
      rwa [← h.covers_iff c hc, heq c hc.1 hc.2, ho.covers_iff c hc]
  · rintro rfl c h0 h1
    rw [Bool.eq_iff_iff, h.covers_iff c ⟨h0, h1⟩, ho.covers_iff c ⟨h0, h1⟩]

end

end Denotes

/-- A run of operations from the empty set. The operands of the binary operations are
themselves sets reached by runs. -/
inductive SetExpr where
  | empty
  | add (e : SetExpr) (c : Int)
  | addRange (e : SetExpr) (start stop : Int)
  | retainRange (e : SetExpr) (start stop : Int)
  | removeRange (e : SetExpr) (start stop : Int)
  | complementRange (e : SetExpr) (start stop : Int)
  | complement (e : SetExpr)
  | addAll (e f : SetExpr)
  | retainAll (e f : SetExpr)
  | removeAll (e f : SetExpr)
  | complementAll (e f : SetExpr)

namespace SetExpr

def eval : SetExpr → Option UnicodeSet
  | empty => some UnicodeSet.empty
  | add e c => do (← e.eval).add c
  | addRange e start stop => do (← e.eval).addRange start stop
  | retainRange e start stop => do (← e.eval).retainRange start stop
  | removeRange e start stop => do (← e.eval).removeRange start stop
  | complementRange e start stop => do (← e.eval).complementRange start stop
  | complement e => do (← e.eval).complement
  | addAll e f => do (← e.eval).addAll (← f.eval)
  | retainAll e f => do (← e.eval).retainAll (← f.eval)
  | removeAll e f => do (← e.eval).removeAll (← f.eval)
  | complementAll e f => do (← e.eval).complementAll (← f.eval)

def denote : SetExpr → Set Int
  | empty => ∅
  | add e c => insert (pinCodePoint c) e.denote
  | addRange e start stop => e.denote ∪ pinnedRange start stop
  | retainRange e start stop => e.denote ∩ pinnedRange start stop
  | removeRange e start stop => e.denote \ pinnedRange start stop
  | complementRange e start stop => symmDiff e.denote (pinnedRange start stop)
  | complement e => codePoints \ e.denote
  | addAll e f => e.denote ∪ f.denote
  | retainAll e f => e.denote ∩ f.denote
  | removeAll e f => e.denote \ f.denote
  | complementAll e f => symmDiff e.denote f.denote

theorem eval_denotes (e : SetExpr) : ∃ set, e.eval = some set ∧ Denotes set e.denote := by
  -- One operation after a run that is already known to denote its set.
  have after : ∀ {e : SetExpr} {op : UnicodeSet → Option UnicodeSet} {D : Set Int},
      (∃ set, e.eval = some set ∧ Denotes set e.denote) →
      (∀ set, Denotes set e.denote → ∃ out, op set = some out ∧ Denotes out D) →
      ∃ out, e.eval.bind op = some out ∧ Denotes out D := by
    rintro e op D ⟨set, hset, hd⟩ hop
    rw [hset, Option.bind_some]
    exact hop set hd
  induction e with
  | empty => exact ⟨_, rfl, Denotes.empty⟩
  | add e c ih => exact after ih fun _ h => h.add c
  | addRange e start stop ih => exact after ih fun _ h => h.addRange start stop
  | retainRange e start stop ih => exact after ih fun _ h => h.retainRange start stop
  | removeRange e start stop ih => exact after ih fun _ h => h.removeRange start stop
  | complementRange e start stop ih => exact after ih fun _ h => h.complementRange start stop
  | complement e ih => exact after ih fun _ h => h.complement
  | addAll e f ihe ihf => exact after ihe fun _ h => after ihf fun _ => h.addAll
  | retainAll e f ihe ihf => exact after ihe fun _ h => after ihf fun _ => h.retainAll
  | removeAll e f ihe ihf => exact after ihe fun _ h => after ihf fun _ => h.removeAll
  | complementAll e f ihe ihf => exact after ihe fun _ h => after ihf fun _ => h.complementAll

/-- The list algebra is the algebra of sets: every run leaves a valid list, the code points
with an odd index are those the run stands for, and `operator==` is extensional. -/
theorem eval_eq_denote (e : SetExpr) : ∃ set, e.eval = some set ∧ IsInversionList set.list ∧
      {c | c ∈ codePoints ∧ ∃ i, findCodePoint set.list c = some i ∧ i % 2 = 1} = e.denote ∧
      ∀ f : SetExpr, ∃ other, f.eval = some other ∧
        (set.beq other = true ↔ e.denote = f.denote) := by
  obtain ⟨set, hset, hd⟩ := e.eval_denotes
  refine ⟨set, hset, hd.codePointSet.list, hd.setOf_odd_findCodePoint, fun f => ?_⟩
  obtain ⟨other, hother, hf⟩ := f.eval_denotes
  exact ⟨other, hother, hd.beq_iff hf⟩

end SetExpr

end Icu.UnicodeSet
