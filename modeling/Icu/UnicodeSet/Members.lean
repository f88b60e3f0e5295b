import Icu.UnicodeSet.Algebra
import Mathlib.Data.List.Nodup

/-! # The members in ascending order

`size()`, `indexOf()` and `charAt()` walk over the ranges of a list. On every set that a run of
operations leaves, they count, find and return the members of one ascending list.
-/

namespace Icu.UnicodeSet

open Lib.InversionList

/-- The sum over the ranges, `getRangeEnd(i) - getRangeStart(i) + 1`. -/
def sumRanges : List Int → Int
  | start :: limit :: list => limit - 1 - start + 1 + sumRanges list
  | _ => 0

def size (set : UnicodeSet) : Int := sumRanges set.list + set.strings.length

/-- The loop of `indexOf(c)`, which ends in a list with a last entry above `c`. -/
def indexOfLoop (c : Int) : List Int → Int → Option Int
  | [], _ => none
  | [start], _ => if c < start then some (-1) else none
  | start :: limit :: list, n =>
    if c < start then some (-1)
    else if c < limit then some (n + c - start)
    else indexOfLoop c list (n + (limit - start))

def indexOf (set : UnicodeSet) (c : Int) : Option Int :=
  if c < minValue ∨ maxValue < c then some (-1) else indexOfLoop c set.list 0

/-- The loop of `charAt(index)`. The last entry of a list of odd length is ignored. -/
def charAtLoop : List Int → Int → Int
  | start :: limit :: list, index =>
    let count := limit - start
    if index < count then start + index else charAtLoop list (index - count)
  | _, _ => -1

def charAt (set : UnicodeSet) (index : Int) : Int :=
  if 0 ≤ index then charAtLoop set.list index else -1

/-- The code points of the ranges, one after the other. -/
def members : List Int → List Int
  | start :: limit :: list =>
    (List.range (limit - start).toNat).map (fun i : Nat => start + i) ++ members list
  | _ => []

variable {c start limit : Int} {list : List Int}

theorem mem_range_iff : c ∈ (List.range (limit - start).toNat).map (fun i : Nat => start + i) ↔
    start ≤ c ∧ c < limit := by
  rw [List.mem_map]
  constructor
  · rintro ⟨i, hi, rfl⟩
    have := List.mem_range.mp hi
    omega
  · exact fun hc => ⟨(c - start).toNat, List.mem_range.mpr (by omega), by omega⟩

/-- Below the last entry, the members are what the list covers. -/
theorem mem_members (hinc : list.Pairwise (· < ·)) (hlast : ∀ x, list.getLast? = some x → c < x) :
    c ∈ members list ↔ covers list c = true := by
  induction list using members.induct with
  | case1 start limit list ih =>
    obtain ⟨hstart, hinc⟩ := List.pairwise_cons.mp hinc
    obtain ⟨hlimit, hinc⟩ := List.pairwise_cons.mp hinc
    rw [members, List.mem_append, mem_range_iff, covers_pair (hstart limit List.mem_cons_self).le
      (fun z hz => (hlimit z hz).le), Bool.or_eq_true, decide_eq_true_eq]
    refine or_congr Iff.rfl (ih hinc fun x hx => hlast x ?_)
    rw [List.getLast?_cons_cons, List.getLast?_cons, hx]
    rfl
  | case2 list hne =>
    cases list with
    | nil => simp [members]
    | cons x list =>
      cases list with
      | nil => simp [members, covers_cons, hlast x rfl]
      | cons y list => exact absurd rfl (hne x y list)

theorem between_of_mem (hc : c ∈ members list) : ∃ x ∈ list, ∃ y ∈ list, x ≤ c ∧ c < y := by
  induction list using members.induct with
  | case1 start limit list ih =>
    rw [members, List.mem_append, mem_range_iff] at hc
    rcases hc with hc | hc
    · exact ⟨start, by simp, limit, by simp, hc⟩
    obtain ⟨x, hx, y, hy, h⟩ := ih hc
    exact ⟨x, by simp [hx], y, by simp [hy], h⟩
  | case2 list hne =>
    rw [members.eq_2 list hne] at hc
    cases hc

theorem pairwise_members (hinc : list.Pairwise (· < ·)) : (members list).Pairwise (· < ·) := by
  induction list using members.induct with
  | case1 start limit list ih =>
    obtain ⟨-, hinc⟩ := List.pairwise_cons.mp hinc
    obtain ⟨hlimit, hinc⟩ := List.pairwise_cons.mp hinc
    rw [members]
    refine List.pairwise_append.mpr ⟨?_, ih hinc, fun x hx y hy => ?_⟩
    · rw [List.pairwise_map]
      exact List.pairwise_lt_range.imp fun h => by omega
    · obtain ⟨z, hz, -, -, hle, -⟩ := between_of_mem hy
      exact ((mem_range_iff.mp hx).2.trans (hlimit z hz)).trans_le hle
  | case2 list hne =>
    rw [members.eq_2 list hne]
    exact List.Pairwise.nil

theorem sumRanges_eq (hinc : list.Pairwise (· < ·)) : sumRanges list = (members list).length := by
  induction list using members.induct with
  | case1 start limit list ih =>
    obtain ⟨hstart, hinc⟩ := List.pairwise_cons.mp hinc
    have hlt := hstart limit List.mem_cons_self
    rw [sumRanges, members, ih (List.pairwise_cons.mp hinc).2, List.length_append, List.length_map,
      List.length_range]
    omega
  | case2 list hne => rw [members.eq_2 list hne, sumRanges.eq_2 list hne]; rfl

theorem charAtLoop_eq (hinc : list.Pairwise (· < ·)) {index : Int} (hindex : 0 ≤ index) :
    charAtLoop list index = (members list).getD index.toNat (-1) := by
  induction list using members.induct generalizing index with
  | case1 start limit list ih =>
    obtain ⟨hstart, hinc⟩ := List.pairwise_cons.mp hinc
    have hlt := hstart limit List.mem_cons_self
    rw [charAtLoop, members]
    by_cases hcount : index < limit - start
    · rw [if_pos hcount, List.getD_append _ _ _ _ (by simp; omega), List.getD_eq_getElem?_getD,
        List.getElem?_map, List.getElem?_range (by omega)]
      simp
      omega
    · rw [if_neg hcount, ih (List.pairwise_cons.mp hinc).2 (by omega),
        List.getD_append_right _ _ _ _
        (by simp; omega), List.length_map, List.length_range]
      congr 1
      omega
  | case2 list hne => rw [members.eq_2 list hne, charAtLoop.eq_2 list index hne]; rfl

theorem indexOfLoop_member (hinc : list.Pairwise (· < ·)) {i : Nat}
    (hi : (members list)[i]? = some c) (n : Int) : indexOfLoop c list n = some (n + i) := by
  induction list using members.induct generalizing i n with
  | case1 start limit list ih =>
    obtain ⟨hstart, hinc⟩ := List.pairwise_cons.mp hinc
    obtain ⟨hlimit, hinc⟩ := List.pairwise_cons.mp hinc
    have hlt := hstart limit List.mem_cons_self
    rw [members, List.getElem?_append, List.length_map, List.length_range] at hi
    rw [indexOfLoop]
    split at hi
    · rw [List.getElem?_map, List.getElem?_range (by omega)] at hi
      obtain rfl : start + i = c := Option.some.inj hi
      rw [if_neg (by omega), if_pos (by omega), Option.some.injEq]
      omega
    · obtain ⟨y, hy, -, -, hle, -⟩ := between_of_mem (List.mem_of_getElem? hi)
      have := hlimit y hy
      rw [if_neg (by omega), if_neg (by omega), ih hinc hi, Option.some.injEq]
      omega
  | case2 list hne =>
    rw [members.eq_2 list hne] at hi
    cases hi

theorem indexOfLoop_absent (hinc : list.Pairwise (· < ·))
    (hlast : ∃ x, list.getLast? = some x ∧ c < x) (hc : c ∉ members list) (n : Int) :
    indexOfLoop c list n = some (-1) := by
  induction list using members.induct generalizing n with
  | case1 start limit list ih =>
    rw [members, List.mem_append, mem_range_iff] at hc
    rw [indexOfLoop]
    by_cases hstart : c < start
    · rw [if_pos hstart]
    rw [if_neg hstart, if_neg (by omega)]
    obtain ⟨x, hx, hcx⟩ := hlast
    cases list with
    | nil =>
      obtain rfl : limit = x := by simpa using hx
      omega
    | cons y list =>
      rw [List.getLast?_cons_cons, List.getLast?_cons_cons] at hx
      exact ih (hinc.tail.tail) ⟨x, hx, hcx⟩ (fun h => hc (.inr h)) _
  | case2 list hne =>
    obtain ⟨x, hx, hcx⟩ := hlast
    cases list with
    | nil => cases hx
    | cons y list =>
      cases list with
      | nil =>
        obtain rfl : y = x := by simpa using hx
        exact if_pos hcx
      | cons z list => exact absurd rfl (hne y z list)

/-- Every set that a run leaves numbers its members in ascending order. -/
theorem eval_members (e : SetExpr) : ∃ set, e.eval = some set ∧ ∃ ms : List Int,
    ms.Pairwise (· < ·) ∧ (∀ c, c ∈ ms ↔ c ∈ e.denote) ∧ set.size = ms.length ∧
      (∀ index, set.charAt index = if 0 ≤ index then ms.getD index.toNat (-1) else -1) ∧
      (∀ (i : Nat) c, ms[i]? = some c → set.indexOf c = some (i : Int)) ∧
      ∀ c, c ∉ ms → set.indexOf c = some (-1) := by
  obtain ⟨set, hset, hd⟩ := e.eval_denotes
  have hl := hd.codePointSet.list
  have hinc := hl.increasing
  have hlast := hl.terminated
  have hmem : ∀ c ∈ codePoints, c ∈ members set.list ↔ c ∈ e.denote := by
    intro c hc
    rw [mem_members hinc fun x hx => ?_, hd.covers_iff c hc]
    rw [hlast, Option.some.injEq] at hx
    exact hx ▸ lt_high_of_mem hc
  have hcode : ∀ c ∈ members set.list, c ∈ codePoints := by
    intro c hc
    obtain ⟨x, hx, y, hy, hle, hlt⟩ := between_of_mem hc
    exact ⟨(hl.nonneg x hx).trans hle, Int.le_of_lt_add_one (hlt.trans_le (hl.le_high hy))⟩
  refine ⟨set, hset, members set.list, pairwise_members hinc, fun c => ?_, ?_, fun index => ?_,
    fun i c hi => ?_, fun c hc => ?_⟩
  · exact ⟨fun h => (hmem c (hcode c h)).mp h, fun h => (hmem c (hd.subset h)).mpr h⟩
  · rw [size, sumRanges_eq hinc, hd.codePointSet.strings]
    exact add_zero _
  · rw [charAt]
    split
    · next hindex => exact charAtLoop_eq hinc hindex
    · rfl
  · have hc := hcode c (List.mem_of_getElem? hi)
    rw [indexOf, if_neg (by have := hc.1; have := hc.2; omega), indexOfLoop_member hinc hi,
      zero_add]
  · rw [indexOf]
    split
    · rfl
    · next hin =>
      push Not at hin
      exact indexOfLoop_absent hinc ⟨_, hlast, lt_high_of_mem hin⟩ hc 0

end Icu.UnicodeSet
