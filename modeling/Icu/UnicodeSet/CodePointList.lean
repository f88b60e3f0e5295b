import Icu.Lib.InversionList
import Icu.Lib.LowerBound
import Mathlib.Data.Int.Order.Basic

/-! # The code point list of a set

A set of code points is stored as the increasing list of the starts and limits of
its ranges, closed by the sentinel `0x110000`. Code points are signed values, as
`UChar32` is, so that out-of-range arguments are representable. Reads are partial:
an operation that would read past the end has no result, so every total statement
below also says that the accesses stay inside the list.
-/

namespace Icu.UnicodeSet

open Lib Lib.InversionList

variable {c : Int}

def unicodesetHigh : Int := 0x110000

def unicodesetLow : Int := 0x000000

def minValue : Int := 0

def maxValue : Int := 0x10ffff

def pinCodePoint (c : Int) : Int :=
  if c < unicodesetLow then unicodesetLow
  else if c > unicodesetHigh - 1 then unicodesetHigh - 1
  else c

/-- The search shared by the two `findCodePoint` functions: the smallest index in
`lo..hi` whose entry is above `c`, assuming that there is one. -/
def searchCodePoint (list : List Int) (c : Int) (lo hi : Nat) : Option Nat := do
  let first ← list[lo]?
  if c < first then return lo
  -- High runner test: `c` is often after the last range.
  if lo ≥ hi then return hi
  let last ← list[hi - 1]?
  if c ≥ last then return hi
  lowerBound (fun i => list[i]?.map fun x => decide (c < x)) (hi - lo) lo hi

/-- `UnicodeSet::findCodePoint(c)`. -/
def findCodePoint (list : List Int) (c : Int) : Option Nat :=
  searchCodePoint list c 0 (list.length - 1)

/-- The class invariant: increasing, not negative, closed by one sentinel. -/
structure IsInversionList (list : List Int) : Prop where
  increasing : list.Pairwise (· < ·)
  nonneg : ∀ x ∈ list, unicodesetLow ≤ x
  terminated : list.getLast? = some unicodesetHigh

theorem pinCodePoint_mem (c : Int) : minValue ≤ pinCodePoint c ∧ pinCodePoint c ≤ maxValue := by
  unfold pinCodePoint minValue maxValue unicodesetHigh unicodesetLow
  split
  · omega
  · split <;> omega

theorem pinCodePoint_eq (h : minValue ≤ c) (h' : c ≤ maxValue) : pinCodePoint c = c := by
  unfold minValue maxValue at *
  unfold pinCodePoint unicodesetHigh unicodesetLow
  rw [if_neg (by omega), if_neg (by omega)]

/-- The restricted search finds the rank whenever the rank lies in the window. -/
theorem searchCodePoint_eq_rank {list : List Int} (hs : list.Pairwise (· < ·))
    {lo hi : Nat} (hlo : lo ≤ rank list c) (hhi : rank list c ≤ hi) (hlen : hi < list.length) :
    searchCodePoint list c lo hi = some (rank list c) := by
  obtain ⟨first, hfirst⟩ : ∃ x, list[lo]? = some x :=
    ⟨_, List.getElem?_eq_getElem (by omega)⟩
  have hf := le_iff_lt_rank hs (c := c) hfirst
  by_cases hcf : c < first
  · have : rank list c = lo := by omega
    simp [searchCodePoint, hfirst, hcf, this]
  have hlt : lo < rank list c := hf.mp (by omega)
  obtain ⟨last, hlast⟩ : ∃ x, list[hi - 1]? = some x :=
    ⟨_, List.getElem?_eq_getElem (by omega)⟩
  have hl := le_iff_lt_rank hs (c := c) hlast
  by_cases hcl : last ≤ c
  · have : rank list c = hi := by have := hl.mp hcl; omega
    simp [searchCodePoint, hfirst, hcf, hlast, hcl, this]
  have hr : rank list c ≤ hi - 1 := by
    by_contra hcon
    exact hcl (hl.mpr (by omega))
  obtain ⟨r, hr₁, -, -, hr₂, hr₃⟩ :=
    @lowerBound_spec (fun i => list[i]?.map fun x => decide (c < x))
      (fun i => rank list c ≤ i) _ (hi - lo) lo hi
      (by
        intro i _ hi'
        have hx := List.getElem?_eq_getElem (l := list) (i := i) (by omega)
        have hiff := le_iff_lt_rank hs (c := c) hx
        simp only [hx, Option.map_some, Option.some.injEq, decide_eq_decide]
        omega)
      (by omega) hhi (by omega) (Nat.le_refl _)
  have heq : r = rank list c := by omega
  have hge : ¬ hi ≤ lo := by omega
  simp [searchCodePoint, hfirst, hcf, hge, hlast, hcl, hr₁, heq]

namespace IsInversionList

variable {list : List Int}

section

variable (h : IsInversionList list)
include h

theorem ne_nil : list ≠ [] := by
  rintro rfl
  simpa using h.terminated

theorem eq_append : ∃ body, list = body ++ [unicodesetHigh] ∧ ∀ x ∈ body, x < unicodesetHigh := by
  obtain ⟨body, hb⟩ := List.getLast?_eq_some_iff.mp h.terminated
  refine ⟨body, hb, fun x hx => ?_⟩
  have hp := h.increasing
  rw [hb, List.pairwise_append] at hp
  exact hp.2.2 x hx _ (by simp)

theorem le_high {x : Int} (hx : x ∈ list) : x ≤ unicodesetHigh := by
  obtain ⟨body, rfl, hb⟩ := h.eq_append
  rcases List.mem_append.mp hx with hx | hx
  · exact Int.le_of_lt (hb x hx)
  simp only [List.mem_singleton] at hx
  omega

theorem rank_lt_length (hc : c < unicodesetHigh) : rank list c < list.length := by
  obtain ⟨body, rfl, hb⟩ := h.eq_append
  have : rank (body ++ [unicodesetHigh]) c = rank body c := by
    simp [rank, List.countP_append, hc]
  rw [this, List.length_append]
  have := rank_le_length body c
  simp
  omega

theorem findCodePoint_eq (hc : c < unicodesetHigh) : findCodePoint list c = some (rank list c) := by
  have hr := h.rank_lt_length hc
  exact searchCodePoint_eq_rank h.increasing (Nat.zero_le _) (by omega) (by omega)

end

end IsInversionList

theorem isInversionList_high : IsInversionList [unicodesetHigh] where
  increasing := List.pairwise_singleton _ _
  nonneg := by simp [unicodesetHigh, unicodesetLow]
  terminated := rfl

theorem eq_iff_covers_eq {l m : List Int} (hl : IsInversionList l) (hm : IsInversionList m) :
    l = m ↔ ∀ c, minValue ≤ c → c ≤ maxValue → covers l c = covers m c := by
  refine ⟨fun h => by simp [h], fun h => ?_⟩
  have hhigh : unicodesetHigh = maxValue + 1 := rfl
  refine eq_of_covers_eq hl.increasing hm.increasing fun c hc => ?_
  have hc0 : minValue ≤ c := hc.elim (hl.nonneg c) (hm.nonneg c)
  have hc1 : c ≤ unicodesetHigh := hc.elim hl.le_high hm.le_high
  by_cases hmax : c ≤ maxValue
  · exact h c hc0 hmax
  -- At the sentinel both lists have counted every entry of theirs but one.
  obtain ⟨bl, rfl, hbl⟩ := hl.eq_append
  obtain ⟨bm, rfl, hbm⟩ := hm.eq_append
  have hlast := h maxValue (by decide) (by decide)
  have hceq : c = unicodesetHigh := by omega
  have hup : ∀ b : List Int, (∀ x ∈ b, x < unicodesetHigh) →
      covers (b ++ [unicodesetHigh]) c = !covers (b ++ [unicodesetHigh]) maxValue := by
    intro b hb
    have h1 : covers b c = covers b maxValue := by
      rw [covers_of_forall_le fun x hx => by have := hb x hx; omega,
        covers_of_forall_le fun x hx => by have := hb x hx; omega]
    have h2 : ¬ unicodesetHigh ≤ maxValue := by omega
    rw [covers_append, covers_append, h1]
    simp [covers_cons, hceq, h2]
  rw [hup bl hbl, hup bm hbm, hlast]

end Icu.UnicodeSet
