import Icu.Rbbi.SetBuilder

/-! # The ranges of the set builder

Dividing the ranges keeps the partition of the code points, and each code point comes to the sets
that it is a member of.
-/

namespace Icu.Rbbi

open UnicodeSet Lib Lib.InversionList

variable {start c : Int} {list : List Int} {ix : Nat}

/-- The ranges follow each other from `start` up to the last code point. -/
def IsPartition : Int → List RangeDescriptor → Prop
  | start, [] => start = unicodesetHigh
  | start, r :: rest =>
    r.fStartChar = start ∧ r.fStartChar ≤ r.fEndChar ∧ IsPartition (r.fEndChar + 1) rest

/-- The sets for a code point, by the first range that does not end below it. -/
def setsAt (c : Int) : List RangeDescriptor → List Nat
  | [] => []
  | r :: rest => if c ≤ r.fEndChar then r.fIncludesSets else setsAt c rest

def RangeDescriptor.Contains (r : RangeDescriptor) (c : Int) : Prop :=
  r.fStartChar ≤ c ∧ c ≤ r.fEndChar

variable {rl : List RangeDescriptor}

theorem IsPartition.le_high (h : IsPartition start rl) : start ≤ unicodesetHigh := by
  induction rl generalizing start with
  | nil => exact le_of_eq h
  | cons r rest ih =>
    obtain ⟨rfl, hle, hrest⟩ := h
    have := ih hrest
    omega

variable {r : RangeDescriptor}

theorem IsPartition.start_le (h : IsPartition start rl)
    (hr : r ∈ rl) : start ≤ r.fStartChar ∧ r.fStartChar ≤ r.fEndChar := by
  induction rl generalizing start with
  | nil => exact absurd hr List.not_mem_nil
  | cons s rest ih =>
    obtain ⟨rfl, hle, hrest⟩ := h
    rcases List.mem_cons.mp hr with rfl | hr
    · exact ⟨le_refl _, hle⟩
    have := ih hrest hr
    omega

theorem IsPartition.setsAt_eq (h : IsPartition start rl) (hr : r ∈ rl) (hc : r.Contains c) :
    setsAt c rl = r.fIncludesSets := by
  induction rl generalizing start with
  | nil => exact absurd hr List.not_mem_nil
  | cons s rest ih =>
    obtain ⟨rfl, hle, hrest⟩ := h
    rcases List.mem_cons.mp hr with rfl | hr
    · rw [setsAt, if_pos hc.2]
    have := (hrest.start_le hr).1
    have hlt := hc.1
    rw [setsAt, if_neg (by omega)]
    exact ih hrest hr

/-! ## One input set -/

theorem drop_cases (h : IsInversionList list) (index : Nat) :
    (list.length / 2 ≤ index ∧ ∀ c < unicodesetHigh, covers (list.drop (index * 2)) c = false) ∨
    (index < list.length / 2 ∧ ∃ x y, list[index * 2]? = some x ∧ list[index * 2 + 1]? = some y ∧
      x < y ∧ y ≤ unicodesetHigh ∧ (∀ z, list[(index + 1) * 2 + 1]? = some z → y < z) ∧
      (∀ c < x, covers (list.drop (index * 2)) c = false) ∧ ∀ c, covers (list.drop (index * 2)) c =
        (decide (x ≤ c ∧ c < y) || covers (list.drop ((index + 1) * 2)) c)) := by
  by_cases hindex : list.length / 2 ≤ index
  · refine .inl ⟨hindex, fun c hc => ?_⟩
    apply covers_of_forall_lt
    intro x hx
    -- at most the sentinel is left
    obtain ⟨body, rfl, -⟩ := h.eq_append
    have hbody : body.length ≤ index * 2 := by
      rw [List.length_append, List.length_singleton] at hindex
      omega
    rw [List.drop_append, List.drop_eq_nil_of_le hbody, List.nil_append] at hx
    rw [List.mem_singleton.mp (List.mem_of_mem_drop hx)]
    exact hc
  have h0 : index * 2 < list.length := by omega
  have h1 : index * 2 + 1 < list.length := by omega
  have hdrop : list.drop (index * 2) =
      list[index * 2] :: list[index * 2 + 1] :: list.drop ((index + 1) * 2) := by
    rw [List.drop_eq_getElem_cons h0, List.drop_eq_getElem_cons h1]
    rw [Nat.add_mul]
  have hsorted : (list.drop (index * 2)).Pairwise (· < ·) :=
    h.increasing.sublist (List.drop_sublist _ _)
  rw [hdrop] at hsorted
  obtain ⟨hx, hy, -⟩ : (∀ z ∈ _, _) ∧ (∀ z ∈ _, _) ∧ _ := by
    simpa only [List.pairwise_cons] using hsorted
  have hlt := hx _ List.mem_cons_self
  refine .inr ⟨by omega, _, _, List.getElem?_eq_getElem h0, List.getElem?_eq_getElem h1, hlt,
    h.le_high (List.getElem_mem h1), fun z hz => ?_, fun c hc => ?_, fun c => ?_⟩
  · apply hy z
    rw [← List.getElem?_drop] at hz
    exact List.mem_of_getElem? hz
  · rw [hdrop]
    apply covers_of_forall_lt
    intro z hz
    rcases List.mem_cons.mp hz with rfl | hz
    · exact hc
    · exact lt_trans hc (hx z hz)
  · rw [hdrop]
    exact covers_pair (le_of_lt hlt) (fun z hz => le_of_lt (hy z hz)) c

/-- A range of a valid list does not end before the first code point. -/
theorem end_pos (h : IsInversionList list) {y : Int} (hy : list[1]? = some y) : 0 < y := by
  obtain ⟨hlength, -⟩ := List.getElem?_eq_some_iff.mp hy
  rcases drop_cases h 0 with ⟨hdone, -⟩ | ⟨-, x, z, hx, hz, hxz, -⟩
  · omega
  have hnonneg := h.nonneg x (List.mem_of_getElem? hx)
  rw [unicodesetLow] at hnonneg
  obtain rfl : z = y := Option.some.inj (hz.symm.trans hy)
  omega

/-- From a range on, the rest of an input set comes to an end, and comes to all its members. -/
def Included (inputSet : UnicodeSet) (usetNode index : Nat) (start : Int)
    (rl : List RangeDescriptor) : Prop :=
  ∃ bound rl', (∀ fuel ≥ bound, includeRanges inputSet usetNode fuel rl index = some rl') ∧
    IsPartition start rl' ∧ ∀ c, start ≤ c → c < unicodesetHigh → setsAt c rl' =
      setsAt c rl ++ if covers (inputSet.list.drop (index * 2)) c then [usetNode] else []

theorem enough_fuel {P : Nat → Prop} {bound : Nat} (h : ∀ fuel ≥ bound, P (fuel + 1)) :
    ∀ fuel ≥ bound + 1, P fuel
  | 0, hfuel => absurd hfuel (by omega)
  | fuel + 1, hfuel => h fuel (by omega)

theorem setsAt_split {position : Int} (h : position ≤ r.fEndChar) (c : Int)
    (rest : List RangeDescriptor) :
    setsAt c ((r.split position).1 :: (r.split position).2 :: rest) = setsAt c (r :: rest) := by
  have hlast : (r.split position).1.fEndChar = position - 1 := rfl
  rw [setsAt, setsAt, setsAt]
  by_cases hc : c ≤ position - 1
  · rw [if_pos (by omega), if_pos (by omega)]
    rfl
  · rw [if_neg (by omega)]
    rfl

section

variable {inputSet : UnicodeSet} {usetNode index : Nat} {x y : Int}

theorem includeRanges_cons (hindex : index < inputSet.list.length / 2)
    (hx : inputSet.list[index * 2]? = some x) (hy : inputSet.list[index * 2 + 1]? = some y)
    (fuel : Nat) (r : RangeDescriptor) (rest : List RangeDescriptor) :
    includeRanges inputSet usetNode (fuel + 1) (r :: rest) index =
      if r.fEndChar < x then (includeRanges inputSet usetNode fuel rest index).map (r :: ·)
      else if r.fStartChar < x then
        includeRanges inputSet usetNode fuel ((r.split x).1 :: (r.split x).2 :: rest) index
      else if y ≤ r.fEndChar then
        (includeRanges inputSet usetNode fuel ((r.split y).2 :: rest) (index + 1)).map
          ((r.split y).1.addSet usetNode :: ·)
      else
        (includeRanges inputSet usetNode fuel rest
          (if y = r.fEndChar + 1 then index + 1 else index)).map (r.addSet usetNode :: ·) := by
  have hguard : ¬ index ≥ inputSet.getRangeCount := by
    rw [getRangeCount]
    omega
  have hstart : inputSet.getRangeStart index = some x := hx
  have hend : inputSet.getRangeEnd index = some (y - 1) := by rw [getRangeEnd, hy, Option.map_some]
  rw [includeRanges.eq_def inputSet usetNode (fuel + 1)]
  dsimp only
  rw [if_neg hguard, hstart, hend]
  dsimp only
  split
  · rfl
  split
  · rfl
  by_cases hlast : y ≤ r.fEndChar
  · rw [if_pos (by omega), if_pos hlast, Int.sub_add_cancel]
    simp only [RangeDescriptor.split, if_true]
  · rw [if_neg (by omega), if_neg hlast]
    simp only [sub_eq_iff_eq_add]

variable {rest : List RangeDescriptor}

theorem Included.skip (hindex : index < inputSet.list.length / 2)
    (hx : inputSet.list[index * 2]? = some x) (hy : inputSet.list[index * 2 + 1]? = some y)
    (hcovers : ∀ c < x, covers (inputSet.list.drop (index * 2)) c = false)
    (hle : r.fStartChar ≤ r.fEndChar)
    (hbelow : r.fEndChar < x) (h : Included inputSet usetNode index (r.fEndChar + 1) rest) :
    Included inputSet usetNode index r.fStartChar (r :: rest) := by
  obtain ⟨bound, rl', hrun, hpartition, hsets⟩ := h
  refine ⟨bound + 1, r :: rl', enough_fuel fun fuel hfuel => ?_, ⟨rfl, hle, hpartition⟩,
    fun c hc hlimit => ?_⟩
  · rw [includeRanges_cons hindex hx hy, if_pos hbelow, hrun fuel hfuel, Option.map_some]
  rw [setsAt, setsAt]
  split
  · next hend => simp [hcovers c (by omega)]
  · next hend => exact hsets c (by omega) hlimit

/-- A range that begins before the input range is split, and its first part is skipped. -/
theorem Included.split (hindex : index < inputSet.list.length / 2)
    (hx : inputSet.list[index * 2]? = some x) (hy : inputSet.list[index * 2 + 1]? = some y)
    (hcovers : ∀ c < x, covers (inputSet.list.drop (index * 2)) c = false)
    (hbefore : r.fStartChar < x)
    (hend : x ≤ r.fEndChar) (h : Included inputSet usetNode index x ((r.split x).2 :: rest)) :
    Included inputSet usetNode index r.fStartChar (r :: rest) := by
  have hlast : (r.split x).1.fEndChar = x - 1 := rfl
  have hskip : Included inputSet usetNode index r.fStartChar
      ((r.split x).1 :: (r.split x).2 :: rest) := by
    refine Included.skip (r := (r.split x).1) hindex hx hy hcovers ?_ ?_ ?_
    · exact Int.le_sub_one_of_lt hbefore
    · omega
    · rwa [hlast, Int.sub_add_cancel]
  obtain ⟨bound, rl', hrun, hpartition, hsets⟩ := hskip
  refine ⟨bound + 1, rl', enough_fuel fun fuel hfuel => ?_, hpartition, fun c hc hlimit => ?_⟩
  · rw [includeRanges_cons hindex hx hy, if_neg (by omega), if_pos hbefore, hrun fuel hfuel]
  · rw [hsets c hc hlimit, setsAt_split hend]

theorem Included.added (hinside : ∀ c, x ≤ c → c < y →
      covers (inputSet.list.drop (index * 2)) c = true) {r : RangeDescriptor}
    {rest rl' : List RangeDescriptor} (hfresh : usetNode ∉ r.fIncludesSets)
    (hle : r.fStartChar ≤ r.fEndChar) (hstart : x ≤ r.fStartChar) (hlt : r.fEndChar < y)
    (hpartition : IsPartition (r.fEndChar + 1) rl')
    (hsets : ∀ c, r.fEndChar < c → c < unicodesetHigh → setsAt c rl' =
      setsAt c rest ++ if covers (inputSet.list.drop (index * 2)) c then [usetNode] else []) :
    IsPartition r.fStartChar (r.addSet usetNode :: rl') ∧
      ∀ c, r.fStartChar ≤ c → c < unicodesetHigh → setsAt c (r.addSet usetNode :: rl') =
        setsAt c (r :: rest) ++
          if covers (inputSet.list.drop (index * 2)) c then [usetNode] else [] := by
  rw [RangeDescriptor.addSet, if_neg hfresh]
  refine ⟨⟨rfl, hle, hpartition⟩, fun c hc hlimit => ?_⟩
  simp only [setsAt]
  split
  · next hend => rw [hinside c (by omega) (by omega), if_pos rfl]
  · next hend => exact hsets c (by omega) hlimit

theorem Included.process (hindex : index < inputSet.list.length / 2)
    (hx : inputSet.list[index * 2]? = some x) (hy : inputSet.list[index * 2 + 1]? = some y)
    (hcovers : ∀ c, covers (inputSet.list.drop (index * 2)) c =
      (decide (x ≤ c ∧ c < y) || covers (inputSet.list.drop ((index + 1) * 2)) c))
    (hfresh : usetNode ∉ r.fIncludesSets)
    (hrest : IsPartition (r.fEndChar + 1) rest) (hle : r.fStartChar ≤ r.fEndChar)
    (hstart : x ≤ r.fStartChar) (hlt : r.fStartChar < y)
    (hnext : ∀ {rl : List RangeDescriptor}, (∀ s ∈ rl, s ∈ rest ∨ s = (r.split y).2) →
      IsPartition y rl → Included inputSet usetNode (index + 1) y rl)
    (hsame : r.fEndChar + 1 < y → Included inputSet usetNode index (r.fEndChar + 1) rest) :
    Included inputSet usetNode index r.fStartChar (r :: rest) := by
  have hinside : ∀ c, x ≤ c → c < y → covers (inputSet.list.drop (index * 2)) c = true := by
    intro c hc hcy
    rw [hcovers, decide_eq_true ⟨hc, hcy⟩, Bool.true_or]
  have hbehind : ∀ c, y ≤ c → covers (inputSet.list.drop (index * 2)) c =
      covers (inputSet.list.drop ((index + 1) * 2)) c := by
    intro c hc
    rw [hcovers, decide_eq_false (by omega), Bool.false_or]
  rcases lt_trichotomy (r.fEndChar + 1) y with hend | hend | hend
  · -- the input range goes on in the next range
    obtain ⟨bound, rl', hrun, hpartition, hsets⟩ := hsame hend
    refine ⟨bound + 1, _, enough_fuel fun fuel hfuel => ?_, Included.added hinside hfresh hle hstart
      (by omega) hpartition fun c hc => hsets c (by omega)⟩
    rw [includeRanges_cons hindex hx hy, if_neg (by omega), if_neg (by omega), if_neg (by omega),
      if_neg (by omega), hrun fuel hfuel, Option.map_some]
  · -- both end
    obtain ⟨bound, rl', hrun, hpartition, hsets⟩ :=
      @hnext rest (fun s hs => .inl hs) (hend ▸ hrest)
    refine ⟨bound + 1, _, enough_fuel fun fuel hfuel => ?_, Included.added hinside hfresh hle hstart
      (by omega) (hend ▸ hpartition) fun c hc hlimit => ?_⟩
    · rw [includeRanges_cons hindex hx hy, if_neg (by omega), if_neg (by omega), if_neg (by omega),
        if_pos hend.symm, hrun fuel hfuel, Option.map_some]
    · rw [hsets c (by omega) hlimit, hbehind c (by omega)]
  · -- the range goes on behind the input range
    obtain ⟨bound, rl', hrun, hpartition, hsets⟩ := @hnext ((r.split y).2 :: rest)
      (fun s hs => (List.mem_cons.mp hs).symm) ⟨rfl, Int.lt_add_one_iff.mp hend, hrest⟩
    have hlast : (r.split y).1.fEndChar + 1 = y := Int.sub_add_cancel y 1
    obtain ⟨hadded, hadded'⟩ := @Included.added inputSet usetNode index x y hinside (r.split y).1
      ((r.split y).2 :: rest) rl' hfresh (by omega : r.fStartChar ≤ y - 1) hstart (by omega)
      (by rwa [hlast]) fun c hc hlimit => by
        rw [hsets c (by omega) hlimit, hbehind c (by omega)]
    refine ⟨bound + 1, _, enough_fuel fun fuel hfuel => ?_, hadded, fun c hc hlimit => ?_⟩
    · rw [includeRanges_cons hindex hx hy, if_neg (by omega), if_neg (by omega), if_pos (by omega),
        hrun fuel hfuel, Option.map_some]
    · rw [hadded' c hc hlimit, setsAt_split (by omega)]

end

/-- The outer induction is on the ranges of the input set, the inner one on the ranges of the
list. -/
theorem included {inputSet : UnicodeSet} (hvalid : IsInversionList inputSet.list) {usetNode : Nat}
    (k : Nat) {index : Nat} (hk : inputSet.list.length / 2 - index = k) {start : Int}
    {rl : List RangeDescriptor} (hfresh : ∀ r ∈ rl, usetNode ∉ r.fIncludesSets)
    (hpartition : IsPartition start rl)
    (hstart : ∀ y, inputSet.list[index * 2 + 1]? = some y → start < y) :
    Included inputSet usetNode index start rl := by
  induction k using Nat.strong_induction_on generalizing index start rl with
  | _ k ihk =>
    rcases drop_cases hvalid index with ⟨hdone, hcovers⟩ |
      ⟨hindex, x, y, hx, hy, hxy, hlimit, hlast, hbelow, hcovers⟩
    · refine ⟨1, rl, enough_fuel fun fuel _ => ?_, hpartition,
        fun c _ hlimit => by simp [hcovers c hlimit]⟩
      rw [includeRanges.eq_def]
      exact if_pos hdone
    have hlt := hstart y hy
    clear hstart
    induction rl generalizing start with
    | nil =>
      rw [IsPartition] at hpartition
      omega
    | cons r rest ih =>
      obtain ⟨rfl, hle, hrest⟩ := hpartition
      obtain ⟨hr, hfresh'⟩ := List.forall_mem_cons.mp hfresh
      have hsame : r.fEndChar + 1 < y →
          Included inputSet usetNode index (r.fEndChar + 1) rest :=
        fun hend => ih hfresh' hrest hend
      have hnext : ∀ {rl : List RangeDescriptor},
          (∀ s ∈ rl, s ∈ rest ∨ s = (r.split y).2) → IsPartition y rl →
          Included inputSet usetNode (index + 1) y rl := by
        intro rl hrl hpartition
        refine ihk _ (by omega) rfl (fun s hs => ?_) hpartition hlast
        rcases hrl s hs with hs | rfl
        · exact hfresh' s hs
        · exact hr
      by_cases hend : r.fEndChar < x
      · exact Included.skip hindex hx hy hbelow hle hend (hsame (by omega))
      by_cases hbefore : r.fStartChar < x
      · refine Included.split hindex hx hy hbelow hbefore (by omega) ?_
        exact Included.process (r := (r.split x).2) hindex hx hy hcovers hr hrest
          (Int.not_lt.mp hend) (le_refl x) hxy hnext hsame
      · exact Included.process hindex hx hy hcovers hr hrest hle (by omega) hlt hnext hsame

/-- The ranges are not numbered yet. -/
theorem includeRanges_fNum {inputSet : UnicodeSet} {usetNode fuel index : Nat}
    {rl' : List RangeDescriptor}
    (h : includeRanges inputSet usetNode fuel rl index = some rl') (hnum : ∀ r ∈ rl, r.fNum = 0) :
    ∀ r ∈ rl', r.fNum = 0 := by
  have haddSet : ∀ r : RangeDescriptor, (r.addSet usetNode).fNum = r.fNum := by
    intro r
    rw [RangeDescriptor.addSet]
    split <;> rfl
  induction fuel generalizing rl rl' index with
  | zero => simp [includeRanges] at h
  | succ fuel ih =>
    rw [includeRanges.eq_def] at h
    dsimp only at h
    split at h
    · rwa [← Option.some.inj h]
    split at h
    · next r rest start stop _ _ =>
      obtain ⟨hr, hrest⟩ := List.forall_mem_cons.mp hnum
      split at h
      · obtain ⟨rl'', hrun, rfl⟩ := Option.map_eq_some_iff.mp h
        exact List.forall_mem_cons.mpr ⟨hr, ih hrun hrest⟩
      split at h
      · exact ih h (List.forall_mem_cons.mpr ⟨hr, List.forall_mem_cons.mpr ⟨hr, hrest⟩⟩)
      obtain ⟨rl'', hrun, rfl⟩ := Option.map_eq_some_iff.mp h
      rw [List.forall_mem_cons, haddSet]
      by_cases hstop : r.fEndChar > stop
      · rw [if_pos hstop] at hrun ⊢
        exact ⟨hr, ih hrun (List.forall_mem_cons.mpr ⟨hr, hrest⟩)⟩
      · rw [if_neg hstop] at hrun ⊢
        exact ⟨hr, ih hrun hrest⟩
    · contradiction

/-- The indices of the sets with a code point, where `ni` is the index of the first set. -/
def setsOf (c : Int) : List UsetNode → Nat → List Nat
  | [], _ => []
  | usetNode :: fUSetNodes, ni =>
    (if covers usetNode.fInputSet.list c then [ni] else []) ++ setsOf c fUSetNodes (ni + 1)

theorem mem_setsOf {fUSetNodes : List UsetNode} {ni : Nat} :
    ix ∈ setsOf c fUSetNodes ni ↔ ni ≤ ix ∧ ∃ usetNode, fUSetNodes[ix - ni]? = some usetNode ∧
      covers usetNode.fInputSet.list c = true := by
  induction fUSetNodes generalizing ni with
  | nil => simp [setsOf]
  | cons usetNode fUSetNodes ih =>
    rw [setsOf, List.mem_append, ih]
    rcases Nat.lt_trichotomy ix ni with h | rfl | h
    · have h1 : ¬ ni ≤ ix := by omega
      have h2 : ¬ ni + 1 ≤ ix := by omega
      have h3 : ix ≠ ni := by omega
      simp [h1, h2, h3]
    · simp
    · have h1 : ni ≤ ix := by omega
      have h2 : ni + 1 ≤ ix := by omega
      have h3 : ix ≠ ni := by omega
      have h4 : ix - ni = ix - (ni + 1) + 1 := by omega
      simp [h1, h2, h3, h4]

theorem mem_of_mem_setsAt (h : ix ∈ setsAt c rl) : ∃ r ∈ rl, ix ∈ r.fIncludesSets := by
  induction rl with
  | nil => exact absurd h List.not_mem_nil
  | cons r rest ih =>
    rw [setsAt] at h
    split at h
    · exact ⟨r, List.mem_cons_self, h⟩
    obtain ⟨s, hs, hmem⟩ := ih h
    exact ⟨s, List.mem_cons_of_mem r hs, hmem⟩

theorem IsPartition.end_lt (h : IsPartition start rl)
    (hr : r ∈ rl) : r.fEndChar < unicodesetHigh := by
  induction rl generalizing start with
  | nil => exact absurd hr List.not_mem_nil
  | cons s rest ih =>
    obtain ⟨rfl, hle, hrest⟩ := h
    rcases List.mem_cons.mp hr with rfl | hr
    · have := hrest.le_high
      omega
    · exact ih hrest hr

theorem divideRanges_spec {fUSetNodes : List UsetNode} {ni : Nat} {rl : List RangeDescriptor}
    (hpartition : IsPartition 0 rl) (hfresh : ∀ r ∈ rl, ∀ ix ∈ r.fIncludesSets, ix < ni)
    (hnum : ∀ r ∈ rl, r.fNum = 0) :
    ∃ bound rl', (∀ fuel ≥ bound, divideRanges fuel fUSetNodes ni rl = some rl') ∧
      IsPartition 0 rl' ∧ (∀ r ∈ rl', r.fNum = 0) ∧
      ∀ c, 0 ≤ c → c < unicodesetHigh → setsAt c rl' = setsAt c rl ++ setsOf c fUSetNodes ni := by
  induction fUSetNodes generalizing ni rl with
  | nil => exact ⟨0, rl, fun _ _ => rfl, hpartition, hnum, fun c _ _ => by simp [setsOf]⟩
  | cons usetNode fUSetNodes ih =>
    obtain ⟨bound, mid, hrun, hmid, hsets⟩ := @included usetNode.fInputSet usetNode.valid ni _ 0 rfl
      0 rl (fun r hr hcon => absurd (hfresh r hr ni hcon) (lt_irrefl ni)) hpartition
      fun y hy => end_pos usetNode.valid hy
    have hmidfresh : ∀ r ∈ mid, ∀ ix ∈ r.fIncludesSets, ix < ni + 1 := by
      intro r hr ix hix
      have hstart := hmid.start_le hr
      have hend := hmid.end_lt hr
      rw [← hmid.setsAt_eq hr ⟨le_refl _, hstart.2⟩, hsets _ hstart.1 (by omega),
        List.mem_append] at hix
      rcases hix with hix | hix
      · obtain ⟨s, hs, hmem⟩ := mem_of_mem_setsAt hix
        exact Nat.lt_succ_of_lt (hfresh s hs ix hmem)
      split at hix
      · rw [List.mem_singleton.mp hix]
        exact Nat.lt_succ_self ni
      · exact absurd hix List.not_mem_nil
    obtain ⟨bound', rl', hrun', hpartition', hnum', hsets'⟩ :=
      ih hmid hmidfresh (includeRanges_fNum (hrun bound (le_refl bound)) hnum)
    refine ⟨max bound bound', rl', fun fuel hfuel => ?_, hpartition', hnum', fun c hc hlimit => ?_⟩
    · rw [divideRanges, hrun fuel (le_trans (le_max_left _ _) hfuel)]
      exact hrun' fuel (le_trans (le_max_right _ _) hfuel)
    · rw [hsets' c hc hlimit, hsets c hc hlimit, setsOf, List.append_assoc]
      rfl

end Icu.Rbbi
