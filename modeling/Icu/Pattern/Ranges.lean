import Icu.Pattern.Strings
import Mathlib.Data.List.Chain
import Mathlib.Algebra.Order.Archimedean.Basic

/-! # The ranges of a pattern

`_generatePattern` writes the ranges of a list of boundaries one after the other. Where a lead
surrogate ends a range and a trail surrogate starts the next one, they are read as one code
point. Then a boundary of the set is lost.
-/

namespace Icu.Pattern

open Utf16 UnicodeSet Lib.RangeNotation Lib.InversionList

variable {c : Int} {set : UnicodeSet}

/-- Boundaries of ranges, the last of them open or closed by the sentinel. -/
structure Boundaries (l : List Int) : Prop where
  increasing : l.Pairwise (· < ·)
  nonneg : ∀ x ∈ l, 0 ≤ x
  le_high : ∀ x ∈ l, x ≤ 0x110000
  terminated : ∀ x, l.getLast? = some x → x = 0x110000

def listed (l : List Int) : Set Int := {c | c ∈ UnicodeSet.codePoints ∧ covers l c = true}

theorem mem_codePoints_iff : c ∈ UnicodeSet.codePoints ↔ 0 ≤ c ∧ c ≤ 0x10ffff := Iff.rfl

theorem listed_nil : listed [] = ∅ := by
  ext c
  simp [listed]

namespace Boundaries

variable {x y : Int} {l : List Int}

theorem of_isInversionList (h : IsInversionList l) : Boundaries l where
  increasing := h.increasing
  nonneg := h.nonneg
  le_high x hx := by
    obtain ⟨body, hbody, hlt⟩ := h.eq_append
    rw [hbody, List.mem_append, List.mem_singleton] at hx
    rcases hx with hx | rfl
    · exact Int.le_of_lt (hlt x hx)
    · exact Int.le_refl _
  terminated x hx := Option.some.inj (hx.symm.trans h.terminated)

theorem tail (h : Boundaries (x :: l)) : Boundaries l where
  increasing := (List.pairwise_cons.mp h.increasing).2
  nonneg z hz := h.nonneg z (List.mem_cons_of_mem _ hz)
  le_high z hz := h.le_high z (List.mem_cons_of_mem _ hz)
  terminated z hz := by
    refine h.terminated z ?_
    cases l with
    | nil => cases hz
    | cons y l => rwa [List.getLast?_cons_cons]

theorem lt_of_mem (h : Boundaries (x :: l)) :
    ∀ z ∈ l, x < z := (List.pairwise_cons.mp h.increasing).1

theorem listed_singleton (h : Boundaries [x]) : listed [x] = ∅ := by
  have hx := h.terminated x rfl
  ext c
  simp only [listed, Set.mem_ofPred_eq, Set.mem_empty_iff_false, iff_false, mem_codePoints_iff]
  rintro ⟨hc, hcovers⟩
  rw [covers_of_forall_lt (by simp; omega)] at hcovers
  cases hcovers

theorem mem_listed (h : Boundaries (x :: y :: l)) :
    c ∈ listed (x :: y :: l) ↔ (x ≤ c ∧ c < y) ∨ c ∈ listed l := by
  have hx := h.nonneg x List.mem_cons_self
  have hy := h.le_high y (List.mem_cons_of_mem _ List.mem_cons_self)
  have hxy := h.lt_of_mem y List.mem_cons_self
  have hcovers := covers_pair (Int.le_of_lt hxy) (fun z hz => Int.le_of_lt (h.tail.lt_of_mem z hz))
    c
  simp only [listed, Set.mem_ofPred_eq, mem_codePoints_iff]
  rw [hcovers, Bool.or_eq_true, decide_eq_true_eq]
  constructor
  · rintro ⟨hc, hrange | hl⟩
    · exact Or.inl hrange
    · exact Or.inr ⟨hc, hl⟩
  · rintro (hrange | ⟨hc, hl⟩)
    · exact ⟨by omega, Or.inl hrange⟩
    · exact ⟨hc, Or.inr hl⟩

theorem not_mem_listed (h : ∀ z ∈ l, c < z) : c ∉ listed l := by
  rintro ⟨-, hcovers⟩
  rw [covers_of_forall_lt h] at hcovers
  cases hcovers

end Boundaries

def rangeWritten (escape : Bool) (start stop : Int) : List Written :=
  ⟨false, appendToPat escape start.toNat, start.toNat⟩ ::
    if start ≠ stop then
      [⟨decide (start + 1 ≠ stop), appendToPat escape stop.toNat, stop.toNat⟩]
    else []

def listWritten (escape : Bool) : List Int → List Written
  | x :: y :: l => rangeWritten escape x (y - 1) ++ listWritten escape l
  | _ => []

theorem unitsOfAll_append (ws vs : List Written) :
    unitsOfAll (ws ++ vs) = unitsOfAll ws ++ unitsOfAll vs := List.flatMap_append

theorem itemsOfAll_append (ws vs : List Written) :
    itemsOfAll (ws ++ vs) = itemsOfAll ws ++ itemsOfAll vs := List.flatMap_append

theorem appendRange_eq (escape : Bool) (start stop : Int) :
    appendRange escape start stop = unitsOfAll (rangeWritten escape start stop) := by
  rw [appendRange, rangeWritten, unitsOfAll_cons]
  congr 1
  by_cases h : start = stop
  · rw [if_neg (not_not.mpr h), if_neg (not_not.mpr h)]
    rfl
  rw [if_pos h, if_pos h]
  by_cases hnext : start + 1 = stop
  · simp [unitsOfAll, Written.units, hnext]
  · simp [unitsOfAll, Written.units, hnext]

theorem appendRanges_eq (escape : Bool) {set : UnicodeSet} {i : Nat} {pre l : List Int}
    (hlist : set.list = pre ++ l) (hpre : pre.length = i * 2) :
    appendRanges escape set i (l.length / 2) = some (unitsOfAll (listWritten escape l)) := by
  induction l using listWritten.induct generalizing i pre with
  | case1 x y l ih =>
    have hstart : set.getRangeStart i = some x := by
      rw [getRangeStart, hlist, List.getElem?_append_right (by omega), hpre, Nat.sub_self]
      rfl
    have hend : set.getRangeEnd i = some (y - 1) := by
      rw [getRangeEnd, hlist, List.getElem?_append_right (by omega), hpre,
        Nat.add_sub_cancel_left]
      rfl
    have hrec := @ih (i + 1) (pre ++ [x, y]) (by rw [hlist, List.append_assoc]; rfl)
      (by rw [List.length_append, hpre]; simp; omega)
    have hcount : (x :: y :: l).length / 2 = l.length / 2 + 1 := by
      rw [List.length_cons, List.length_cons]
      omega
    rw [hcount, appendRanges, hstart, hend, hrec, listWritten, unitsOfAll_append, ← appendRange_eq]
    rfl
  | case2 l h =>
    have hlen : l.length / 2 = 0 := by
      match l with
      | [] => decide
      | [x] => exact Nat.div_eq_of_lt (Nat.lt_succ_self 1)
      | x :: y :: l => exact absurd rfl (h x y l)
    rw [hlen, appendRanges, listWritten]
    · rfl
    · exact h

theorem appendGaps_eq (escape : Bool) (set : UnicodeSet) (i fuel : Nat) :
    appendGaps escape set (i + 1) fuel =
      appendRanges escape { set with list := set.list.tail } i fuel := by
  induction fuel generalizing i with
  | zero => rfl
  | succ fuel ih =>
    have hget : ∀ k, set.list.tail[k]? = set.list[k + 1]? := fun k => List.getElem?_tail
    have hgap : (set.getRangeEnd i).map (· + 1) =
        ({ set with list := set.list.tail } : UnicodeSet).getRangeStart i := by
      rw [getRangeStart, hget, getRangeEnd, Option.map_map]
      cases set.list[i * 2 + 1]? with
      | none => rfl
      | some x => exact congrArg some (Int.sub_add_cancel x 1)
    have hend : (set.getRangeStart (i + 1)).map (· - 1) =
        ({ set with list := set.list.tail } : UnicodeSet).getRangeEnd i := by
      rw [getRangeStart, getRangeEnd, hget, Nat.add_mul]
    rw [appendGaps, appendRanges, ih (i + 1), Nat.add_sub_cancel, ← hgap, ← hend]
    simp only [Option.bind_eq_bind, Option.bind_map]
    rfl

/-- The boundaries that are written: those of the set, or of its complement. -/
def writtenList (set : UnicodeSet) : List Int := if isInverted set then set.list.tail else set.list

theorem list_of_isInverted (h : IsInversionList set.list) (hinverted : isInverted set = true) :
    ∃ l, set.list = 0 :: l ∧ l ≠ [] ∧ (set.getRangeCount - 1 = l.length / 2) := by
  rw [isInverted, Bool.and_eq_true, Bool.and_eq_true, decide_eq_true_eq, beq_iff_eq,
    beq_iff_eq] at hinverted
  obtain ⟨⟨hcount, hstart⟩, hend⟩ := hinverted
  rw [getRangeCount] at hcount hend
  rw [getRangeStart] at hstart
  rw [getRangeEnd] at hend
  cases hlist : set.list with
  | nil => exact absurd hlist h.ne_nil
  | cons x l =>
    rw [hlist, Nat.zero_mul, List.getElem?_cons_zero, Option.some.injEq] at hstart
    rw [hlist, List.length_cons] at hcount
    rw [hlist, List.length_cons] at hend
    -- The last range ends with the sentinel, so the number of boundaries is even.
    have heven : (l.length + 1) % 2 = 0 := by
      by_contra hodd
      obtain ⟨body, hbody, hlt⟩ := h.eq_append
      obtain ⟨z, hz, hend⟩ := Option.map_eq_some_iff.mp hend
      have hlen : body.length = l.length := by
        have := congrArg List.length (hlist.symm.trans hbody)
        rw [List.length_cons, List.length_append, List.length_singleton] at this
        omega
      rw [← hlist, hbody, List.getElem?_append_left (by omega)] at hz
      have := hlt z (List.mem_of_getElem? hz)
      rw [show maxValue = 0x10ffff from rfl] at hend
      rw [show unicodesetHigh = 0x110000 from rfl] at this
      omega
    refine ⟨l, ?_, ?_, ?_⟩
    · rw [hstart]
      rfl
    · rintro rfl
      simp at hcount
    · rw [getRangeCount, hlist, List.length_cons]
      omega

theorem generatePattern_eq (h : IsInversionList set.list) (escape : Bool) :
    generatePattern set escape = some (opening (isInverted set) ++
      (unitsOfAll (listWritten escape (writtenList set)) ++
        (appendStrings escape set.strings ++ [0x5d]))) := by
  cases hinverted : isInverted set with
  | true =>
    obtain ⟨l, hlist, -, hcount⟩ := list_of_isInverted h hinverted
    have hgaps : appendGaps escape set 1 (set.getRangeCount - 1) =
        some (unitsOfAll (listWritten escape set.list.tail)) := by
      rw [appendGaps_eq, hcount]
      have := @appendRanges_eq escape { set with list := set.list.tail } 0 [] l
        (by rw [hlist]; rfl) rfl
      rw [this, hlist]
      rfl
    rw [generatePattern, if_pos hinverted, hgaps, writtenList, if_pos hinverted]
    simp [opening]
  | false =>
    have hranges : appendRanges escape set 0 set.getRangeCount =
        some (unitsOfAll (listWritten escape set.list)) :=
      @appendRanges_eq escape set 0 [] set.list rfl rfl
    rw [generatePattern, hinverted, if_neg Bool.false_ne_true, hranges, writtenList, hinverted,
      if_neg Bool.false_ne_true]
    simp [opening]

theorem boundaries_writtenList (h : IsInversionList set.list) : Boundaries (writtenList set) := by
  have hb := Boundaries.of_isInversionList h
  unfold writtenList
  split
  · next hinverted =>
    obtain ⟨l, hlist, -⟩ := list_of_isInverted h hinverted
    rw [hlist] at hb ⊢
    exact hb.tail
  · exact hb

section Written

variable (escape : Bool) {x y : Int} {l : List Int} {w : Written} {start stop : Int} {a : State Int}

theorem asWritten_listWritten (h : Boundaries l) : AsWritten escape (listWritten escape l) := by
  induction l using listWritten.induct with
  | case1 x y l ih =>
    have hy := h.le_high y (List.mem_cons_of_mem _ List.mem_cons_self)
    have hxy := h.lt_of_mem y List.mem_cons_self
    intro w hw
    rw [listWritten, List.mem_append] at hw
    rcases hw with hw | hw
    · rw [rangeWritten, List.mem_cons] at hw
      rcases hw with rfl | hw
      · exact ⟨rfl, by dsimp only; omega⟩
      split at hw
      · rw [List.mem_singleton.mp hw]
        exact ⟨rfl, by dsimp only; omega⟩
      · cases hw
    · exact ih h.tail.tail w hw
  | case2 l hl =>
    intro w hw
    rw [listWritten] at hw
    · cases hw
    · exact hl

theorem head_listWritten (hw : (listWritten escape l).head? = some w) :
    w.hyphen = false ∧ ∃ x l', l = x :: l' ∧ w.c = x.toNat := by
  match l with
  | [] => cases hw
  | [x] => cases hw
  | x :: y :: l =>
    cases hw
    exact ⟨rfl, x, y :: l, rfl, rfl⟩

theorem getLast_rangeWritten
    (hw : (rangeWritten escape start stop).getLast? = some w) : w.c = stop.toNat := by
  rw [rangeWritten] at hw
  split at hw
  · cases hw
    rfl
  · next h =>
    rw [not_not] at h
    rw [List.getLast?_singleton, Option.some.injEq] at hw
    rw [← hw, h]

theorem run_rangeWritten (hstart : 0 ≤ start) (hle : start ≤ stop) (ha : a.hyphen = false) :
    ∃ a', a.run (itemsOfAll (rangeWritten escape start stop)) = some a' ∧ a'.hyphen = false ∧
      a'.total = a.total ∪ Set.Icc start stop := by
  have hx : ((start.toNat : Nat) : Int) = start := by omega
  have hy : ((stop.toNat : Nat) : Int) = stop := by omega
  obtain ⟨a₁, hrun, hhyphen, htotal, -⟩ := State.run_char ha start
  rw [rangeWritten]
  by_cases hone : start = stop
  · refine ⟨a₁, ?_, hhyphen, ?_⟩
    · rw [if_neg (not_not.mpr hone), ← hrun]
      simp [itemsOfAll, Written.items, hx]
    · rw [htotal, ← hone, Set.Icc_self]
  rw [if_pos hone]
  by_cases htwo : start + 1 = stop
  · obtain ⟨a₂, hrun₂, hhyphen₂, htotal₂, -⟩ := State.run_char hhyphen stop
    refine ⟨a₂, ?_, hhyphen₂, ?_⟩
    · have hitems : itemsOfAll [⟨false, appendToPat escape start.toNat, start.toNat⟩,
          ⟨decide (start + 1 ≠ stop), appendToPat escape stop.toNat, stop.toNat⟩] =
          [.char start] ++ [.char stop] := by
        simp [itemsOfAll, Written.items, htwo, hx, hy]
      rw [hitems, State.run_append, hrun]
      exact hrun₂
    · rw [htotal₂, htotal, Set.union_assoc]
      congr 1
      ext c
      simp only [Set.mem_union, Set.mem_singleton_iff, Set.mem_Icc]
      omega
  · obtain ⟨a₂, hrun₂, hhyphen₂, htotal₂⟩ := State.run_range ha (show start < stop by omega)
    refine ⟨a₂, ?_, hhyphen₂, htotal₂⟩
    rw [← hrun₂]
    simp [itemsOfAll, Written.items, htwo, hx, hy]

theorem run_listWritten (h : Boundaries l) (ha : a.hyphen = false) :
    ∃ a', a.run (itemsOfAll (listWritten escape l)) = some a' ∧ a'.hyphen = false ∧
      a'.total = a.total ∪ listed l := by
  induction l using listWritten.induct generalizing a with
  | case1 x y l ih =>
    have hx := h.nonneg x List.mem_cons_self
    have hxy := h.lt_of_mem y List.mem_cons_self
    obtain ⟨a₁, hrun, hhyphen, htotal⟩ :=
      run_rangeWritten escape hx (show x ≤ y - 1 by omega) ha
    obtain ⟨a₂, hrun₂, hhyphen₂, htotal₂⟩ := ih h.tail.tail hhyphen
    refine ⟨a₂, ?_, hhyphen₂, ?_⟩
    · rw [listWritten, itemsOfAll_append, State.run_append, hrun]
      exact hrun₂
    rw [htotal₂, htotal, Set.union_assoc]
    congr 1
    ext c
    rw [h.mem_listed, Set.mem_union, Set.mem_Icc]
    constructor
    · rintro (hc | hc)
      · exact Or.inl (by omega)
      · exact Or.inr hc
    · rintro (hc | hc)
      · exact Or.inl (by omega)
      · exact Or.inr hc
  | case2 l hl =>
    have hempty : listed l = ∅ := by
      match l with
      | [] => exact listed_nil
      | [x] => exact h.listed_singleton
      | x :: y :: l => exact absurd rfl (hl x y l)
    have hwritten : listWritten escape l = [] := by
      rw [listWritten]
      exact hl
    rw [hwritten, hempty, Set.union_empty]
    exact ⟨a, rfl, ha, rfl⟩

/-- What the set has between two characters that follow each other. -/
structure Neighbours (D : Set Int) (u v : Written) : Prop where
  lt : u.c < v.c
  left : (u.c : Int) ∈ D
  right : (v.c : Int) ∈ D
  hyphen : v.hyphen = true → u.c + 1 < v.c ∧ (u.c + 1 : Int) ∈ D
  plain : v.hyphen = false → (u.c + 1 = v.c ∧ (u.c - 1 : Int) ∉ D ∧ (v.c + 1 : Int) ∉ D) ∨
    (u.c + 1 < v.c ∧ ∀ z : Int, u.c < z → z < v.c → z ∉ D)

/-- Two characters of one range, or the end of a range and the start of the next one. -/
theorem isChain_listWritten (h : Boundaries l) {D : Set Int} {low : Int} (hlow : ∀ z ∈ l, low < z)
    (hD : ∀ z, low ≤ z → (z ∈ D ↔ z ∈ listed l)) :
    (listWritten escape l).IsChain (Neighbours D) := by
  induction l using listWritten.induct generalizing low with
  | case1 x y l ih =>
    have hx := h.nonneg x List.mem_cons_self
    have hxy := h.lt_of_mem y List.mem_cons_self
    have hlx := hlow x List.mem_cons_self
    have habove := h.tail.lt_of_mem
    have hmem : ∀ z, low ≤ z → (z ∈ D ↔ (x ≤ z ∧ z < y) ∨ z ∈ listed l) := fun z hz => by
      rw [hD z hz, h.mem_listed]
    have hfirst : ∀ z, low ≤ z → x ≤ z → z < y → z ∈ D := fun z hz hxz hzy =>
      (hmem z hz).mpr (Or.inl ⟨hxz, hzy⟩)
    have hgap : ∀ z, y ≤ z → (∀ z' ∈ l, z < z') → z ∉ D := fun z hyz hz => by
      rw [hmem z (by omega)]
      rintro (hz' | hz')
      · omega
      · exact Boundaries.not_mem_listed hz hz'
    have hrec := ih h.tail.tail habove fun z hyz => by
      rw [hmem z (by omega)]
      constructor
      · rintro (hz | hz)
        · omega
        · exact hz
      · exact Or.inr
    rw [listWritten, List.isChain_append]
    refine ⟨?_, hrec, fun u hu v hv => ?_⟩
    · rw [rangeWritten]
      split
      · next hne =>
        rw [List.isChain_cons_cons]
        refine ⟨⟨?_, ?_, ?_, fun hhyphen => ?_, fun hhyphen => ?_⟩, List.isChain_singleton _⟩
        · dsimp only
          omega
        · exact hfirst _ (by dsimp only; omega) (by dsimp only; omega) (by dsimp only; omega)
        · exact hfirst _ (by dsimp only; omega) (by dsimp only; omega) (by dsimp only; omega)
        · rw [decide_eq_true_eq] at hhyphen
          refine ⟨by dsimp only; omega, ?_⟩
          exact hfirst _ (by dsimp only; omega) (by dsimp only; omega) (by dsimp only; omega)
        · rw [decide_eq_false_iff_not, not_not] at hhyphen
          refine Or.inl ⟨by dsimp only; omega, ?_, ?_⟩
          · rw [hmem _ (by dsimp only; omega)]
            rintro (hz | hz)
            · dsimp only at hz
              omega
            refine Boundaries.not_mem_listed (fun z' hz' => ?_) hz
            have := habove z' hz'
            dsimp only
            omega
          · refine hgap _ (by dsimp only; omega) fun z' hz' => ?_
            have := habove z' hz'
            dsimp only
            omega
      · exact List.isChain_singleton _
    · have huc := getLast_rangeWritten escape hu
      obtain ⟨hvhyphen, x', l', rfl, hvc⟩ := head_listWritten escape hv
      have hx' := habove x' List.mem_cons_self
      have hnext := h.tail.tail.lt_of_mem
      have hright : (v.c : Int) ∈ D := by
        have hl' : ∃ y' l'', l' = y' :: l'' := by
          cases l' with
          | nil => cases hv
          | cons y' l'' => exact ⟨y', l'', rfl⟩
        obtain ⟨y', l'', rfl⟩ := hl'
        have hy' := hnext y' List.mem_cons_self
        rw [hmem _ (by omega), h.tail.tail.mem_listed]
        exact Or.inr (Or.inl (by omega))
      have hbelow : ∀ z : Int, z < v.c → ∀ z' ∈ x' :: l', z < z' := by
        intro z hz z' hz'
        rcases List.mem_cons.mp hz' with rfl | hz'
        · omega
        have := hnext z' hz'
        omega
      refine ⟨by omega, hfirst _ (by omega) (by omega) (by omega), hright, fun hhyphen => ?_,
        fun _ => Or.inr ⟨by omega, fun z huz hzv => hgap z (by omega) (hbelow z hzv)⟩⟩
      rw [hvhyphen] at hhyphen
      cases hhyphen
  | case2 l hl =>
    rw [listWritten]
    · exact List.isChain_nil
    · exact hl

end Written

end Icu.Pattern
