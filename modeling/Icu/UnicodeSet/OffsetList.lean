import Mathlib.Tactic.Common
import Mathlib.Data.List.Basic

/-! # `OffsetList`

List of offsets from the current position from where to try matching a code point or a string, a
circular list of flags. The flag for an offset is as far from the start of the list; the start
itself stands for the largest offset. A read or write outside of the list has no result.
-/

namespace Icu

structure OffsetList where
  list : List Bool
  length : Nat
  start : Nat
  deriving DecidableEq, Repr

namespace OffsetList

variable {j i : Nat} {l : List Bool}

/-- The constructor and `setMaxLength(maxLength)`. -/
def setMaxLength (maxLength : Nat) : OffsetList :=
  { list := List.replicate (if maxLength ≤ 16 then 16 else maxLength) false
    length := 0
    start := 0 }

def isEmpty (o : OffsetList) : Bool := o.length == 0

/-- `int32_t i=start+offset; if(i>=capacity) { i-=capacity; }` -/
def index (o : OffsetList) (offset : Nat) : Nat :=
  let i := o.start + offset
  if i ≥ o.list.length then i - o.list.length else i

def containsOffset (o : OffsetList) (offset : Nat) : Option Bool := o.list[o.index offset]?

def addOffset (o : OffsetList) (offset : Nat) : Option OffsetList :=
  (o.list[o.index offset]?).map fun _ =>
    { o with list := o.list.set (o.index offset) true, length := o.length + 1 }

/-- Move the start to `i`, and remove the offset there. -/
def removeAt (o : OffsetList) (i : Nat) : OffsetList :=
  { list := o.list.set i false, length := o.length - 1, start := i }

def shift (o : OffsetList) (delta : Nat) : Option OffsetList :=
  let i := o.index delta
  (o.list[i]?).map fun flag => if flag then o.removeAt i else { o with start := i }

/-- `popMinimum()`: the searches in `list[start+1..capacity-1]` and in `list[0..start]`. -/
def popMinimum (o : OffsetList) : Option (Nat × OffsetList) :=
  match (o.list.drop (o.start + 1)).findIdx? id with
  | some k => some (k + 1, o.removeAt (o.start + 1 + k))
  | none => (o.list.findIdx? id).map fun i => (o.list.length - o.start + i, o.removeAt i)

/-! ## The offsets -/

structure Valid (o : OffsetList) : Prop where
  start_lt : o.start < o.list.length
  length_eq : o.length = o.list.count true

def Has (o : OffsetList) (offset : Nat) : Prop :=
  1 ≤ offset ∧ offset ≤ o.list.length ∧ o.list[o.index offset]? = some true

variable {o : OffsetList} {k : Nat}

theorem index_lt (h : o.Valid) (hk : k ≤ o.list.length) : o.index k < o.list.length := by
  have := h.start_lt
  rw [index]
  split <;> omega

theorem index_congr {o' : OffsetList} (hlength : o.list.length = o'.list.length)
    (hstart : o.start = o'.start) : o.index j = o'.index j := by
  rw [index, index, hlength, hstart]

theorem index_inj (h : o.Valid) (hj : 1 ≤ j) (hj' : j ≤ o.list.length) (hk : 1 ≤ k)
    (hk' : k ≤ o.list.length) (heq : o.index j = o.index k) : j = k := by
  have := h.start_lt
  rw [index, index] at heq
  split at heq <;> split at heq <;> omega

theorem valid_setMaxLength (maxLength : Nat) : (setMaxLength maxLength).Valid ∧
    (∀ k, ¬ (setMaxLength maxLength).Has k) ∧ maxLength ≤ (setMaxLength maxLength).list.length ∧
    16 ≤ (setMaxLength maxLength).list.length := by
  have hlength : (setMaxLength maxLength).list.length = if maxLength ≤ 16 then 16 else maxLength :=
    List.length_replicate
  refine ⟨⟨?_, ?_⟩, ?_, ?_, ?_⟩
  · rw [hlength, setMaxLength]
    dsimp only
    split <;> omega
  · rw [setMaxLength, List.count_replicate]
    rfl
  · rintro k ⟨-, -, hget⟩
    obtain ⟨hlt, htrue⟩ := List.getElem?_eq_some_iff.mp hget
    simp [setMaxLength] at htrue
  · rw [hlength]
    split <;> omega
  · rw [hlength]
    split <;> omega

theorem containsOffset_eq (h : o.Valid) (h1 : 1 ≤ k) (hk : k ≤ o.list.length) :
    ∃ flag, o.containsOffset k = some flag ∧ (flag = true ↔ o.Has k) := by
  have hlt := index_lt h hk
  refine ⟨o.list[o.index k], List.getElem?_eq_getElem hlt, ?_⟩
  rw [Has, List.getElem?_eq_getElem hlt, Option.some.injEq]
  exact ⟨fun hflag => ⟨h1, hk, hflag⟩, fun hhas => hhas.2.2⟩

theorem isEmpty_iff (h : o.Valid) : o.isEmpty = true ↔ ∀ k, ¬ o.Has k := by
  rw [isEmpty, beq_iff_eq, h.length_eq, List.count_eq_zero]
  constructor
  · rintro hno k ⟨-, -, hget⟩
    exact hno (List.mem_of_getElem? hget)
  intro hno hmem
  obtain ⟨i, hi, htrue⟩ := List.getElem_of_mem hmem
  have hstart := h.start_lt
  -- the offset whose flag is at `i`
  by_cases hlt : o.start < i
  · refine hno (i - o.start) ⟨by omega, by omega, ?_⟩
    have hindex : o.index (i - o.start) = i := by
      rw [index]
      split <;> omega
    rw [hindex, List.getElem?_eq_getElem hi, htrue]
  · refine hno (o.list.length - o.start + i) ⟨by omega, by omega, ?_⟩
    have hindex : o.index (o.list.length - o.start + i) = i := by
      rw [index]
      split <;> omega
    rw [hindex, List.getElem?_eq_getElem hi, htrue]

theorem count_set_true (hi : i < l.length) (hfalse : l[i] = false) :
    (l.set i true).count true = l.count true + 1 := by
  rw [List.count_set hi, hfalse]
  simp

theorem count_set_false (hi : i < l.length) (htrue : l[i] = true) :
    (l.set i false).count true = l.count true - 1 := by
  rw [List.count_set hi, htrue]
  simp

theorem addOffset_eq (h : o.Valid) (h1 : 1 ≤ k) (hk : k ≤ o.list.length) (hno : ¬ o.Has k) :
    ∃ o', o.addOffset k = some o' ∧ o'.Valid ∧ o'.list.length = o.list.length ∧
      ∀ j, o'.Has j ↔ o.Has j ∨ j = k := by
  have hlt := index_lt h hk
  have hfalse : o.list[o.index k] = false := by
    rw [← Bool.not_eq_true]
    intro htrue
    exact hno ⟨h1, hk, by rw [List.getElem?_eq_getElem hlt, htrue]⟩
  set o' : OffsetList := { o with list := o.list.set (o.index k) true, length := o.length + 1 }
  have hlength : o'.list.length = o.list.length := List.length_set
  refine ⟨o', ?_, ⟨?_, ?_⟩, hlength, fun j => ?_⟩
  · rw [addOffset, List.getElem?_eq_getElem hlt]
    rfl
  · rw [hlength]
    exact h.start_lt
  · change o.length + 1 = (o.list.set (o.index k) true).count true
    rw [count_set_true hlt hfalse, h.length_eq]
  · have hindex : o'.index j = o.index j := index_congr hlength rfl
    rw [Has, Has, hlength, hindex]
    change 1 ≤ j ∧ j ≤ o.list.length ∧ (o.list.set (o.index k) true)[o.index j]? = some true ↔ _
    constructor
    · rintro ⟨hj1, hj, hget⟩
      by_cases heq : o.index k = o.index j
      · exact .inr (index_inj h hj1 hj h1 hk heq.symm)
      rw [List.getElem?_set_ne heq] at hget
      exact .inl ⟨hj1, hj, hget⟩
    rintro (⟨hj1, hj, hget⟩ | rfl)
    · refine ⟨hj1, hj, ?_⟩
      by_cases heq : o.index k = o.index j
      · rw [← heq, List.getElem?_set_self hlt]
      · rw [List.getElem?_set_ne heq, hget]
    · exact ⟨h1, hk, List.getElem?_set_self hlt⟩

theorem has_moved (h : o.Valid) {d length : Nat} (h1 : 1 ≤ d) (hd : d ≤ o.list.length)
    (hleast : ∀ k, o.Has k → d ≤ k) {j : Nat} :
    Has ⟨o.list.set (o.index d) false, length, o.index d⟩ j ↔ 1 ≤ j ∧ o.Has (j + d) := by
  have hstart := h.start_lt
  have hlt := index_lt h hd
  set o' : OffsetList := ⟨o.list.set (o.index d) false, length, o.index d⟩ with ho'
  have hlength : o'.list.length = o.list.length := List.length_set
  by_cases hwrap : j + d ≤ o.list.length
  · have hindex : o'.index j = o.index (j + d) := by
      rw [index, index, hlength, ho', index]
      dsimp only
      split_ifs <;> omega
    rw [Has, Has, hlength, hindex]
    constructor
    · rintro ⟨hj1, -, hget⟩
      refine ⟨hj1, by omega, hwrap, ?_⟩
      have hne : o.index d ≠ o.index (j + d) := by
        intro heq
        have := index_inj h h1 hd (by omega) hwrap heq
        omega
      rw [ho', List.getElem?_set_ne hne] at hget
      exact hget
    · rintro ⟨hj1, -, -, hget⟩
      refine ⟨hj1, by omega, ?_⟩
      have hne : o.index d ≠ o.index (j + d) := by
        intro heq
        have := index_inj h h1 hd (by omega) hwrap heq
        omega
      rw [ho', List.getElem?_set_ne hne]
      exact hget
  · constructor
    · rintro ⟨hj1, hj, hget⟩
      exfalso
      rw [hlength] at hj
      have hindex : o'.index j = o.index (j + d - o.list.length) := by
        rw [index, index, hlength, ho', index]
        dsimp only
        split_ifs <;> omega
      rw [hindex, ho'] at hget
      by_cases heq : o.index d = o.index (j + d - o.list.length)
      · rw [← heq, List.getElem?_set_self hlt] at hget
        cases hget
      rw [List.getElem?_set_ne heq] at hget
      have := hleast (j + d - o.list.length) ⟨by omega, by omega, hget⟩
      have hsame : j + d - o.list.length = d := by omega
      rw [hsame] at heq
      exact heq rfl
    · rintro ⟨-, -, hle, -⟩
      omega

theorem shift_eq (h : o.Valid) {d : Nat} (h1 : 1 ≤ d) (hd : d ≤ o.list.length)
    (hleast : ∀ k, o.Has k → d ≤ k) :
    ∃ o', o.shift d = some o' ∧ o'.Valid ∧ o'.list.length = o.list.length ∧
      ∀ j, o'.Has j ↔ 1 ≤ j ∧ o.Has (j + d) := by
  have hlt := index_lt h hd
  rw [shift, List.getElem?_eq_getElem hlt, Option.map_some]
  cases hflag : o.list[o.index d] with
  | true =>
    refine ⟨_, rfl, ⟨?_, ?_⟩, List.length_set, fun j => has_moved h h1 hd hleast⟩
    · rw [if_pos rfl, removeAt, List.length_set]
      exact hlt
    · rw [if_pos rfl, removeAt]
      rw [count_set_false hlt hflag, h.length_eq]
  | false =>
    have hset : o.list.set (o.index d) false = o.list := by
      rw [← hflag, List.set_getElem_self]
    have hmoved := fun j => @has_moved o h d o.length h1 hd hleast j
    rw [hset] at hmoved
    exact ⟨_, rfl, ⟨hlt, h.length_eq⟩, rfl, hmoved⟩

theorem popMinimum_eq (h : o.Valid) (hne : o.isEmpty = false) :
    ∃ d o', o.popMinimum = some (d, o') ∧ o.Has d ∧ (∀ k, o.Has k → d ≤ k) ∧ o'.Valid ∧
      o'.list.length = o.list.length ∧ ∀ j, o'.Has j ↔ 1 ≤ j ∧ o.Has (j + d) := by
  have hstart := h.start_lt
  -- it is enough that the search finds the least offset
  have hfound : ∀ d i, o.popMinimum = some (d, o.removeAt i) → o.index d = i → o.Has d →
      (∀ k, o.Has k → d ≤ k) →
      ∃ d o', o.popMinimum = some (d, o') ∧ o.Has d ∧ (∀ k, o.Has k → d ≤ k) ∧ o'.Valid ∧
        o'.list.length = o.list.length ∧ ∀ j, o'.Has j ↔ 1 ≤ j ∧ o.Has (j + d) := by
    rintro d i hpop rfl hhas hleast
    obtain ⟨h1, hd, hget⟩ := hhas
    obtain ⟨hlt, htrue⟩ := List.getElem?_eq_some_iff.mp hget
    refine ⟨d, _, hpop, ⟨h1, hd, hget⟩, hleast, ⟨?_, ?_⟩, List.length_set,
      fun j => has_moved h h1 hd hleast⟩
    · rw [removeAt, List.length_set]
      exact hlt
    · rw [removeAt]
      rw [count_set_false hlt htrue, h.length_eq]
  have hpop : o.popMinimum = match (o.list.drop (o.start + 1)).findIdx? id with
      | some k => some (k + 1, o.removeAt (o.start + 1 + k))
      | none => (o.list.findIdx? id).map fun i => (o.list.length - o.start + i, o.removeAt i) := rfl
  cases hfirst : (o.list.drop (o.start + 1)).findIdx? id with
  | some k =>
    rw [hfirst] at hpop
    rw [List.findIdx?_eq_some_iff_getElem] at hfirst
    obtain ⟨hlt, htrue, hbefore⟩ := hfirst
    rw [List.length_drop] at hlt
    rw [List.getElem_drop] at htrue
    refine hfound (k + 1) (o.start + 1 + k) hpop ?_ ⟨by omega, by omega, ?_⟩ ?_
    · rw [index, if_neg (by omega)]
      omega
    · rw [index, if_neg (by omega), show o.start + (k + 1) = o.start + 1 + k by omega,
        List.getElem?_eq_getElem (by omega)]
      exact congrArg some htrue
    · rintro j ⟨hj1, hj, hget⟩
      by_contra hlt'
      have hfalse := hbefore (j - 1) (by omega)
      rw [List.getElem_drop] at hfalse
      rw [index, if_neg (by omega), show o.start + j = o.start + 1 + (j - 1) by omega,
        List.getElem?_eq_getElem (by omega), Option.some.injEq] at hget
      exact hfalse hget
  | none =>
    rw [hfirst] at hpop
    rw [List.findIdx?_eq_none_iff] at hfirst
    have hmem : true ∈ o.list := by
      rw [← List.count_pos_iff, ← h.length_eq]
      rw [isEmpty, beq_eq_false_iff_ne] at hne
      omega
    cases hsecond : o.list.findIdx? id with
    | none =>
      rw [List.findIdx?_eq_none_iff] at hsecond
      exact absurd (hsecond true hmem) (by simp)
    | some i =>
      rw [hsecond, Option.map_some] at hpop
      rw [List.findIdx?_eq_some_iff_getElem] at hsecond
      obtain ⟨hlt, htrue, hbefore⟩ := hsecond
      -- the flags behind the start are not set
      have hbehind : ∀ i (hi : i < o.list.length), o.start < i → o.list[i] = false := by
        intro i hi hgt
        apply hfirst
        rw [List.mem_iff_getElem]
        refine ⟨i - (o.start + 1), by rw [List.length_drop]; omega, ?_⟩
        rw [List.getElem_drop]
        congr 1
        omega
      have hile : i ≤ o.start := by
        by_contra hgt
        have := hbehind i hlt (by omega)
        rw [this] at htrue
        cases htrue
      refine hfound (o.list.length - o.start + i) i hpop ?_ ⟨by omega, by omega, ?_⟩ ?_
      · rw [index, if_pos (by omega)]
        omega
      · rw [index, if_pos (by omega), show o.start + (o.list.length - o.start + i) - o.list.length =
          i
          by omega, List.getElem?_eq_getElem hlt]
        exact congrArg some htrue
      · rintro j ⟨hj1, hj, hget⟩
        rw [index] at hget
        split at hget
        · obtain ⟨hlt', htrue'⟩ := List.getElem?_eq_some_iff.mp hget
          by_contra hless
          exact hbefore (o.start + j - o.list.length) (by omega) htrue'
        · obtain ⟨hlt', htrue'⟩ := List.getElem?_eq_some_iff.mp hget
          rw [hbehind _ hlt' (by omega)] at htrue'
          cases htrue'

end OffsetList

end Icu
